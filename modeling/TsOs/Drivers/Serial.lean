import TsOs.Lib.Numbers

/-!
# Transfer of a file over the serial line

The sender `tx_file.sh` writes the length of the file as a decimal numeral, a zero
byte, and the file. `serial_file_transfer` reads the header into a local buffer and
takes the file in chunks that leave one byte of the buffer for a terminator.

## Implementation notes

The bytes that the port will deliver are a list; reading from an empty line waits for
ever, which is no result. The local array is a memory of its own, and a store outside
of its bytes has no result either. Messages go to the console, in order.
-/

namespace TsOs.Serial
open ByteMemory

/-- `BUF_SIZE`. -/
def bufSize : Nat := 256

/-- The output of `printl`, `printstr` and `print_hex`. -/
inductive Message where
  | line (s : String)
  | text (s : String)
  | hex (n : Nat)
  deriving DecidableEq

/-- The line, the memory and what has been printed. -/
structure Port where
  input : List UInt8
  mem : Mem
  printed : List Message

/-- `buf[i] = c` for the local array. -/
def putChar (buf : Mem) (i : Nat) (c : UInt8) : Option Mem :=
  if i < bufSize then some (store8 buf i c) else none

/-- The terminator at the end of `read_until` and `read_bytes`: the buffer, `rx_cnt` and the
bytes still to come. -/
def terminate (buf : Mem) (rxCnt : Nat) (input : List UInt8) : Option (Mem × Nat × List UInt8) :=
  (putChar buf rxCnt 0).map fun buf => (buf, rxCnt, input)

/-- `read_until`, from the round with `rx_cnt` characters in the buffer on. -/
def readUntil (size : Nat) (endChar : UInt8) (buf : Mem) (rxCnt : Nat) (input : List UInt8) :
    Option (Mem × Nat × List UInt8) :=
  if rxCnt = size - 1 then terminate buf rxCnt input
  else
    match input with
    | [] => none
    | c :: input => (putChar buf rxCnt c).bind fun buf =>
        if c = endChar then terminate buf (rxCnt + 1) input
        else readUntil size endChar buf (rxCnt + 1) input

/-- `read_bytes`, from the round with `rx_cnt` characters in the buffer on. -/
def readBytes (size total : Nat) (buf : Mem) (rxCnt : Nat) (input : List UInt8) :
    Option (Mem × Nat × List UInt8) :=
  if rxCnt = total ∨ rxCnt = size - 1 then terminate buf rxCnt input
  else
    match input with
    | [] => none
    | c :: input => (putChar buf rxCnt c).bind fun buf => readBytes size total buf (rxCnt + 1) input

/-- `memcpy` out of a buffer: the characters from `src[i]` on go to `dst`. -/
def memcpy (src : Mem) : Nat → Mem → Nat → Nat → Mem
  | 0, mem, _, _ => mem
  | n + 1, mem, i, dst => memcpy src n (store8 mem dst (src i)) (i + 1) (u32 (dst + 1))

/-- The loop of `serial_file_transfer`: `rx_total` and the state at its end. -/
def transferLoop (memAddr expectedBytes : Nat) : Nat → Port → Mem → Nat → Option (Nat × Port)
  | 0, _, _, _ => none
  | n + 1, p, buf, rxTotal =>
      if rxTotal < expectedBytes then do
        let (buf, rxCnt, input) ← readBytes bufSize (sub32 expectedBytes rxTotal) buf 0 p.input
        let mem := memcpy buf rxCnt p.mem 0 (u32 (memAddr + rxTotal))
        transferLoop memAddr expectedBytes n { p with input := input, mem := mem } buf
          (u32 (rxTotal + rxCnt))
      else some (rxTotal, p)

/-- Print messages. -/
def Port.print (p : Port) (ms : List Message) : Port := { p with printed := p.printed ++ ms }

/-- `serial_file_transfer`, with the contents of the local array when it starts. -/
def serialFileTransfer (memAddr : Nat) (buffer : Mem) (p : Port) : Option (Nat × Port) := do
  let p := p.print [.line "start to transfer file"]
  let (buffer, _, input) ← readUntil bufSize 0 buffer 0 p.input
  let header ← cString buffer bufSize 0
  let expectedBytes := atoi header 10
  let p := { p with input := input }.print [.text "expected ", .hex expectedBytes, .line " bytes"]
  let (rxTotal, p) ← transferLoop memAddr expectedBytes (expectedBytes + 1) p buffer 0
  return (rxTotal, p.print [.text "recieved ", .hex rxTotal, .line " bytes"])

/-! ## The sender -/

/-- What `tx_file.sh` sends for a file. -/
def txFile (f : List UInt8) : List UInt8 := decimal f.length ++ 0 :: f

variable {b : Mem} {r i : Nat} {cs rest : List UInt8}

theorem putChar_eq (h : r < bufSize) (c : UInt8) :
    putChar b r c = some (store8 b r c) := if_pos h

/-- A header that fits is read up to its zero byte, which is stored too. -/
theorem readUntil_spec (hcs : ∀ c ∈ cs, c ≠ 0) (hfit : r + cs.length + 1 < bufSize) :
    ∃ b', readUntil bufSize 0 b r (cs ++ 0 :: rest) =
        some (b', r + cs.length + 1, rest) ∧
      (∀ k < r, b' k = b k) ∧ Holds b' r cs ∧ b' (r + cs.length) = 0 := by
  have hroom : r ≠ bufSize - 1 := by omega
  induction cs generalizing b r with
  | nil =>
      rw [List.nil_append, readUntil, if_neg hroom]
      simp only [putChar_eq (show r < bufSize by omega), Option.bind_some, if_true, terminate]
      rw [putChar_eq (by simpa using hfit)]
      refine ⟨_, rfl, fun k hk => ?_, fun j hj => absurd hj (by simp), ?_⟩
      · rw [store8_of_ne _ _ _ (by omega), store8_of_ne _ _ _ (by omega)]
      · rw [List.length_nil, store8_of_ne _ _ _ (by omega)]
        exact store8_same _ _ _
  | cons c cs ih =>
      have hlen : (c :: cs).length = cs.length + 1 := rfl
      obtain ⟨b', hread, hkeep, hbuf, hend⟩ := ih (b := store8 b r c) (r := r + 1)
        (fun d hd => hcs d (by simp [hd])) (by omega) (by omega)
      refine ⟨b', ?_, fun k hk => ?_, holds_cons ?_ hbuf, ?_⟩
      · rw [List.cons_append, readUntil, if_neg hroom]
        simp only [putChar_eq (show r < bufSize by omega), Option.bind_some,
          if_neg (hcs c List.mem_cons_self)]
        rw [hread, hlen, show r + 1 + cs.length + 1 = r + (cs.length + 1) + 1 by omega]
      · rw [hkeep k (by omega), store8_of_ne _ _ _ (by omega)]
      · rw [hkeep r (by omega), store8_same]
      · rwa [hlen, show r + (cs.length + 1) = r + 1 + cs.length by omega]

/-- A chunk is as long as the rest of the file and the buffer allow. -/
theorem readBytes_spec {total : Nat} (hlen : r + cs.length = min total (bufSize - 1)) :
    ∃ b', readBytes bufSize total b r (cs ++ rest) = some (b', r + cs.length, rest) ∧
      (∀ k < r, b' k = b k) ∧ Holds b' r cs := by
  have hsize : min total (bufSize - 1) < bufSize := by
    have : 0 < bufSize := by decide
    omega
  induction cs generalizing b r with
  | nil =>
      have hstop : r = total ∨ r = bufSize - 1 := by
        simp only [List.length_nil] at hlen
        omega
      rw [List.nil_append, readBytes.eq_def, if_pos hstop, terminate, putChar_eq (by simp at hlen; omega)]
      exact ⟨_, rfl, fun k hk => store8_of_ne _ _ _ (by omega), fun j hj => absurd hj (by simp)⟩
  | cons c cs ih =>
      have hlen' : (c :: cs).length = cs.length + 1 := rfl
      have hgo : ¬(r = total ∨ r = bufSize - 1) := by omega
      obtain ⟨b', hread, hkeep, hbuf⟩ := ih (b := store8 b r c) (r := r + 1) (by omega)
      refine ⟨b', ?_, fun k hk => ?_, holds_cons ?_ hbuf⟩
      · rw [List.cons_append, readBytes, if_neg hgo]
        simp only [putChar_eq (show r < bufSize by omega), Option.bind_some]
        rw [hread, hlen', show r + 1 + cs.length = r + (cs.length + 1) by omega]
      · rw [hkeep k (by omega), store8_of_ne _ _ _ (by omega)]
      · rw [hkeep r (by omega), store8_same]

/-! ## The memory -/

/-- The bytes stand in memory from `a` on, with addresses that wrap, and nothing else has
changed. -/
structure Written (m m' : Mem) (a : Nat) (cs : List UInt8) : Prop where
  bytes : ∀ j (h : j < cs.length), m' (u32 (a + j)) = cs[j]
  frame : ∀ x, (∀ j < cs.length, x ≠ u32 (a + j)) → m' x = m x

/-- Addresses of a range shorter than memory are different. -/
theorem u32_add_inj {a j k : Nat} (hj : j < 2 ^ 32) (hk : k < 2 ^ 32) (h : u32 (a + j) = u32 (a + k)) :
    j = k := by
  unfold u32 at h
  omega

theorem Written.trans {m m₁ m₂ : Mem} {a : Nat} {ds : List UInt8} (h : Written m m₁ a cs)
    (h' : Written m₁ m₂ (a + cs.length) ds) (hlen : cs.length + ds.length ≤ 2 ^ 32) :
    Written m m₂ a (cs ++ ds) := by
  constructor
  · intro j hj
    rw [List.length_append] at hj
    by_cases hlow : j < cs.length
    · rw [List.getElem_append_left hlow, ← h.bytes j hlow]
      apply h'.frame
      intro k hk heq
      rw [Nat.add_assoc] at heq
      have := u32_add_inj (by omega) (by omega) heq
      omega
    · rw [List.getElem_append_right (by omega), ← h'.bytes (j - cs.length) (by omega)]
      congr 2
      omega
  · intro x hx
    rw [h'.frame x fun k hk => ?_, h.frame x fun k hk => hx k (by simp; omega)]
    rw [Nat.add_assoc]
    exact hx (cs.length + k) (by simp; omega)

/-- `memcpy` writes the characters that stand in the buffer. -/
theorem memcpy_written (hb : Holds b i cs) (hlen : cs.length ≤ 2 ^ 32) (m : Mem) (dst : Nat) :
    Written m (memcpy b cs.length m i (u32 dst)) dst cs := by
  induction cs generalizing m i dst with
  | nil => exact ⟨fun j hj => absurd hj (by simp), fun x _ => rfl⟩
  | cons c cs ih =>
      have hrest := ih hb.tail (by simp at hlen; omega) (store8 m (u32 dst) c) (dst + 1)
      have hnext : u32 (u32 dst + 1) = u32 (dst + 1) := by
        unfold u32
        omega
      have hone : Written m (store8 m (u32 dst) c) dst [c] := by
        constructor
        · intro j hj
          obtain rfl : j = 0 := by simpa using hj
          exact store8_same _ _ _
        · intro x hx
          exact store8_of_ne _ _ _ (hx 0 (by simp))
      rw [List.length_cons, memcpy, hb.head, hnext]
      exact hone.trans hrest (by simpa [Nat.add_comm] using hlen)

/-! ## The file -/

/-- The loop takes the rest `cs` of a file in. -/
theorem transferLoop_spec {a n t : Nat} {p : Port} (hfuel : cs.length < n)
    (hlen : t + cs.length < 2 ^ 32) (hinput : p.input = cs ++ rest) :
    ∃ p', transferLoop a (t + cs.length) n p b t = some (t + cs.length, p') ∧ p'.input = rest ∧
      p'.printed = p.printed ∧ Written p.mem p'.mem (a + t) cs := by
  induction n generalizing cs t p b with
  | zero => omega
  | succ n ih =>
      rw [transferLoop]
      by_cases hdone : cs = []
      · subst hdone
        rw [if_neg (by simp)]
        exact ⟨p, rfl, hinput, rfl, fun j hj => absurd hj (by simp), fun x _ => rfl⟩
      · have hpos : 0 < cs.length := List.length_pos_iff.mpr hdone
        have hsub : sub32 (t + cs.length) t = cs.length := by
          rw [sub32_of_le (by omega) hlen]
          omega
        -- one chunk, then the rest
        obtain ⟨chunk, tail, rfl, hchunk⟩ : ∃ chunk tail, cs = chunk ++ tail ∧
            chunk.length = min cs.length (bufSize - 1) :=
          ⟨cs.take (bufSize - 1), cs.drop (bufSize - 1), (List.take_append_drop _ _).symm,
            by rw [List.length_take, Nat.min_comm]⟩
        have hone : 0 < bufSize - 1 := by decide
        rw [List.length_append] at *
        rw [List.append_assoc] at hinput
        obtain ⟨b', hread, -, hholds⟩ : ∃ b', readBytes bufSize (chunk.length + tail.length) b 0
            (chunk ++ (tail ++ rest)) = some (b', 0 + chunk.length, tail ++ rest) ∧
            (∀ k < 0, b' k = b k) ∧ Holds b' 0 chunk := readBytes_spec (by omega)
        rw [Nat.zero_add] at hread
        have hmem := memcpy_written hholds (by omega) p.mem (a + t)
        have hnext : u32 (t + chunk.length) = t + chunk.length := u32_of_lt (by omega)
        obtain ⟨p', hloop, hrest, hprinted, hwritten⟩ := ih (b := b') (t := t + chunk.length)
          (p := { p with
            input := tail ++ rest
            mem := memcpy b' chunk.length p.mem 0 (u32 (a + t)) }) (by omega) (by omega) rfl
        refine ⟨p', ?_, hrest, hprinted, hmem.trans ?_ (by omega)⟩
        · rw [if_pos (by omega), hsub, hinput, hread]
          simp only [Option.bind_eq_bind, Option.bind_some]
          rw [hnext, ← Nat.add_assoc]
          exact hloop
        · rw [Nat.add_assoc]
          exact hwritten

/-- A file of any length below `2 ^ 32` arrives in memory at `a`, whatever follows it on the line,
and nothing else changes. -/
theorem serialFileTransfer_txFile (a : Nat) (buffer mem : Mem) (printed : List Message)
    (f rest : List UInt8) (hf : f.length < 2 ^ 32) :
    ∃ p, serialFileTransfer a buffer ⟨txFile f ++ rest, mem, printed⟩ = some (f.length, p) ∧
      p.input = rest ∧ Written mem p.mem a f := by
  have hlen := decimal_length_le hf
  have hsize : bufSize = 256 := rfl
  obtain ⟨b, hheader, -, hholds, hend⟩ : ∃ b, readUntil bufSize 0 buffer 0
      (decimal f.length ++ 0 :: (f ++ rest)) = some (b, 0 + (decimal f.length).length + 1, f ++ rest) ∧
      (∀ k < 0, b k = buffer k) ∧ Holds b 0 (decimal f.length) ∧
      b (0 + (decimal f.length).length) = 0 :=
    readUntil_spec (fun c hc => decimal_ne_zero hc) (by omega)
  have hstring : cString b bufSize 0 = some (decimal f.length) :=
    cString_eq (fun c hc => decimal_ne_zero hc) hholds hend (by omega)
  let p₀ : Port := Port.print ⟨f ++ rest, mem, printed ++ [.line "start to transfer file"]⟩
    [.text "expected ", .hex f.length, .line " bytes"]
  obtain ⟨p, hloop, hinput, -, hwritten⟩ := transferLoop_spec (a := a) (n := f.length + 1) (t := 0)
    (p := p₀) (b := b) (Nat.lt_succ_self f.length) (by omega) rfl
  rw [Nat.zero_add] at hloop
  refine ⟨p.print [.text "recieved ", .hex f.length, .line " bytes"], ?_, hinput, hwritten⟩
  have hline : txFile f ++ rest = decimal f.length ++ 0 :: (f ++ rest) := by
    rw [txFile, List.append_assoc, List.cons_append]
  simp only [serialFileTransfer, Port.print, hline]
  rw [hheader]
  simp only [Option.bind_eq_bind, Option.bind_some, hstring, atoi_decimal hf]
  change (transferLoop a f.length (f.length + 1) p₀ b 0).bind _ = _
  rw [hloop]
  rfl

/-- One chunk and one byte, sent to the address that the shell uses. -/
theorem serialFileTransfer_sample : ∃ p, serialFileTransfer 0x50000 (fun _ => 0)
      ⟨txFile (List.replicate 256 7), fun _ => 0, []⟩ = some (256, p) ∧
    p.input = [] ∧ p.mem 0x50000 = 7 ∧ p.mem 0x500FF = 7 ∧ p.mem 0x50100 = 0 := by
  obtain ⟨p, hrun, hinput, hwritten⟩ := serialFileTransfer_txFile 0x50000 (fun _ => 0) (fun _ => 0) []
    (List.replicate 256 7) [] (by rw [List.length_replicate]; decide)
  rw [List.append_nil, List.length_replicate] at hrun
  refine ⟨p, hrun, hinput, ?_, ?_, ?_⟩
  · exact (hwritten.bytes 0 (by rw [List.length_replicate]; decide)).trans (List.getElem_replicate ..)
  · exact (hwritten.bytes 255 (by rw [List.length_replicate]; decide)).trans (List.getElem_replicate ..)
  · refine hwritten.frame _ fun j hj => ?_
    rw [List.length_replicate] at hj
    rw [u32_of_lt (by omega)]
    omega

end TsOs.Serial
