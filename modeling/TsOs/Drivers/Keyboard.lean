import Mathlib.Tactic

/-!
# The keyboard handler

`kb_handler` takes one scan code an interrupt. A key is one byte, or a sequence that
starts with `0xE0` or `0xE1`; the bytes of an unfinished sequence are kept in
`scancode_history` and counted by `scancode_depth`. The history is never erased.
Every finished sequence is passed to the shell as one key code.
-/

namespace TsOs.Keyboard

/-- `KEY_CODE`. -/
inductive KeyCode where
  | empty | space | exclam | doubleQuote | hash | dollar | percent | and | singleQuote | leftPar
  | rightPar | wildcard | add | comma | hyphen | dot | slash | zero | one | two | three | four
  | five | six | seven | eight | nine | colon | semicolon | less | equ | larger | ques | at | a
  | b | c | d | e | f | g | h | i | j | k | l | m | n | o | p | q | r | s | t | u | v | w | x | y
  | z | leftBracket | backSlash | rightBracket | caret | underscore | acute | leftCurl | pipe
  | rightCurl | tilde | esc | f1 | f2 | f3 | f4 | f5 | f6 | f7 | f8 | f9 | f10 | f11 | f12
  | numlock | scroll | insert | del | backspace | tab | caps | enter | shift | ctrl | alt
  | upRelease | leftRelease | downRelease | rightRelease | printscr | printscrRelease | pause
  deriving DecidableEq

/-- `keycode_tbl`, scan code set 1. -/
def keycodeTbl : List KeyCode :=
  [.empty, .empty, .one, .two, .three, .four, .five, .six, .seven, .eight, .nine, .zero, .hyphen,
  .equ, .backspace, .tab, .q, .w, .e, .r, .t, .y, .u, .i, .o, .p, .leftBracket, .rightBracket,
  .enter, .ctrl, .a, .s, .d, .f, .g, .h, .j, .k, .l, .semicolon, .singleQuote, .acute, .shift,
  .backSlash, .z, .x, .c, .v, .b, .n, .m, .comma, .dot, .slash, .shift, .wildcard, .alt, .space,
  .caps, .f1, .f2, .f3, .f4, .f5, .f6, .f7, .f8, .f9, .f10, .numlock, .scroll, .seven, .eight,
  .nine, .hyphen, .four, .five, .six, .add, .one, .two, .three, .zero, .dot, .f11, .f12]

/-- `scancode_history` and `scancode_depth`. -/
structure Kb where
  history : Nat → UInt8
  depth : Nat

/-- The end of `kb_handler`: the key code goes to the shell. -/
def report (k : Kb) (keyCode : KeyCode) : Kb × Option KeyCode :=
  (⟨k.history, 0⟩, some keyCode)

/-- The branch `_put_scan_history`. -/
def putScanHistory (k : Kb) (scanCode : UInt8) : Kb × Option KeyCode :=
  (⟨Function.update k.history k.depth scanCode, k.depth + 1⟩, none)

/-- `kb_handler` for a scan code: the new state and the key code for the shell, if there is one.
The case range of the source ends at the length of the table, which is one too far; there is no
result for that byte. -/
def kbHandler (k : Kb) (scanCode : UInt8) : Option (Kb × Option KeyCode) :=
  match k.depth with
  | 0 =>
      if scanCode.toNat ≤ keycodeTbl.length then keycodeTbl[scanCode.toNat]?.map (report k)
      else if scanCode = 0xE0 ∨ scanCode = 0xE1 then some (putScanHistory k scanCode)
      else some (report k .empty)
  | 1 =>
      if k.history 0 = 0xE1 then some (putScanHistory k scanCode)
      else if scanCode = 0xC8 then some (report k .upRelease)
      else if scanCode = 0xD0 then some (report k .downRelease)
      else if scanCode = 0x2A ∨ scanCode = 0xB7 then some (putScanHistory k scanCode)
      else some (report k .empty)
  | 2 => some (putScanHistory k scanCode)
  | 3 =>
      if k.history 0 = 0xE0 ∧ k.history 1 = 0x2A then some (report k .printscr)
      else if k.history 0 = 0xE0 ∧ k.history 1 = 0xB7 then some (report k .printscrRelease)
      else some (putScanHistory k scanCode)
  | 4 => some (putScanHistory k scanCode)
  | 5 => some (report k .pause)
  | _ => some (report k .empty)

/-- One interrupt for each byte, with the calls of `shell_get_key_code` in order. -/
def feed : Kb → List UInt8 → Option (Kb × List KeyCode)
  | k, [] => some (k, [])
  | k, b :: bs => (kbHandler k b).bind fun (k, key) =>
      (feed k bs).map fun (k, keys) => (k, key.toList ++ keys)

/-! ## Scan-code sequences -/

/-- A byte that is a key by itself and has an entry in the table or none at all. -/
def IsSingle (b : UInt8) : Prop := b ≠ 0xE0 ∧ b ≠ 0xE1 ∧ b.toNat ≠ keycodeTbl.length

/-- The second byte of a sequence of two. -/
def IsExtended (x : UInt8) : Prop := x ≠ 0x2A ∧ x ≠ 0xB7

/-- The sequences that a keyboard sends. -/
inductive ScanSequence where
  | single (b : UInt8) (h : IsSingle b)
  | extended (x : UInt8) (h : IsExtended x)
  | printscr (y z : UInt8)
  | printscrRelease (y z : UInt8)
  | pause (v w x y z : UInt8)

namespace ScanSequence

def bytes : ScanSequence → List UInt8
  | single b _ => [b]
  | extended x _ => [0xE0, x]
  | printscr y z => [0xE0, 0x2A, y, z]
  | printscrRelease y z => [0xE0, 0xB7, y, z]
  | pause v w x y z => [0xE1, v, w, x, y, z]

/-- The key that a sequence stands for. -/
def key : ScanSequence → KeyCode
  | single b _ => keycodeTbl[b.toNat]?.getD .empty
  | extended x _ => if x = 0xC8 then .upRelease else if x = 0xD0 then .downRelease else .empty
  | printscr _ _ => .printscr
  | printscrRelease _ _ => .printscrRelease
  | pause _ _ _ _ _ => .pause

end ScanSequence

variable {k k' : Kb} {b x : UInt8} {bs bs' : List UInt8} {keys keys' : List KeyCode}

theorem feed_cons {key : Option KeyCode} (h : kbHandler k b = some (k', key)) :
    feed k (b :: bs) = (feed k' bs).map fun r => (r.1, key.toList ++ r.2) := by
  rw [feed, h]
  rfl

theorem feed_append (h : feed k bs = some (k', keys)) :
    feed k (bs ++ bs') = (feed k' bs').map fun r => (r.1, keys ++ r.2) := by
  induction bs generalizing k keys with
  | nil =>
      obtain ⟨rfl, rfl⟩ : k = k' ∧ [] = keys := by simpa [feed] using h
      simp
  | cons b bs ih =>
      rw [feed] at h
      obtain ⟨⟨k₁, key⟩, hb, h⟩ := Option.bind_eq_some_iff.mp h
      obtain ⟨⟨k₂, rest⟩, hrest, h⟩ := Option.map_eq_some_iff.mp h
      obtain ⟨rfl, rfl⟩ : k₂ = k' ∧ key.toList ++ rest = keys := by simpa using h
      rw [List.cons_append, feed_cons hb, ih hrest, Option.map_map]
      congr 1
      funext r
      simp

/-! ## One sequence -/

theorem kbHandler_single (h : IsSingle b) (history : Nat → UInt8) : kbHandler ⟨history, 0⟩ b =
    some (⟨history, 0⟩, some (keycodeTbl[b.toNat]?.getD .empty)) := by
  obtain ⟨h0, h1, hlen⟩ := h
  simp only [kbHandler]
  split
  next hle =>
    have hlt : b.toNat < keycodeTbl.length := by omega
    rw [List.getElem?_eq_getElem hlt]
    rfl
  next hgt =>
    rw [if_neg (by simp [h0, h1]), List.getElem?_eq_none (by omega)]
    rfl

/-- The first byte of a longer sequence is kept. -/
theorem kbHandler_start (h : b = 0xE0 ∨ b = 0xE1) (history : Nat → UInt8) :
    kbHandler ⟨history, 0⟩ b = some (⟨Function.update history 0 b, 1⟩, none) := by
  have hlarge : ¬b.toNat ≤ keycodeTbl.length := by
    rcases h with rfl | rfl
    · decide
    · decide
  simp only [kbHandler, if_neg hlarge, if_pos h]
  rfl

theorem kbHandler_extended (h : IsExtended x) {history : Nat → UInt8} (h0 : history 0 = 0xE0) :
    kbHandler ⟨history, 1⟩ x = some (⟨history, 0⟩,
      some (if x = 0xC8 then .upRelease else if x = 0xD0 then .downRelease else .empty)) := by
  simp only [kbHandler, h0]
  rw [if_neg (by decide)]
  by_cases hup : x = 0xC8
  · simp [hup, report]
  · by_cases hdown : x = 0xD0
    · simp [hdown, report]
    · rw [if_neg hup, if_neg hdown, if_neg (by simp [h.1, h.2]), if_neg hup, if_neg hdown]
      rfl

/-- Whatever the history holds, a sequence gives its key and leaves the depth at 0. -/
theorem feed_sequence (q : ScanSequence) (history : Nat → UInt8) :
    ∃ history', feed ⟨history, 0⟩ q.bytes = some (⟨history', 0⟩, [q.key]) := by
  cases q with
  | single b h =>
      refine ⟨history, ?_⟩
      rw [ScanSequence.bytes, feed_cons (kbHandler_single h history)]
      rfl
  | extended x h =>
      refine ⟨Function.update history 0 0xE0, ?_⟩
      rw [ScanSequence.bytes, feed_cons (kbHandler_start (Or.inl rfl) history),
        feed_cons (kbHandler_extended h (Function.update_self ..))]
      rfl
  | printscr y z =>
      rw [ScanSequence.bytes, feed_cons (kbHandler_start (Or.inl rfl) history)]
      exact ⟨_, rfl⟩
  | printscrRelease y z =>
      rw [ScanSequence.bytes, feed_cons (kbHandler_start (Or.inl rfl) history)]
      exact ⟨_, rfl⟩
  | pause v w x y z =>
      rw [ScanSequence.bytes, feed_cons (kbHandler_start (Or.inr rfl) history)]
      exact ⟨_, rfl⟩

/-! ## Streams -/

theorem feed_sequences (qs : List ScanSequence) (history : Nat → UInt8) :
    ∃ history', feed ⟨history, 0⟩ (qs.flatMap ScanSequence.bytes) =
      some (⟨history', 0⟩, qs.map ScanSequence.key) := by
  induction qs generalizing history with
  | nil => exact ⟨history, rfl⟩
  | cons q qs ih =>
      obtain ⟨history₁, hfirst⟩ := feed_sequence q history
      obtain ⟨history₂, hrest⟩ := ih history₁
      refine ⟨history₂, ?_⟩
      rw [List.flatMap_cons, feed_append hfirst, hrest]
      rfl

/-- After each sequence of a stream the shell has got one key for each sequence so far, and the
handler is ready for the next one. -/
theorem kbHandler_framing (qs : List ScanSequence) (history : Nat → UInt8) :
    ∀ n, ∃ k, feed ⟨history, 0⟩ ((qs.take n).flatMap ScanSequence.bytes) =
      some (k, (qs.take n).map ScanSequence.key) ∧ k.depth = 0 := by
  intro n
  obtain ⟨history', h⟩ := feed_sequences (qs.take n) history
  exact ⟨_, h, rfl⟩

/-! ## Accesses to the tables -/

/-- The indices at which `kb_handler` reads `keycode_tbl` for a scan code. -/
def tableReads (k : Kb) (scanCode : UInt8) : List Nat :=
  if k.depth = 0 ∧ scanCode.toNat ≤ keycodeTbl.length then [scanCode.toNat] else []

/-- The indices at which `kb_handler` reads or writes `scancode_history`, in order. -/
def historyAccesses (k : Kb) (scanCode : UInt8) : List Nat :=
  match k.depth with
  | 0 =>
      if scanCode.toNat ≤ keycodeTbl.length then []
      else if scanCode = 0xE0 ∨ scanCode = 0xE1 then [0]
      else []
  | 1 =>
      if k.history 0 = 0xE1 then [0, 1]
      else if scanCode = 0xC8 then [0]
      else if scanCode = 0xD0 then [0]
      else if scanCode = 0x2A ∨ scanCode = 0xB7 then [0, 1]
      else [0]
  | 2 => [2]
  | 3 =>
      -- the second comparison of `&&` is made only when the first one holds
      if k.history 0 = 0xE0 then
        if k.history 1 = 0x2A then [0, 1]
        else if k.history 1 = 0xB7 then [0, 1, 0, 1]
        else [0, 1, 0, 1, 3]
      else [0, 0, 3]
  | 4 => [4]
  | _ => []

/-- `P` holds of the state that each byte of a stream finds and of that byte. -/
def AtEach (P : Kb → UInt8 → Prop) : Kb → List UInt8 → Prop
  | _, [] => True
  | k, b :: bs => P k b ∧ ∀ r, kbHandler k b = some r → AtEach P r.1 bs

/-- Every access for one scan code is inside its table, and the depth is at most 5 before and
after it. -/
structure InRange (k : Kb) (scanCode : UInt8) : Prop where
  depth : k.depth ≤ 5
  table : ∀ i ∈ tableReads k scanCode, i < keycodeTbl.length
  history : ∀ i ∈ historyAccesses k scanCode, i < 6
  depth_after : ∀ r, kbHandler k scanCode = some r → r.1.depth ≤ 5

/-- The byte after the last one of the table, when it is read as a key of one byte. -/
def PastTable (k : Kb) (scanCode : UInt8) : Prop :=
  k.depth = 0 ∧ scanCode.toNat = keycodeTbl.length

theorem tableReads_lt_iff :
    (∀ i ∈ tableReads k b, i < keycodeTbl.length) ↔ ¬PastTable k b := by
  rw [tableReads, PastTable]
  split
  next h =>
    simp only [List.mem_singleton, forall_eq]
    omega
  next h =>
    simp only [List.not_mem_nil, IsEmpty.forall_iff, implies_true, true_iff]
    omega

/-- The bytes of an unfinished sequence are kept below the end of the history. -/
theorem historyAccesses_lt (k : Kb) (b : UInt8) : ∀ i ∈ historyAccesses k b, i < 6 := by
  have hlists : historyAccesses k b ∈
      [[], [0], [0, 1], [2], [0, 1, 0, 1], [0, 1, 0, 1, 3], [0, 0, 3], [4]] := by
    rw [historyAccesses]
    split <;> repeat' split
    all_goals simp
  have hall : ∀ l ∈ [[], [0], [0, 1], [2], [0, 1, 0, 1], [0, 1, 0, 1, 3], [0, 0, 3], [4]],
      ∀ i ∈ l, i < 6 := by decide
  exact hall _ hlists

/-- The handler ends a sequence or goes one byte further into it. -/
theorem kbHandler_depth {r : Kb × Option KeyCode} (h : kbHandler k b = some r) :
    r.1.depth = 0 ∨ r.1.depth = k.depth + 1 ∧ k.depth < 5 := by
  rw [kbHandler] at h
  split at h
  case h_1 hd =>
    split at h
    · obtain ⟨key, -, rfl⟩ := Option.map_eq_some_iff.mp h
      exact Or.inl rfl
    · split at h
      all_goals cases h
      · exact Or.inr ⟨rfl, by omega⟩
      · exact Or.inl rfl
  case h_2 hd | h_4 hd =>
    repeat' split at h
    all_goals cases h
    all_goals first | exact Or.inl rfl | exact Or.inr ⟨rfl, by omega⟩
  case h_3 hd | h_5 hd =>
    cases h
    exact Or.inr ⟨rfl, by omega⟩
  all_goals
    cases h
    exact Or.inl rfl

/-- The handler has a result exactly when it reads inside the table of key codes. -/
theorem kbHandler_eq_none_iff : kbHandler k b = none ↔ PastTable k b := by
  constructor
  · intro h
    rw [kbHandler] at h
    split at h
    case h_1 hd =>
      split at h
      next hle =>
        have hge := List.getElem?_eq_none_iff.mp (Option.map_eq_none_iff.mp h)
        exact ⟨hd, by omega⟩
      next => split at h <;> cases h
    all_goals
      repeat' split at h
      all_goals cases h
  · rintro ⟨hd, hb⟩
    rw [kbHandler]
    simp only [hd]
    rw [if_pos hb.le, List.getElem?_eq_none hb.ge]
    rfl

theorem inRange_iff (hk : k.depth ≤ 5) : InRange k b ↔ ¬PastTable k b := by
  constructor
  · intro h
    exact tableReads_lt_iff.mp h.table
  · intro h
    refine ⟨hk, tableReads_lt_iff.mpr h, historyAccesses_lt k b, fun r hr => ?_⟩
    have := kbHandler_depth hr
    omega

theorem AtEach.congr {P Q : Kb → UInt8 → Prop} (hPQ : ∀ k b, k.depth ≤ 5 → (P k b ↔ Q k b))
    (hk : k.depth ≤ 5) : AtEach P k bs ↔ AtEach Q k bs := by
  induction bs generalizing k with
  | nil => exact Iff.rfl
  | cons b bs ih =>
      refine and_congr (hPQ k b hk) (forall_congr' fun r => forall_congr' fun hr => ih ?_)
      have := kbHandler_depth hr
      omega

/-- A stream goes through the handler to its end exactly when no byte of it finds the entry past
the table. -/
theorem feed_isSome_iff : (feed k bs).isSome ↔ AtEach (fun k b => ¬PastTable k b) k bs := by
  induction bs generalizing k with
  | nil => simp [feed, AtEach]
  | cons b bs ih =>
      rw [AtEach, ← kbHandler_eq_none_iff, feed]
      cases hb : kbHandler k b with
      | none => simp
      | some r => simp [ih]

/-- Over any stream of bytes the handler stays inside its tables exactly as long as it does not
look up the byte one past the table of key codes. -/
theorem kbHandler_inRange_iff (h : k.depth = 0) (bs : List UInt8) :
    AtEach InRange k bs ↔ AtEach (fun k b => ¬PastTable k b) k bs :=
  AtEach.congr (fun _ _ hk => inRange_iff hk) (by omega)

/-- The handler at the start, with the history of the source. -/
def start : Kb := ⟨fun _ => 0, 0⟩

theorem kbHandler_inRange_iff_start :
    AtEach InRange start [0xE0, 0x56] ↔
      AtEach (fun k b => ¬PastTable k b) start [0xE0, 0x56] :=
  kbHandler_inRange_iff rfl [0xE0, 0x56]

/-- `0x56` is the key beside the left shift on a keyboard of 102 keys. The table ends at `0x55`. -/
theorem kbHandler_past_table : ¬AtEach InRange start [0x56] := by
  intro h
  have hread := h.1.table 0x56 (by decide)
  exact absurd hread (by decide)

end TsOs.Keyboard
