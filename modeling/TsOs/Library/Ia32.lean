import TsOs.Library.ByteMemory

/-!
# Stack code on IA-32

The instructions that entry stubs and context switches are made of: pushes and pops
of registers, of flags and of segment registers, moves, and calls of routines that keep
to the C calling convention. The memory is that of one address space.

`Stacked` says which words lie from an address on. `pushAll` is what the pushes of a
stub come to, `popAll` what its pops do.

## Implementation notes

The flags that an addition leaves are given by a function `alu`, on which no statement
depends. Descriptor tables and page tables are not looked at: segments are flat, and a
linear address is the place of its byte.
-/

namespace Ia32
open ByteMemory

abbrev Word := BitVec 32

/-- A byte for every linear address. -/
abbrev Memory := Word → UInt8

/-- The bytes from `a` on, which wrap around at the end of the address space. -/
def view (m : Memory) (a : Word) : Mem := fun i => m (a + BitVec.ofNat 32 i)

def readWord (m : Memory) (a : Word) : Word := BitVec.ofNat 32 (load32 (view m a) 0)

def writeWord (m : Memory) (a v : Word) : Memory := fun x =>
  if (x - a).toNat < 4 then UInt8.ofNat (v.toNat / 256 ^ (x - a).toNat) else m x

/-- The general registers, in the order in which `pusha` pushes them. -/
inductive Reg
  | eax | ecx | edx | ebx | esp | ebp | esi | edi
  deriving DecidableEq

inductive Seg
  | cs | ss | ds | es | fs | gs
  deriving DecidableEq

structure State where
  reg : Reg → Word
  seg : Seg → BitVec 16
  eip : Word
  eflags : Word
  cr3 : Word
  mem : Memory

/-- Where a pop puts its word. -/
inductive Dest
  | reg (r : Reg)
  | seg (g : Seg)
  | eflags
  | eip
  | skip
  deriving DecidableEq

namespace State

abbrev esp (s : State) : Word := s.reg .esp

def setReg (s : State) (r : Reg) (v : Word) : State := { s with reg := Function.update s.reg r v }

def setSeg (s : State) (g : Seg) (v : BitVec 16) : State := { s with seg := Function.update s.seg g v }

/-- The privilege level of the code that runs. -/
def cpl (s : State) : Nat := (s.seg .cs).toNat % 4

def push (s : State) (v : Word) : State :=
  { s with
    reg := Function.update s.reg .esp (s.esp - 4)
    mem := writeWord s.mem (s.esp - 4) v }

def put (s : State) (v : Word) : Dest → State
  | .reg r => s.setReg r v
  | .seg g => s.setSeg g (v.setWidth 16)
  | .eflags => { s with eflags := v }
  | .eip => { s with eip := v }
  | .skip => s

/-- The word that a pop takes. -/
def top (s : State) : Word := readWord s.mem s.esp

/-- The stack pointer behind the word that a pop takes. -/
def drop (s : State) : State := s.setReg .esp (s.esp + 4)

def popTo (s : State) (d : Dest) : State := s.drop.put s.top d

def pushAll (s : State) (ws : List Word) : State := ws.foldl push s

def popAll (s : State) (ds : List Dest) : State := ds.foldl popTo s

end State

/-- The instructions of the stubs, with word operands where nothing else is said. -/
inductive Instr
  | cli
  | push (r : Reg)
  | pushImm (v : Word)
  | pushSeg (g : Seg)
  | pusha
  | pushf
  | pop (r : Reg)
  | popSeg (g : Seg)
  | popa
  | popf
  | mov (d r : Reg)
  | movImm (d : Reg) (v : Word)
  /-- A move to the lower half of a register. -/
  | movLow (d : Reg) (v : BitVec 16)
  /-- A move from the lower half of a register. -/
  | movSeg (g : Seg) (r : Reg)
  | load (d base : Reg) (offset : Word)
  | loadAbs (d : Reg) (a : Word)
  | store (base : Reg) (offset : Word) (r : Reg)
  | storeAbs (a : Word) (r : Reg)
  | fromCr3 (d : Reg)
  | toCr3 (r : Reg)
  | addImm (d : Reg) (v : Word)
  | shlImm (d : Reg) (k : Nat)

/-- The interrupt flag. -/
def interruptFlag : Word := 0x200

def pushaWords (s : State) : List Word :=
  [s.reg .eax, s.reg .ecx, s.reg .edx, s.reg .ebx, s.esp, s.reg .ebp, s.reg .esi, s.reg .edi]

/-- `popa` does not load the stack pointer that `pusha` has pushed. -/
def popaDests : List Dest :=
  [.reg .edi, .reg .esi, .reg .ebp, .skip, .reg .ebx, .reg .edx, .reg .ecx, .reg .eax]

section Execution

variable (alu : State → Word)

def exec (s : State) : Instr → State
  | .cli => { s with eflags := s.eflags &&& ~~~interruptFlag }
  | .push r => s.push (s.reg r)
  | .pushImm v => s.push v
  | .pushSeg g => s.push ((s.seg g).setWidth 32)
  | .pusha => s.pushAll (pushaWords s)
  | .pushf => s.push s.eflags
  | .pop r => s.popTo (.reg r)
  | .popSeg g => s.popTo (.seg g)
  | .popa => s.popAll popaDests
  | .popf => s.popTo .eflags
  | .mov d r => s.setReg d (s.reg r)
  | .movImm d v => s.setReg d v
  | .movLow d v => s.setReg d ((s.reg d).extractLsb' 16 16 ++ v)
  | .movSeg g r => s.setSeg g ((s.reg r).setWidth 16)
  | .load d base offset => s.setReg d (readWord s.mem (s.reg base + offset))
  | .loadAbs d a => s.setReg d (readWord s.mem a)
  | .store base offset r => { s with mem := writeWord s.mem (s.reg base + offset) (s.reg r) }
  | .storeAbs a r => { s with mem := writeWord s.mem a (s.reg r) }
  | .fromCr3 d => s.setReg d s.cr3
  | .toCr3 r => { s with cr3 := s.reg r }
  | .addImm d v => { s.setReg d (s.reg d + v) with eflags := alu s }
  | .shlImm d k => { s.setReg d (s.reg d <<< k) with eflags := alu s }

/-- A sequence of instructions without jumps. -/
def run (s : State) (code : List Instr) : State := code.foldl (exec alu) s

end Execution

def ret (s : State) : State := s.popTo .eip

/-- A routine keeps to the calling convention in a call with `args` words of arguments on the stack:
it returns to the caller's stack, keeps the registers that belong to the caller, and above the
arguments it keeps `kept` words of the stack. -/
structure Cdecl (args kept : Nat) (f : State → State) (s : State) : Prop where
  esp : (f s).esp = s.esp
  ebx : (f s).reg .ebx = s.reg .ebx
  ebp : (f s).reg .ebp = s.reg .ebp
  esi : (f s).reg .esi = s.reg .esi
  edi : (f s).reg .edi = s.reg .edi
  seg : (f s).seg = s.seg
  cr3 : (f s).cr3 = s.cr3
  stack : ∀ i < 4 * kept, (f s).mem (s.esp + BitVec.ofNat 32 (4 * args + i)) =
    s.mem (s.esp + BitVec.ofNat 32 (4 * args + i))

variable {m m' : Memory} {a b v w : Word} {ws vs : List Word} {s : State} {n : Nat} {d : Dest} {ds : List Dest}

variable {alu : State → Word}

theorem run_append (s : State) (c d : List Instr) : run alu s (c ++ d) = run alu (run alu s c) d :=
  List.foldl_append

/-! ## Words of the memory -/

theorem readWord_congr (h : ∀ i < 4, m' (a + BitVec.ofNat 32 i) = m (a + BitVec.ofNat 32 i)) :
    readWord m' a = readWord m a := by
  have hview : load32 (view m' a) 0 = load32 (view m a) 0 :=
    load_congr fun i _ hi => h i (by omega)
  rw [readWord, readWord, hview]

/-- The bytes of a memory by natural addresses. -/
def bytes (m : Memory) : Mem := fun a => m (BitVec.ofNat 32 a)

theorem load_shift (m : Mem) (k a width : Nat) : load (fun i => m (k + i)) a width = load m (k + a) width := by
  induction width generalizing a with
  | zero => rfl
  | succ width ih => rw [load, load, ih, Nat.add_assoc]

theorem readWord_toNat (m : Memory) (a : Word) : (readWord m a).toNat = load32 (bytes m) a.toNat := by
  have hview : view m a = fun i => bytes m (a.toNat + i) := by
    funext i
    rw [view, bytes, BitVec.ofNat_add, BitVec.ofNat_toNat, BitVec.setWidth_eq]
  rw [readWord, BitVec.toNat_ofNat, Nat.mod_eq_of_lt (load32_lt _ _), hview]
  exact load_shift (bytes m) a.toNat 0 4

/-- The `n` bytes from `a` on. -/
def span (a : Word) (n : Nat) : Set Word := {b | (b - a).toNat < n}

theorem readWord_of_span (h : ∀ b ∈ span a 4, m' b = m b) : readWord m' a = readWord m a :=
  readWord_congr fun i hi => h _ (by change (a + BitVec.ofNat 32 i - a).toNat < 4; bv_omega)

theorem readWord_of_bytes (h : ∀ i < 4, m (a + BitVec.ofNat 32 i) = UInt8.ofNat (n / 256 ^ i)) :
    readWord m a = BitVec.ofNat 32 n := by
  have hload : load32 (view m a) 0 = n % 256 ^ 4 :=
    load_of_bytes fun i hi => by
      rw [Nat.zero_add]
      exact h i hi
  refine BitVec.eq_of_toNat_eq ?_
  rw [readWord, hload, BitVec.toNat_ofNat, BitVec.toNat_ofNat]
  exact Nat.mod_mod _ _

theorem readWord_writeWord_same (m : Memory) (a v : Word) : readWord (writeWord m a v) a = v := by
  have hbytes : ∀ i < 4, writeWord m a v (a + BitVec.ofNat 32 i) = UInt8.ofNat (v.toNat / 256 ^ i) := by
    intro i hi
    have hdist : (a + BitVec.ofNat 32 i - a).toNat = i := by bv_omega
    rw [writeWord, hdist, if_pos hi]
  rw [readWord_of_bytes hbytes, BitVec.ofNat_toNat, BitVec.setWidth_eq]

/-- A write touches the four bytes of its word only. -/
theorem writeWord_of_ge (m : Memory) (v : Word) (h : 4 ≤ (b - a).toNat) : writeWord m a v b = m b := by
  rw [writeWord, if_neg (by omega)]

theorem writeWord_of_span (m : Memory) (v : Word) (h : b ∉ span a 4) : writeWord m a v b = m b :=
  writeWord_of_ge m v (not_lt.mp h)

theorem span_mono {k : Nat} (h : b ∈ span a k) (hn : k ≤ n) : b ∈ span a n := lt_of_lt_of_le h hn

theorem mem_span_of_le {k l : Nat} (h : b ∈ span (a + BitVec.ofNat 32 k) l) (hfits : k + l ≤ 2 ^ 32) {n : Nat}
    (hn : k + l ≤ n) : b ∈ span a n := by
  change (b - (a + BitVec.ofNat 32 k)).toNat < l at h
  change (b - a).toNat < n
  bv_omega

/-! ## Words on the stack -/

/-- The words from `a` on. -/
def Stacked (m : Memory) : Word → List Word → Prop
  | _, [] => True
  | a, w :: ws => readWord m a = w ∧ Stacked m (a + 4) ws

theorem Stacked.congr (h : Stacked m a ws)
    (hsame : ∀ i < 4 * ws.length, m' (a + BitVec.ofNat 32 i) = m (a + BitVec.ofNat 32 i)) :
    Stacked m' a ws := by
  induction ws generalizing a with
  | nil => trivial
  | cons w ws ih =>
      rw [List.length_cons] at hsame
      refine ⟨(readWord_congr fun i hi => hsame i (by omega)).trans h.1, ih h.2 fun i hi => ?_⟩
      have haddr : a + 4 + BitVec.ofNat 32 i = a + BitVec.ofNat 32 (4 + i) := by
        rw [BitVec.ofNat_add, BitVec.add_assoc]
        rfl
      rw [haddr]
      exact hsame (4 + i) (by omega)

/-- The words behind the first ones. -/
theorem Stacked.append_right (h : Stacked m a (vs ++ ws)) :
    Stacked m (a + BitVec.ofNat 32 (4 * vs.length)) ws := by
  induction vs generalizing a with
  | nil => simpa using h
  | cons v vs ih =>
      have haddr : a + BitVec.ofNat 32 (4 * (v :: vs).length) = a + 4 + BitVec.ofNat 32 (4 * vs.length) := by
        rw [List.length_cons, Nat.mul_succ, Nat.add_comm, BitVec.ofNat_add, BitVec.add_assoc]
        rfl
      rw [haddr]
      exact ih h.2

theorem Stacked.append_left (h : Stacked m a (vs ++ ws)) : Stacked m a vs := by
  induction vs generalizing a with
  | nil => trivial
  | cons v vs ih => exact ⟨h.1, ih h.2⟩

theorem Stacked.get (h : Stacked m a ws) {i : Nat} (hi : i < ws.length) :
    Stacked m (a + BitVec.ofNat 32 (4 * i)) [ws[i]] := by
  have hsplit : ws = ws.take i ++ ([ws[i]] ++ ws.drop (i + 1)) := by
    rw [List.singleton_append, List.getElem_cons_drop, List.take_append_drop]
  rw [hsplit] at h
  have hat := h.append_right.append_left
  rwa [List.length_take, Nat.min_eq_left hi.le] at hat

/-- A push keeps the words above, as long as the stack does not go around the address space. -/
theorem Stacked.push (h : Stacked s.mem s.esp ws) (hroom : 4 * (ws.length + 1) ≤ 2 ^ 32) (v : Word) :
    Stacked (s.push v).mem (s.push v).esp (v :: ws) := by
  have hesp : (s.push v).esp = s.esp - 4 := rfl
  have hback : s.esp - 4 + 4 = s.esp := BitVec.sub_add_cancel _ _
  rw [hesp]
  refine ⟨readWord_writeWord_same _ _ _, ?_⟩
  rw [hback]
  refine h.congr fun i hi => writeWord_of_ge _ _ ?_
  bv_omega

theorem Stacked.pushAll (h : Stacked s.mem s.esp ws) (hroom : 4 * (ws.length + vs.length) ≤ 2 ^ 32) :
    Stacked (s.pushAll vs).mem (s.pushAll vs).esp (vs.reverse ++ ws) := by
  induction vs generalizing s ws with
  | nil => exact h
  | cons v vs ih =>
      rw [List.length_cons] at hroom
      rw [List.reverse_cons, List.append_assoc]
      exact ih (h.push (by omega) v) (by rw [List.length_append, List.length_singleton]; omega)

theorem pushAll_esp (s : State) (vs : List Word) :
    (s.pushAll vs).esp = s.esp - BitVec.ofNat 32 (4 * vs.length) := by
  induction vs generalizing s with
  | nil => simp [State.pushAll]
  | cons v vs ih =>
      have hesp : (s.push v).esp = s.esp - 4 := rfl
      rw [State.pushAll, List.foldl_cons]
      refine (ih (s.push v)).trans ?_
      rw [hesp, List.length_cons]
      bv_omega

/-- Pushes touch the words below the stack pointer only. -/
theorem pushAll_mem (hroom : 4 * vs.length ≤ 2 ^ 32) (hb : (b - s.esp).toNat < 2 ^ 32 - 4 * vs.length) :
    (s.pushAll vs).mem b = s.mem b := by
  induction vs generalizing s with
  | nil => rfl
  | cons v vs ih =>
      rw [List.length_cons] at hroom hb
      have hesp : (s.push v).esp = s.esp - 4 := rfl
      have hfar : (b - (s.push v).esp).toNat < 2 ^ 32 - 4 * vs.length := by
        rw [hesp]
        bv_omega
      refine (ih (s := s.push v) (by omega) hfar).trans (writeWord_of_ge _ _ ?_)
      bv_omega

/-- The words above the arguments of a routine. -/
theorem Cdecl.stacked {args kept k : Nat} {f : State → State} (h : Cdecl args kept f s)
    (hs : Stacked s.mem (s.esp + BitVec.ofNat 32 (4 * k)) ws) (hlow : args ≤ k)
    (hhigh : k + ws.length ≤ args + kept) :
    Stacked (f s).mem ((f s).esp + BitVec.ofNat 32 (4 * k)) ws := by
  rw [h.esp]
  refine hs.congr fun i hi => ?_
  have haddr : s.esp + BitVec.ofNat 32 (4 * k) + BitVec.ofNat 32 i =
      s.esp + BitVec.ofNat 32 (4 * args + (4 * (k - args) + i)) := by
    rw [BitVec.add_assoc, ← BitVec.ofNat_add]
    congr 2
    omega
  rw [haddr]
  exact h.stack _ (by omega)

/-- Assign the words to the destinations, without the stack. -/
def State.putAll (s : State) (l : List (Dest × Word)) : State := l.foldl (fun s p => s.put p.2 p.1) s

/-- An assignment that is not one to the stack pointer does not see it. -/
theorem State.setReg_esp_put (s : State) (x v : Word) (hd : d ≠ .reg .esp) :
    (s.setReg .esp x).put v d = (s.put v d).setReg .esp x := by
  cases d with
  | reg r =>
      have hne : r ≠ .esp := fun h => hd (congrArg Dest.reg h)
      simp only [State.put, State.setReg, Function.update_comm hne]
  | seg g => rfl
  | eflags => rfl
  | eip => rfl
  | skip => rfl

theorem State.setReg_esp_putAll {l : List (Dest × Word)} (s : State) (x : Word)
    (hl : ∀ p ∈ l, p.1 ≠ .reg .esp) : (s.setReg .esp x).putAll l = (s.putAll l).setReg .esp x := by
  induction l generalizing s with
  | nil => rfl
  | cons p l ih =>
      have hhead := s.setReg_esp_put x p.2 (hl p (by simp))
      simp only [State.putAll, List.foldl_cons] at ih ⊢
      rw [hhead]
      exact ih (s.put p.2 p.1) fun q hq => hl q (by simp [hq])

theorem pushAll_reg (s : State) (vs : List Word) {r : Reg} (hr : r ≠ .esp) : (s.pushAll vs).reg r = s.reg r := by
  induction vs generalizing s with
  | nil => rfl
  | cons v vs ih => exact (ih (s.push v)).trans (Function.update_of_ne hr _ _)

theorem pushAll_seg (s : State) (vs : List Word) : (s.pushAll vs).seg = s.seg := by
  induction vs generalizing s with
  | nil => rfl
  | cons v vs ih => exact ih (s.push v)

theorem pushAll_cr3 (s : State) (vs : List Word) : (s.pushAll vs).cr3 = s.cr3 := by
  induction vs generalizing s with
  | nil => rfl
  | cons v vs ih => exact ih (s.push v)

theorem State.put_mem (s : State) (v : Word) (d : Dest) : (s.put v d).mem = s.mem := by
  cases d <;> rfl

theorem State.setReg_esp (s : State) (x : Word) : (s.setReg .esp x).esp = x := rfl

theorem State.setReg_setReg (s : State) (r : Reg) (x y : Word) :
    (s.setReg r x).setReg r y = s.setReg r y := by
  simp only [State.setReg, Function.update_idem]

/-- Pops assign the words of the stack, and move the stack pointer behind them. -/
theorem popAll_eq (h : Stacked s.mem s.esp ws) (hlen : ds.length = ws.length) (hds : Dest.reg .esp ∉ ds) :
    s.popAll ds =
      (s.putAll (ds.zip ws)).setReg .esp (s.esp + BitVec.ofNat 32 (4 * ws.length)) := by
  induction ds generalizing s ws with
  | nil =>
      obtain rfl := List.length_eq_zero_iff.mp hlen.symm
      simp [State.popAll, State.putAll, State.setReg]
  | cons d ds ih =>
      cases ws with
      | nil => exact absurd hlen (by simp)
      | cons w ws =>
          rw [List.mem_cons, not_or] at hds
          have hd : d ≠ .reg .esp := fun heq => hds.1 heq.symm
          have hpop : s.popTo d = (s.put w d).setReg .esp (s.esp + 4) := by
            rw [State.popTo, State.top, h.1, State.drop, s.setReg_esp_put _ _ hd]
          have hstack : Stacked (s.popTo d).mem (s.popTo d).esp ws := by
            have hmem : (s.popTo d).mem = s.mem := by
              rw [hpop]
              exact s.put_mem w d
            have hesp : (s.popTo d).esp = s.esp + 4 := by
              rw [hpop, State.setReg_esp]
            rw [hmem, hesp]
            exact h.2
          have hrest : ∀ p ∈ ds.zip ws, p.1 ≠ .reg .esp := fun p hp heq =>
            hds.2 (heq ▸ (List.of_mem_zip hp).1)
          rw [State.popAll, List.foldl_cons]
          refine (ih hstack (by simpa using hlen) hds.2).trans ?_
          rw [hpop, State.setReg_esp_putAll _ _ hrest, State.setReg_setReg]
          congr 1
          rw [State.setReg_esp, List.length_cons]
          bv_omega

end Ia32
