import TsOs.Library.Traps

/-!
# Stack code under paging

With paging on, the memory is the physical one, and each directory shows it at linear
addresses of its own. An instruction works on what the directory in `cr3` shows, and its
words go to the places that this directory gives. As long as these places differ for the
bytes that are used, and no table lies there, the code does at them what it does in a flat
memory, and nothing elsewhere.

## Implementation notes

A linear address has a place in every directory: faults are not looked at, nor are accessed
and dirty bits. The bytes of an instruction go to the places that the tables give when it
starts.
-/

namespace Ia32

/-- The physical address that the directory with this `cr3` gives a linear one, by the tables in the memory. -/
abbrev Translation := Memory → Word → Word → Word

/-- The walk of the processor through two levels of tables, with `none` for an entry that is not present. -/
def pageWalk (m : Memory) (cr3 a : Word) : Option Word :=
  let e := (readWord m (BitVec.ofNat 32 (cr3.toNat / 4096 * 4096 + 4 * (a.toNat / 2 ^ 22)))).toNat
  if e % 2 = 1 then
    let p := (readWord m (BitVec.ofNat 32 (e / 4096 * 4096 + 4 * (a.toNat / 2 ^ 12 % 1024)))).toNat
    if p % 2 = 1 then some (BitVec.ofNat 32 (p / 4096 * 4096 + a.toNat % 4096)) else none
  else none

/-- The translation by the walk. Only mapped addresses are used. -/
def twoLevel : Translation := fun m cr3 a => (pageWalk m cr3 a).getD 0

def State.withMem (s : State) (m : Memory) : State := { s with mem := m }

/-- What a directory shows of the memory. -/
def shown (tr : Translation) (m : Memory) (cr3 : Word) : Memory := fun a => m (tr m cr3 a)

/-- The state as its instructions see it. The memory of `s` is the physical one. -/
def State.linear (tr : Translation) (s : State) : State := s.withMem (shown tr s.mem s.cr3)

/-- The first `n` bytes of a word, each at its place. -/
def storeBytes (place : Word → Word) (m : Memory) (a v : Word) : Nat → Memory
  | 0 => m
  | n + 1 => Function.update (storeBytes place m a v n) (place (a + BitVec.ofNat 32 n))
      (UInt8.ofNat (v.toNat / 256 ^ n))

/-- Words with their addresses, in this order. -/
def storeWords (place : Word → Word) (m : Memory) (ws : List (Word × Word)) : Memory :=
  ws.foldl (fun m w => storeBytes place m w.1 w.2 4) m

/-- The words that are pushed from a stack pointer on. -/
def pushes : Word → List Word → List (Word × Word)
  | _, [] => []
  | esp, v :: vs => (esp - 4, v) :: pushes (esp - 4) vs

/-- The words that an instruction stores. -/
def stores (s : State) : Instr → List (Word × Word)
  | .push r => pushes s.esp [s.reg r]
  | .pushImm v => pushes s.esp [v]
  | .pushSeg g => pushes s.esp [(s.seg g).setWidth 32]
  | .pusha => pushes s.esp (pushaWords s)
  | .pushf => pushes s.esp [s.eflags]
  | .store base offset r => [(s.reg base + offset, s.reg r)]
  | .storeAbs a r => [(a, s.reg r)]
  | _ => []

section Execution

variable (alu : State → Word) (tr : Translation)

def execPaged (s : State) (i : Instr) : State :=
  (exec alu (s.linear tr) i).withMem (storeWords (tr s.mem s.cr3) s.mem (stores (s.linear tr) i))

def runPaged (s : State) (code : List Instr) : State := code.foldl (execPaged alu tr) s

end Execution

/-- An operation that only takes words from the stack. -/
def popPaged (tr : Translation) (f : State → State) (s : State) : State := (f (s.linear tr)).withMem s.mem

/-- An instruction that stores nothing and keeps the directory. -/
def Instr.quiet : Instr → Bool
  | .push _ | .pushImm _ | .pushSeg _ | .pusha | .pushf | .store _ _ _ | .storeAbs _ _ | .toCr3 _ => false
  | _ => true

/-- Loads and stores are in `R`. Pops, loads of `cr3` and arithmetic are excluded. -/
def Within (R : Set Word) (s : State) : Instr → Prop
  | .load _ base offset => span (s.reg base + offset) 4 ⊆ R
  | .loadAbs _ a => span a 4 ⊆ R
  | .pop _ | .popSeg _ | .popa | .popf | .toCr3 _ | .addImm _ _ | .shlImm _ _ => False
  | i => ∀ w ∈ stores s i, span w.1 4 ⊆ R

/-- Every instruction of the code is within `R` in the state that it runs in. -/
def CodeWithin (alu : State → Word) (R : Set Word) : State → List Instr → Prop
  | _, [] => True
  | s, i :: code => Within R s i ∧ CodeWithin alu R (exec alu s i) code

/-- The bytes of `R` have places of their own, and no table that leads to them is there. -/
structure Steady (tr : Translation) (m : Memory) (cr3 : Word) (place : Word → Word) (R : Set Word) : Prop where
  injOn : Set.InjOn place R
  translates : ∀ m', (∀ p, p ∉ place '' R → m' p = m p) → Set.EqOn (tr m' cr3) place R

/-- A state with paging, and one whose memory is flat and has the bytes of `R`. -/
structure Agree (place : Word → Word) (R : Set Word) (m : Memory) (s u : State) : Prop where
  processor : s = u.withMem s.mem
  mem : ∀ b ∈ R, s.mem (place b) = u.mem b
  rest : ∀ p, p ∉ place '' R → s.mem p = m p

variable {alu : State → Word} {tr : Translation} {R : Set Word} {s u : State} {m m' : Memory} {a b v p cr3 : Word}
  {place place' : Word → Word} {ws : List (Word × Word)} {i : Instr} {code code' : List Instr}

theorem runPaged_append (s : State) (code code' : List Instr) :
    runPaged alu tr s (code ++ code') = runPaged alu tr (runPaged alu tr s code) code' := List.foldl_append

theorem Steady.mono {S : Set Word} (h : Steady tr m cr3 place R) (hS : S ⊆ R) : Steady tr m cr3 place S :=
  ⟨h.injOn.mono hS, fun _ hm => (h.translates _ fun p hp => hm p fun hin => hp (Set.image_mono hS hin)).mono hS⟩

theorem Steady.congr (h : Steady tr m cr3 place R) (hm : ∀ p, p ∉ place '' R → m' p = m p) :
    Steady tr m' cr3 place R :=
  ⟨h.injOn, fun _ hm' => h.translates _ fun p hp => (hm' p hp).trans (hm p hp)⟩

theorem Steady.shown (h : Steady tr m cr3 place R) (hb : b ∈ R) : shown tr m cr3 b = m (place b) :=
  congrArg m (h.translates m (fun _ _ => rfl) hb)

/-! ## Words at their places -/

/-- A word is where its bytes are. -/
theorem readWord_moved (h : ∀ k < 4, m' (b + BitVec.ofNat 32 k) = m (a + BitVec.ofNat 32 k)) :
    readWord m' b = readWord m a := by
  have hload : ByteMemory.load32 (view m' b) 0 = ByteMemory.load32 (view m a) 0 :=
    ByteMemory.load_congr fun k _ hk => h k (by omega)
  rw [readWord, readWord, hload]

theorem storeBytes_of_not_mem {n : Nat} (hn : n ≤ 4) (hp : p ∉ place '' span a 4) :
    storeBytes place m a v n p = m p := by
  induction n with
  | zero => rfl
  | succ n ih =>
      have hne : p ≠ place (a + BitVec.ofNat 32 n) := by
        rintro rfl
        refine hp ⟨_, ?_, rfl⟩
        change (a + BitVec.ofNat 32 n - a).toNat < 4
        bv_omega
      rw [storeBytes, Function.update_of_ne hne]
      exact ih (by omega)

/-- At the places of different addresses the bytes are those of a flat memory. -/
theorem storeBytes_place {n : Nat} (hn : n ≤ 4) (hinj : Set.InjOn place R) (ha : span a 4 ⊆ R) (hb : b ∈ R) :
    storeBytes place m a v n (place b) =
      if (b - a).toNat < n then UInt8.ofNat (v.toNat / 256 ^ (b - a).toNat) else m (place b) := by
  induction n with
  | zero => rfl
  | succ n ih =>
      have hat : a + BitVec.ofNat 32 n ∈ R := by
        apply ha
        change (a + BitVec.ofNat 32 n - a).toNat < 4
        bv_omega
      rw [storeBytes]
      by_cases heq : b = a + BitVec.ofNat 32 n
      · have hdist : (b - a).toNat = n := by
          rw [heq]
          bv_omega
        rw [heq, Function.update_self, ← heq, hdist, if_pos (Nat.lt_succ_self n)]
      · have hdist : (b - a).toNat ≠ n := by
          intro hdist
          apply heq
          bv_omega
        have hlt : (b - a).toNat < n + 1 ↔ (b - a).toNat < n := by omega
        rw [Function.update_of_ne fun hplace => heq (hinj hb hat hplace), ih (by omega)]
        simp only [hlt]

theorem storeBytes_congr {n : Nat} (hn : n ≤ 4) (hplace : Set.EqOn place place' (span a 4)) :
    storeBytes place m a v n = storeBytes place' m a v n := by
  induction n with
  | zero => rfl
  | succ n ih =>
      have hat : a + BitVec.ofNat 32 n ∈ span a 4 := by
        change (a + BitVec.ofNat 32 n - a).toNat < 4
        bv_omega
      rw [storeBytes, storeBytes, ih (by omega), hplace hat]

theorem storeWords_congr (hplace : Set.EqOn place place' R) (hws : ∀ w ∈ ws, span w.1 4 ⊆ R) :
    storeWords place m ws = storeWords place' m ws := by
  induction ws generalizing m with
  | nil => rfl
  | cons w ws ih =>
      rw [List.forall_mem_cons] at hws
      have hfirst : storeBytes place m w.1 w.2 4 = storeBytes place' m w.1 w.2 4 :=
        storeBytes_congr (le_refl 4) (hplace.mono hws.1)
      rw [storeWords, List.foldl_cons, hfirst]
      exact ih hws.2

theorem storeWords_of_not_mem (hws : ∀ w ∈ ws, span w.1 4 ⊆ R) (hp : p ∉ place '' R) :
    storeWords place m ws p = m p := by
  induction ws generalizing m with
  | nil => rfl
  | cons w ws ih =>
      rw [List.forall_mem_cons] at hws
      have hout : p ∉ place '' span w.1 4 := fun hmem => hp (Set.image_mono hws.1 hmem)
      rw [storeWords, List.foldl_cons]
      exact (ih hws.2).trans (storeBytes_of_not_mem (le_refl 4) hout)

/-- The words in a flat memory. -/
def writeWords (m : Memory) (ws : List (Word × Word)) : Memory := ws.foldl (fun m w => writeWord m w.1 w.2) m

theorem storeWords_place (hinj : Set.InjOn place R) (hws : ∀ w ∈ ws, span w.1 4 ⊆ R)
    (hm : ∀ b ∈ R, m (place b) = m' b) (hb : b ∈ R) : storeWords place m ws (place b) = writeWords m' ws b := by
  induction ws generalizing m m' with
  | nil => exact hm b hb
  | cons w ws ih =>
      rw [List.forall_mem_cons] at hws
      refine ih hws.2 fun x hx => ?_
      change storeBytes place m w.1 w.2 4 (place x) = writeWord m' w.1 w.2 x
      rw [storeBytes_place (le_refl 4) hinj hws.1 hx, writeWord, hm x hx]

/-! ## Code that stores -/

/-- Pushes on another memory. -/
theorem pushAll_withMem (s : State) (m : Memory) (vs : List Word) : (s.withMem m).pushAll vs =
    (s.pushAll vs).withMem (writeWords m (pushes s.esp vs)) := by
  induction vs generalizing s m with
  | nil => rfl
  | cons v vs ih => exact ih (s.push v) (writeWord m (s.esp - 4) v)

/-- An instruction on another memory that agrees on what it loads. -/
theorem exec_withMem (hi : Within R s i) (hm : Set.EqOn m s.mem R) : exec alu (s.withMem m) i =
    (exec alu s i).withMem (writeWords m (stores s i)) := by
  have hread : ∀ a, span a 4 ⊆ R → readWord m a = readWord s.mem a :=
    fun a ha => readWord_of_span fun b hb => hm (ha hb)
  cases i with
  | load d base offset =>
      change (s.withMem m).setReg d (readWord m (s.reg base + offset)) = _
      rw [hread _ hi]
      rfl
  | loadAbs d a =>
      change (s.withMem m).setReg d (readWord m a) = _
      rw [hread a hi]
      rfl
  | pusha => exact pushAll_withMem s m (pushaWords s)
  | pop r => exact hi.elim
  | popSeg g => exact hi.elim
  | popa => exact hi.elim
  | popf => exact hi.elim
  | toCr3 r => exact hi.elim
  | addImm d v => exact hi.elim
  | shlImm d k => exact hi.elim
  | _ => rfl

theorem exec_mem (hi : Within R s i) : (exec alu s i).mem = writeWords s.mem (stores s i) :=
  congrArg State.mem (exec_withMem hi fun _ _ => rfl : exec alu (s.withMem s.mem) i = _)

theorem exec_cr3 (hi : Within R s i) : (exec alu s i).cr3 = s.cr3 := by
  cases i with
  | toCr3 r => exact hi.elim
  | pusha => exact pushAll_cr3 s _
  | pop r => exact hi.elim
  | popSeg g => exact hi.elim
  | popa => exact hi.elim
  | popf => exact hi.elim
  | _ => rfl

theorem stores_subset (hi : Within R s i) : ∀ w ∈ stores s i, span w.1 4 ⊆ R := by
  cases i with
  | load d base offset => simp [stores]
  | loadAbs d a => simp [stores]
  | pop r => exact hi.elim
  | popSeg g => exact hi.elim
  | popa => exact hi.elim
  | popf => exact hi.elim
  | toCr3 r => exact hi.elim
  | addImm d v => exact hi.elim
  | shlImm d k => exact hi.elim
  | _ => exact hi

theorem stores_withMem (s : State) (m : Memory) (i : Instr) : stores (s.withMem m) i = stores s i := by
  cases i <;> rfl

theorem execPaged_agree (hsteady : Steady tr m u.cr3 place R) (h : Agree place R m s u) (hi : Within R u i) :
    Agree place R m (execPaged alu tr s i) (exec alu u i) := by
  obtain ⟨hs, hmem, hrest⟩ := h
  have hcr3 : s.cr3 = u.cr3 := by
    rw [hs]
    rfl
  have htr : Set.EqOn (tr s.mem s.cr3) place R := by
    rw [hcr3]
    exact hsteady.translates s.mem hrest
  have hlinear : s.linear tr = u.withMem (shown tr s.mem s.cr3) := by
    rw [State.linear]
    generalize shown tr s.mem s.cr3 = m'
    rw [hs]
    rfl
  have hshown : Set.EqOn (shown tr s.mem s.cr3) u.mem R := fun b hb => (congrArg s.mem (htr hb)).trans (hmem b hb)
  have hsub := stores_subset hi
  have hstored : execPaged alu tr s i = (exec alu u i).withMem (storeWords place s.mem (stores u i)) := by
    rw [execPaged, hlinear, exec_withMem hi hshown, stores_withMem, storeWords_congr htr hsub]
    rfl
  rw [hstored]
  refine ⟨rfl, fun b hb => ?_, fun p hp => (storeWords_of_not_mem hsub hp).trans (hrest p hp)⟩
  rw [exec_mem hi]
  exact storeWords_place hsteady.injOn hsub hmem hb

/-- Code within `R` does at the places of `R` what it does in a flat memory. -/
theorem runPaged_agree (hsteady : Steady tr m u.cr3 place R) (h : Agree place R m s u)
    (hcode : CodeWithin alu R u code) : Agree place R m (runPaged alu tr s code) (run alu u code) := by
  induction code generalizing s u with
  | nil => exact h
  | cons i code ih =>
      obtain ⟨hi, hrest⟩ := hcode
      have hcr3 : (exec alu u i).cr3 = u.cr3 := exec_cr3 hi
      rw [← hcr3] at hsteady
      exact ih hsteady (execPaged_agree (hcr3 ▸ hsteady) h hi) hrest

theorem Agree.linear (hsteady : Steady tr s.mem s.cr3 place R) : Agree place R s.mem s (s.linear tr) :=
  ⟨rfl, fun _ hb => (hsteady.shown hb).symm, fun _ _ => rfl⟩

theorem codeWithin_append : CodeWithin alu R s (code ++ code') ↔
    CodeWithin alu R s code ∧ CodeWithin alu R (run alu s code) code' := by
  induction code generalizing s with
  | nil => exact (and_iff_right trivial).symm
  | cons i code ih =>
      rw [List.cons_append, CodeWithin, CodeWithin, ih, and_assoc]
      rfl

/-- Pushes store below the stack pointer. -/
theorem pushes_subset {vs : List Word} (hroom : 4 * vs.length ≤ 2 ^ 32) : ∀ w ∈ pushes a vs,
    span w.1 4 ⊆ span (a - BitVec.ofNat 32 (4 * vs.length)) (4 * vs.length) := by
  induction vs generalizing a with
  | nil => exact fun w hw => absurd hw List.not_mem_nil
  | cons v vs ih =>
      rw [List.length_cons] at hroom ⊢
      have hbase : a - 4 - BitVec.ofNat 32 (4 * vs.length) = a - BitVec.ofNat 32 (4 * (vs.length + 1)) := by
        bv_omega
      refine List.forall_mem_cons.mpr ⟨fun b hb => ?_, fun w hw b hb => ?_⟩
      · change (b - (a - 4)).toNat < 4 at hb
        change (b - (a - BitVec.ofNat 32 (4 * (vs.length + 1)))).toNat < 4 * (vs.length + 1)
        bv_omega
      · have hlow := ih (by omega) w hw hb
        rw [hbase] at hlow
        exact span_mono hlow (by omega)

/-! ## Code that only loads -/

variable (alu) in
theorem exec_quiet (hi : i.quiet = true) (s : State) :
    (exec alu s i).mem = s.mem ∧ (exec alu s i).cr3 = s.cr3 ∧ stores s i = [] := by
  cases i with
  | push r => cases hi
  | pushImm v => cases hi
  | pushSeg g => cases hi
  | pusha => cases hi
  | pushf => cases hi
  | store base offset r => cases hi
  | storeAbs a r => cases hi
  | toCr3 r => cases hi
  | _ => exact ⟨rfl, rfl, rfl⟩

/-- The state after an operation that leaves the memory and the directory alone. -/
theorem linear_withMem (hmem : u.mem = shown tr m u.cr3) : (u.withMem m).linear tr = u := by
  rw [State.linear]
  change u.withMem (shown tr m u.cr3) = u
  rw [← hmem]
  rfl

/-- What resumes is the processor, whatever the memory. -/
theorem Resumes.withMem (h : Resumes s u) (m : Memory) : Resumes s (u.withMem m) :=
  ⟨h.reg, h.seg, h.eip, h.eflags, h.cr3⟩

variable (alu tr code) in
theorem runPaged_quiet (hcode : ∀ i ∈ code, i.quiet = true) (s : State) :
    (runPaged alu tr s code).linear tr = run alu (s.linear tr) code ∧ (runPaged alu tr s code).mem = s.mem := by
  induction code generalizing s with
  | nil => exact ⟨rfl, rfl⟩
  | cons i code ih =>
      rw [List.forall_mem_cons] at hcode
      obtain ⟨hmem, hcr3, hstores⟩ := exec_quiet alu hcode.1 (s.linear tr)
      have hexec : execPaged alu tr s i = (exec alu (s.linear tr) i).withMem s.mem := by
        rw [execPaged, hstores]
        rfl
      have hlinear : (execPaged alu tr s i).linear tr = exec alu (s.linear tr) i := by
        rw [hexec]
        apply linear_withMem
        rw [hmem, hcr3]
        rfl
      obtain ⟨hrest, hkept⟩ := ih hcode.2 (execPaged alu tr s i)
      rw [hlinear] at hrest
      refine ⟨hrest, hkept.trans ?_⟩
      rw [hexec]
      rfl

end Ia32
