import TsOs.Library.Ia32Paging

/-!
# Contexts of tasks

`__context_switch` leaves the context of the running task on its stack, in the order of
`struct ContextRegister`, and takes the one that another task has left. Between the two
there may be any work of other tasks and any number of switches.

The record of a task has the stack pointer first and the physical address of the
directory behind it. Its stack is at a linear address of that directory, where another
directory may show other memory.

## Implementation notes

The directories are given by a translation that may read them from the memory. The routine
runs in the directory of the old task up to the load of `cr3`, and in that of the new one
from there on.
-/

namespace TsOs.Contexts
open Ia32

/-- `__context_switch` up to the assignment to `current`, whose address is given. -/
def saveContext (current : Word) : List Instr :=
  [.loadAbs .ecx current, .fromCr3 .eax, .store .ecx 4 .eax, .load .eax .esp 4, .pusha, .pushf,
    .store .ecx 0 .esp, .movImm .ecx current, .store .ecx 0 .eax]

/-- The rest of `__context_switch` up to its `ret`. -/
def loadContext : List Instr :=
  [.load .ecx .ecx 0, .load .esp .ecx 0, .load .eax .ecx 4, .toCr3 .eax, .popf, .popa]

/-- `__context_switch`. -/
def contextSwitch (tr : Translation) (alu : State → Word) (current : Word) (s : State) : State :=
  popPaged tr ret (runPaged alu tr (runPaged alu tr s (saveContext current)) loadContext)

/-- What a switch exchanges. -/
structure Context where
  reg : Reg → Word
  eip : Word
  eflags : Word
  cr3 : Word

/-- `struct ContextRegister`. The word for `esp` is not used. -/
def Context.words (c : Context) (esp : Word) : List Word :=
  [c.eflags, c.reg .edi, c.reg .esi, c.reg .ebp, esp, c.reg .ebx, c.reg .edx, c.reg .ecx, c.reg .eax,
    c.eip]

/-- The task that `current` points to. -/
def running (current : Word) (s : State) : Word := readWord s.mem current

/-- The task that is given to `__context_switch`. -/
def newTask (s : State) : Word := readWord s.mem (s.esp + 4)

/-- The context in which a call of `__context_switch` comes back. -/
def callContext (current : Word) (s : State) : Context where
  reg
    | .eax => newTask s
    | .ecx => running current s
    | .esp => s.esp + 4
    | r => s.reg r
  eip := s.top
  eflags := s.eflags
  cr3 := s.cr3

/-- The context for the task with the record at `t`. The record is in the memory `m`, and the stack in what
the task's own directory shows. -/
structure Suspended (m own : Memory) (t : Word) (c : Context) : Prop where
  esp : readWord m t = c.reg .esp - 40
  cr3 : readWord m (t + 4) = c.cr3
  stack : ∃ esp, Stacked own (c.reg .esp - 40) (c.words esp)

/-- The code of the context runs. -/
structure Runs (c : Context) (s : State) : Prop where
  reg : s.reg = c.reg
  eip : s.eip = c.eip
  eflags : s.eflags = c.eflags
  cr3 : s.cr3 = c.cr3

/-- The bytes of a record that a switch writes. -/
def record (t : Word) : Set Word := span t 8

/-- The bytes of the stack that a call of `__context_switch` uses: what it saves, the return address
and the argument. -/
def callFrame (s : State) : Set Word := span (s.esp - 36) 44

variable {tr : Translation} {alu : State → Word} {current t : Word} {s u : State} {m m' m₁ m₁' : Memory}
  {c : Context} {b : Word} {place : Word → Word}

/-! ## One switch -/

/-- A context that is in memory stays there while its bytes do. -/
theorem Suspended.congr (h : Suspended m m₁ t c) (hrecord : ∀ b ∈ record t, m' b = m b)
    (hframe : ∀ b ∈ span (c.reg .esp - 40) 40, m₁' b = m₁ b) : Suspended m' m₁' t c := by
  obtain ⟨hesp, hcr3, x, hstack⟩ := h
  refine ⟨(readWord_of_span fun b hb => hrecord b ?_).trans hesp,
    (readWord_of_span fun b hb => hrecord b ?_).trans hcr3, x, hstack.congr fun i hi => hframe _ ?_⟩
  · change (b - t).toNat < 4 at hb
    change (b - t).toNat < 8
    omega
  · change (b - (t + 4)).toNat < 4 at hb
    change (b - t).toNat < 8
    bv_omega
  · have hlen : (c.words x).length = 10 := rfl
    rw [hlen] at hi
    change (c.reg .esp - 40 + BitVec.ofNat 32 i - (c.reg .esp - 40)).toNat < 40
    bv_omega

/-- What the first three instructions of the second half load. -/
theorem loadContext_start (hecx : u.reg .ecx = current) (hcurrent : readWord u.mem current = t)
    (hesp : readWord u.mem t = c.reg .esp - 40) (hcr3 : readWord u.mem (t + 4) = c.cr3) :
    run alu u [.load .ecx .ecx 0, .load .esp .ecx 0, .load .eax .ecx 4] =
      ((u.setReg .ecx t).setReg .esp (c.reg .esp - 40)).setReg .eax c.cr3 := by
  have haddr : u.reg .ecx + 0 = current := (BitVec.add_zero _).trans hecx
  have hfirst : exec alu u (.load .ecx .ecx 0) = u.setReg .ecx t := by
    rw [exec, haddr, hcurrent]
  have hsecond : exec alu (u.setReg .ecx t) (.load .esp .ecx 0) =
      (u.setReg .ecx t).setReg .esp (c.reg .esp - 40) := by
    have hzero : t + 0 = t := BitVec.add_zero t
    change (u.setReg .ecx t).setReg .esp (readWord u.mem (t + 0)) = _
    rw [hzero, hesp]
  have hthird : exec alu ((u.setReg .ecx t).setReg .esp (c.reg .esp - 40)) (.load .eax .ecx 4) =
      ((u.setReg .ecx t).setReg .esp (c.reg .esp - 40)).setReg .eax c.cr3 := by
    change ((u.setReg .ecx t).setReg .esp (c.reg .esp - 40)).setReg .eax (readWord u.mem (t + 4)) = _
    rw [hcr3]
  rw [run, List.foldl_cons, hfirst, List.foldl_cons, hsecond, List.foldl_cons, hthird, List.foldl_nil]

variable (alu) in
/-- The second half of a switch takes the context from the memory. -/
theorem loadContext_runs (hecx : u.reg .ecx = current) (hcurrent : readWord (shown tr u.mem u.cr3) current = t)
    (h : Suspended (shown tr u.mem u.cr3) (shown tr u.mem c.cr3) t c) :
    Runs c (popPaged tr ret (runPaged alu tr u loadContext)) ∧
      (popPaged tr ret (runPaged alu tr u loadContext)).mem = u.mem ∧
      (popPaged tr ret (runPaged alu tr u loadContext)).seg = u.seg := by
  obtain ⟨hesp, hcr3, x, hstack⟩ := h
  have hcode : loadContext = [.load .ecx .ecx 0, .load .esp .ecx 0, .load .eax .ecx 4] ++
      ([.toCr3 .eax] ++ [.popf, .popa]) := rfl
  obtain ⟨hstart, hmem⟩ := runPaged_quiet alu tr
    [.load .ecx .ecx 0, .load .esp .ecx 0, .load .eax .ecx 4] (by decide) u
  have hloaded := hstart.trans (loadContext_start (u := u.linear tr) hecx hcurrent hesp hcr3)
  generalize hw : runPaged alu tr u [.load .ecx .ecx 0, .load .esp .ecx 0, .load .eax .ecx 4] = w at hloaded hmem
  have hreg : (w.linear tr).reg = (((u.setReg .ecx t).setReg .esp (c.reg .esp - 40)).setReg .eax c.cr3).reg := by
    rw [hloaded]
    rfl
  have hseg : (w.linear tr).seg = u.seg := by
    rw [hloaded]
    rfl
  -- the pops take the words that the new directory shows
  obtain ⟨v, hv⟩ : ∃ v, v = ({ w with cr3 := w.reg .eax } : State) := ⟨_, rfl⟩
  obtain ⟨hpops, hkept⟩ := runPaged_quiet alu tr [.popf, .popa] (by decide) v
  have hvcr3 : v.cr3 = c.cr3 := by
    rw [hv]
    exact congrFun hreg .eax
  have hvesp : (v.linear tr).esp = c.reg .esp - 40 := by
    rw [hv]
    exact congrFun hreg .esp
  have hvmem : v.mem = u.mem := by
    rw [hv]
    exact hmem
  have hvseg : v.seg = u.seg := by
    rw [hv]
    exact hseg
  have hwhole : popPaged tr ret (runPaged alu tr u loadContext) =
      ((v.linear tr).popAll (.eflags :: popaDests ++ [.eip])).withMem v.mem := by
    rw [hcode, runPaged_append, hw, runPaged_append, popPaged]
    have hnext : runPaged alu tr w [.toCr3 .eax] = v := hv.symm
    rw [hnext, hpops, hkept]
    rfl
  have hmemory : (v.linear tr).mem = shown tr u.mem c.cr3 := by
    change shown tr v.mem v.cr3 = _
    rw [hvmem, hvcr3]
  rw [← hmemory, ← hvesp] at hstack
  rw [hwhole, popAll_eq hstack rfl (by decide)]
  refine ⟨⟨funext fun r => ?_, rfl, rfl, hvcr3⟩, hvmem, hvseg⟩
  cases r with
  | esp =>
      change (v.linear tr).esp + 40 = c.reg .esp
      rw [hvesp]
      exact BitVec.sub_add_cancel _ _
  | eax => rfl
  | ecx => rfl
  | edx => rfl
  | ebx => rfl
  | ebp => rfl
  | esi => rfl
  | edi => rfl

/-- The bytes that a call of `__context_switch` uses do not overlap. -/
structure Callable (current : Word) (s : State) : Prop where
  frame : ∀ b ∈ callFrame s, b ∉ record (running current s) ∧ b ∉ span current 4
  task : ∀ b ∈ record (running current s), b ∉ span current 4

/-- What the first half of a switch leaves. -/
structure Saved (current : Word) (s c : State) : Prop where
  ecx : c.reg .ecx = current
  seg : c.seg = s.seg
  cr3 : c.cr3 = s.cr3
  target : readWord c.mem current = newTask s
  suspended : Suspended c.mem c.mem (running current s) (callContext current s)
  rest : ∀ b, b ∉ record (running current s) → b ∉ span (s.esp - 36) 36 → b ∉ span current 4 →
    c.mem b = s.mem b

/-- The state that the first half of a switch pushes. -/
def beforePushes (current : Word) (s : State) : State :=
  { (((s.setReg .ecx (running current s)).setReg .eax s.cr3).setReg .eax (newTask s)) with
    mem := writeWord s.mem (running current s + 4) s.cr3 }

def contextPushes (current : Word) (s : State) : List Word :=
  pushaWords (beforePushes current s) ++ [s.eflags]

theorem saveContext_start (alu : State → Word) (h : Callable current s) :
    run alu s [.loadAbs .ecx current, .fromCr3 .eax, .store .ecx 4 .eax, .load .eax .esp 4] =
      beforePushes current s := by
  have hnew : readWord (writeWord s.mem (running current s + 4) s.cr3) (s.esp + 4) = newTask s := by
    refine readWord_of_span fun b hb => writeWord_of_span _ _ fun hw => ?_
    have hframe : b ∈ callFrame s := by
      change (b - (s.esp - 36)).toNat < 44
      change (b - (s.esp + 4)).toNat < 4 at hb
      bv_omega
    apply (h.frame b hframe).1
    change (b - running current s).toNat < 8
    change (b - (running current s + 4)).toNat < 4 at hw
    bv_omega
  change State.setReg { ((s.setReg .ecx (running current s)).setReg .eax s.cr3) with
    mem := writeWord s.mem (running current s + 4) s.cr3 } .eax
      (readWord (writeWord s.mem (running current s + 4) s.cr3) (s.esp + 4)) = _
  rw [hnew]
  rfl

theorem saveContext_parts (current : Word) : saveContext current =
    [.loadAbs .ecx current, .fromCr3 .eax, .store .ecx 4 .eax, .load .eax .esp 4] ++
      ([.pusha, .pushf] ++ [.store .ecx 0 .esp, .movImm .ecx current, .store .ecx 0 .eax]) := rfl

theorem run_pushes (alu : State → Word) (current : Word) (s : State) :
    run alu (beforePushes current s) [.pusha, .pushf] =
      (beforePushes current s).pushAll (contextPushes current s) := rfl

theorem saveContext_eq (alu : State → Word) (h : Callable current s) : run alu s (saveContext current) =
    exec alu (exec alu (exec alu ((beforePushes current s).pushAll (contextPushes current s))
      (.store .ecx 0 .esp)) (.movImm .ecx current)) (.store .ecx 0 .eax) := by
  rw [saveContext_parts, run_append, saveContext_start alu h, run_append, run_pushes]
  rfl

theorem length_contextPushes (current : Word) (s : State) : (contextPushes current s).length = 9 := rfl

/-- The memory with the pushes of a switch. -/
def pushedMemory (current : Word) (s : State) : Memory :=
  ((beforePushes current s).pushAll (contextPushes current s)).mem

/-- The pushes touch the stack below the call. -/
theorem pushedMemory_of_not_mem (hb : b ∉ span (s.esp - 36) 36) : pushedMemory current s b =
    writeWord s.mem (running current s + 4) s.cr3 b := by
  apply pushAll_mem (by rw [length_contextPushes]; decide)
  rw [length_contextPushes]
  have hesp : (beforePushes current s).esp = s.esp := rfl
  have hfar : ¬(b - (s.esp - 36)).toNat < 36 := hb
  rw [hesp]
  bv_omega

/-- The context lies on the stack. -/
theorem pushedMemory_stacked (h : Callable current s) :
    Stacked (pushedMemory current s) (s.esp - 36) ((callContext current s).words s.esp) := by
  have htop : Stacked (beforePushes current s).mem (beforePushes current s).esp [s.top] := by
    refine ⟨readWord_of_span fun b hb => writeWord_of_span _ _ fun hw => ?_, trivial⟩
    have hframe : b ∈ callFrame s := by
      change (b - (s.esp - 36)).toNat < 44
      change (b - s.esp).toNat < 4 at hb
      bv_omega
    exact (h.frame b hframe).1 (mem_span_of_le (k := 4) hw (by decide) (by decide))
  have hroom : 4 * ([s.top].length + (contextPushes current s).length) ≤ 2 ^ 32 := by
    rw [length_contextPushes, List.length_singleton]
    decide
  have hall : Stacked (pushedMemory current s)
      ((beforePushes current s).pushAll (contextPushes current s)).esp _ := htop.pushAll hroom
  rw [pushAll_esp] at hall
  exact hall

/-- The memory after the first half of a switch. -/
def savedMemory (current : Word) (s : State) : Memory :=
  writeWord (writeWord (pushedMemory current s) (running current s) (s.esp - 36)) current (newTask s)

theorem savedMemory_suspended (h : Callable current s) :
    Suspended (savedMemory current s) (savedMemory current s) (running current s) (callContext current s) := by
  have hctx : (callContext current s).reg .esp - 40 = s.esp - 36 := by
    change s.esp + 4 - 40 = s.esp - 36
    bv_omega
  refine ⟨?_, ?_, s.esp, ?_⟩
  · have hkeep : readWord (savedMemory current s) (running current s) =
        readWord (writeWord (pushedMemory current s) (running current s) (s.esp - 36)) (running current s) := by
      refine readWord_of_span fun b hb => writeWord_of_span _ _ (h.task b (span_mono hb (by decide)))
    rw [hkeep, readWord_writeWord_same, hctx]
  · have hkeep : readWord (savedMemory current s) (running current s + 4) =
        readWord (writeWord s.mem (running current s + 4) s.cr3) (running current s + 4) := by
      refine readWord_of_span fun b hb => ?_
      have hrecord : b ∈ record (running current s) := mem_span_of_le (k := 4) hb (by decide) (by decide)
      have hlow : b ∉ span (running current s) 4 := by
        change ¬(b - running current s).toNat < 4
        change (b - (running current s + 4)).toNat < 4 at hb
        bv_omega
      rw [savedMemory, writeWord_of_span _ _ (h.task b hrecord), writeWord_of_span _ _ hlow]
      exact pushedMemory_of_not_mem fun hframe => (h.frame b (span_mono hframe (by decide))).1 hrecord
    rw [hkeep, readWord_writeWord_same]
    rfl
  · rw [hctx]
    refine (pushedMemory_stacked h).congr fun i hi => ?_
    have hlen : ((callContext current s).words s.esp).length = 10 := rfl
    rw [hlen] at hi
    have hframe : s.esp - 36 + BitVec.ofNat 32 i ∈ callFrame s := by
      change (s.esp - 36 + BitVec.ofNat 32 i - (s.esp - 36)).toNat < 44
      bv_omega
    obtain ⟨hrecord, hcurrent⟩ := h.frame _ hframe
    exact (writeWord_of_span _ _ hcurrent).trans
      (writeWord_of_span _ _ fun hw => hrecord (span_mono hw (by decide)))

theorem saveContext_saved (h : Callable current s) : Saved current s (run alu s (saveContext current)) := by
  have hcode := saveContext_eq alu h
  have hesp : ((beforePushes current s).pushAll (contextPushes current s)).esp = s.esp - 36 := pushAll_esp _ _
  have hecx : ((beforePushes current s).pushAll (contextPushes current s)).reg .ecx = running current s :=
    pushAll_reg _ _ (by decide)
  have heax : ((beforePushes current s).pushAll (contextPushes current s)).reg .eax = newTask s :=
    pushAll_reg _ _ (by decide)
  have hseg : ((beforePushes current s).pushAll (contextPushes current s)).seg = s.seg := pushAll_seg _ _
  have hcr3 : ((beforePushes current s).pushAll (contextPushes current s)).cr3 = s.cr3 := pushAll_cr3 _ _
  have hpushed : ((beforePushes current s).pushAll (contextPushes current s)).mem = pushedMemory current s := rfl
  generalize (beforePushes current s).pushAll (contextPushes current s) = p at hcode hpushed hesp hecx heax hseg hcr3
  have hmem : (run alu s (saveContext current)).mem = savedMemory current s := by
    have hzero : running current s + 0 = running current s := BitVec.add_zero _
    have hzero' : current + 0 = current := BitVec.add_zero _
    rw [hcode]
    change writeWord (writeWord p.mem (p.reg .ecx + 0) p.esp) (current + 0) (p.reg .eax) = _
    rw [hpushed, hesp, hecx, heax, hzero, hzero', savedMemory]
  refine ⟨?_, ?_, ?_, ?_, ?_, fun b hrecord hframe hcurrent => ?_⟩
  · rw [hcode]
    rfl
  · rw [hcode]
    exact hseg
  · rw [hcode]
    exact hcr3
  · rw [hmem]
    exact readWord_writeWord_same _ _ _
  · rw [hmem]
    exact savedMemory_suspended h
  · rw [hmem, savedMemory, writeWord_of_span _ _ hcurrent, writeWord_of_span _ _
      fun hw => hrecord (span_mono hw (by decide)),
      pushedMemory_of_not_mem hframe, writeWord_of_span _ _ fun hw => hrecord ?_]
    exact mem_span_of_le (k := 4) hw (by decide) (by decide)

/-- The bytes that a call uses. -/
def callBytes (current : Word) (s : State) : Set Word :=
  (span current 4 ∪ record (running current s)) ∪ (record (newTask s) ∪ callFrame s)

/-- The bytes that a call writes. -/
def savedBytes (current : Word) (s : State) : Set Word :=
  (record (running current s) ∪ span (s.esp - 36) 36) ∪ span current 4

variable (alu) in
theorem saveContext_within (h : Callable current s) :
    CodeWithin alu (callBytes current s) s (saveContext current) := by
  have hcurrent : span current 4 ⊆ callBytes current s := fun b hb => .inl (.inl hb)
  have hrecord : ∀ k ≤ 4, span (running current s + BitVec.ofNat 32 k) 4 ⊆ callBytes current s :=
    fun k hk b hb => .inl (.inr (mem_span_of_le hb (by omega) (by omega)))
  have hframe : ∀ b, (b - (s.esp - 36)).toNat < 44 → b ∈ callBytes current s := fun b hb => .inr (.inr hb)
  rw [saveContext_parts, codeWithin_append, saveContext_start alu h, codeWithin_append, run_pushes]
  have hesp : ((beforePushes current s).pushAll (contextPushes current s)).esp = s.esp - 36 := pushAll_esp _ _
  have hecx : ((beforePushes current s).pushAll (contextPushes current s)).reg .ecx = running current s :=
    pushAll_reg _ _ (by decide)
  have hpushes : ∀ w ∈ pushes s.esp (contextPushes current s), span w.1 4 ⊆ callBytes current s := by
    intro w hw b hb
    have hlow := pushes_subset (by rw [length_contextPushes]; decide) w hw hb
    exact hframe b (span_mono hlow (by rw [length_contextPushes]; decide))
  refine ⟨⟨hcurrent, fun w hw => absurd hw List.not_mem_nil, ?_, ?_, trivial⟩, ⟨?_, ?_, trivial⟩, ?_, ?_, ?_, trivial⟩
  · exact List.forall_mem_singleton.mpr (hrecord 4 (by decide))
  · intro b hb
    change (b - (s.esp + 4)).toNat < 4 at hb
    exact hframe b (by bv_omega)
  · exact fun w hw => hpushes w (List.mem_append_left [_] hw)
  · exact fun w hw => hpushes w (List.mem_append_right (pushes s.esp (pushaWords (beforePushes current s))) hw)
  · refine List.forall_mem_singleton.mpr ?_
    rw [hecx]
    exact hrecord 0 (by decide)
  · exact fun w hw => absurd hw List.not_mem_nil
  · refine List.forall_mem_singleton.mpr ?_
    have hzero : current + 0 = current := BitVec.add_zero _
    change span (current + 0) 4 ⊆ _
    rw [hzero]
    exact hcurrent

/-- What one call of `__context_switch` does when its argument is a suspended task. The bytes that it uses are
at `place` in the memory. -/
structure Switched (tr : Translation) (current : Word) (place : Word → Word) (s s' : State) (c : Context) :
    Prop where
  runs : Runs c s'
  seg : s'.seg = s.seg
  target : readWord (fun b => s'.mem (place b)) current = newTask (s.linear tr)
  suspended : Suspended (fun b => s'.mem (place b)) (fun b => s'.mem (place b)) (running current (s.linear tr))
    (callContext current (s.linear tr))
  rest : ∀ p, p ∉ place '' savedBytes current (s.linear tr) → s'.mem p = s.mem p

/-- The new task's record and context are apart from what the call writes. -/
structure Apart (tr : Translation) (current : Word) (place : Word → Word) (s : State) (c : Context) : Prop where
  record : ∀ b ∈ record (newTask (s.linear tr)), b ∉ savedBytes current (s.linear tr)
  stack : ∀ m, (∀ p, p ∉ place '' savedBytes current (s.linear tr) → m p = s.mem p) →
    ∀ b ∈ span (c.reg .esp - 40) 40, shown tr m c.cr3 b = shown tr s.mem c.cr3 b

theorem savedBytes_subset (current : Word) (s : State) : savedBytes current s ⊆ callBytes current s := by
  rintro b ((hb | hb) | hb)
  · exact .inl (.inr hb)
  · exact .inr (.inr (span_mono hb (by decide)))
  · exact .inl (.inl hb)

theorem contextSwitch_switched (hsteady : Steady tr s.mem s.cr3 place (callBytes current (s.linear tr)))
    (h : Callable current (s.linear tr)) (hapart : Apart tr current place s c)
    (hc : Suspended (shown tr s.mem s.cr3) (shown tr s.mem c.cr3) (newTask (s.linear tr)) c) :
    Switched tr current place s (contextSwitch tr alu current s) c := by
  have hsaved : Saved current (s.linear tr) (run alu (s.linear tr) (saveContext current)) := saveContext_saved h
  have hagree := runPaged_agree (u := s.linear tr) hsteady (Agree.linear hsteady) (saveContext_within alu h)
  rw [contextSwitch]
  generalize run alu (s.linear tr) (saveContext current) = w at hsaved hagree
  generalize runPaged alu tr s (saveContext current) = u at hagree
  obtain ⟨hprocessor, hbytes, hfar⟩ := hagree
  have hkeep : ∀ b, b ∈ callBytes current (s.linear tr) → b ∉ savedBytes current (s.linear tr) →
      u.mem (place b) = shown tr s.mem s.cr3 b := by
    intro b hb hout
    rw [hbytes b hb]
    exact hsaved.rest b (fun hrecord => hout (.inl (.inl hrecord))) (fun hframe => hout (.inl (.inr hframe)))
      fun hcurrent => hout (.inr hcurrent)
  have hrest : ∀ p, p ∉ place '' savedBytes current (s.linear tr) → u.mem p = s.mem p := by
    intro p hp
    by_cases hin : p ∈ place '' callBytes current (s.linear tr)
    · obtain ⟨b, hb, rfl⟩ := hin
      rw [hkeep b hb fun hsave => hp ⟨b, hsave, rfl⟩]
      exact hsteady.shown hb
    · exact hfar p hin
  have hcr3 : u.cr3 = s.cr3 := by
    rw [hprocessor]
    exact hsaved.cr3
  have hsees : ∀ b ∈ callBytes current (s.linear tr), shown tr u.mem u.cr3 b = u.mem (place b) := by
    intro b hb
    rw [hcr3]
    exact (hsteady.congr hfar).shown hb
  have hecx : u.reg .ecx = current := by
    rw [hprocessor]
    exact hsaved.ecx
  have hcurrent : readWord (shown tr u.mem u.cr3) current = newTask (s.linear tr) := by
    refine (readWord_of_span fun b hb => ?_).trans hsaved.target
    rw [hsees b (.inl (.inl hb)), hbytes b (.inl (.inl hb))]
  have hc' : Suspended (shown tr u.mem u.cr3) (shown tr u.mem c.cr3) (newTask (s.linear tr)) c := by
    refine hc.congr (fun b hb => ?_) (hapart.stack u.mem hrest)
    rw [hsees b (.inr (.inl hb))]
    exact hkeep b (.inr (.inl hb)) (hapart.record b hb)
  obtain ⟨hruns, hmem, hseg⟩ := loadContext_runs alu hecx hcurrent hc'
  refine ⟨hruns, ?_, ?_, ?_, fun p hp => ?_⟩
  · rw [hseg, hprocessor]
    exact hsaved.seg
  · rw [hmem]
    exact (readWord_of_span fun b hb => hbytes b (.inl (.inl hb))).trans hsaved.target
  · rw [hmem]
    refine hsaved.suspended.congr (fun b hb => hbytes b (.inl (.inr hb))) fun b hb => hbytes b (.inr (.inr ?_))
    change (b - (s.esp + 4 - 40)).toNat < 40 at hb
    change (b - (s.esp - 36)).toNat < 44
    bv_omega
  · rw [hmem]
    exact hrest p hp

end TsOs.Contexts
