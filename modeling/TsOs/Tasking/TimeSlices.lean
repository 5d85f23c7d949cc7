import TsOs.Kernel.Syscalls
import TsOs.Tasking.Transfers

/-!
# Time slices

The timer takes a tick from the running task, and marks the task when it has none left.
`cond_schedule` runs at the end of the same interrupt, and takes the mark away and gives
ten new ticks before it moves to another task. Between two entries into the kernel no
task in use is marked, and each has one to ten ticks left.

## Implementation notes

Interrupts are off in the kernel, so an entry runs to the end of `irq_handler_entry` or of
the system call. Where the entry switches, that is the end of the call in which the next
task was left. The handlers of the keyboard and of the serial line, `printl` and `__foo` do
not touch the records, and exceptions 13 and 14 end in a loop, which is no result.
-/

namespace TsOs.Tasking
open Paging

variable {k k' k₀ : Kernel} {c c' c₀ : Cpu} {img : Image} {i new retSyscall : Nat}

/-- `irq_handler_entry`. From `terminate_process` control does not come back. -/
def irqHandlerEntry (c : Cpu) (irq : Nat) : Option Cpu :=
  if irq = 13 ∨ irq = 14 then none
  else if irq = 32 then condSchedule (timerHandler c)
  else if irq = 63 then terminateProcess c
  else condSchedule c

/-- A system call by its number. Where no handler is registered, the table has a null pointer. -/
def callHandler (c : Cpu) (nr : Nat) : Option Cpu :=
  if nr = Syscalls.sysExit then terminateProcess c
  else if nr = Syscalls.sysPrintl ∨ nr = Syscalls.sysFoo then some c
  else none

/-- The assignments of `alloc_kstack_and_task` that the scheduler depends on. -/
def newTask (task : Task) (tid : Nat) : Task :=
  { task with state := taskPresent, ttl := 10, tid := tid }

/-- The entry of a new task in `task_arr`. -/
def createTask (c : Cpu) (task : Task) : Option Cpu := do
  let tid ← getNextTid c.taskArr
  enterTask c (newTask task tid)

/-- `spawn_ram`: a new task, and the switch to it. -/
def spawnTask (c : Cpu) (task : Task) : Option Cpu := do
  let tid ← getNextTid c.taskArr
  let c ← createTask c task
  return switchStacks c tid

/-- An interrupt or a system call, each with the stack pointer at a switch, and the creation of a
task with or without a switch to it. -/
inductive Entry where
  | irq (irq esp : Nat)
  | syscall (nr esp : Nat)
  | create (task : Task)
  | spawn (task : Task) (esp : Nat)

/-- From one return to a task to the next. -/
def enter (c : Cpu) : Entry → Option Cpu
  | .irq irq esp => irqHandlerEntry { c with esp := esp } irq
  | .syscall nr esp => callHandler { c with esp := esp } nr
  | .create task => createTask c task
  | .spawn task esp => spawnTask { c with esp := esp } task

/-- The state in which `init_task0` calls `spawn_ram`. -/
def beforeSpawn (k₀ : Kernel) (c : Cpu) : Option Cpu :=
  k₀.current.map fun current =>
    setupTss { c with taskArr := k₀.taskArr, current := current, cr3 := pgDir0 * frameSize }

/-- A record between two entries. -/
structure InSlice (t : Task) : Prop where
  low : 1 ≤ t.ttl
  high : t.ttl ≤ 10
  unmarked : t.state &&& taskNeedSched = 0

/-- Every task in use has ticks left, at most ten, and is not marked. -/
def InTime (c : Cpu) : Prop := ∀ i < maxTaskNum, Live c i → InSlice (c.taskArr i)

/-! ## Records through a switch -/

/-- The switch keeps what the scheduler reads of a record. -/
structure SameSlice (t t' : Task) : Prop where
  state : t'.state = t.state
  ttl : t'.ttl = t.ttl

theorem SameSlice.trans {t₁ t₂ t₃ : Task} (h : SameSlice t₁ t₂) (h' : SameSlice t₂ t₃) :
    SameSlice t₁ t₃ := ⟨h'.state.trans h.state, h'.ttl.trans h.ttl⟩

theorem InSlice.congr {t t' : Task} (h : InSlice t) (hsame : SameSlice t t') : InSlice t' :=
  ⟨hsame.ttl ▸ h.low, hsame.ttl ▸ h.high, hsame.state ▸ h.unmarked⟩

theorem setTask_slice {f : Task → Task} (hf : ∀ t, SameSlice t (f t)) (c : Cpu) (i : Nat) :
    SameSlice (c.taskArr i) ((c.setTask f).taskArr i) := by
  rw [Cpu.setTask_arr]
  split
  next hi => exact hi ▸ hf c.task
  next => exact ⟨rfl, rfl⟩

theorem switchStacks_slice (c : Cpu) (new i : Nat) :
    SameSlice (c.taskArr i) ((switchStacks c new).taskArr i) := by
  have hcr3 := setTask_slice (f := fun t => { t with phyDir := c.cr3 }) (fun _ => ⟨rfl, rfl⟩) c i
  have hesp := setTask_slice (f := fun t => { t with esp := c.esp }) (fun _ => ⟨rfl, rfl⟩)
    (c.setTask fun t => { t with phyDir := c.cr3 }) i
  exact hcr3.trans hesp

theorem contextSwitch_slice {next : Option Nat} (h : contextSwitch c next = some c') (i : Nat) :
    SameSlice (c.taskArr i) (c'.taskArr i) := by
  cases next with
  | none => exact absurd h (by simp [contextSwitch])
  | some new =>
      rw [contextSwitch] at h
      split at h
      next =>
        obtain rfl := Option.some.inj h
        exact ⟨rfl, rfl⟩
      next =>
        obtain rfl := Option.some.inj h
        exact switchStacks_slice _ new i

/-! ## What the routines do to the ticks -/

/-- `schedule` renews the running task, if it has not ended, and no other. -/
theorem schedule_slice (h : schedule c = some c') :
    (∀ i, i ≠ c.current → SameSlice (c.taskArr i) (c'.taskArr i)) ∧
      ((c'.taskArr c.current).state = c.task.state &&& (2 ^ 32 - 1 - taskNeedSched)) ∧
      (c.task.state ≠ 0 → (c'.taskArr c.current).ttl = 10) := by
  simp only [schedule] at h
  split at h
  next hlive =>
    rw [Cpu.setTask_setTask] at h
    have hslice := contextSwitch_slice h
    simp only [Cpu.setTask_arr] at hslice
    have hrunning := hslice c.current
    rw [if_pos rfl] at hrunning
    refine ⟨fun i hi => ?_, hrunning.state, fun _ => hrunning.ttl⟩
    have hi' := hslice i
    rwa [if_neg hi] at hi'
  next hidle =>
    have hslice := contextSwitch_slice h
    refine ⟨fun i _ => hslice i, ?_, fun hlive => absurd hlive hidle⟩
    have hzero : c.task.state = 0 := not_not.mp hidle
    rw [(hslice c.current).state, hzero, Nat.zero_and]
    exact hzero

/-- The timer takes one tick, and marks the task that has no tick left. -/
theorem timerHandler_slice (hlow : 1 ≤ c.task.ttl) (hhigh : c.task.ttl ≤ 10) :
    (∀ i, i ≠ c.current → SameSlice (c.taskArr i) ((timerHandler c).taskArr i)) ∧
      (timerHandler c).task.ttl = c.task.ttl - 1 ∧
      (timerHandler c).task.state =
        if c.task.ttl = 1 then c.task.state ||| taskNeedSched else c.task.state := by
  obtain ⟨harr, hcur⟩ := countTick_arr c
  have hminus : sub32 c.task.ttl 1 = c.task.ttl - 1 := sub32_of_le hlow (by omega)
  rw [timerHandler_eq, Cpu.task_setTask, countTick_task, hminus]
  refine ⟨fun i hi => ?_, rfl, if_congr ?_ rfl rfl⟩
  · rw [Cpu.setTask_arr, hcur, if_neg hi, harr]
    exact ⟨rfl, rfl⟩
  · omega

/-! ## Entries -/

/-- A task in use between two entries has the state `TASK_PRESENT`. -/
theorem present_of_inSlice {t : Task} (hmark : Marked t.state) (h : t.state &&& taskNeedSched = 0) :
    t.state = taskPresent := by
  rcases hmark with hstate | hstate
  · exact hstate
  · rw [hstate] at h
    exact absurd h (by decide)

theorem running_inSlice (hr : Ready c) (ht : InTime c) :
    InSlice c.task ∧ c.task.state = taskPresent :=
  have hslice := ht c.current hr.inRange hr.live
  ⟨hslice, present_of_inSlice (hr.numbered c.current hr.inRange hr.live).2 hslice.unmarked⟩

/-- Without a mark nothing is scheduled. -/
theorem condSchedule_unmarked (hr : Ready c) (ht : InTime c) : condSchedule c = some c := by
  have hslice := (running_inSlice hr ht).1
  rw [condSchedule, if_neg (not_not.mpr hslice.unmarked)]

/-- Where an entry changes one record only, that record decides. -/
theorem InTime.of_others (ht : InTime c) (hother : ∀ i, i ≠ new → SameSlice (c.taskArr i) (c'.taskArr i))
    (hnew : Live c' new → InSlice (c'.taskArr new)) : InTime c' := by
  intro i hi hlive
  by_cases hin : i = new
  · subst hin
    exact hnew hlive
  · have hsame := hother i hin
    rw [Live, hsame.state] at hlive
    exact (ht i hi hlive).congr hsame

theorem tick_inTime (hr : Ready c) (ht : InTime c) (h : condSchedule (timerHandler c) = some c') :
    InTime c' := by
  obtain ⟨hslice, hpresent⟩ := running_inSlice hr ht
  obtain ⟨hother, httl, hstate⟩ := timerHandler_slice hslice.low hslice.high
  have hcur := (timerHandler_spec c (Or.inl hpresent)).2
  rw [hpresent] at hstate
  rw [condSchedule] at h
  split at h
  next =>
    obtain ⟨hsame, hcleared, hrenewed⟩ := schedule_slice h
    rw [hcur] at hsame hcleared hrenewed
    have hlive : (timerHandler c).task.state ≠ 0 := by
      rw [hstate]
      split
      next => decide
      next => decide
    have hunmarked : (c'.taskArr c.current).state &&& taskNeedSched = 0 := by
      rw [hcleared, hstate]
      split
      next => decide
      next => decide
    have hten := hrenewed hlive
    exact ht.of_others (fun i hi => (hother i hi).trans (hsame i hi))
      fun _ => ⟨by omega, by omega, hunmarked⟩
  next hunmarked =>
    obtain rfl := Option.some.inj h
    have hrunning : (timerHandler c).taskArr c.current = (timerHandler c).task := by
      rw [Cpu.task, hcur]
    -- without a mark there was more than one tick
    have hmore : c.task.ttl ≠ 1 := by
      intro hone
      rw [hstate, if_pos hone] at hunmarked
      exact hunmarked (by decide)
    have hlow := hslice.low
    have hhigh := hslice.high
    refine ht.of_others hother fun _ => ?_
    rw [hrunning]
    exact ⟨by omega, by omega, not_not.mp hunmarked⟩

theorem exit_inTime (ht : InTime c) (h : terminateProcess c = some c') : InTime c' := by
  have harr := clearState_arr c
  obtain ⟨hsame, hcleared, -⟩ := schedule_slice h
  have hdead : (c'.taskArr c.current).state = 0 := by
    have htask : (clearState c).task.state = 0 := by
      change ((clearState c).taskArr c.current).state = 0
      rw [harr, if_pos rfl]
    exact hcleared.trans (by rw [htask, Nat.zero_and])
  refine ht.of_others (fun i hi => ?_) fun hlive => absurd hdead hlive
  have hkeep : (clearState c).taskArr i = c.taskArr i := by rw [harr, if_neg hi]
  exact hkeep ▸ hsame i hi

theorem newTask_inSlice (task : Task) (tid : Nat) : InSlice (newTask task tid) :=
  ⟨(by decide : 1 ≤ 10), (by decide : 10 ≤ 10), (by decide : taskPresent &&& taskNeedSched = 0)⟩

theorem createTask_spec {task : Task} (h : createTask c task = some c') :
    ∃ tid, getNextTid c.taskArr = some tid ∧ enterTask c (newTask task tid) = some c' ∧
      c' = { c with taskArr := Function.update c.taskArr tid (newTask task tid) } := by
  obtain ⟨tid, hnext, henter⟩ := Option.bind_eq_some_iff.mp h
  obtain ⟨n, -, -, hnext', -, -, harr⟩ := enterTask_spec henter
  obtain rfl : tid = n := Option.some.inj (hnext.symm.trans hnext')
  exact ⟨tid, hnext, henter, harr⟩

theorem create_inTime {task : Task} (ht : InTime c) (h : createTask c task = some c') : InTime c' := by
  obtain ⟨tid, -, -, rfl⟩ := createTask_spec h
  have hother : ∀ i, i ≠ tid →
      SameSlice (c.taskArr i) (Function.update c.taskArr tid (newTask task tid) i) := by
    intro i hi
    rw [Function.update_of_ne hi]
    exact ⟨rfl, rfl⟩
  refine ht.of_others hother fun _ => ?_
  simp only [Function.update_self]
  exact newTask_inSlice task tid

/-- The switch of `spawn_ram` leaves the new task running. -/
theorem spawn_ready {task : Task} (hr : Ready c) (h : spawnTask c task = some c') : Ready c' := by
  obtain ⟨tid, hnext, h⟩ := Option.bind_eq_some_iff.mp h
  obtain ⟨c₁, hcreate, h⟩ := Option.bind_eq_some_iff.mp h
  obtain rfl := Option.some.inj h
  obtain ⟨n, hnext', henter, harr⟩ := createTask_spec hcreate
  obtain rfl : tid = n := Option.some.inj (hnext.symm.trans hnext')
  have hr₁ : Ready c₁ := step_ready (e := .create _) hr henter
  have hsame := switchStacks_same c₁ tid
  have hlt := (getNextTid_spec hnext).1
  have hlive : Live c₁ tid := by
    rw [Live, harr]
    simp only [Function.update_self]
    change taskPresent ≠ 0
    decide
  exact ⟨hlt, (hsame.live hr₁.numbered hlt).mpr hlive, hsame.numbered hr₁.numbered⟩

theorem spawn_inTime {task : Task} (ht : InTime c) (h : spawnTask c task = some c') : InTime c' := by
  obtain ⟨tid, -, h⟩ := Option.bind_eq_some_iff.mp h
  obtain ⟨c₁, hcreate, h⟩ := Option.bind_eq_some_iff.mp h
  obtain rfl := Option.some.inj h
  have ht₁ := create_inTime ht hcreate
  intro i hi hlive
  have hsame := switchStacks_slice c₁ tid i
  rw [Live, hsame.state] at hlive
  exact (ht₁ i hi hlive).congr hsame

/-- Tasks can run, and none is out of time. -/
structure Running (c : Cpu) : Prop where
  ready : Ready c
  inTime : InTime c

theorem irqHandlerEntry_running {irq : Nat} (hc : Running c) (h : irqHandlerEntry c irq = some c') :
    Running c' := by
  rw [irqHandlerEntry] at h
  split_ifs at h
  · exact ⟨step_ready (e := .timer c.esp) hc.ready h, tick_inTime hc.ready hc.inTime h⟩
  · exact ⟨step_ready (e := .exit c.esp) hc.ready h, exit_inTime hc.inTime h⟩
  · obtain rfl := Option.some.inj ((condSchedule_unmarked hc.ready hc.inTime).symm.trans h)
    exact hc

theorem callHandler_running {nr : Nat} (hc : Running c) (h : callHandler c nr = some c') :
    Running c' := by
  rw [callHandler] at h
  split_ifs at h
  · exact ⟨step_ready (e := .exit c.esp) hc.ready h, exit_inTime hc.inTime h⟩
  · obtain rfl := Option.some.inj h
    exact hc

/-- Every entry returns with the tasks in time. -/
theorem enter_running {e : Entry} (hc : Running c) (h : enter c e = some c') : Running c' := by
  have hesp : ∀ esp, Running { c with esp := esp } := fun esp =>
    ⟨⟨hc.ready.inRange, hc.ready.live, hc.ready.numbered⟩, hc.inTime⟩
  cases e with
  | irq irq esp => exact irqHandlerEntry_running (hesp esp) h
  | syscall nr esp => exact callHandler_running (hesp esp) h
  | create task =>
      obtain ⟨tid, -, henter, -⟩ := createTask_spec h
      exact ⟨step_ready (e := .create _) hc.ready henter, create_inTime hc.inTime h⟩
  | spawn task esp =>
      exact ⟨spawn_ready (hesp esp).ready h, spawn_inTime (hesp esp).inTime h⟩

/-! ## From the start -/

/-- `spawn_ram` is an entry, with the record that `load_task` makes. -/
theorem spawnRam_enter {ρ : Nat → Tag} {F : Nat} (hs : Sound ρ F k) (himg : img.BelowStack)
    (harr : c.taskArr = k.taskArr) (h : spawnRam retSyscall k c img = some c') :
    ∃ task, enter c (.spawn task c.esp) = some c' := by
  obtain ⟨tid, hnext, h⟩ := Option.bind_eq_some_iff.mp h
  obtain ⟨k₁, hload, h⟩ := Option.bind_eq_some_iff.mp h
  obtain rfl := Option.some.inj h
  obtain ⟨n, D, task, hfilled, hnext', henter⟩ := loadTask_enterTask hs himg hload c
  obtain rfl : tid = n := Option.some.inj (hnext.symm.trans hnext')
  refine ⟨task, ?_⟩
  have hrecord : newTask task tid = task := by
    rw [newTask, ← hfilled.state, ← hfilled.ttl, ← hfilled.tid]
  have hcreate : createTask c task = some { c with taskArr := k₁.taskArr } := by
    rw [createTask, harr, hnext, Option.bind_eq_bind, Option.bind_some, hrecord, ← henter, ← harr]
  change spawnTask c task = _
  rw [spawnTask, harr, hnext, Option.bind_eq_bind, Option.bind_some, hcreate]
  rfl

theorem beforeSpawn_running (hb : Booted k) (hinit : initTask0 k = some k₀)
    (hstart : beforeSpawn k₀ c = some c₀) : Running c₀ := by
  obtain ⟨⟨ρ, F, hs⟩, honly, hcur, hfirst⟩ := initTask0_sound hb hinit
  rw [beforeSpawn, hcur] at hstart
  obtain rfl := Option.some.inj hstart
  refine ⟨⟨(by decide : 0 < maxTaskNum), hs.first.1.2, fun i hi hlive => ?_⟩, fun i hi hlive => ?_⟩
  · obtain rfl := honly i ⟨hi, hlive⟩
    exact ⟨hfirst.tid, Or.inl hfirst.state⟩
  · obtain rfl := honly i ⟨hi, hlive⟩
    change InSlice (k₀.taskArr 0)
    have hten := hfirst.ttl
    refine ⟨by omega, by omega, ?_⟩
    rw [hfirst.state]
    decide

/-- `init_task0` up to its transfer of control takes the first entry. -/
theorem startTasks_enter (hb : Booted k) (himg : img.BelowStack)
    (h : startTasks retSyscall k c img = some c') :
    ∃ k₀ c₀ task, initTask0 k = some k₀ ∧ beforeSpawn k₀ c = some c₀ ∧
      enter c₀ (.spawn task c₀.esp) = some c' := by
  obtain ⟨k₀, hinit, h⟩ := Option.bind_eq_some_iff.mp h
  obtain ⟨current, hcur, h⟩ := Option.bind_eq_some_iff.mp h
  obtain ⟨⟨ρ, F, hs⟩, -⟩ := initTask0_sound hb hinit
  obtain ⟨task, henter⟩ := spawnRam_enter hs himg rfl h
  refine ⟨k₀, _, task, hinit, ?_, henter⟩
  rw [beforeSpawn, hcur]
  rfl

/-- At every return to a task, each task in use has one to ten ticks and no mark, so that the next
tick does not go below zero. -/
theorem always_inTime (hb : Booted k) (hinit : initTask0 k = some k₀)
    (hstart : beforeSpawn k₀ c = some c₀) (es : List Entry) :
    Transition.Always enter
      (fun c => InTime c ∧ (timerHandler c).task.ttl + 1 = c.task.ttl) c₀ es := by
  have hguard : Transition.Guarded enter (fun _ _ => True) c₀ es :=
    Transition.guarded_of_forall fun _ _ _ => trivial
  refine Transition.always_of_step (fun c e c' hc _ h => enter_running hc h)
    (fun c hc => ⟨hc.inTime, ?_⟩) (beforeSpawn_running hb hinit hstart) hguard
  have hslice := (running_inSlice hc.ready hc.inTime).1
  have httl := (timerHandler_slice hslice.low hslice.high).2.1
  have hlow := hslice.low
  omega

/-- A new task, a key, twelve ticks, the end of task 0, and ten ticks of the only task left. -/
def sampleEntries : List Entry :=
  [.spawn ⟨0, 0, 0, 0, 0, 0, 0⟩ 0, .irq 33 0] ++ List.replicate 12 (.irq 32 0) ++
    .syscall Syscalls.sysExit 0 :: List.replicate 10 (.irq 32 0)

theorem always_inTime_sample : ∃ k₀ c₀ c', initTask0 bootKernel = some k₀ ∧
    beforeSpawn k₀ bootCpu = some c₀ ∧ Transition.run enter c₀ sampleEntries = some c' ∧
    c'.current = 1 ∧ InTime c' := by
  have heval : ((initTask0 bootKernel).bind fun k₀ => (beforeSpawn k₀ bootCpu).bind fun c₀ =>
      Transition.run enter c₀ sampleEntries).elim false (fun c' => decide (c'.current = 1)) = true := by
    decide +kernel
  cases hinit : initTask0 bootKernel with
  | none => exact absurd heval (by rw [hinit]; decide)
  | some k₀ =>
      rw [hinit, Option.bind_some] at heval
      cases hstart : beforeSpawn k₀ bootCpu with
      | none => exact absurd heval (by rw [hstart]; decide)
      | some c₀ =>
          rw [hstart, Option.bind_some] at heval
          cases hrun : Transition.run enter c₀ sampleEntries with
          | none => exact absurd heval (by rw [hrun]; decide)
          | some c' =>
              rw [hrun] at heval
              have halways := always_inTime booted_bootKernel hinit hstart sampleEntries
              exact ⟨k₀, c₀, c', rfl, hstart, hrun, of_decide_eq_true heval,
                (Transition.always_last _ halways hrun).1⟩

end TsOs.Tasking
