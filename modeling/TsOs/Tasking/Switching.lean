import TsOs.Tasking.Model

/-!
# Switching between tasks

The rest of `init_task0`, and the code that moves the processor from one task to
another: the timer interrupt with `cond_schedule`, and `terminate_process` behind
`SYS_EXIT`. A run is a list of such events. Creating a task is an event too; here
only its entry in `task_arr` matters.

## Implementation notes

The stack pointer at a switch depends on the code that was interrupted, so an event
carries the value that `__context_switch` saves. A null task is no result of `schedule`:
the words at address 0 are not a task. `current` is an index of `task_arr`.
-/

namespace TsOs.Tasking
open Paging

/-- `TASK_NEED_SCHED`. -/
def taskNeedSched : Nat := 2

/-- `TIMER_FREQUENCY`. -/
def timerFrequency : Nat := 25

/-- The task array, `current`, the fields of `tss_entry` that are used, the registers that a
switch exchanges, and the counters of the timer. -/
structure Cpu where
  taskArr : Nat → Task
  current : Nat
  tssEsp0 : Nat
  tssSs0 : Nat
  cr3 : Nat
  esp : Nat
  secs : Nat
  freqCounter : Nat

namespace Cpu

/-- The record that `current` points to. -/
def task (c : Cpu) : Task := c.taskArr c.current

/-- Assignments through `current`. -/
def setTask (c : Cpu) (f : Task → Task) : Cpu :=
  { c with taskArr := Function.update c.taskArr c.current (f c.task) }

theorem setTask_arr (c : Cpu) (f : Task → Task) (i : Nat) :
    (c.setTask f).taskArr i = if i = c.current then f c.task else c.taskArr i :=
  Function.update_apply c.taskArr c.current (f c.task) i

theorem task_setTask (c : Cpu) (f : Task → Task) : (c.setTask f).task = f c.task := by
  change (c.setTask f).taskArr c.current = _
  rw [setTask_arr, if_pos rfl]

/-- Two assignments through `current` are one. -/
theorem setTask_setTask (c : Cpu) (f g : Task → Task) :
    (c.setTask f).setTask g = c.setTask fun t => g (f t) := by
  rw [setTask, task_setTask, setTask, setTask, Function.update_idem]

end Cpu

/-- `__context_switch`, from the save of `cr3` to the return on the new stack. -/
def switchStacks (c : Cpu) (new : Nat) : Cpu :=
  let c := c.setTask fun t => { t with phyDir := c.cr3 }
  let c := c.setTask fun t => { t with esp := c.esp }
  { c with current := new, esp := (c.taskArr new).esp, cr3 := (c.taskArr new).phyDir }

def contextSwitch (c : Cpu) : Option Nat → Option Cpu
  | none => none
  | some new =>
      if c.current = new then some c
      else some (switchStacks { c with tssEsp0 := (c.taskArr new).esp0, tssSs0 := 0x10 } new)

/-- The loop of `schedule`: the pointer that it passes to `context_switch`. -/
def nextTask (c : Cpu) : Option Nat :=
  let slot := fun i => u32 (c.task.tid + i) % maxTaskNum
  (firstIndex (fun i => (c.taskArr (slot i)).state ≠ 0) maxTaskNum 1).map slot

def schedule (c : Cpu) : Option Cpu :=
  let next := nextTask c
  if c.task.state ≠ 0 then
    let c := c.setTask fun t => { t with state := t.state &&& (2 ^ 32 - 1 - taskNeedSched) }
    let c := c.setTask fun t => { t with ttl := 10 }
    contextSwitch c next
  else contextSwitch c next

def condSchedule (c : Cpu) : Option Cpu :=
  if c.task.state &&& taskNeedSched ≠ 0 then schedule c else some c

/-- The first part of `timer_handler`. -/
def countTick (c : Cpu) : Cpu :=
  let c := { c with freqCounter := u32 (c.freqCounter + 1) }
  if timerFrequency ≤ c.freqCounter then { c with secs := u32 (c.secs + 1), freqCounter := 0 } else c

def timerHandler (c : Cpu) : Cpu :=
  let c := (countTick c).setTask fun t => { t with ttl := sub32 t.ttl 1 }
  if c.task.ttl = 0 then c.setTask fun t => { t with state := t.state ||| taskNeedSched } else c

/-- The assignment at the start of `terminate_process`. -/
def clearState (c : Cpu) : Cpu := c.setTask fun t => { t with state := 0 }

def terminateProcess (c : Cpu) : Option Cpu := schedule (clearState c)

/-- The entry that `load_task` makes in `task_arr`. -/
def enterTask (c : Cpu) (task : Task) : Option Cpu := do
  let tid ← getNextTid c.taskArr
  if task.tid = tid ∧ task.state = taskPresent then
    some { c with taskArr := Function.update c.taskArr tid task }
  else none

/-- A timer interrupt, `SYS_EXIT` of the running task, and a call of `load_task`. The first two
come with the stack pointer at a switch. -/
inductive Event where
  | timer (esp : Nat)
  | exit (esp : Nat)
  | create (task : Task)

def step (c : Cpu) : Event → Option Cpu
  | .timer esp => condSchedule (timerHandler { c with esp := esp })
  | .exit esp => terminateProcess { c with esp := esp }
  | .create task => enterTask c task

/-- The state in which the event calls `schedule`, if it does. -/
def atSchedule (c : Cpu) : Event → Option Cpu
  | .timer esp =>
      let c := timerHandler { c with esp := esp }
      if c.task.state &&& taskNeedSched ≠ 0 then some c else none
  | .exit esp => some (clearState { c with esp := esp })
  | .create _ => none

/-- The task that the event makes `schedule` select, if it is called. -/
def selection (c : Cpu) (e : Event) : Option Nat := (atSchedule c e).bind nextTask

/-- The selections of a run, in order. -/
def selections : Cpu → List Event → List Nat
  | _, [] => []
  | c, e :: es =>
      match step c e with
      | some c' => (selection c e).toList ++ selections c' es
      | none => []

/-! ## Start -/

def setupTss (c : Cpu) : Cpu := { c with tssEsp0 := 0xFFFFFF00, tssSs0 := 0x10 }

/-- `spawn_ram`. The new task is in the slot that `get_next_tid` finds. -/
def spawnRam (retSyscall : Nat) (k : Kernel) (c : Cpu) (img : Image) : Option Cpu := do
  let task ← getNextTid k.taskArr
  let k ← loadTask retSyscall pgDir0 k img
  return switchStacks { c with taskArr := k.taskArr } task

/-- `init_task0` up to its transfer of control to the task of `image`. -/
def startTasks (retSyscall : Nat) (k : Kernel) (c : Cpu) (img : Image) : Option Cpu := do
  let k ← initTask0 k
  let current ← k.current
  spawnRam retSyscall k
    (setupTss { c with taskArr := k.taskArr, current := current, cr3 := pgDir0 * frameSize }) img

end TsOs.Tasking
