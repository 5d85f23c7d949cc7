import TsOs.Library.ByteMemory
import TsOs.Paging.Model

/-!
# Creating tasks

`init_task0` up to the first task, and `load_task` with the routines it calls, run
with `pg_dir0` as the active directory and without a context switch in between.

The `Task` record of a new task lies at the end of its kernel stack, a trap frame
before it; both are words of the stack's frame. `task_arr` has a copy of the record.

## Implementation notes

An image is read from the part of the address space that the early initialisation
maps: the first megabyte and sixteen megabytes at `KERNEL_V_START`. As in the paging
model, `none` stands for a fault, a failed `ASSERT` and an exhausted table.
-/

namespace TsOs.Tasking
open ByteMemory Paging

/-- `MAX_TASK_NUM`. -/
def maxTaskNum : Nat := 32

/-- `TASK_PRESENT`. -/
def taskPresent : Nat := 1

/-- `struct Task`. -/
structure Task where
  esp : Nat
  phyDir : Nat
  esp0 : Nat
  ptid : Nat
  tid : Nat
  state : Nat
  ttl : Nat
  deriving DecidableEq

/-- The machine, `task_arr` and `current`, which is null before the first task. -/
structure Kernel where
  machine : Machine
  taskArr : Nat → Task
  current : Option Nat

/-- An image at `base` of a memory. -/
structure Image where
  base : Nat
  mem : Mem

namespace Image

/-- Field `i` of `struct TsExHeader`. -/
def field (img : Image) (i : Nat) : Nat := load32 img.mem (img.base + 4 * i)

def magic (img : Image) : Nat := img.field 0

def lmaText (img : Image) : Nat := img.field 1

def vmaText (img : Image) : Nat := img.field 2

def textSize (img : Image) : Nat := img.field 3

def lmaData (img : Image) : Nat := img.field 4

def vmaData (img : Image) : Nat := img.field 5

def dataSize (img : Image) : Nat := img.field 6

/-- The words of the page that `memcpy` reads at `addr`. -/
def readPage (img : Image) (addr : Nat) : Option (Nat → BitVec 32) :=
  if addr + frameSize ≤ oneMB ∨
      kernelVStart ≤ addr ∧ addr + frameSize ≤ kernelVStart + userPStart then
    some fun i => BitVec.ofNat 32 (load32 img.mem (addr + 4 * i))
  else none

end Image

/-- The first word of the record at the end of a stack, `KSTACK_TO_TASK`. -/
def taskWord : Nat := 1017

/-- `sizeof(struct Task)`. -/
def taskSize : Nat := 28

/-- `sizeof(struct TrapFrame)`. -/
def trapFrameSize : Nat := 76

/-- The first word of the trap frame. -/
def tfWord : Nat := 998

/-- Assignments through one mapping. -/
def pokes (s : Machine) (p : Nat) : List (Nat × Nat) → Option Machine
  | [] => some s
  | (j, v) :: rest => (poke s p j v).bind fun s => pokes s p rest

/-- The record at the end of a mapped stack. -/
def readTask (s : Machine) (stack : Nat) : Option Task := do
  let esp ← peek s stack taskWord
  let phyDir ← peek s stack (taskWord + 1)
  let esp0 ← peek s stack (taskWord + 2)
  let ptid ← peek s stack (taskWord + 3)
  let tid ← peek s stack (taskWord + 4)
  let state ← peek s stack (taskWord + 5)
  let ttl ← peek s stack (taskWord + 6)
  return ⟨esp, phyDir, esp0, ptid, tid, state, ttl⟩

def getNextTid (arr : Nat → Task) : Option Nat :=
  firstIndex (fun i => (arr i).state = 0) maxTaskNum 0

/-- `current->tid`. Reading through the null pointer gives a word of the first page. -/
def currentTid (k : Kernel) (s : Machine) : Nat :=
  match k.current with
  | some i => (k.taskArr i).tid
  | none => word s 0 4

/-- `alloc_kstack_and_task`: the mapping of the stack and the new state. -/
def allocKstackAndTask (k : Kernel) (newCr3 : Nat) : Option (Nat × Kernel) := do
  let (newPgDir, s) ← createTempVa k.machine newCr3
  let s ← requestRegionVmap s newPgDir kstackFrame frameSize pageFlgKernel
  let (stackPhy, s) ← getPhyFromDir s newPgDir kstackFrame
  let (stack, s) ← createTempVa s stackPhy
  let s ← pokes s stack [(taskWord + 1, newCr3 * frameSize),
    (taskWord + 2, kstackFrame + frameSize - taskSize - 4),
    (taskWord + 3, currentTid k s),
    (taskWord + 5, taskPresent),
    (taskWord + 6, 10)]
  let tid ← getNextTid k.taskArr
  let s ← poke s stack (taskWord + 4) tid
  let task ← readTask s stack
  return (stack, { k with
    machine := deleteTempVa s newPgDir
    taskArr := Function.update k.taskArr tid task })

/-- The loops of `create_task_address_space` that copy a section page by page. -/
def copySection (img : Image) (dir vmaImgEnd : Nat) : Nat → Machine → Nat → Nat → Option Machine
  | 0, _, _, _ => none
  | n + 1, s, vmaImg, vma =>
      if vmaImg < vmaImgEnd then do
        let (pagePhy, s) ← getPhyFromDir s dir vma
        let (page, s) ← createTempVa s pagePhy
        let src ← img.readPage vmaImg
        let s ← memcpy s src page
        copySection img dir vmaImgEnd n (deleteTempVa s page) (u32 (vmaImg + frameSize))
          (u32 (vma + frameSize))
      else some s

def createTaskAddressSpace (s : Machine) (stack : Nat) (img : Image) : Option Machine :=
  if img.magic ≠ 0xABCD1234 then none
  else if img.vmaData % frameSize ≠ 0 then none
  else do
    let phyDir ← peek s stack (taskWord + 1)
    let (dir, s) ← getTempVa s (frameNb phyDir)
    let imgTextBase := u32 (img.base + img.lmaText)
    let imgDataBase := u32 (img.base + img.lmaData)
    let s ← requestRegionVmap s dir img.vmaText img.textSize pageFlgUsr
    let s ← copySection img dir (u32 (imgTextBase + img.textSize)) pageFuel s imgTextBase
      (pageAddr img.vmaText)
    let s ← requestRegionVmap s dir img.vmaData img.dataSize pageFlgUsr
    let s ← copySection img dir (u32 (imgDataBase + img.dataSize)) pageFuel s imgDataBase
      img.vmaData
    let s ← requestRegionVmap s dir ustackFrame frameSize pageFlgUsr
    return deleteTempVa s dir

/-- The loop of `load_task` that links the kernel's slots. -/
def linkKernel (parentDir newPgDir : Nat) : Nat → Machine → Nat → Option Machine
  | 0, s, _ => some s
  | n + 1, s, i =>
      (poke s newPgDir i (word s parentDir i)).bind fun s => linkKernel parentDir newPgDir n s (i + 1)

/-- The assignments to the trap frame, the clearing `memset` first. -/
def trapFrame (retSyscall : Nat) : List (Nat × Nat) :=
  (List.range 19).map (fun i => (tfWord + i, 0)) ++
    [(tfWord + 15, 0x1b), (tfWord + 9, retSyscall), (tfWord + 18, 0x23), (tfWord + 12, 0x23),
      (tfWord + 13, 0x23), (tfWord + 11, 0x23), (tfWord + 10, 0x23), (tfWord + 14, 0),
      (tfWord + 17, ustackFrame + frameSize - 4), (tfWord + 16, 2 ^ 9)]

/-- The mappings that `load_task` holds while it runs, and the frame of the new directory. -/
structure NewDir where
  newPgDir : Nat
  newPgDirPhy : Nat
  revTb : Nat
  sysPg : Nat

/-- The first part of `load_task`: a directory with its system mappings. -/
def prepareDir (s : Machine) : Option (NewDir × Machine) := do
  let (newPgDir, newPgDirPhy, s) ← allocPage s
  let (revTb, revTbPhy, s) ← allocPage s
  let (sysPg, sysPgPhy, s) ← allocPage s
  let s ← pgDirAdd s newPgDir revTb 1023 revTbPhy pageFlgKernel
  let s ← poke s sysPg 1023 (pageEntry newPgDirPhy pageFlgKernel)
  let s ← pgDirAdd s newPgDir revTb 1022 sysPgPhy pageFlgKernel
  return (⟨newPgDir, newPgDirPhy, revTb, sysPg⟩, s)

/-- The last part of `load_task`: the record, the address space and the trap frame. -/
def finishTask (retSyscall : Nat) (d : NewDir) (k : Kernel) (img : Image) : Option Kernel := do
  let (kernelStack, k) ← allocKstackAndTask k d.newPgDirPhy
  let newTid ← peek k.machine kernelStack (taskWord + 4)
  let s ← createTaskAddressSpace k.machine kernelStack img
  let s ← poke s kernelStack taskWord (kstackFrame + frameSize - taskSize - trapFrameSize)
  let s ← pokes s kernelStack (trapFrame retSyscall)
  let task ← readTask s kernelStack
  return { k with
    machine := deleteTempVa (deleteTempVa (deleteTempVa (deleteTempVa s d.newPgDir) d.revTb)
      d.sysPg) kernelStack
    taskArr := Function.update k.taskArr newTid task }

/-- `load_task` with the address of `__ret_syscall`. -/
def loadTask (retSyscall parentDir : Nat) (k : Kernel) (img : Image) : Option Kernel := do
  let (d, s) ← prepareDir k.machine
  let s ← linkKernel parentDir d.newPgDir (1022 - pageDirIndex kernelVStart) s
    (pageDirIndex kernelVStart)
  finishTask retSyscall d { k with machine := s } img

/-- The loop at the start of `init_task0`. -/
def clearTasks (k : Kernel) : Kernel :=
  { k with taskArr := fun i =>
      if i < maxTaskNum then { k.taskArr i with state := 0 } else k.taskArr i }

/-- `init_task0` up to the first call of `load_task`. -/
def initTask0 (k : Kernel) : Option Kernel := do
  let (kstack, k) ← allocKstackAndTask (clearTasks k) pgDir0
  let tid ← peek k.machine kstack (taskWord + 4)
  return { k with current := some tid }

end TsOs.Tasking
