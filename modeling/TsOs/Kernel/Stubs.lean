import TsOs.Library.Traps

/-!
# Entry stubs

The stubs of `kernel_entry.asm` save the state of the interrupted code, call a handler
and restore what they saved. `ISR_ERRCODE` is for the exceptions that come with an error
code, and finds it through the stack pointer that it stores first.

Whatever was interrupted, at any privilege level, goes on with its registers, its
segments, its flags and its stack as they were, if the handler keeps to the calling
convention.
-/

namespace TsOs.Stubs
open Ia32

/-- The instructions of a stub around its call. -/
structure Stub where
  before : List Instr
  after : List Instr

/-- Saving the registers and loading the segments of the kernel. -/
def saveAll : List Instr :=
  [.pushSeg .gs, .pushSeg .fs, .pushSeg .es, .pushSeg .ds, .pusha, .movLow .eax 0x10,
    .movSeg .ds .eax, .movSeg .es .eax, .movSeg .fs .eax, .movSeg .gs .eax]

def restoreAll : List Instr :=
  [.addImm .esp 8, .popa, .popSeg .ds, .popSeg .es, .popSeg .fs, .popSeg .gs]

/-- `ISR_NOERRCODE`. -/
def isrNoErrCode (n : Word) : Stub where
  before := .cli :: saveAll ++ [.pushImm 0, .pushImm n]
  after := restoreAll

/-- `ISR_ERRCODE`. -/
def isrErrCode (errCodeTmp n : Word) : Stub where
  before := [.cli, .storeAbs errCodeTmp .esp] ++ saveAll ++
    [.loadAbs .eax errCodeTmp, .load .eax .eax 0, .push .eax, .pushImm n]
  after := restoreAll ++ [.addImm .esp 4]

/-- The stubs up to number 62. -/
def isr (errCodeTmp : Word) (n : Nat) : Stub :=
  if n = 8 ∨ 10 ≤ n ∧ n ≤ 14 then isrErrCode errCodeTmp (BitVec.ofNat 32 n)
  else isrNoErrCode (BitVec.ofNat 32 n)

/-- The selectors of the kernel's code and data. -/
def kernelCode : BitVec 16 := 0x08

def kernelData : BitVec 16 := 0x10

variable (alu : State → Word)

/-- The state in which a stub calls its handler. -/
def atCall (tss : Tss) (stub : Stub) (offset : Word) (err : Option Word) (s : State) : State :=
  run alu (trap tss kernelCode offset err s) stub.before

variable {alu} {tss : Tss} {offset n errCodeTmp : Word} {err : Option Word} {handler : State → State} {s : State}

/-- The state after the pops of a stub, which has `words` words less on the stack. -/
structure Restored (s u r : State) (words : Nat) : Prop where
  reg : ∀ x, x ≠ .esp → r.reg x = s.reg x
  seg : ∀ g, g ≠ .cs → g ≠ .ss → r.seg g = s.seg g
  cs : r.seg .cs = u.seg .cs
  ss : r.seg .ss = u.seg .ss
  cr3 : r.cr3 = u.cr3
  mem : r.mem = u.mem
  esp : r.esp = u.esp + BitVec.ofNat 32 (4 * words)

/-- The word that holds the address of the error code lies apart from what a stub uses of the stack. -/
structure Apart (errCodeTmp esp : Word) : Prop where
  above : 24 ≤ (errCodeTmp - esp).toNat
  below : (errCodeTmp - esp).toNat + 52 ≤ 2 ^ 32

/-- What the instructions before a call leave of the state `t`, with the words that they push. -/
structure Pushed (t c : State) (vs : List Word) : Prop where
  mem : c.mem = (t.pushAll vs).mem
  esp : c.esp = (t.pushAll vs).esp
  cs : c.seg .cs = t.seg .cs
  ss : c.seg .ss = t.seg .ss
  cr3 : c.cr3 = t.cr3

/-- User code in a memory. -/
def sampleUser (m : Memory) : State where
  reg := fun _ => 0
  seg := fun g => if g = .cs then 0x1b else 0x23
  eip := 0
  eflags := 0x200
  cr3 := 0
  mem := m

def sampleTss : Tss := ⟨0xC0F00000, kernelData⟩

end TsOs.Stubs
