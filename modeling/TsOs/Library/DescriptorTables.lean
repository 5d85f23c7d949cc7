import TsOs.Library.Traps

/-!
# Descriptor tables on IA-32

Where a trap goes is read from memory: the gate of its vector from the interrupt table, the segment of
the handler from the global table, and the stack from the task segment. `deliver` makes the checks of the
processor in its order. `portAllowed` is its check of an access to a port.

## Implementation notes

There are no local tables, no task gates and no virtual mode. Segments are flat, as in `State`.
-/

namespace Ia32
open ByteMemory

/-- The register of a table. -/
structure TableReg where
  base : Word
  limit : Nat

/-- A segment descriptor. The access byte has the present bit, the privilege level and the type. -/
structure Segment where
  base : Word
  limit : Nat
  access : Nat

/-- A gate of the interrupt table. -/
structure Gate where
  offset : Word
  selector : BitVec 16
  access : Nat

def present (access : Nat) : Bool := access / 128 % 2 = 1

/-- The privilege level of a descriptor. -/
def dpl (access : Nat) : Nat := access / 32 % 4

/-- The lower five bits: system descriptor or not, and the type. -/
def kind (access : Nat) : Nat := access % 32

/-- A segment of code that runs at its own privilege level only. -/
def nonconforming (access : Nat) : Bool := 0x18 ≤ kind access ∧ kind access / 4 % 2 = 0

def isCode (access : Nat) : Bool := 0x18 ≤ kind access

def writableData (access : Nat) : Bool := 0x10 ≤ kind access ∧ kind access < 0x18 ∧ kind access / 2 % 2 = 1

/-- A descriptor from its bytes. With the granularity bit the limit counts pages. -/
def segmentOf (b : Mem) : Segment where
  base := BitVec.ofNat 32 (load b 2 3 + 2 ^ 24 * load b 7 1)
  limit :=
    let pages := load16 b 0 + 2 ^ 16 * (load b 6 1 % 16)
    if load b 6 1 / 128 % 2 = 1 then 4096 * pages + 4095 else pages
  access := load b 5 1

def gateOf (b : Mem) : Gate where
  offset := BitVec.ofNat 32 (load16 b 0 + 2 ^ 16 * load16 b 6)
  selector := BitVec.ofNat 16 (load16 b 2)
  access := load b 5 1

def segmentAt (m : Memory) (a : Word) : Segment := segmentOf (view m a)

def gateAt (m : Memory) (a : Word) : Gate := gateOf (view m a)

/-- What `lgdt` and `lidt` load. -/
def tableAt (m : Memory) (a : Word) : TableReg := ⟨readWord m (a + 2), load16 (view m a) 0⟩

/-- The registers for the tables, and what `ltr` has loaded. -/
structure Tables where
  gdt : TableReg
  idt : TableReg
  tr : BitVec 16
  task : Segment

/-- The exceptions of a delivery, with their error codes. -/
inductive Fault
  | invalidTss (code : Nat)
  | notPresent (code : Nat)
  | stackFault (code : Nat)
  | generalProtection (code : Nat)
  deriving DecidableEq

/-- An instruction `int`, or the hardware. -/
inductive Source
  | software
  | hardware
  deriving DecidableEq

/-- The bit of an error code for events from outside of the program. -/
def Source.ext : Source → Nat
  | .software => 0
  | .hardware => 1

/-- The error code for a selector. -/
def Source.code (source : Source) (selector : BitVec 16) : Nat := selector.toNat / 4 * 4 + source.ext

/-- The error code for a vector. -/
def Source.vectorCode (source : Source) (vector : Nat) : Nat := 8 * vector + 2 + source.ext

/-- The descriptor of a selector in the global table. -/
def lookup (gdt : TableReg) (m : Memory) (selector : BitVec 16) : Option Segment :=
  if selector.toNat / 4 = 0 ∨ selector.toNat / 4 % 2 = 1 ∨ gdt.limit < selector.toNat / 8 * 8 + 7 then none
  else some (segmentAt m (gdt.base + BitVec.ofNat 32 (selector.toNat / 8 * 8)))

/-- `ltr` takes an available task segment. It marks the descriptor busy, which is a store to the table. -/
def ltr (gdt : TableReg) (m : Memory) (selector : BitVec 16) : Except Fault Segment :=
  match lookup gdt m selector with
  | none => .error (.generalProtection (Source.software.code selector))
  | some task =>
      if kind task.access ≠ 0x09 then .error (.generalProtection (Source.software.code selector))
      else if present task.access then .ok task
      else .error (.notPresent (Source.software.code selector))

/-- The stack for a privilege level, from the task segment. -/
def innerStack (t : Tables) (m : Memory) (level : Nat) (source : Source) : Except Fault Tss :=
  if t.task.limit < 8 * level + 9 then .error (.invalidTss (source.code t.tr))
  else
    let esp0 := readWord m (t.task.base + BitVec.ofNat 32 (8 * level + 4))
    let ss0 := BitVec.ofNat 16 (load16 (view m (t.task.base + BitVec.ofNat 32 (8 * level + 8))) 0)
    match lookup t.gdt m ss0 with
    | none => .error (.invalidTss (source.code ss0))
    | some stack =>
        if ss0.toNat % 4 ≠ level ∨ dpl stack.access ≠ level ∨ writableData stack.access = false then
          .error (.invalidTss (source.code ss0))
        else if present stack.access then .ok ⟨esp0, ss0⟩
        else .error (.stackFault (source.code ss0))

/-- Into the handler, on another stack or on the same one. An interrupt gate turns interrupts off. -/
def enterGate (stack : Option Tss) (gate : Gate) (level : Nat) (err : Option Word) (s : State) : State :=
  let above := stack.elim [] fun _ => [(s.seg .ss).setWidth 32, s.esp]
  let onto := stack.elim s fun tss => (s.setReg .esp tss.esp0).setSeg .ss tss.ss0
  let cleared := if kind gate.access = 0x0E then trapMask ||| interruptFlag else trapMask
  { (onto.pushAll (above ++ [s.eflags, (s.seg .cs).setWidth 32, s.eip] ++ err.toList)).setSeg .cs
      (BitVec.ofNat 16 (gate.selector.toNat / 4 * 4 + level)) with
    eip := gate.offset
    eflags := s.eflags &&& ~~~cleared }

/-- Behind the gate: the code segment, and for code of another privilege level its stack. -/
def throughGate (t : Tables) (source : Source) (gate : Gate) (err : Option Word) (s : State) :
    Except Fault State :=
  match lookup t.gdt s.mem gate.selector with
  | none => .error (.generalProtection (source.code gate.selector))
  | some code =>
      if isCode code.access = false ∨ s.cpl < dpl code.access then
        .error (.generalProtection (source.code gate.selector))
      else if present code.access = false then .error (.notPresent (source.code gate.selector))
      else if nonconforming code.access ∧ dpl code.access < s.cpl then
        (innerStack t s.mem (dpl code.access) source).map fun tss =>
          enterGate (some tss) gate (dpl code.access) err s
      else .ok (enterGate none gate s.cpl err s)

/-- An interrupt or exception on its way to the handler. -/
def deliver (t : Tables) (source : Source) (vector : Nat) (err : Option Word) (s : State) :
    Except Fault State :=
  let gate := gateAt s.mem (t.idt.base + BitVec.ofNat 32 (8 * vector))
  if t.idt.limit < 8 * vector + 7 then .error (.generalProtection (source.vectorCode vector))
  else if kind gate.access ≠ 0x0E ∧ kind gate.access ≠ 0x0F then
    .error (.generalProtection (source.vectorCode vector))
  else if source = .software ∧ dpl gate.access < s.cpl then
    .error (.generalProtection (source.vectorCode vector))
  else if present gate.access = false then .error (.notPresent (source.vectorCode vector))
  else throughGate t source gate err s

/-- The privilege level for ports. -/
def State.iopl (s : State) : Nat := s.eflags.toNat / 2 ^ 12 % 4

/-- An access to a port of one byte: by privilege, or by the bit of the port in the task segment, where
two bytes are read at the place that the last halfword of the segment's fields gives. -/
def portAllowed (t : Tables) (s : State) (port : Nat) : Bool :=
  if s.cpl ≤ s.iopl then true
  else
    let place := load16 (view s.mem t.task.base) 0x66 + port / 8
    decide (0x67 ≤ t.task.limit) && decide (place + 1 ≤ t.task.limit) &&
      decide (load16 (view s.mem t.task.base) place / 2 ^ (port % 8) % 2 = 0)

variable {t : Tables} {s : State} {gate : Gate} {err : Option Word} {b b' : Mem}

theorem segmentOf_congr (h : ∀ i < 8, b' i = b i) : segmentOf b' = segmentOf b := by
  have hload : ∀ k w, k + w ≤ 8 → load b' k w = load b k w :=
    fun k w hk => load_congr fun i hlow hhigh => h i (by omega)
  rw [segmentOf, segmentOf, load16, load16, hload 2 3 (by decide), hload 7 1 (by decide), hload 0 2 (by decide),
    hload 6 1 (by decide), hload 5 1 (by decide)]

theorem gateOf_congr (h : ∀ i < 8, b' i = b i) : gateOf b' = gateOf b := by
  have hload : ∀ k w, k + w ≤ 8 → load b' k w = load b k w :=
    fun k w hk => load_congr fun i hlow hhigh => h i (by omega)
  rw [gateOf, gateOf, load16, load16, load16, load16, load16, load16, hload 0 2 (by decide), hload 6 2 (by decide),
    hload 2 2 (by decide), hload 5 1 (by decide)]

/-- Through a trap gate for privilege level 0, this is the trap. -/
theorem enterGate_eq_trap {tss : Tss} {selector : BitVec 16} (hkind : kind gate.access = 0x0F)
    (hselector : BitVec.ofNat 16 (gate.selector.toNat / 4 * 4) = selector) :
    enterGate (if s.cpl = 0 then none else some tss) gate 0 err s = trap tss selector gate.offset err s := by
  have hmask : (if kind gate.access = 0x0E then trapMask ||| interruptFlag else trapMask) = trapMask :=
    if_neg (by omega)
  by_cases hkernel : s.cpl = 0
  · simp only [enterGate, trap, trapWords, hmask, hselector, Nat.add_zero, if_pos hkernel, Option.elim_none]
  · simp only [enterGate, trap, trapWords, hmask, hselector, Nat.add_zero, if_neg hkernel, Option.elim_some]

end Ia32
