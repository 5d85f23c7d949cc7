import TsOs.Library.ByteMemory

/-!
# A disk that transfers sectors by programmed I/O

The registers of an ATA disk and what they do. A command makes the disk busy; after that it
offers or asks for one block after the other, word by word, and is busy between them. How long
it is busy, and how many reads of the status it takes after a command or a block until the
status is that of the new state, differs from disk to disk and from time to time.

## Implementation notes

Time passes with reads of the status. A write of a register counts only while the disk is idle,
and data that is read or written while it expects none is lost.
-/

namespace AtaDisk
open ByteMemory

def blockSize : Nat := 512

/-- The words of a block. -/
def blockWords : Nat := 256

/-- What a disk does while it is busy. -/
inductive Work
  | read (lba count : Nat)
  | write (lba count : Nat)
  | done
  | flush

inductive Phase
  | idle
  | busy (n : Nat) (w : Work)
  /-- The disk offers word `i` of a sector, and `count` sectors are left with this one. -/
  | dataIn (lba count i : Nat)
  /-- The disk asks for word `i` of a sector. -/
  | dataOut (lba count i : Nat) (block : Mem)

/-- How many reads of the status each busy period lasts, and how many show the old status before: after a
command, a block that was read and a block that was written. -/
structure Timing where
  delay : Nat → Nat
  commandLag : Nat → Nat
  readLag : Nat → Nat
  writeLag : Nat → Nat

structure Registers where
  secCount : Nat
  lba0 : Nat
  lba1 : Nat
  lba2 : Nat
  devSel : Nat
  devCtrl : Nat

/-- `disk` has the sectors as the disk gives them back, and `medium` those that are not only in its cache. -/
structure Device where
  timing : Timing
  capacity : Nat
  disk : Mem
  medium : Mem
  regs : Registers
  phase : Phase
  error : Bool
  /-- The number of busy periods so far. -/
  periods : Nat
  lag : Nat
  /-- The status that the reads of the lag show. -/
  shown : Nat

namespace Device

/-- The status byte. -/
def status (d : Device) : Nat :=
  match d.phase with
  | .idle => if d.error then 0x41 else 0x40
  | .busy _ _ => 0x80
  | .dataIn _ _ _ => 0x48
  | .dataOut _ _ _ _ => 0x48

/-- The end of a busy period. -/
def finish (d : Device) : Work → Device
  | .read lba count =>
      if lba < d.capacity then { d with phase := .dataIn lba count 0 }
      else { d with phase := .idle, error := true }
  | .write lba count =>
      if lba < d.capacity then { d with phase := .dataOut lba count 0 fun _ => 0 }
      else { d with phase := .idle, error := true }
  | .done => { d with phase := .idle }
  | .flush => { d with phase := .idle, medium := d.disk }

def tick (d : Device) : Device :=
  match d.phase with
  | .busy 0 w => d.finish w
  | .busy (n + 1) w => { d with phase := .busy n w }
  | _ => d

/-- The status register and the alternate status register. -/
def readStatus (d : Device) : Nat × Device :=
  if d.lag = 0 then (d.tick.status, d.tick) else (d.shown, { d with lag := d.lag - 1 })

/-- Start a busy period. -/
def start (d : Device) (w : Work) (lag : Nat) : Device :=
  { d with phase := .busy (d.timing.delay d.periods) w, periods := d.periods + 1, lag := lag, shown := d.status }

/-- The data register. -/
def readData (d : Device) : Nat × Device :=
  match d.phase with
  | .dataIn lba count i =>
      (load16 d.disk (blockSize * lba + 2 * i),
        if i + 1 < blockWords then { d with phase := .dataIn lba count (i + 1) }
        else if 1 < count then d.start (.read (lba + 1) (count - 1)) (d.timing.readLag d.periods)
        else { d with phase := .idle })
  | _ => (0xFFFF, d)

/-- The memory with a block at a sector. -/
def putBlock (m : Mem) (lba : Nat) (block : Mem) : Mem := fun a =>
  if blockSize * lba ≤ a ∧ a < blockSize * lba + blockSize then block (a - blockSize * lba) else m a

def writeData (d : Device) (v : Nat) : Device :=
  match d.phase with
  | .dataOut lba count i block =>
      if i + 1 < blockWords then { d with phase := .dataOut lba count (i + 1) (store16 block (2 * i) v) }
      else { d with disk := putBlock d.disk lba (store16 block (2 * i) v) }.start
        (if 1 < count then .write (lba + 1) (count - 1) else .done) (d.timing.writeLag d.periods)
  | _ => d

/-- A write of a register. -/
def setRegs (d : Device) (f : Registers → Registers) : Device :=
  match d.phase with
  | .idle => { d with regs := f d.regs }
  | _ => d

/-- The sector that the registers give. -/
def lba (r : Registers) : Nat := r.lba0 + 2 ^ 8 * r.lba1 + 2 ^ 16 * r.lba2 + 2 ^ 24 * (r.devSel % 16)

/-- The number of sectors that the registers give. -/
def count (r : Registers) : Nat := if r.secCount = 0 then 256 else r.secCount

/-- Whether the registers select this disk, with sectors by number. -/
def Selected (r : Registers) : Prop := r.devSel / 16 % 2 = 0 ∧ r.devSel / 64 % 2 = 1

instance (r : Registers) : Decidable (Selected r) := inferInstanceAs (Decidable (_ ∧ _))

/-- A write of the command register. -/
def command (d : Device) (c : Nat) : Device :=
  match d.phase with
  | .idle =>
      let d := { d with error := false }
      if ¬Selected d.regs then d
      else if c = 0x20 then d.start (.read (lba d.regs) (count d.regs)) (d.timing.commandLag d.periods)
      else if c = 0x30 then d.start (.write (lba d.regs) (count d.regs)) (d.timing.commandLag d.periods)
      else if c = 0xE7 then d.start .flush (d.timing.commandLag d.periods)
      else { d with error := true }
  | _ => d

/-! ## Waiting -/

/-- A disk that is not busy, and whose status is not an old one. -/
structure Settled (d : Device) : Prop where
  lag : d.lag = 0
  phase : ∀ n w, d.phase ≠ .busy n w

/-- After at most `bound` reads of the status the disk is in the state `r` and stays there. -/
inductive Pending (bound : Nat) : Device → Device → Prop
  | settled {d : Device} (h : Settled d) : Pending bound d d
  | busy {e : Device} {n : Nat} (w : Work) (hlag : e.lag = 0) (hn : n < bound) :
      Pending bound (e.finish w) { e with phase := .busy n w }

/-- The same behind a lag. -/
inductive Lagging (bound : Nat) : Nat → Device → Device → Prop
  | shows {e : Device} {n : Nat} (w : Work) (l : Nat) (hlag : e.lag = 0) (hn : n < bound) :
      Lagging bound l (e.finish w) { e with phase := .busy n w, lag := l }

/-- The disk that a busy period starts from. -/
def base (d : Device) : Device :=
  { d with periods := d.periods + 1, lag := 0, shown := d.status }

variable {d e r : Device} {w : Work} {bound l : Nat}

theorem start_lagging (w : Work) (l : Nat) (h : d.timing.delay d.periods < bound) :
    Lagging bound l (d.base.finish w) (d.start w l) :=
  .shows w l rfl h

theorem Lagging.pending (h : Lagging bound 0 r d) : Pending bound r d := by
  generalize hl : 0 = l at h
  obtain ⟨w, l, hlag, hn⟩ := h
  rw [← hl, ← hlag]
  exact .busy w hlag hn

theorem Lagging.readStatus (h : Lagging bound (l + 1) r d) : Lagging bound l r d.readStatus.2 := by
  generalize hl : l + 1 = k at h
  obtain ⟨w, k, hlag, hn⟩ := h
  rw [← hl]
  exact .shows w l hlag hn

theorem Lagging.readStatus_shown (h : Lagging bound (l + 1) r d) :
    d.readStatus.1 = d.shown ∧ d.readStatus.2.shown = d.shown := by
  generalize hl : l + 1 = k at h
  obtain ⟨w, k, hlag, hn⟩ := h
  rw [← hl]
  exact ⟨rfl, rfl⟩

theorem finish_lag (e : Device) (w : Work) : (e.finish w).lag = e.lag := by
  cases w with
  | read lba count => rw [finish]; split <;> rfl
  | write lba count => rw [finish]; split <;> rfl
  | done => rfl
  | flush => rfl

theorem finish_phase (e : Device) (p : Phase) (w : Work) : Device.finish { e with phase := p } w = e.finish w := by
  cases w <;> rfl

/-- The disk is not busy behind a busy period. -/
theorem finish_settled (hlag : e.lag = 0) (w : Work) : Settled (e.finish w) := by
  refine ⟨(finish_lag e w).trans hlag, fun n w' => ?_⟩
  cases w with
  | read lba count => rw [finish]; split <;> exact Phase.noConfusion
  | write lba count => rw [finish]; split <;> exact Phase.noConfusion
  | done => exact Phase.noConfusion
  | flush => exact Phase.noConfusion

theorem Settled.readStatus (h : Settled d) : d.readStatus = (d.status, d) := by
  have htick : d.tick = d := by
    rw [tick]
    split
    next hbusy => exact absurd hbusy (h.phase _ _)
    next hbusy => exact absurd hbusy (h.phase _ _)
    next => rfl
  rw [Device.readStatus, if_pos h.lag, htick]

theorem Settled.status_lt (h : Settled d) : d.status < 0x80 := by
  rw [status]
  split
  next => split <;> decide
  next hbusy => exact absurd hbusy (h.phase _ _)
  next => decide
  next => decide

theorem readStatus_busy_zero (hlag : e.lag = 0) (w : Work) :
    Device.readStatus { e with phase := .busy 0 w } = ((e.finish w).status, e.finish w) := by
  have htick : tick { e with phase := .busy 0 w } = e.finish w := finish_phase e _ w
  rw [Device.readStatus, if_pos hlag, htick]

theorem readStatus_busy_succ (hlag : e.lag = 0) (n : Nat) (w : Work) :
    Device.readStatus { e with phase := .busy (n + 1) w } = (0x80, { e with phase := .busy n w }) := by
  rw [Device.readStatus, if_pos hlag]
  rfl

theorem Pending.result_settled (h : Pending bound r d) : Settled r := by
  cases h with
  | settled h => exact h
  | busy w hlag hn => exact finish_settled hlag w

theorem Pending.result (h : Pending bound r d) : Pending bound r r := .settled h.result_settled

/-- A read of the status shows that the disk is busy, or the status of the state in which it stays. -/
theorem Pending.readStatus (h : Pending (bound + 1) r d) :
    d.readStatus = (r.status, r) ∨ d.readStatus.1 = 0x80 ∧ 0 < bound ∧ Pending bound r d.readStatus.2 := by
  generalize hbound : bound + 1 = b at h
  cases h with
  | settled h => exact .inl h.readStatus
  | @busy e n w hlag hn =>
      cases n with
      | zero => exact .inl (readStatus_busy_zero hlag w)
      | succ n =>
          refine .inr ?_
          rw [readStatus_busy_succ hlag]
          exact ⟨rfl, by omega, .busy w hlag (by omega)⟩

theorem Pending.mono {bound' : Nat} (h : Pending bound r d) (hle : bound ≤ bound') : Pending bound' r d := by
  cases h with
  | settled h => exact .settled h
  | busy w hlag hn => exact .busy w hlag (by omega)

/-- Reads of the status, one after the other. -/
def settle : Nat → Device → Device
  | 0, d => d
  | k + 1, d => settle k d.readStatus.2

theorem Pending.settle (h : Pending (bound + 1) r d) (k : Nat) : Pending (bound + 1) r (settle k d) := by
  induction k generalizing d with
  | zero => exact h
  | succ k ih =>
      refine ih ?_
      obtain hread | ⟨-, -, hread⟩ := h.readStatus
      · rw [hread]
        exact .settled h.result_settled
      · exact hread.mono (Nat.le_succ _)

/-- After as many reads of the status as the lag is long it is not seen any more. -/
theorem Lagging.settle {k : Nat} (h : Lagging (bound + 1) l r d) (hl : l ≤ k) :
    Pending (bound + 1) r (settle k d) := by
  induction k generalizing l d with
  | zero =>
      obtain rfl : l = 0 := Nat.le_zero.mp hl
      exact h.pending
  | succ k ih =>
      cases l with
      | zero => exact h.pending.settle (k + 1)
      | succ l => exact ih h.readStatus (by omega)

/-! ## Transfers -/

/-- What stays while a disk reads: all but the phase and the busy periods. -/
structure Holds (t : Timing) (capacity : Nat) (regs : Registers) (disk medium : Mem) (d : Device) : Prop where
  timing : d.timing = t
  capacity : d.capacity = capacity
  disk : d.disk = disk
  medium : d.medium = medium
  error : d.error = false
  lag : d.lag = 0
  regs : d.regs = regs

variable {t : Timing} {regs : Registers} {capacity lba count i : Nat} {disk medium block : Mem}

theorem Holds.base (h : Holds t capacity regs disk medium d) : Holds t capacity regs disk medium d.base :=
  ⟨h.timing, h.capacity, h.disk, h.medium, h.error, rfl, h.regs⟩

theorem Holds.withPhase (h : Holds t capacity regs disk medium d) (p : Phase) :
    Holds t capacity regs disk medium { d with phase := p } :=
  ⟨h.timing, h.capacity, h.disk, h.medium, h.error, h.lag, h.regs⟩

theorem Holds.withDisk (h : Holds t capacity regs disk medium d) (disk' : Mem) :
    Holds t capacity regs disk' medium { d with disk := disk' } :=
  ⟨h.timing, h.capacity, rfl, h.medium, h.error, h.lag, h.regs⟩

theorem finish_read (h : Holds t capacity regs disk medium e) (hlba : lba < capacity) :
    e.finish (.read lba count) = { e with phase := .dataIn lba count 0 } := by
  rw [finish, if_pos (h.capacity ▸ hlba)]

theorem finish_write (h : Holds t capacity regs disk medium e) (hlba : lba < capacity) :
    e.finish (.write lba count) = { e with phase := .dataOut lba count 0 fun _ => 0 } := by
  rw [finish, if_pos (h.capacity ▸ hlba)]

theorem finish_read_error (h : Holds t capacity regs disk medium e) (hlba : capacity ≤ lba) :
    e.finish (.read lba count) = { e with phase := .idle, error := true } := by
  rw [finish, if_neg (by rw [h.capacity]; omega)]

theorem finish_write_error (h : Holds t capacity regs disk medium e) (hlba : capacity ≤ lba) :
    e.finish (.write lba count) = { e with phase := .idle, error := true } := by
  rw [finish, if_neg (by rw [h.capacity]; omega)]

end Device
end AtaDisk
