import TsOs.Drivers.AtaTransfers
import TsOs.Fat.Layout

/-!
# Programs over the disk driver

A program asks for transfers, one after the other, and what it does next depends on what it has
read. Its meaning on the sectors of a disk is that of the file system's model. On a disk that
answers in time the driver gives the same results and leaves the same sectors, and everything
that was written is on the medium.
-/

namespace TsOs.Ata
open ByteMemory AtaDisk AtaDisk.Device
open Fat (Stop Buf Disk FatM)

/-- What a client of the driver does. -/
inductive Program (α : Type) : Type
  | ret (a : α)
  | stop (e : Stop)
  | read (lbaStart secNum bufSize : Nat) (buf : Buf) (next : Nat × Buf → Program α)
  | write (lbaStart secNum : Nat) (buf : Buf) (next : Nat → Program α)

namespace Program

variable {α : Type}

/-- The meaning in the file system's model. -/
def onDisk : Program α → FatM α
  | ret a => pure a
  | stop e => FatM.stop e
  | read lbaStart secNum bufSize buf next => do
      let r ← Fat.ataReadSector lbaStart secNum bufSize buf
      (next r).onDisk
  | write lbaStart secNum buf next => do
      let n ← Fat.ataWriteSector lbaStart secNum buf
      (next n).onDisk

/-- The calls of the driver. -/
def onDevice (fuel : Nat) : Program α → AtaM α
  | ret a => pure a
  | stop e => AtaM.stop e
  | read lbaStart secNum bufSize buf next => do
      let r ← ataReadSector fuel lbaStart secNum bufSize buf
      (next r).onDevice fuel
  | write lbaStart secNum buf next => do
      let n ← ataWriteSector fuel lbaStart secNum buf
      (next n).onDevice fuel

/-- The meaning on a disk of `capacity` sectors, with sector numbers of twenty-eight bits. -/
def onSectors (capacity : Nat) : Program α → FatM α
  | ret a => pure a
  | stop e => FatM.stop e
  | read lbaStart secNum bufSize buf next =>
      if requested secNum bufSize ≠ 0 ∧ capacity < lbaStart % 2 ^ 28 + requested secNum bufSize then FatM.stop .panic
      else do
        let r ← Fat.ataReadSector (lbaStart % 2 ^ 28) secNum bufSize buf
        (next r).onSectors capacity
  | write lbaStart secNum buf next =>
      if capacity < lbaStart % 2 ^ 28 + secNum then do
        let _ ← Fat.ataWriteSector (lbaStart % 2 ^ 28) (capacity - lbaStart % 2 ^ 28) buf
        FatM.stop .panic
      else do
        let n ← Fat.ataWriteSector (lbaStart % 2 ^ 28) secNum buf
        (next n).onSectors capacity

/-- No request has more sectors than the count register can say, and every write has some. -/
def Sized : Program α → Prop
  | ret _ => True
  | stop _ => True
  | read _ secNum bufSize _ next => requested secNum bufSize ≤ 256 ∧ ∀ r, (next r).Sized
  | write _ secNum _ next => (1 ≤ secNum ∧ secNum ≤ 256) ∧ ∀ n, (next n).Sized

/-- Every request of the run lies on the disk. -/
def InRange (capacity : Nat) : Program α → Disk → Prop
  | ret _, _ => True
  | stop _, _ => True
  | read lbaStart secNum bufSize buf next, d =>
      lbaStart + requested secNum bufSize ≤ capacity ∧
        ∀ r d', Fat.ataReadSector lbaStart secNum bufSize buf d = (.ok r, d') → (next r).InRange capacity d'
  | write lbaStart secNum buf next, d =>
      lbaStart + secNum ≤ capacity ∧
        ∀ n d', Fat.ataWriteSector lbaStart secNum buf d = (.ok n, d') → (next n).InRange capacity d'

end Program

variable {α : Type} {fuel capacity : Nat} {d : Device} {t : Timing} {regs : Registers} {disk medium : Mem}

/-- A read of the model, as the driver does it. -/
theorem fatReadSector_eq (disk : Disk) (lbaStart secNum bufSize : Nat) (buf : Buf) :
    Fat.ataReadSector lbaStart secNum bufSize buf disk =
    (.ok (requested secNum bufSize, fetched disk (blockSize * lbaStart) 0 (512 * requested secNum bufSize) buf), disk) := by
  have hbuf : fetched disk (blockSize * lbaStart) 0 (512 * requested secNum bufSize) buf =
      fun i => if i < 512 * requested secNum bufSize then disk (512 * lbaStart + i) else buf i := by
    funext i
    rw [fetched, Nat.zero_add, Nat.sub_zero]
    simp only [Nat.zero_le, true_and]
    rfl
  rw [hbuf]
  rfl

theorem fatWriteSector_eq (disk : Disk) (lbaStart secNum : Nat) (buf : Buf) :
    Fat.ataWriteSector lbaStart secNum buf disk =
    (.ok secNum, fetched buf 0 (blockSize * lbaStart) (512 * secNum) disk) := by
  have hdisk : fetched buf 0 (blockSize * lbaStart) (512 * secNum) disk = fun a =>
      if 512 * lbaStart ≤ a ∧ a < 512 * lbaStart + 512 * secNum then buf (a - 512 * lbaStart) else disk a := by
    funext a
    rw [fetched, Nat.zero_add]
    rfl
  rw [hdisk]
  rfl

/-- What the driver leaves: the result of the model, its sectors, and, unless it has stopped, a disk without a
command that has nothing in its cache. -/
structure Done (t : Timing) (capacity : Nat) (expected : Except Stop α × Disk) (actual : Except Stop α × Device) :
    Prop where
  result : actual.1 = expected.1
  disk : actual.2.disk = expected.2
  ready : ∀ a, actual.1 = .ok a → ∃ regs, Ready t capacity regs expected.2 expected.2 actual.2

/-- A result of the driver followed by what the client does with it. -/
theorem Done.bind {β : Type} {x : AtaM β} {f : β → AtaM α} {y : FatM β} {g : β → FatM α} {b : β} {d' : Device} {disk' : Mem}
    (hx : x d = (.ok b, d')) (hy : y disk = (.ok b, disk')) (h : Done t capacity (g b disk') (f b d')) :
    Done t capacity ((y >>= g) disk) ((x >>= f) d) := by
  rw [AtaM.bind_ok hx, FatM.bind_ok hy]
  exact h

theorem Done.panic {d' : Device} (h : d'.disk = disk) :
    Done t capacity ((.error .panic, disk) : Except Stop α × Disk) (.error .panic, d') :=
  ⟨rfl, h, fun _ hok => nomatch hok⟩

namespace Program

/-- On a disk that answers in time, however long it is busy, a program does the same as on the sectors. -/
theorem onDevice_done (hp : Prompt fuel t) {p : Program α} (hs : p.Sized) (h : Ready t capacity regs disk disk d) :
    Done t capacity (p.onSectors capacity disk) (p.onDevice (fuel + 1) d) := by
  induction p generalizing regs disk d with
  | ret a => exact ⟨rfl, h.holds.disk, fun _ _ => ⟨regs, h⟩⟩
  | stop e => exact ⟨rfl, h.holds.disk, fun _ hok => nomatch hok⟩
  | read lbaStart secNum bufSize buf next ih =>
      obtain ⟨hsize, hnext⟩ := hs
      have hmodel := fatReadSector_eq disk (lbaStart % 2 ^ 28) secNum bufSize buf
      rw [onSectors, onDevice]
      cases hn : requested secNum bufSize with
      | zero =>
          rw [hn, Nat.mul_zero, fetched_zero] at hmodel
          rw [if_neg (fun hsome => hsome.1 rfl)]
          exact Done.bind (ataReadSector_zero lbaStart buf hn) hmodel (ih _ (hnext _) h)
      | succ n =>
          rw [hn] at hmodel hsize
          obtain ⟨hok, hpanic⟩ := ataReadSector_eq h hp lbaStart buf hn hsize
          split
          next hend =>
            obtain ⟨d', hrun, hd'⟩ := hpanic hend.2
            rw [AtaM.bind_error hrun]
            exact Done.panic hd'
          next hend =>
            obtain ⟨d', hrun, hready⟩ := hok (Nat.not_lt.mp fun hlt => hend ⟨Nat.succ_ne_zero n, hlt⟩)
            exact Done.bind hrun hmodel (ih _ (hnext _) hready)
  | write lbaStart secNum buf next ih =>
      obtain ⟨⟨hpos, hsize⟩, hnext⟩ := hs
      obtain ⟨n, rfl⟩ : ∃ n, secNum = n + 1 := ⟨secNum - 1, by omega⟩
      obtain ⟨hok, hpanic⟩ := ataWriteSector_eq h hp lbaStart buf hsize
      rw [onSectors, onDevice]
      split
      next hend =>
        obtain ⟨d', hrun, hd'⟩ := hpanic hend
        rw [AtaM.bind_error hrun, FatM.bind_ok (fatWriteSector_eq _ _ _ _)]
        exact Done.panic hd'
      next hend =>
        obtain ⟨d', hrun, disk', rfl, hready⟩ := hok (Nat.not_lt.mp hend)
        exact Done.bind hrun (fatWriteSector_eq _ _ _ _) (ih _ (hnext _) hready)

/-- While its requests lie on the disk a program does the same on the sectors as in the file system's model. -/
theorem onSectors_eq (hcap : capacity < 2 ^ 28) {p : Program α} (h : p.InRange capacity disk) :
    p.onSectors capacity disk = p.onDisk disk := by
  induction p generalizing disk with
  | ret a => rfl
  | stop e => rfl
  | read lbaStart secNum bufSize buf next ih =>
      obtain ⟨hend, hnext⟩ := h
      have hlba : lbaStart % 2 ^ 28 = lbaStart := Nat.mod_eq_of_lt (by omega)
      have hread := fatReadSector_eq disk lbaStart secNum bufSize buf
      rw [onSectors, onDisk, hlba, if_neg (by omega), FatM.bind_ok hread, FatM.bind_ok hread]
      exact ih _ (hnext _ _ hread)
  | write lbaStart secNum buf next ih =>
      obtain ⟨hend, hnext⟩ := h
      have hlba : lbaStart % 2 ^ 28 = lbaStart := Nat.mod_eq_of_lt (by omega)
      have hwrite := fatWriteSector_eq disk lbaStart secNum buf
      rw [onSectors, onDisk, hlba, if_neg (by omega), FatM.bind_ok hwrite, FatM.bind_ok hwrite]
      exact ih _ (hnext _ _ hwrite)

/-- The driver implements the transfers of the file system's model: a client gets the same results and leaves the
same sectors, and a request beyond the last sector ends in a panic. -/
theorem onDevice_implements (hp : Prompt fuel t) (hcap : capacity < 2 ^ 28) {p : Program α} (hs : p.Sized)
    (h : Ready t capacity regs disk disk d) :
    Done t capacity (p.onSectors capacity disk) (p.onDevice (fuel + 1) d) ∧
      (p.InRange capacity disk → Done t capacity (p.onDisk disk) (p.onDevice (fuel + 1) d)) := by
  have hdone := onDevice_done hp hs h
  refine ⟨hdone, fun hrange => ?_⟩
  rw [← onSectors_eq hcap hrange]
  exact hdone

end Program

/-- A disk of eight sectors that is busy now longer and now shorter. -/
def sampleDevice : Device where
  timing := ⟨fun k => k % 3, fun k => k % 5, fun k => k % 3, fun k => k % 2⟩
  capacity := 8
  disk := fun _ => 0
  medium := fun _ => 0
  regs := ⟨0, 0, 0, 0, 0, 0⟩
  phase := .idle
  error := false
  periods := 0
  lag := 0
  shown := 0

/-- Write two sectors and read the second one. -/
def sampleProgram : Program UInt8 :=
  .write 3 2 (fun i => UInt8.ofNat (i / 2)) fun _ => .read 4 1 512 (fun _ => 0) fun r => .ret (r.2 10)

theorem onDevice_implements_sample : (sampleProgram.onDevice 3 sampleDevice).1 = .ok 5 := by
  have hprompt : Prompt 2 sampleDevice.timing :=
    ⟨fun k => Nat.le_of_lt_succ (Nat.mod_lt k (by decide)), fun k => Nat.le_of_lt_succ (Nat.mod_lt k (by decide)),
      fun k => Nat.le_of_lt_succ (Nat.mod_lt k (by decide)), fun k => Nat.le_of_lt_succ (Nat.mod_lt k (by decide))⟩
  have hready : Ready sampleDevice.timing 8 sampleDevice.regs (fun _ => 0) (fun _ => 0) sampleDevice :=
    ⟨⟨rfl, rfl, rfl, rfl, rfl, rfl, rfl⟩, rfl⟩
  have hsized : sampleProgram.Sized := ⟨by decide, fun _ => ⟨by decide, fun _ => trivial⟩⟩
  have hrange : sampleProgram.InRange 8 fun _ => 0 :=
    ⟨by decide, fun _ _ _ => ⟨by decide, fun _ _ _ => trivial⟩⟩
  exact ((Program.onDevice_implements hprompt (by decide) hsized hready).2 hrange).result

end TsOs.Ata
