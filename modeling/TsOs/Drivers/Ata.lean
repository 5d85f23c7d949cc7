import TsOs.Fat.Disk
import TsOs.Library.AtaDisk

/-!
# The disk driver

The functions of `ata.c` that the file system calls, on a disk behind the ports of the primary
channel, and what they do for every disk: the two transfers of the file system's model.

## Implementation notes

A loop that polls the status takes at most `fuel` reads of it; one that would take more is a
`hang`. `ata_detect`, `parse_identify_command` and `ata_soft_reset` have no caller and are left out.
-/

namespace TsOs.Ata
open ByteMemory AtaDisk
open Fat (Stop Buf Disk)

/-- An operation on the ports of the disk. -/
def AtaM (α : Type) : Type := Device → Except Stop α × Device

namespace AtaM

variable {α β : Type}

instance : Monad AtaM where
  pure a := fun d => (.ok a, d)
  bind x f := fun d =>
    match x d with
    | (.ok a, d') => f a d'
    | (.error e, d') => (.error e, d')

def stop (e : Stop) : AtaM α := fun d => (.error e, d)

theorem bind_ok {x : AtaM α} {f : α → AtaM β} {d d' : Device} {a : α} (h : x d = (.ok a, d')) :
    (x >>= f) d = f a d' := by
  change (match x d with
    | (.ok a, d') => f a d'
    | (.error e, d') => (.error e, d')) = _
  rw [h]

theorem bind_error {x : AtaM α} {f : α → AtaM β} {d d' : Device} {e : Stop} (h : x d = (.error e, d')) :
    (x >>= f) d = (.error e, d') := by
  change (match x d with
    | (.ok a, d') => f a d'
    | (.error e, d') => (.error e, d')) = _
  rw [h]

theorem bind_congr {x y : AtaM α} {d d' : Device} (h : x d = y d') (f : α → AtaM β) :
    (x >>= f) d = (y >>= f) d' := by
  change (match x d with
    | (.ok a, d') => f a d'
    | (.error e, d') => (.error e, d')) = _
  rw [h]
  rfl

end AtaM

/-! ## Ports -/

def ataData : Nat := 0x00
def ataSecCount : Nat := 0x02
def ataLba0 : Nat := 0x03
def ataLba1 : Nat := 0x04
def ataLba2 : Nat := 0x05
def ataHdDevSel : Nat := 0x06
def ataCommand : Nat := 0x07
def ataStatus : Nat := 0x07
def ataAltStatus : Nat := 0x0
def ataDevCtrl : Nat := 0x0
def ataPrMstIoBase : Nat := 0x1F0
def ataPrMstCtrlBase : Nat := 0x3F6

def ataStatusBsy : Nat := 0x80
def ataStatusDrdy : Nat := 0x40
def ataStatusErr : Nat := 0x1
def ataStatusDf : Nat := 0x20

def ataCmdReadSectors : Nat := 0x20
def ataCmdWriteSectors : Nat := 0x30

/-- `inb` at the ports that are read. -/
def inb (port : Nat) : AtaM Nat := fun d =>
  if port = 0x1F7 ∨ port = 0x3F6 then (.ok d.readStatus.1, d.readStatus.2) else (.ok 0xFF, d)

/-- `inw`. -/
def inw (port : Nat) : AtaM Nat := fun d =>
  if port = 0x1F0 then (.ok d.readData.1, d.readData.2) else (.ok 0xFFFF, d)

/-- `outw`. -/
def outw (port val : Nat) : AtaM Unit := fun d =>
  if port = 0x1F0 then (.ok (), d.writeData (val % 2 ^ 16)) else (.ok (), d)

/-- What a byte at a port does. -/
def portWrite (d : Device) (port val : Nat) : Device :=
  match port with
  | 0x1F2 => d.setRegs fun r => { r with secCount := val }
  | 0x1F3 => d.setRegs fun r => { r with lba0 := val }
  | 0x1F4 => d.setRegs fun r => { r with lba1 := val }
  | 0x1F5 => d.setRegs fun r => { r with lba2 := val }
  | 0x1F6 => d.setRegs fun r => { r with devSel := val }
  | 0x1F7 => d.command val
  | 0x3F6 => d.setRegs fun r => { r with devCtrl := val }
  | _ => d

/-- `outb`, with the conversion to `uint8_t`. -/
def outb (port val : Nat) : AtaM Unit := fun d => (.ok (), portWrite d port (val % 2 ^ 8))

/-! ## The driver -/

variable (fuel : Nat)

/-- `ata_wait`. -/
def ataWait : AtaM Unit := do
  let _ ← inb (ataPrMstCtrlBase + ataAltStatus)
  let _ ← inb (ataPrMstCtrlBase + ataAltStatus)
  let _ ← inb (ataPrMstCtrlBase + ataAltStatus)
  let _ ← inb (ataPrMstCtrlBase + ataAltStatus)

/-- The loop of `ata_poll_bsy`. -/
def pollBsyLoop : Nat → AtaM Unit
  | 0 => AtaM.stop .hang
  | n + 1 => do
      let state ← inb (ataPrMstIoBase + ataStatus)
      if state &&& ataStatusBsy ≠ 0 then pollBsyLoop n else return ()

def ataPollBsy : AtaM Nat := do
  pollBsyLoop fuel
  let state ← inb (ataPrMstCtrlBase + ataAltStatus)
  if state &&& ataStatusErr ≠ 0 ∨ state &&& ataStatusDf ≠ 0 then AtaM.stop .panic else return state

/-- The loop of `ata_poll_drdy`. -/
def ataPollDrdy : Nat → AtaM Unit
  | 0 => AtaM.stop .hang
  | n + 1 => do
      let state ← inb (ataPrMstIoBase + ataStatus)
      if state &&& ataStatusDrdy = 0 then ataPollDrdy n else return ()

/-- `~` of an `int`. -/
def not32 (a : Nat) : Nat := a ^^^ (2 ^ 32 - 1)

def ataPollBsyDrq (setDrq : Nat) : AtaM Nat := do
  let state ← ataPollBsy fuel
  if ((setDrq <<< 3) &&& state) ||| (not32 state &&& not32 (setDrq <<< 3)) ≠ 0 then return state
  else AtaM.stop .panic

/-- The loop of `ata_read_buffer`, from index `i` on, into the buffer from position `pos` on. -/
def readLoop (pos : Nat) : Nat → Nat → Buf → AtaM Buf
  | 0, _, buf => return buf
  | n + 1, i, buf => do
      let _ ← ataPollBsyDrq fuel 1
      let data ← inw (ataPrMstIoBase + ataData)
      readLoop pos n (i + 2)
        (store8 (store8 buf (pos + i) (UInt8.ofNat (data &&& 0xFF))) (pos + (i + 1)) (UInt8.ofNat (data >>> 8 &&& 0xFF)))

/-- `ata_read_buffer`. -/
def ataReadBuffer (pos : Nat) (buf : Buf) (cnt : Nat) : AtaM Buf := readLoop fuel pos ((cnt + 1) / 2) 0 buf

/-- The loop of `ata_write_buffer`. -/
def writeLoop (pos : Nat) (buf : Buf) : Nat → Nat → AtaM Unit
  | 0, _ => return ()
  | n + 1, i => do
      let _ ← ataPollBsyDrq fuel 1
      outw (ataPrMstIoBase + ataData) ((buf (pos + i)).toNat + (buf (pos + (i + 1))).toNat <<< 8)
      writeLoop pos buf n (i + 2)

/-- `ata_write_buffer`. -/
def ataWriteBuffer (pos : Nat) (buf : Buf) (cnt : Nat) : AtaM Unit := writeLoop fuel pos buf ((cnt + 1) / 2) 0

/-- Select the disk and the sectors, and give the command, as both transfers do. -/
def ataIssue (lbaStart secNum cmd : Nat) : AtaM Unit := do
  outb (ataPrMstIoBase + ataHdDevSel) (0xE0 ||| 0 <<< 4 ||| (lbaStart >>> 24 &&& 0x0F))
  let _ ← ataPollBsyDrq fuel 0
  ataPollDrdy fuel
  outb (ataPrMstCtrlBase + ataDevCtrl) (0x0 ||| 1 <<< 1)
  outb (ataPrMstIoBase + ataSecCount) secNum
  outb (ataPrMstIoBase + ataLba0) (lbaStart &&& 0xFF)
  outb (ataPrMstIoBase + ataLba1) (lbaStart >>> 8 &&& 0xFF)
  outb (ataPrMstIoBase + ataLba2) (lbaStart >>> 16 &&& 0xFF)
  outb (ataPrMstIoBase + ataCommand) cmd
  ataWait

/-- The sectors of `ata_read_sector`, from number `i` on. -/
def readSectors : Nat → Nat → Buf → AtaM Buf
  | 0, _, buf => return buf
  | n + 1, i, buf => do
      if 0 < i then
        let _ ← ataPollBsyDrq fuel 1
      let buf ← ataReadBuffer fuel (512 * i) buf 512
      readSectors n (i + 1) buf

/-- `ata_read_sector`: the number of sectors read and the buffer. -/
def ataReadSector (lbaStart secNum bufSize : Nat) (buf : Buf) : AtaM (Nat × Buf) := do
  let secNum := if bufSize / 512 < secNum then bufSize / 512 else secNum
  if secNum = 0 then return (0, buf)
  ataIssue fuel lbaStart secNum ataCmdReadSectors
  let buf ← readSectors fuel secNum 0 buf
  return (secNum, buf)

/-- The sectors of `ata_write_sector`. -/
def writeSectors (buf : Buf) : Nat → Nat → AtaM Unit
  | 0, _ => return ()
  | n + 1, i => do
      if 0 < i then
        let _ ← inb (ataPrMstCtrlBase + ataAltStatus)
        let _ ← ataPollBsyDrq fuel 1
      ataWriteBuffer fuel (512 * i) buf 512
      writeSectors buf n (i + 1)

/-- `ata_write_sector`. -/
def ataWriteSector (lbaStart secNum : Nat) (buf : Buf) : AtaM Nat := do
  ataIssue fuel lbaStart secNum ataCmdWriteSectors
  writeSectors fuel buf secNum 0
  let _ ← inb (ataPrMstCtrlBase + ataAltStatus)
  let _ ← ataPollBsyDrq fuel 0
  ataPollDrdy fuel
  outb (ataPrMstIoBase + ataCommand) 0xE7
  ataWait
  let _ ← ataPollBsyDrq fuel 0
  return secNum

end TsOs.Ata
