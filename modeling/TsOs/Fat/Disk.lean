import TsOs.Library.ByteMemory
import TsOs.Machine

/-!
# The disk and the volume

A disk is a sequence of bytes; sector `s` has the bytes from `512 * s` on. The two
driver calls transfer whole sectors between the disk and a buffer. Operations of the
file system run in a monad that keeps the disk also when they stop, so that the state
in which a `panic` leaves the disk can be inspected.
-/

namespace TsOs.Fat
open ByteMemory

abbrev Disk := Mem

/-- A buffer, by index. -/
abbrev Buf := Mem

/-- Why an operation does not return. -/
inductive Stop
  | panic
  /-- The operation is in a loop. -/
  | hang
  /-- An access outside of a buffer or through a null pointer. -/
  | fault
  deriving DecidableEq

/-- An operation on the disk. -/
def FatM (α : Type) : Type := Disk → Except Stop α × Disk

namespace FatM

variable {α β : Type}

instance : Monad FatM where
  pure a := fun d => (.ok a, d)
  bind x f := fun d =>
    match x d with
    | (.ok a, d') => f a d'
    | (.error e, d') => (.error e, d')

def stop (e : Stop) : FatM α := fun d => (.error e, d)

end FatM

def sectorSize : Nat := 512

/-- Copy `n` bytes from position `a` on. -/
def slice (m : Mem) (a n : Nat) : List UInt8 := (List.range n).map fun i => m (a + i)

/-- Assign the bytes of a list from position `a` on. -/
def patch (m : Mem) (a : Nat) (l : List UInt8) : Mem := fun i =>
  if a ≤ i ∧ i < a + l.length then l.getD (i - a) 0 else m i

/-- `ata_read_sector`: the number of sectors read and the buffer. -/
def ataReadSector (lbaStart secNum bufSize : Nat) (buf : Buf) : FatM (Nat × Buf) := fun d =>
  let n := if bufSize / sectorSize < secNum then bufSize / sectorSize else secNum
  (.ok (n, fun i => if i < sectorSize * n then d (sectorSize * lbaStart + i) else buf i), d)

/-- `ata_write_sector`. -/
def ataWriteSector (lbaStart secNum : Nat) (buf : Buf) : FatM Nat := fun d =>
  (.ok secNum, fun a =>
    if sectorSize * lbaStart ≤ a ∧ a < sectorSize * lbaStart + sectorSize * secNum then
      buf (a - sectorSize * lbaStart)
    else d a)

/-- The fields of `struct FatSuperBlock` that are used. -/
structure FatSuperBlock where
  bytesPerSector : Nat
  sectorsPerCluster : Nat
  reserveSectors : Nat
  fatNum : Nat
  rootEntsNum : Nat
  sectorsFat : Nat
  hiddenSectors : Nat

/-- `struct Fat16Volume`. -/
structure Fat16Volume where
  sb : FatSuperBlock
  rootSectors : Nat
  volumeStart : Nat
  fatStart : Nat
  rootDirStart : Nat
  dataStart : Nat
  clusterBytes : Nat

/-- Reduction to `uint16_t`. -/
def u16 (n : Nat) : Nat := n % 2 ^ 16

/-- `sizeof(FatDirEntry)`. -/
def direntSize : Nat := 32

/-- `fat_get_volume` for a superblock that has been read. -/
def fatGetVolume (sb : FatSuperBlock) : Fat16Volume :=
  let volumeStart := u16 sb.hiddenSectors
  let fatStart := u16 (volumeStart + sb.reserveSectors)
  let rootDirStart := u16 (fatStart + sb.sectorsFat * sb.fatNum)
  { sb := sb
    rootSectors := (sb.rootEntsNum * direntSize + sb.bytesPerSector - 1) / sb.bytesPerSector
    volumeStart := volumeStart
    fatStart := fatStart
    rootDirStart := rootDirStart
    dataStart := u16 (rootDirStart + sb.rootEntsNum * direntSize / sb.bytesPerSector)
    clusterBytes := sb.sectorsPerCluster * sb.bytesPerSector }

/-- `FAT_CLUS_NORMAL`. -/
def clusNormal (c : Nat) : Bool := decide (3 ≤ c ∧ c ≤ 0xFFEF)

/-- `FAT_CLUS_FREE`. -/
def clusFree (c : Nat) : Bool := decide (c = 0)

/-- `FAT_CLUS_EOF`. -/
def clusEof (c : Nat) : Bool := decide (0xFFF8 ≤ c ∧ c ≤ 0xFFFF)

/-- `FAT_CLUS_ROOT`. -/
def clusRoot : Nat := 0

variable (v : Fat16Volume)

/-- The first sector of a cluster, reduced to `uint32_t`. -/
def clusterSector (cluster : Nat) : Nat :=
  u32 (v.dataStart + sub32 cluster 2 * v.sb.sectorsPerCluster)

/-- `fat_read_cluster` into a buffer. -/
def fatReadCluster (cluster : Nat) (buf : Buf) : FatM (Nat × Buf) :=
  ataReadSector (clusterSector v cluster) v.sb.sectorsPerCluster v.clusterBytes buf

/-- `fat_write_cluster` with `sec_n = 1`. -/
def fatWriteCluster (buf : Buf) (cluster : Nat) : FatM Unit := do
  let _ ← ataWriteSector (clusterSector v cluster) v.sb.sectorsPerCluster buf

/-- `read_fat`: the sector of the entry and its contents. -/
def readFat (cluster : Nat) : FatM (Nat × Buf) := do
  let fatSector := u16 (v.fatStart + cluster * 2 / v.sb.bytesPerSector)
  let (_, buf) ← ataReadSector fatSector 1 v.sb.bytesPerSector fun _ => 0
  return (fatSector, buf)

/-- The position of an entry in its sector. -/
def fatIndex (cluster : Nat) : Nat := 2 * (cluster % (v.sb.bytesPerSector / 2))

def writeFat (cluster val : Nat) : FatM Unit := do
  let (sector, buf) ← readFat v cluster
  let _ ← ataWriteSector sector 1 (store16 buf (fatIndex v cluster) val)

def fatGetNextCluster (cluster : Nat) : FatM Nat := do
  let (_, buf) ← readFat v cluster
  return load16 buf (fatIndex v cluster)

/-- The inner loop of `fat_get_free_cluster`, over the entries of a block. The result is the
entry found or the new value of `fat_cnt`. -/
def scanFatBlock (buf : Buf) : Nat → Nat → Nat → Nat ⊕ Nat
  | 0, _, fatCnt => .inr fatCnt
  | n + 1, i, fatCnt =>
      if 2 < fatCnt ∧ clusFree (load16 buf (2 * i)) then .inl fatCnt
      else scanFatBlock buf n (i + 1) (u16 (fatCnt + 1))

/-- The outer loop of `fat_get_free_cluster`. -/
def scanFat : Nat → Nat → Nat → FatM Nat
  | 0, _, _ => FatM.stop .hang
  | n + 1, lbaStart, fatCnt =>
      if lbaStart - v.fatStart < v.sb.sectorsFat then do
        let (rdSec, buf) ← ataReadSector lbaStart v.sb.sectorsPerCluster v.clusterBytes fun _ => 0
        match scanFatBlock buf ((v.clusterBytes + 1) / 2) 0 fatCnt with
        | .inl c => return c
        | .inr fatCnt => scanFat n (lbaStart + rdSec) fatCnt
      else FatM.stop .panic

def fatGetFreeCluster : FatM Nat := scanFat v (v.sb.sectorsFat + 1) v.fatStart 0

end TsOs.Fat
