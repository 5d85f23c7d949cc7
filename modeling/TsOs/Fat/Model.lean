import TsOs.Fat.Disk
import TsOs.Fat.Names

/-!
# The FAT16 file system

`fat16.c` on top of the disk. Handles are values: a function that moves a handle
returns it. Blocks on the stack that the source does not initialise are zero here.

## Implementation notes

Loops along the FAT have a bound `fuel`, since a FAT may have a cycle; `Stop.hang`
is the result when it is used up.
-/

namespace TsOs.Fat
open ByteMemory

/-- `FAT16_CTL_DIR`, `FAT16_CTL_WRITE`, `FAT16_CTL_APPEND`, `FAT16_CTL_CREATE` and
`FAT16_CTL_IS_ROOT`. -/
structure Flags where
  dir : Bool
  write : Bool
  append : Bool
  create : Bool
  isRoot : Bool
  deriving DecidableEq

/-- No flag is set. -/
def Flags.none : Flags := ⟨false, false, false, false, false⟩

/-! ## Directory entries -/

/-- `struct FatDirEntry` as its bytes; beyond them it is zero. -/
abbrev DirEnt := Mem

/-- `ENT_ATTR_DIR`. -/
def entAttrDir : UInt8 := 0x10

/-- The entry at position `p` of a buffer. -/
def readEnt (buf : Buf) (p : Nat) : DirEnt := fun i => if i < direntSize then buf (p + i) else 0

def writeEnt (buf : Buf) (p : Nat) (e : DirEnt) : Buf := fun i =>
  if p ≤ i ∧ i < p + direntSize then e (i - p) else buf i

def DirEnt.attr (e : DirEnt) : UInt8 := e 11

def DirEnt.startCluster (e : DirEnt) : Nat := load16 e 26

def DirEnt.fileSize (e : DirEnt) : Nat := load32 e 28

def DirEnt.setStartCluster (e : DirEnt) (c : Nat) : DirEnt := store16 e 26 c

def DirEnt.setFileSize (e : DirEnt) (n : Nat) : DirEnt := store32 e 28 n

def isDirectory (e : DirEnt) : Bool := e.attr &&& entAttrDir ≠ 0

/-- `volume->root`. -/
def rootEnt : DirEnt := fun _ => 0

/-- `fat_filename_match`. -/
def fatFilenameMatch (e : DirEnt) (name : Mem) : Bool := (List.range 8).all fun i => e i = name i

/-- `search_name_in_block`, as the number of the entry found. -/
def searchNameInBlock (block : Buf) (bsize : Nat) (name : Mem) : Option Nat :=
  firstIndex (fun i => !clusFree (readEnt block (direntSize * i)).startCluster &&
    fatFilenameMatch (readEnt block (direntSize * i)) name) ((bsize + 31) / direntSize) 0

/-! ## Handles and lookup -/

/-- `struct Fat16File`. -/
structure Fat16File where
  dirent : DirEnt
  direntSector : Nat
  direntCluster : Nat
  currentCluster : Nat
  byteOffset : Nat
  flag : Flags

/-- `new_fat16_file` without an entry. -/
def newFat16File (flag : Flags) : Fat16File := ⟨fun _ => 0, 0xFF, 0xFF, 0xFF, 0, flag⟩

variable (v : Fat16Volume) (fuel : Nat)

/-- The loop of `_fat_search_root`. -/
def searchRootLoop (file : Fat16File) (name : Mem) : Nat → Nat → FatM (Option Fat16File)
  | 0, _ => FatM.stop .hang
  | n + 1, lbaStart =>
      if lbaStart - v.rootDirStart < v.rootSectors then do
        let (readSector, buf) ← ataReadSector lbaStart v.sb.sectorsPerCluster v.clusterBytes
          fun _ => 0
        match searchNameInBlock buf (readSector * v.sb.bytesPerSector) name with
        | some i =>
            let dirent := readEnt buf (direntSize * i)
            return some { file with
              dirent := dirent
              currentCluster := dirent.startCluster
              direntCluster := clusRoot
              direntSector := lbaStart + direntSize * i / v.sb.bytesPerSector }
        | none => searchRootLoop file name n (lbaStart + readSector)
      else return none

/-- `_fat_search_root`. -/
def fatSearchRoot (file : Fat16File) (name : Mem) : FatM (Option Fat16File) :=
  searchRootLoop v file name (v.rootSectors + 1) v.rootDirStart

/-- The loop of `_fat_search_file`. -/
def searchFileLoop (file : Fat16File) (name : Mem) : Nat → Nat → FatM (Option Fat16File)
  | 0, _ => FatM.stop .hang
  | n + 1, cluster =>
      if clusNormal cluster then do
        let (readSector, buf) ← fatReadCluster v cluster fun _ => 0
        if readSector = 0 then FatM.stop .panic
        else
          match searchNameInBlock buf v.clusterBytes name with
          | some i =>
              let dirent := readEnt buf (direntSize * i)
              return some { file with
                dirent := dirent
                direntCluster := cluster
                currentCluster := dirent.startCluster }
          | none => do
              let next ← fatGetNextCluster v cluster
              searchFileLoop file name n next
      else return none

/-- `fat_search_file` with `_fat_search_file`. -/
def fatSearchFile (file : Fat16File) (name : List UInt8) (startCluster : Nat) :
    FatM (Option Fat16File) :=
  let fmtName := fat16FilenameFmt (fun _ => 0) (cstr name)
  if startCluster = clusRoot then fatSearchRoot v file fmtName
  else searchFileLoop v file fmtName fuel startCluster

/-- The loop of `fat16_find`. A segment longer than `seg` is written past its end. -/
def findLoop : Nat → Fat16File → List UInt8 → FatM (Option Fat16File)
  | 0, _, _ => FatM.stop .hang
  | n + 1, file, path =>
      let (seg, next) := strtok path [slash]
      if 16 ≤ seg.length then FatM.stop .fault
      else if seg = [] then return some file
      else do
        let found ← fatSearchFile v fuel file seg file.dirent.startCluster
        match found, next with
        | none, _ => return none
        | some file, some next => findLoop n file next
        | some file, none => return some file

/-- `fat16_find`. -/
def fat16Find (file : Fat16File) (path : List UInt8) : FatM (Option Fat16File) :=
  if path = [slash] then
    return some { file with
      dirent := rootEnt
      currentCluster := clusRoot
      direntCluster := 0xFF
      direntSector := 0xFF
      flag := { file.flag with isRoot := true } }
  else findLoop v fuel (path.length + 1) { file with dirent := rootEnt } path

/-- The loop of `fat_open` that looks for the last cluster. -/
def lastCluster : Nat → Nat → FatM Nat
  | 0, _ => FatM.stop .hang
  | n + 1, cluster => do
      let tmp ← fatGetNextCluster v cluster
      if clusNormal tmp then lastCluster n tmp else return cluster

/-- `fat_open` without `FAT16_CTL_CREATE`. -/
def fatOpenExisting (path : List UInt8) (flag : Flags) : FatM (Option Fat16File) := do
  match ← fat16Find v fuel (newFat16File flag) path with
  | none => return none
  | some file =>
      if flag.append then do
        let cluster ← lastCluster v fuel file.dirent.startCluster
        return some { file with
          flag := { file.flag with write := true }
          currentCluster := cluster
          byteOffset := file.dirent.fileSize }
      else return some file

/-! ## Reading -/

/-- The value of a `uint32_t` as an `int`. -/
def signed32 (n : Nat) : Int := if n < 2 ^ 31 then n else (n : Int) - 2 ^ 32

/-- `min`, which takes its arguments as `int`. -/
def min32 (a b : Nat) : Nat := if signed32 a < signed32 b then a else b

/-- The loop of `fat_rw_root`: the bytes copied and the new offset. -/
def rwRootLoop (write : Bool) (userBuf : Buf) (start last : Nat) :
    Nat → Nat → List UInt8 → FatM (List UInt8)
  | 0, _, _ => FatM.stop .hang
  | n + 1, offset, out =>
      if offset < last ∧ ¬v.rootSectors ≤ offset / v.sb.bytesPerSector then do
        let sector := offset / v.sb.bytesPerSector
        let secNum := min32 v.sb.sectorsPerCluster (v.rootSectors - sector)
        let nextOffset := min32 (u32 (offset + secNum * v.sb.bytesPerSector)) last
        let cnt := sub32 nextOffset offset
        let inBlock := offset - sector * v.sb.bytesPerSector
        let (_, block) ← ataReadSector (v.rootDirStart + sector) secNum v.clusterBytes fun _ => 0
        if v.clusterBytes < inBlock + cnt then FatM.stop .fault
        else if write then do
          let piece := slice userBuf (offset - start) cnt
          let _ ← ataWriteSector (v.rootDirStart + sector) secNum (patch block inBlock piece)
          rwRootLoop write userBuf start last n nextOffset (out ++ piece)
        else rwRootLoop write userBuf start last n nextOffset (out ++ slice block inBlock cnt)
      else return out

/-- The result `FAT_FILE_EOF`. -/
def fatFileEof : Int := -1

/-- `fat_rw_root` for a handle on the root: the result, the bytes copied and the handle. -/
def fatRwRoot (file : Fat16File) (userBuf : Buf) (bufSize : Nat) :
    FatM (Int × List UInt8 × Fat16File) :=
  if v.rootSectors ≤ file.byteOffset / v.sb.bytesPerSector then return (fatFileEof, [], file)
  else do
    let out ← rwRootLoop v file.flag.write userBuf file.byteOffset (u32 (file.byteOffset + bufSize))
      (bufSize + 1) file.byteOffset []
    return (out.length, out, { file with byteOffset := u32 (file.byteOffset + out.length) })

/-- The loop of `fat_read_file`: the bytes copied, the cluster and the offset. -/
def readLoop (bufSize last : Nat) :
    Nat → Nat → Nat → List UInt8 → FatM (List UInt8 × Nat × Nat)
  | 0, _, _, _ => FatM.stop .hang
  | n + 1, cluster, offset, out =>
      if offset < last ∧ !clusEof cluster then do
        let (_, block) ← fatReadCluster v cluster fun _ => 0
        let nextOffset :=
          min32 last (u32 ((offset + v.clusterBytes) / v.clusterBytes * v.clusterBytes))
        let cnt := sub32 nextOffset offset
        if v.clusterBytes < offset % v.clusterBytes + cnt ∨ bufSize < out.length + cnt then
          FatM.stop .fault
        else do
          let cluster ← if nextOffset / v.clusterBytes ≠ offset / v.clusterBytes then
            fatGetNextCluster v cluster else pure cluster
          readLoop bufSize last n cluster nextOffset
            (out ++ slice block (offset % v.clusterBytes) cnt)
      else return (out, cluster, offset)

/-- `fat_read_file`: the result, the bytes copied and the handle. -/
def fatReadFile (file : Fat16File) (userBuf : Buf) (bufSize : Nat) :
    FatM (Int × List UInt8 × Fat16File) :=
  if file.dirent.startCluster = clusRoot then fatRwRoot v file userBuf bufSize
  else if !isDirectory file.dirent ∧ file.dirent.fileSize ≤ file.byteOffset then
    return (fatFileEof, [], file)
  else if clusEof file.currentCluster then return (fatFileEof, [], file)
  else do
    let (out, cluster, offset) ← readLoop v bufSize (u32 (file.byteOffset + bufSize)) (bufSize + 1)
      file.currentCluster file.byteOffset []
    let readCnt : Int := if !isDirectory file.dirent ∧ file.dirent.fileSize ≤ offset then
      (out.length : Int) - (offset - file.dirent.fileSize) else out.length
    return (readCnt, out, { file with
      currentCluster := u16 cluster
      byteOffset := ((file.byteOffset + readCnt) % 2 ^ 32).toNat })

/-! ## Writing -/

/-- `fat_update_file_dirent`. The entry is looked up by the name in the handle. -/
def fatUpdateFileDirent (file : Fat16File) (newDirent : Option DirEnt) : FatM Unit := do
  let (_, block) ← if file.direntCluster = clusRoot then
      ataReadSector file.direntSector 1 v.clusterBytes fun _ => 0
    else fatReadCluster v file.direntCluster fun _ => 0
  match searchNameInBlock block v.clusterBytes file.dirent with
  | none => FatM.stop .panic
  | some i =>
      let block := writeEnt block (direntSize * i) (newDirent.getD file.dirent)
      if file.direntCluster = clusRoot then do
        let _ ← ataWriteSector file.direntSector 1 block
      else fatWriteCluster v block file.direntCluster

/-- The cluster after `cluster`, which is added if there is none. -/
def nextOrNewCluster (cluster : Nat) : FatM Nat := do
  let tmp ← fatGetNextCluster v cluster
  if clusEof tmp then do
    let tmp ← fatGetFreeCluster v
    writeFat v cluster tmp
    writeFat v tmp 0xFFFF
    return tmp
  else return tmp

/-- The loop of `fat_write_file`: the cluster and the offset. -/
def writeLoop (userBuf : List UInt8) : Nat → Nat → Nat → Nat → FatM (Nat × Nat)
  | 0, _, _, _ => FatM.stop .hang
  | n + 1, cluster, byteOffset, writeCnt =>
      if writeCnt < userBuf.length then do
        let (_, block) ← fatReadCluster v cluster fun _ => 0
        let pos := byteOffset % v.clusterBytes
        let tmp := min32 (v.clusterBytes - pos) (userBuf.length - writeCnt)
        if v.clusterBytes < pos + tmp then FatM.stop .fault
        else do
          fatWriteCluster v (patch block pos ((userBuf.drop writeCnt).take tmp)) cluster
          let byteOffset := u32 (byteOffset + tmp)
          let cluster ← if byteOffset % v.clusterBytes = 0 then nextOrNewCluster v cluster
            else pure cluster
          writeLoop userBuf n cluster byteOffset (writeCnt + tmp)
      else return (cluster, byteOffset)

/-- `fat_write_file`: the result and the handle. -/
def fatWriteFile (file : Fat16File) (userBuf : List UInt8) : FatM (Int × Fat16File) :=
  if isDirectory file.dirent then return (-2, file)
  else if !file.flag.write then return (-2, file)
  else if clusEof file.currentCluster then return (fatFileEof, file)
  else do
    let (cluster, byteOffset) ← writeLoop v userBuf (userBuf.length + 1) file.currentCluster
      file.byteOffset 0
    let file := { file with
      byteOffset := byteOffset
      dirent := file.dirent.setFileSize byteOffset
      currentCluster := u16 cluster }
    fatUpdateFileDirent v file none
    return (userBuf.length, file)

/-! ## Deleting -/

/-- `fat_free_clusters_until_end`. -/
def fatFreeClustersUntilEnd : Nat → Nat → FatM Unit
  | 0, _ => FatM.stop .hang
  | n + 1, cluster =>
      if clusNormal cluster then do
        let next ← fatGetNextCluster v cluster
        writeFat v cluster 0
        fatFreeClustersUntilEnd n next
      else return ()

/-- The formatted names of the two links of a directory. -/
def dotName : Mem := fun i => if i = 0 then dot else space

def dotDotName : Mem := fun i => if i < 2 then dot else space

/-- The inner loop of `_fat_free_childs_under_dir`, over the entries of a block. -/
def freeEntries (freeDir : Nat → FatM Unit) (block : Buf) : Nat → Nat → FatM Unit
  | 0, _ => return ()
  | n + 1, i =>
      let e := readEnt block (direntSize * i)
      if !clusNormal e.startCluster ∨ fatFilenameMatch e dotName ∨ fatFilenameMatch e dotDotName then
        freeEntries freeDir block n (i + 1)
      else if !isDirectory e then do
        fatFreeClustersUntilEnd v fuel e.startCluster
        freeEntries freeDir block n (i + 1)
      else do
        freeDir e.startCluster
        freeEntries freeDir block n (i + 1)

/-- `_fat_free_childs_under_dir` from a cluster of the directory on. -/
def fatFreeChildsUnderDir : Nat → Nat → FatM Unit
  | 0, _ => FatM.stop .hang
  | n + 1, cluster =>
      if clusNormal cluster then do
        let (_, block) ← fatReadCluster v cluster fun _ => 0
        freeEntries v fuel (fatFreeChildsUnderDir n) block ((v.clusterBytes + 31) / direntSize) 0
        let next ← fatGetNextCluster v cluster
        writeFat v cluster 0
        fatFreeChildsUnderDir n next
      else return ()

/-- The entry that takes the place of a deleted one. -/
def deletedEnt (e : DirEnt) : DirEnt :=
  DirEnt.setStartCluster (DirEnt.setFileSize (store8 e 0 0xE5) 0) 0

/-- `fat_delete_file`. -/
def fatDeleteFile (path : List UInt8) : FatM Int := do
  match ← fatOpenExisting v fuel path Flags.none with
  | none => return -1
  | some file =>
      if file.currentCluster = clusRoot then return -1
      else do
        if isDirectory file.dirent then
          fatFreeChildsUnderDir v fuel fuel file.dirent.startCluster
        else fatFreeClustersUntilEnd v fuel file.dirent.startCluster
        fatUpdateFileDirent v file (some (deletedEnt file.dirent))
        return 1

/-! ## Creating -/

/-- The characters `txt`. -/
def txtExt : List UInt8 := [116, 120, 116]

/-- The new entry. -/
def newDirent (name : List UInt8) (dir : Bool) (newCluster : Nat) : DirEnt :=
  let e := fat16FilenameFmt (fun _ => 0) (cstr name)
  let e := if dir then store8 e 11 entAttrDir else patch e 8 txtExt
  DirEnt.setStartCluster e newCluster

/-- A link of a new directory. -/
def linkDirent (name : List UInt8) (cluster : Nat) : DirEnt :=
  DirEnt.setStartCluster (fat16FilenameFmt (store8 (fun _ => 0) 11 entAttrDir) (cstr name)) cluster

/-- The first cluster of a new file or directory. -/
def newBlock (dir : Bool) (newCluster parentCluster : Nat) : Buf :=
  if dir then
    writeEnt (writeEnt (fun _ => 0) 0 (linkDirent [dot] newCluster)) direntSize
      (linkDirent [dot, dot] parentCluster)
  else fun _ => 0

/-- The part of `_fat_create_file` from `create_file_dirent` on, with slot number `i` of `buf`. -/
def createFileDirent (parent : Fat16File) (name : List UInt8) (dir : Bool) (buf : Buf) (i : Nat)
    (parentCluster : Nat) : FatM Unit := do
  let newCluster ← fatGetFreeCluster v
  let buf := writeEnt buf (direntSize * i) (newDirent name dir newCluster)
  if parent.dirent.startCluster = clusRoot then do
    let tmp := direntSize * i / v.sb.bytesPerSector
    let lbaStart := u32 (sub32 (v.rootDirStart + parent.byteOffset / v.sb.bytesPerSector)
      v.sb.sectorsPerCluster + tmp)
    let _ ← ataWriteSector lbaStart 1 fun k => buf (tmp * v.sb.bytesPerSector + k)
  else fatWriteCluster v buf parentCluster
  writeFat v newCluster 0xFFFF
  fatWriteCluster v (newBlock dir newCluster parentCluster) newCluster

/-- A slot that a new entry may take. -/
def isFreeSlot (e : DirEnt) : Bool := clusFree e.startCluster && !fatFilenameMatch e dotDotName

/-- The loop of `_fat_create_file`. -/
def createLoop (name : List UInt8) (dir : Bool) : Nat → Fat16File → Nat → Buf → FatM Unit
  | 0, _, _, _ => FatM.stop .hang
  | n + 1, parent, parentCluster, buf => do
      let tmp := parent.currentCluster
      let (_, out, parent) ← fatReadFile v parent (fun _ => 0) v.clusterBytes
      let buf := patch buf 0 out
      if clusEof parent.currentCluster then do
        let newCluster ← fatGetFreeCluster v
        writeFat v tmp newCluster
        writeFat v newCluster 0xFFFF
        createFileDirent v parent name dir (fun _ => 0) 0 newCluster
      else
        match firstIndex (fun i => isFreeSlot (readEnt buf (direntSize * i)))
            ((v.clusterBytes + 31) / direntSize) 0 with
        | some i => createFileDirent v parent name dir buf i parentCluster
        | none => createLoop name dir n parent parent.currentCluster buf

/-- `_fat_create_file`, which returns 1 if it returns. -/
def fatCreateFile (parent : Fat16File) (name : List UInt8) (dir : Bool) : FatM Unit :=
  createLoop v name dir fuel parent parent.dirent.startCluster fun _ => 0

/-- The size of the two buffers of `fat_open`. -/
def pathBufSize : Nat := 128

/-- `fat_open`. -/
def fatOpen (path : List UInt8) (flag : Flags) : FatM (Option Fat16File) :=
  if flag.create then do
    match ← fatOpenExisting v fuel path { flag with create := false } with
    | some file => return some { file with flag := flag }
    | none =>
        match getBasedir path, getFilename path with
        | none, _ => FatM.stop .fault
        | some _, none => return none
        | some baseDir, some filename =>
            if pathBufSize ≤ baseDir.length ∨ pathBufSize ≤ filename.length then FatM.stop .fault
            else do
              match ← fatOpenExisting v fuel baseDir Flags.none with
              | none => return none
              | some parent => do
                  fatCreateFile v fuel parent filename flag.dir
                  match ← fatOpenExisting v fuel path { flag with create := false } with
                  | none => FatM.stop .fault
                  | some file => return some { file with flag := { file.flag with create := true } }
  else fatOpenExisting v fuel path flag

end TsOs.Fat
