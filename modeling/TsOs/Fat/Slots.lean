import TsOs.Fat.Creating
import TsOs.Fat.RootReading

/-!
# The search for a free slot

`_fat_create_file` reads the directory in blocks of the size of a cluster and takes the
first free slot that it sees. This module says what one block gives, and which slot the
loop takes in a subdirectory and in the root directory. In a subdirectory the loop does
not look at the block that it has read last: it adds a cluster as soon as the handle is
behind the last one.
-/

namespace TsOs.Fat
open ByteMemory

variable {v : Fat16Volume} {d : Disk} {f : Fat16File} {name : List UInt8} {dir : Bool}

/-- The first slot of a list that a new entry may take. -/
def firstFree (d : Disk) (A : List Nat) : Option Nat := A.find? fun a => isFreeSlot (readEnt d a)

theorem firstFree_append (A B : List Nat) :
    firstFree d (A ++ B) = (firstFree d A).or (firstFree d B) := List.find?_append

theorem firstFree_eq_none {A : List Nat} :
    firstFree d A = none ↔ ∀ a ∈ A, isFreeSlot (readEnt d a) = false := by
  simp [firstFree]

theorem firstFree_eq_some {A : List Nat} {a : Nat} (h : firstFree d A = some a) :
    a ∈ A ∧ isFreeSlot (readEnt d a) = true := by
  have htest := List.find?_some (p := fun a => isFreeSlot (readEnt d a)) h
  exact ⟨List.mem_of_find?_eq_some h, htest⟩

theorem isFreeSlot_startCluster {e : DirEnt} (h : isFreeSlot e = true) : e.startCluster = 0 := by
  rw [isFreeSlot, Bool.and_eq_true, clusFree_iff] at h
  exact h.1

/-- The loop over a block finds the first free slot of its slots. -/
theorem firstFree_block {b n : Nat} {buf : Buf} (hbuf : ∀ i < n, buf i = d (b + i))
    (hfit : direntSize * ((n + 31) / direntSize) ≤ n) :
    firstFree d ((List.range ((n + 31) / direntSize)).map fun i => b + direntSize * i) =
      (firstIndex (fun i => isFreeSlot (readEnt buf (direntSize * i))) ((n + 31) / direntSize) 0).map
        fun i => b + direntSize * i := by
  unfold firstFree
  rw [firstIndex_eq_find?, List.find?_map, ← List.range_eq_range']
  congr 1
  refine List.find?_congr fun i hi => ?_
  have hi' := List.mem_range.mp hi
  have hent : readEnt buf (direntSize * i) = readEnt d (b + direntSize * i) := by
    funext j
    unfold readEnt
    split
    next hj =>
      rw [hbuf _ (by unfold direntSize at *; omega), Nat.add_assoc]
    next => rfl
  rw [hent]
  rfl

/-! ## One block of a subdirectory -/

variable (v) in
/-- The entry of a cluster as `fat_get_next_cluster` returns it. -/
def nextCluster (d : Disk) (c : Nat) : Nat :=
  load16 d (sectorSize * u16 (v.fatStart + c / 256) + 2 * (c % 256))

section Blocks

variable (hg : Geometry v)
include hg

theorem fatGetNextCluster_eq (d : Disk) (c : Nat) :
    fatGetNextCluster v c d = (.ok (nextCluster v d c), d) := by
  have hdiv : c * 2 / 512 = c / 256 := by omega
  unfold fatGetNextCluster readFat fatIndex
  rw [hg.bytesPerSector]
  change (Except.ok (load16 (block d _ (sectorSize * 1)) (2 * (c % 256))), d) = _
  rw [load16_block d (by unfold sectorSize; omega)]
  unfold nextCluster sectorSize
  rw [hdiv]

theorem nextCluster_eq {c : Nat} (hc : c < 256 * v.sb.sectorsFat) :
    nextCluster v d c = fatEntry v d c := by
  have hrun := (fatGetNextCluster_eq hg d c).symm.trans (fatGetNextCluster_run hg d hc)
  exact FatM.ok_inj hrun

/-- At the start of a cluster the loop for one cluster makes one pass, which ends with the cluster. -/
theorem readLoop_block {cluster off : Nat} (heof : clusEof cluster = false) (hdvd : v.clusterBytes ∣ off)
    (hlt : off + v.clusterBytes < 2 ^ 32) (m : Nat) :
    readLoop v v.clusterBytes (u32 (off + v.clusterBytes)) (m + 2) cluster off [] d =
      (.ok (slice (block d (sectorSize * clusterSector v cluster) v.clusterBytes) 0 v.clusterBytes,
        nextCluster v d cluster, off + v.clusterBytes), d) := by
  obtain ⟨j, hj⟩ := hdvd
  have hpos := hg.clusterBytes_pos
  have hnext : off + v.clusterBytes = v.clusterBytes * (j + 1) := by
    rw [hj]
    ring
  have hdiv : (off + v.clusterBytes) / v.clusterBytes = j + 1 := by
    rw [hnext, Nat.mul_div_cancel_left _ hpos]
  have hdiv' : off / v.clusterBytes = j := by rw [hj, Nat.mul_div_cancel_left _ hpos]
  have hmod : off % v.clusterBytes = 0 := by rw [hj, Nat.mul_mod_right]
  have hread : fatReadCluster v cluster (fun _ => 0) d = (.ok (v.sb.sectorsPerCluster,
      block d (sectorSize * clusterSector v cluster) v.clusterBytes), d) := by
    unfold fatReadCluster
    rw [ataReadSector_run d (by rw [hg.clusterBytes, Nat.mul_div_cancel_left _ (by decide)]),
      hg.clusterBytes]
  have hmin : min32 (off + v.clusterBytes) (off + v.clusterBytes) = off + v.clusterBytes := ite_self _
  have hgo : off < off + v.clusterBytes ∧ (!clusEof cluster) = true := by
    rw [heof]
    exact ⟨by omega, rfl⟩
  have hfit : ¬(v.clusterBytes < 0 + v.clusterBytes ∨
      v.clusterBytes < ([] : List UInt8).length + v.clusterBytes) := by
    rw [List.length_nil]
    omega
  rw [u32_of_lt hlt, readLoop, if_pos hgo, FatM.bind_ok hread]
  dsimp only
  rw [hdiv, Nat.mul_comm (j + 1), ← hnext, u32_of_lt hlt, hmin, sub32_of_le (by omega) hlt, hmod,
    Nat.add_sub_cancel_left, if_neg hfit, hdiv, hdiv', if_pos (by omega),
    FatM.bind_ok (fatGetNextCluster_eq hg d _), readLoop, if_neg (by omega)]
  rfl

omit hg in
/-- The offset after a read of `n` bytes that `fat_read_file` cuts at the size of the file. -/
theorem offset_readCnt {off n size : Nat} {isDir : Bool} (hlt : off + n < 2 ^ 32)
    (hmore : isDir = true ∨ off < size) :
    (((off : Int) + if (!isDir) = true ∧ size ≤ off + n then (n : Int) - ((off + n : Nat) - size)
      else n) % 2 ^ 32).toNat = if isDir then off + n else min (off + n) size := by
  cases isDir with
  | true =>
      rw [if_neg (by simp), if_pos rfl]
      omega
  | false =>
      have hsize := hmore.resolve_left Bool.false_ne_true
      rw [if_neg Bool.false_ne_true]
      by_cases hend : size ≤ off + n
      · rw [if_pos ⟨rfl, hend⟩]
        omega
      · rw [if_neg fun hand => hend hand.2]
        omega

/-- A call for one cluster, at the start of a cluster, copies that cluster and moves on by one. -/
theorem fatReadFile_block (ub : Buf) (hstart : f.dirent.startCluster ≠ 0)
    (hmore : isDirectory f.dirent = true ∨ f.byteOffset < f.dirent.fileSize)
    (heof : clusEof f.currentCluster = false) (hdvd : v.clusterBytes ∣ f.byteOffset)
    (hlt : f.byteOffset + v.clusterBytes < 2 ^ 32) :
    ∃ cnt o', (isDirectory f.dirent = true ∧ o' = f.byteOffset + v.clusterBytes ∨
        isDirectory f.dirent = false ∧ o' = min (f.byteOffset + v.clusterBytes) f.dirent.fileSize) ∧
      fatReadFile v f ub v.clusterBytes d = (.ok (cnt,
        slice (block d (sectorSize * clusterSector v f.currentCluster) v.clusterBytes) 0 v.clusterBytes,
        f.atPosition (nextCluster v d f.currentCluster) o'), d) := by
  have hpos := hg.clusterBytes_pos
  have hfuel : v.clusterBytes + 1 = v.clusterBytes - 1 + 2 := by omega
  have hnot : ¬((!isDirectory f.dirent) = true ∧ f.dirent.fileSize ≤ f.byteOffset) := by
    rintro ⟨hfile, hle⟩
    rw [Bool.not_eq_true'] at hfile
    rcases hmore with hdir | hsize
    · exact absurd (hdir.symm.trans hfile) (by decide)
    · omega
  have hc : u16 (nextCluster v d f.currentCluster) = nextCluster v d f.currentCluster :=
    u16_of_lt (load16_lt d _)
  have hoff := offset_readCnt hlt hmore
  refine ⟨if (!isDirectory f.dirent) = true ∧ f.dirent.fileSize ≤ f.byteOffset + v.clusterBytes then
    (v.clusterBytes : Int) - ((f.byteOffset + v.clusterBytes : Nat) - f.dirent.fileSize)
    else v.clusterBytes, if isDirectory f.dirent then f.byteOffset + v.clusterBytes else
    min (f.byteOffset + v.clusterBytes) f.dirent.fileSize, ?_, ?_⟩
  · cases isDirectory f.dirent with
    | true => exact Or.inl ⟨rfl, rfl⟩
    | false => exact Or.inr ⟨rfl, rfl⟩
  · unfold fatReadFile
    rw [if_neg (show f.dirent.startCluster ≠ clusRoot from hstart), if_neg hnot, heof,
      if_neg Bool.false_ne_true, hfuel, FatM.bind_ok (readLoop_block hg heof hdvd hlt _)]
    dsimp only
    rw [hc, length_slice, hoff]
    rfl

end Blocks

/-! ## The loop in a subdirectory -/

theorem patch_slice_of_lt {m m' : Mem} {n i : Nat} (hi : i < n) : patch m 0 (slice m' 0 n) i = m' i := by
  unfold patch
  rw [if_pos ⟨Nat.zero_le _, by rw [length_slice]; omega⟩]
  simp [slice, hi]

variable (v) in
/-- What the loop does behind the last cluster of a directory. -/
def createInNew (parent : Fat16File) (name : List UInt8) (dir : Bool) (last : Nat) : FatM Unit := do
  let newCluster ← fatGetFreeCluster v
  writeFat v last newCluster
  writeFat v newCluster 0xFFFF
  createFileDirent v parent name dir (fun _ => 0) 0 newCluster

/-- The buffer has the contents of a cluster. -/
def HoldsCluster (v : Fat16Volume) (d : Disk) (c : Nat) (buf : Buf) : Prop :=
  ∀ i < v.clusterBytes, buf i = d (clusterAddr v c + i)

/-- The handle on a directory stands at the start of cluster `c`, which `l` follows in the chain. -/
structure AtBlock (v : Fat16Volume) (d : Disk) (f : Fat16File) (c : Nat) (l : List Nat) : Prop where
  chain : IsChain v d c (c :: l)
  isDir : isDirectory f.dirent = true
  start_ne : f.dirent.startCluster ≠ 0
  current : f.currentCluster = c
  dvd : v.clusterBytes ∣ f.byteOffset
  lt : f.byteOffset + (l.length + 1) * v.clusterBytes < 2 ^ 32

section Loop

variable (hg : Geometry v) {c n : Nat} {l : List Nat} {buf : Buf}

/-- The handle after the cluster has been read. -/
theorem AtBlock.next {y : Nat} (h : AtBlock v d f c (y :: l)) :
    fatEntry v d c = y ∧ clusEof y = false ∧
      AtBlock v d (f.atPosition y (f.byteOffset + v.clusterBytes)) y l := by
  have hnext : fatEntry v d c = y := h.chain.tail.head_eq
  have hy := h.chain.tail.inRange y List.mem_cons_self
  have htail := h.chain.tail
  rw [hnext] at htail
  have hlt := h.lt
  rw [List.length_cons, Nat.succ_mul] at hlt
  refine ⟨hnext, ?_, htail, h.isDir, h.start_ne, rfl, dvd_add h.dvd (dvd_refl _), ?_⟩
  · rw [← Bool.not_eq_true, clusEof_iff]
    have := hy.2.1
    omega
  · change f.byteOffset + v.clusterBytes + _ < _
    omega

theorem AtBlock.fits (h : AtBlock v d f c l) : f.byteOffset + v.clusterBytes < 2 ^ 32 := by
  have hlt := h.lt
  rw [Nat.succ_mul] at hlt
  omega

/-- One pass of the loop, after its read. -/
theorem createLoop_read {cnt : Int} {out : List UInt8} {f' : Fat16File} {pc : Nat}
    (hread : fatReadFile v f (fun _ => 0) v.clusterBytes d = (.ok (cnt, out, f'), d)) :
    createLoop v name dir (n + 1) f pc buf d =
      if clusEof f'.currentCluster then createInNew v f' name dir f.currentCluster d
      else match firstIndex (fun i => isFreeSlot (readEnt (patch buf 0 out) (direntSize * i)))
          ((v.clusterBytes + 31) / direntSize) 0 with
        | some i => createFileDirent v f' name dir (patch buf 0 out) i pc d
        | none => createLoop v name dir n f' f'.currentCluster (patch buf 0 out) d := by
  rw [createLoop, FatM.bind_ok hread]
  dsimp only
  by_cases heof : clusEof f'.currentCluster = true
  · rw [if_pos heof, if_pos heof]
    rfl
  · rw [if_neg heof, if_neg heof]
    generalize firstIndex _ _ _ = r
    cases r <;> rfl

include hg

theorem Geometry.slots_fit : direntSize * ((v.clusterBytes + 31) / direntSize) ≤ v.clusterBytes := by
  rw [hg.slots_eq, hg.clusterBytes]
  unfold sectorSize direntSize
  omega

/-- The search for a slot in a buffer is the one in the slots of the cluster. -/
theorem HoldsCluster.firstFree_eq (h : HoldsCluster v d c buf) :
    firstFree d (clusterSlots v c) =
      (firstIndex (fun i => isFreeSlot (readEnt buf (direntSize * i)))
        ((v.clusterBytes + 31) / direntSize) 0).map fun i => clusterAddr v c + direntSize * i :=
  firstFree_block h hg.slots_fit

/-- One pass of the loop at the start of a cluster. -/
theorem createLoop_pass (hc : InRange v c) (hdir : isDirectory f.dirent = true)
    (hstart : f.dirent.startCluster ≠ 0) (hcur : f.currentCluster = c) (hdvd : v.clusterBytes ∣ f.byteOffset)
    (hfit : f.byteOffset + v.clusterBytes < 2 ^ 32) (name : List UInt8) (dir : Bool) (n pc : Nat)
    (buf : Buf) :
    ∃ buf', HoldsCluster v d c buf' ∧
      createLoop v name dir (n + 1) f pc buf d =
        if clusEof (fatEntry v d c) then
          createInNew v (f.atPosition (fatEntry v d c) (f.byteOffset + v.clusterBytes)) name dir c d
        else match firstIndex (fun i => isFreeSlot (readEnt buf' (direntSize * i)))
            ((v.clusterBytes + 31) / direntSize) 0 with
          | some i => createFileDirent v
              (f.atPosition (fatEntry v d c) (f.byteOffset + v.clusterBytes)) name dir buf' i pc d
          | none => createLoop v name dir n (f.atPosition (fatEntry v d c) (f.byteOffset + v.clusterBytes))
              (fatEntry v d c) buf' d := by
  have heof : clusEof f.currentCluster = false := by
    rw [hcur, ← Bool.not_eq_true, clusEof_iff]
    have := hc.2.1
    omega
  obtain ⟨cnt, o', hoff, hread⟩ := fatReadFile_block (d := d) hg (fun _ => 0) hstart (Or.inl hdir)
    heof hdvd hfit
  obtain rfl : o' = f.byteOffset + v.clusterBytes := by
    rcases hoff with ⟨-, ho'⟩ | ⟨hfile, -⟩
    · exact ho'
    · exact absurd (hdir.symm.trans hfile) (by decide)
  rw [hcur, nextCluster_eq hg hc.2.2] at hread
  have hsector : clusterSector v c = v.dataStart + (c - 2) * v.sb.sectorsPerCluster := by
    have := hc.1
    have := hc.2.1
    exact hg.clusterSector_eq (by omega) (by omega)
  refine ⟨patch buf 0 (slice (block d (sectorSize * clusterSector v c) v.clusterBytes) 0 v.clusterBytes),
    fun i hi => ?_, ?_⟩
  · rw [patch_slice_of_lt hi, block_of_lt d hi, hsector]
    rfl
  · rw [createLoop_read hread, hcur]
    rfl

/-- The loop takes the first free slot in the clusters before the last one. -/
theorem AtBlock.createLoop_slot {a : Nat} (h : AtBlock v d f c l) (name : List UInt8) (dir : Bool)
    (buf : Buf) (hn : l.length < n) (ha : firstFree d (chainSlots v (c :: l).dropLast) = some a) :
    ∃ f' buf' x i, f'.dirent = f.dirent ∧ HoldsCluster v d x buf' ∧ x ∈ (c :: l).dropLast ∧
      i < (v.clusterBytes + 31) / direntSize ∧ a = clusterAddr v x + direntSize * i ∧
      createLoop v name dir n f c buf d = createFileDirent v f' name dir buf' i x d := by
  induction l generalizing c n f buf with
  | nil => exact absurd ha (by simp [chainSlots, firstFree])
  | cons y l ih =>
      obtain ⟨n, rfl⟩ : ∃ m, n = m + 1 := ⟨n - 1, by omega⟩
      obtain ⟨hnext, heof, hat⟩ := h.next
      obtain ⟨buf', hbuf, hpass⟩ := createLoop_pass (d := d) hg (h.chain.inRange c List.mem_cons_self)
        h.isDir h.start_ne h.current h.dvd h.fits name dir n c buf
      rw [hnext, heof, if_neg Bool.false_ne_true] at hpass
      rw [List.dropLast_cons_cons, chainSlots_cons, firstFree_append, hbuf.firstFree_eq hg] at ha
      cases hi : firstIndex (fun i => isFreeSlot (readEnt buf' (direntSize * i)))
          ((v.clusterBytes + 31) / direntSize) 0 with
      | some i =>
          rw [hi, Option.map_some, Option.some_or] at ha
          rw [hi] at hpass
          have hlt := (firstIndex_spec hi).2.1
          exact ⟨_, buf', c, i, by rfl, hbuf, List.mem_cons_self, by omega, (Option.some.inj ha).symm, hpass⟩
      | none =>
          rw [hi, Option.map_none, Option.none_or] at ha
          rw [hi] at hpass
          have hlen : l.length < n := Nat.lt_of_succ_lt_succ hn
          obtain ⟨f', buf'', x, i, hf', hbuf'', hx, hi', haddr, hrun⟩ := ih hat buf' hlen ha
          exact ⟨f', buf'', x, i, hf', hbuf'', List.mem_cons_of_mem _ hx, hi', haddr, hpass.trans hrun⟩

/-- The loop adds a cluster when the clusters before the last one have no free slot. -/
theorem AtBlock.createLoop_full (h : AtBlock v d f c l) (name : List UInt8) (dir : Bool) (buf : Buf)
    (hn : l.length < n) (hnone : firstFree d (chainSlots v (c :: l).dropLast) = none) :
    ∃ f', f'.dirent = f.dirent ∧ createLoop v name dir n f c buf d =
      createInNew v f' name dir ((c :: l).getLast (List.cons_ne_nil c l)) d := by
  induction l generalizing c n f buf with
  | nil =>
      obtain ⟨n, rfl⟩ : ∃ m, n = m + 1 := ⟨n - 1, by omega⟩
      obtain ⟨buf', -, hpass⟩ := createLoop_pass (d := d) hg (h.chain.inRange c List.mem_cons_self)
        h.isDir h.start_ne h.current h.dvd h.fits name dir n c buf
      rw [if_pos h.chain.tail.eof_of_nil] at hpass
      exact ⟨_, by rfl, hpass⟩
  | cons y l ih =>
      obtain ⟨n, rfl⟩ : ∃ m, n = m + 1 := ⟨n - 1, by omega⟩
      obtain ⟨hnext, heof, hat⟩ := h.next
      obtain ⟨buf', hbuf, hpass⟩ := createLoop_pass (d := d) hg (h.chain.inRange c List.mem_cons_self)
        h.isDir h.start_ne h.current h.dvd h.fits name dir n c buf
      rw [hnext, heof, if_neg Bool.false_ne_true] at hpass
      rw [List.dropLast_cons_cons, chainSlots_cons, firstFree_append, hbuf.firstFree_eq hg] at hnone
      obtain ⟨hhere, hrest⟩ := Option.or_eq_none_iff.mp hnone
      rw [Option.map_eq_none_iff.mp hhere] at hpass
      have hlen : l.length < n := Nat.lt_of_succ_lt_succ hn
      obtain ⟨f', hf', hrun⟩ := ih hat buf' hlen hrest
      exact ⟨f', hf', hpass.trans hrun⟩

end Loop

/-! ## The disk after a creation -/

variable (v) in
/-- The disk after a new entry has been put into slot `a`, with its cluster `y`, for which the
driver takes `pc` as the parent. -/
def entered (d : Disk) (name : List UInt8) (dir : Bool) (a y pc : Nat) : Disk :=
  setCluster v (setFat v (writeEnt d a (newDirent name dir y)) y 0xFFFF) y (newBlock dir y pc)

variable (v) in
/-- The disk after the cluster `x` has been linked behind `last`. -/
def linked (d : Disk) (last x : Nat) : Disk := setFat v (setFat v d last x) x 0xFFFF

variable (v) in
/-- The disk after an empty cluster `x` has been added behind `last`. -/
def grown (d : Disk) (last x : Nat) : Disk := setCluster v (linked v d last x) x fun _ => 0

theorem setCluster_writeEnt {c p : Nat} {buf : Buf} {e : DirEnt} (h : HoldsCluster v d c buf)
    (hp : p + direntSize ≤ v.clusterBytes) :
    setCluster v d c (writeEnt buf p e) = writeEnt d (clusterAddr v c + p) e := by
  rw [← setBlock_writeEnt d hp]
  refine setBlock_congr fun i hi => ?_
  unfold writeEnt
  split
  · rfl
  · rw [h i hi, block_of_lt d hi]

/-- A cluster that is written as a whole. -/
theorem setCluster_fill (c : Nat) (buf : Buf) {buf' : Buf} :
    setCluster v (setCluster v d c buf) c buf' = setCluster v d c buf' := by
  funext x
  unfold setCluster setBlock
  split <;> rfl

theorem holdsCluster_setCluster {c : Nat} {buf : Buf} : HoldsCluster v (setCluster v d c buf) c buf := by
  intro i hi
  unfold setCluster setBlock
  rw [if_pos (by omega), Nat.add_sub_cancel_left]

section Create

variable (hg : Geometry v) {c n y : Nat} {l : List Nat}
include hg

/-- The part behind the search, in a subdirectory. -/
theorem createFileDirent_cluster (name : List UInt8) (dir : Bool) (buf : Buf) (i : Nat) {x : Nat} (hstart : f.dirent.startCluster ≠ 0) (hx : InRange v x)
    (hy : fatGetFreeCluster v d = (.ok y, d)) (hyr : InRange v y) :
    createFileDirent v f name dir buf i x d = (.ok (), setCluster v (setFat v
      (setCluster v d x (writeEnt buf (direntSize * i) (newDirent name dir y))) y 0xFFFF) y
        (newBlock dir y x)) := by
  unfold createFileDirent
  rw [FatM.bind_ok hy]
  dsimp only
  rw [if_neg (show f.dirent.startCluster ≠ clusRoot from hstart),
    FatM.bind_ok (fatWriteCluster_run hg d _ hx.clusNormal), FatM.bind_ok (writeFat_run hg _ _ hyr.2.2),
    fatWriteCluster_run hg _ _ hyr.clusNormal]

/-- A creation in a subdirectory that has a free slot before its last cluster. -/
theorem AtBlock.fatCreateFile_slot {a : Nat} (h : AtBlock v d f c l) (hc : f.dirent.startCluster = c)
    (hn : l.length < n) (hroom : (freeClusters v d).Nonempty)
    (ha : firstFree d (chainSlots v (c :: l).dropLast) = some a) :
    ∃ y ∈ freeClusters v d, fatCreateFile v n f name dir d =
      (.ok (), entered v d name dir a y (clusterOf v a)) := by
  obtain ⟨f', buf', x, i, hf', hbuf, hx, hi, rfl, hrun⟩ :=
    h.createLoop_slot hg name dir (fun _ => 0) hn ha
  obtain ⟨y, hy, -, hfree⟩ := fatGetFreeCluster_run hg hroom
  have hxr := h.chain.inRange x (List.dropLast_subset _ hx)
  have hslot := hg.slot_le hi
  have hstart : f'.dirent.startCluster ≠ 0 := by
    rw [hf']
    exact h.start_ne
  refine ⟨y, hy, ?_⟩
  unfold fatCreateFile entered
  rw [hc, hrun, createFileDirent_cluster hg _ _ _ _ hstart hxr hfree (mem_freeClusters.mp hy).1,
    setCluster_writeEnt hbuf hslot,
    hg.clusterOf_eq (by have := hxr.1; omega) (by unfold direntSize at *; omega)]

/-- A creation in a subdirectory that has no free slot before its last cluster. -/
theorem AtBlock.fatCreateFile_grows (h : AtBlock v d f c l) (hc : f.dirent.startCluster = c)
    (hn : l.length < n) (hroom : 2 ≤ (freeClusters v d).card)
    (hnone : firstFree d (chainSlots v (c :: l).dropLast) = none) :
    ∃ x ∈ freeClusters v d, ∃ y ∈ freeClusters v d, y ≠ x ∧ fatCreateFile v n f name dir d =
      (.ok (), entered v (grown v d ((c :: l).getLast (List.cons_ne_nil c l)) x) name dir
        (clusterAddr v x) y x) := by
  obtain ⟨last, hlast⟩ : ∃ last, (c :: l).getLast (List.cons_ne_nil c l) = last := ⟨_, rfl⟩
  obtain ⟨f', hf', hrun⟩ := h.createLoop_full hg name dir (fun _ => 0) hn hnone
  have hsplit : (c :: l).dropLast ++ [last] = c :: l := by
    rw [← hlast]
    exact List.dropLast_append_getLast _
  have hchain := h.chain
  rw [← hsplit] at hchain
  have hnonempty : (freeClusters v d).Nonempty := Finset.card_pos.mp (by omega)
  obtain ⟨x, hx, -, hxfree⟩ := fatGetFreeCluster_run hg hnonempty
  obtain ⟨hxr, hxz⟩ := mem_freeClusters.mp hx
  have hlink : Extends v c _ _ d (linked v d last x) := Extends.link hchain hx
  have hcard := hlink.card_free hg hchain
  have hlen : ((c :: l).dropLast ++ [last, x]).length - ((c :: l).dropLast ++ [last]).length = 1 := by
    rw [List.length_append, List.length_append]
    exact Nat.add_sub_cancel_left _ 1
  rw [hlen] at hcard
  have hmore : (freeClusters v (linked v d last x)).Nonempty := Finset.card_pos.mp (by omega)
  obtain ⟨y, hy, -, hyfree⟩ := fatGetFreeCluster_run hg hmore
  obtain ⟨hyr, hyz⟩ := mem_freeClusters.mp hy
  have hne : y ≠ x := by
    rintro rfl
    rw [linked, fatEntry_setFat_same (by decide)] at hyz
    exact absurd hyz (by decide)
  have hlastr := h.chain.inRange last (by rw [← hsplit]; simp)
  have hyd : y ∈ freeClusters v d := by
    refine mem_freeClusters.mpr ⟨hyr, ?_⟩
    by_cases hyl : y = last
    · subst hyl
      rw [linked, fatEntry_setFat_of_ne hne, fatEntry_setFat_same (by have := hxr.2.1; omega)] at hyz
      have := hxr.1
      omega
    · rwa [linked, fatEntry_setFat_of_ne hne, fatEntry_setFat_of_ne hyl] at hyz
  have hstart : f'.dirent.startCluster ≠ 0 := by
    rw [hf']
    exact h.start_ne
  have hslot : 0 + direntSize ≤ v.clusterBytes := by
    have := hg.le_clusterBytes
    unfold direntSize
    omega
  refine ⟨x, hx, y, hyd, hne, ?_⟩
  unfold fatCreateFile entered grown
  rw [hc, hrun, hlast, createInNew, FatM.bind_ok hxfree, FatM.bind_ok (writeFat_run hg d x hlastr.2.2),
    FatM.bind_ok (writeFat_run hg _ 0xFFFF hxr.2.2)]
  have hdirent := createFileDirent_cluster hg name dir (fun _ => 0) 0 hstart hxr hyfree hyr
  rw [Nat.mul_zero, ← setCluster_fill x fun _ => 0, setCluster_writeEnt holdsCluster_setCluster hslot, Nat.add_zero] at hdirent
  exact hdirent

end Create

end TsOs.Fat
