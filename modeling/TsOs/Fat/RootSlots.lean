import TsOs.Fat.Slots

/-!
# The search for a free slot in the root directory

The root directory is read in blocks of the size of a cluster as well, and the sector to
be written is computed from the position behind the block, as if the block had been a
full one. The loop has no end when there is no free slot.
-/

namespace TsOs.Fat
open ByteMemory

variable {v : Fat16Volume} {d : Disk} {f : Fat16File} {name : List UInt8} {dir : Bool}

/-- The volume without its root directory. -/
def Fat16Volume.rootless (v : Fat16Volume) : Fat16Volume := { v with rootSectors := 0 }

variable (v) in
/-- A geometry with a root directory of any number of entries. When they do not fill the last sector,
the clusters start with that sector. -/
structure AnyRoot : Prop where
  base : Geometry v.rootless
  root_le : v.rootDirStart + v.rootSectors ≤ v.dataStart + 1
  root_lt : v.rootSectors < 2 ^ 16

theorem Geometry.anyRoot (hg : Geometry v) : AnyRoot v := by
  have hdata := hg.root_le_data
  have hlt := hg.dataStart_lt
  refine ⟨⟨hg.bytesPerSector, hg.sectorsPerCluster_pos, hg.sectorsPerCluster_lt, hg.clusterBytes,
    hg.fat_le_root, ?_, hlt⟩, by omega, by omega⟩
  exact (Nat.le_add_right _ _).trans hdata

theorem AnyRoot.rootGeometry (hv : AnyRoot v) : RootGeometry v :=
  ⟨hv.base.bytesPerSector, hv.base.sectorsPerCluster_pos, hv.base.sectorsPerCluster_lt,
    hv.base.clusterBytes, hv.root_lt⟩

variable (v) in
/-- The buffer has the block number `j` of the root directory. -/
def HoldsBlock (d : Disk) (j : Nat) (buf : Buf) : Prop :=
  ∀ i < v.clusterBytes, buf i = d (sectorSize * (v.rootDirStart + v.sb.sectorsPerCluster * j) + i)

variable (v) in
/-- The handle on the root directory stands at the start of block number `j`. -/
structure AtRootBlock (f : Fat16File) (j : Nat) : Prop extends RootHandle f where
  offset : f.byteOffset = sectorSize * (v.sb.sectorsPerCluster * j)
  current : clusEof f.currentCluster = false

/-- Writing back the sector of a slot changes the slot. -/
theorem setBlock_sector {b i n : Nat} {buf : Buf} {e : DirEnt} (hbuf : ∀ k < n, buf k = d (sectorSize * b + k))
    (hn : sectorSize * (i / 16) + sectorSize ≤ n) :
    setBlock d (sectorSize * (b + i / 16)) sectorSize
      (fun k => writeEnt buf (direntSize * i) e (i / 16 * sectorSize + k)) =
        writeEnt d (sectorSize * b + direntSize * i) e := by
  funext x
  unfold setBlock writeEnt
  unfold sectorSize direntSize at *
  split
  next hx =>
    dsimp only
    by_cases hin : 512 * b + 32 * i ≤ x ∧ x < 512 * b + 32 * i + 32
    · rw [if_pos hin, if_pos (by omega)]
      congr 1
      omega
    · rw [if_neg hin, if_neg (by omega), hbuf _ (by omega)]
      congr 1
      omega
  next hx => rw [if_neg (by omega)]

theorem patch_rootFrom_of_lt {m : Mem} {o n i : Nat} (hi : i < n) :
    patch m 0 (rootFrom v d o n) i = d (sectorSize * v.rootDirStart + o + i) := by
  unfold patch rootFrom
  rw [if_pos ⟨Nat.zero_le _, by rw [length_slice]; omega⟩]
  simp [slice, hi]

section Root

variable (hv : AnyRoot v) {j n pc : Nat} {buf : Buf}
include hv

/-- The sector of the slot is written back. -/
theorem AtRootBlock.setBlock_slot {i : Nat} (hf : AtRootBlock v f (j + 1)) (hbuf : HoldsBlock v d j buf)
    (hi : i < (v.clusterBytes + 31) / direntSize) (hj : v.sb.sectorsPerCluster * (j + 1) ≤ v.rootSectors)
    (e : DirEnt) :
    setBlock d (sectorSize * u32 (sub32 (v.rootDirStart + f.byteOffset / v.sb.bytesPerSector)
        v.sb.sectorsPerCluster + direntSize * i / v.sb.bytesPerSector)) sectorSize
      (fun k => writeEnt buf (direntSize * i) e
        (direntSize * i / v.sb.bytesPerSector * v.sb.bytesPerSector + k)) =
      writeEnt d (sectorSize * (v.rootDirStart + v.sb.sectorsPerCluster * j) + direntSize * i) e := by
  have hslots : (v.clusterBytes + 31) / direntSize = 16 * v.sb.sectorsPerCluster := hv.base.slots_eq
  have hcb : v.clusterBytes = sectorSize * v.sb.sectorsPerCluster := hv.base.clusterBytes
  have hbps : v.sb.bytesPerSector = sectorSize := hv.base.bytesPerSector
  have hdata : v.dataStart < 2 ^ 16 := hv.base.dataStart_lt
  have hle := hv.root_le
  have hlt := hv.root_lt
  have hspc : v.sb.sectorsPerCluster < 256 := hv.base.sectorsPerCluster_lt
  rw [Nat.mul_succ] at hj
  have htmp : direntSize * i / sectorSize = i / 16 := by
    unfold direntSize sectorSize
    omega
  have hlba : u32 (sub32 (v.rootDirStart + f.byteOffset / sectorSize) v.sb.sectorsPerCluster + i / 16) =
      v.rootDirStart + v.sb.sectorsPerCluster * j + i / 16 := by
    rw [hf.offset, Nat.mul_div_cancel_left _ (by decide), Nat.mul_succ, sub32_of_le (by omega) (by omega),
      u32_of_lt (by omega)]
    omega
  have hsector : sectorSize * (i / 16) + sectorSize ≤ v.clusterBytes := by
    rw [hcb]
    unfold sectorSize
    omega
  rw [hbps, htmp, hlba, setBlock_sector hbuf hsector]

/-- The part behind the search, in the root directory. -/
theorem createFileDirent_root {i y : Nat} (hf : AtRootBlock v f (j + 1)) (hbuf : HoldsBlock v d j buf)
    (hi : i < (v.clusterBytes + 31) / direntSize) (hj : v.sb.sectorsPerCluster * (j + 1) ≤ v.rootSectors)
    (hy : fatGetFreeCluster v d = (.ok y, d)) (hyr : InRange v y) (pc : Nat) :
    createFileDirent v f name dir buf i pc d = (.ok (), entered v d name dir
      (sectorSize * (v.rootDirStart + v.sb.sectorsPerCluster * j) + direntSize * i) y pc) := by
  have hfat : ∀ D : Disk, writeFat v y 0xFFFF D = (.ok (), setFat v D y 0xFFFF) := fun D =>
    writeFat_run hv.base D 0xFFFF hyr.2.2
  have hcluster : ∀ (D : Disk) (b : Buf), fatWriteCluster v b y D = (.ok (), setCluster v D y b) := fun D b =>
    fatWriteCluster_run hv.base D b hyr.clusNormal
  unfold createFileDirent entered
  rw [FatM.bind_ok hy]
  dsimp only
  rw [if_pos hf.root, FatM.bind_ok (ataWriteSector_run d _ _ _), Nat.mul_one,
    hf.setBlock_slot hv hbuf hi hj, FatM.bind_ok (hfat _), hcluster]

/-- One pass of the loop, at a full block. -/
theorem AtRootBlock.createLoop_pass (hf : AtRootBlock v f j)
    (hj : v.sb.sectorsPerCluster * (j + 1) ≤ v.rootSectors) (name : List UInt8) (dir : Bool) (n pc : Nat)
    (buf : Buf) :
    ∃ f' buf', AtRootBlock v f' (j + 1) ∧ f'.currentCluster = f.currentCluster ∧ HoldsBlock v d j buf' ∧
      createLoop v name dir (n + 1) f pc buf d =
        match firstIndex (fun i => isFreeSlot (readEnt buf' (direntSize * i)))
            ((v.clusterBytes + 31) / direntSize) 0 with
        | some i => createFileDirent v f' name dir buf' i pc d
        | none => createLoop v name dir n f' f.currentCluster buf' d := by
  have hcb : v.clusterBytes = sectorSize * v.sb.sectorsPerCluster := hv.base.clusterBytes
  have hpos : 0 < v.sb.sectorsPerCluster := hv.base.sectorsPerCluster_pos
  have hspc : v.sb.sectorsPerCluster < 256 := hv.base.sectorsPerCluster_lt
  have hlt := hv.root_lt
  rw [Nat.mul_succ] at hj
  have hoff := hf.offset
  have hread := hf.fatReadFile_good (d := d) (n := v.clusterBytes) hv.rootGeometry (fun _ => 0)
    (by unfold sectorSize at *; omega) (by unfold sectorSize at *; omega)
    ⟨by unfold sectorSize at *; omega, Or.inl ⟨_, hoff⟩⟩
  have hcnt : min v.clusterBytes (sectorSize * v.rootSectors - f.byteOffset) = v.clusterBytes := by
    unfold sectorSize at *
    omega
  have hend : min (f.byteOffset + v.clusterBytes) (sectorSize * v.rootSectors) =
      sectorSize * (v.sb.sectorsPerCluster * (j + 1)) := by
    rw [Nat.mul_succ]
    unfold sectorSize at *
    omega
  rw [hcnt, hend] at hread
  refine ⟨{ f with byteOffset := sectorSize * (v.sb.sectorsPerCluster * (j + 1)) },
    patch buf 0 (rootFrom v d f.byteOffset v.clusterBytes), ⟨⟨hf.root, hf.mode⟩, rfl, hf.current⟩, rfl,
    fun i hi => ?_, ?_⟩
  · rw [patch_rootFrom_of_lt hi, hoff, Nat.mul_add]
  · have hnot : ¬clusEof f.currentCluster = true := by
      rw [hf.current]
      exact Bool.false_ne_true
    rw [createLoop_read hread]
    exact if_neg hnot

/-- The slots of a full block. -/
theorem HoldsBlock.firstFree_eq (h : HoldsBlock v d j buf) :
    firstFree d (sectorSlots (v.rootDirStart + v.sb.sectorsPerCluster * j) v.sb.sectorsPerCluster) =
      (firstIndex (fun i => isFreeSlot (readEnt buf (direntSize * i)))
        ((v.clusterBytes + 31) / direntSize) 0).map fun i =>
          sectorSize * (v.rootDirStart + v.sb.sectorsPerCluster * j) + direntSize * i := by
  have hslots : (v.clusterBytes + 31) / direntSize = 16 * v.sb.sectorsPerCluster := hv.base.slots_eq
  have hfit : direntSize * ((v.clusterBytes + 31) / direntSize) ≤ v.clusterBytes := hv.base.slots_fit
  rw [← firstFree_block h hfit, hslots]
  rfl

/-- The loop takes the first free slot in the full blocks. -/
theorem AtRootBlock.createLoop_slot {m a y : Nat} (hf : AtRootBlock v f j) (name : List UInt8)
    (dir : Bool) (pc : Nat) (buf : Buf) (hm : v.sb.sectorsPerCluster * (j + m) ≤ v.rootSectors) (hn : m < n)
    (hy : fatGetFreeCluster v d = (.ok y, d)) (hyr : InRange v y)
    (ha : firstFree d (sectorSlots (v.rootDirStart + v.sb.sectorsPerCluster * j)
      (v.sb.sectorsPerCluster * m)) = some a) :
    createLoop v name dir n f pc buf d = (.ok (), entered v d name dir a y
      (if a < sectorSize * (v.rootDirStart + v.sb.sectorsPerCluster * (j + 1)) then pc
        else f.currentCluster)) := by
  induction m generalizing j n f pc buf with
  | zero => exact absurd ha (by simp [sectorSlots, firstFree])
  | succ m ih =>
      obtain ⟨n, rfl⟩ : ∃ m, n = m + 1 := ⟨n - 1, by omega⟩
      have hj : v.sb.sectorsPerCluster * (j + 1) ≤ v.rootSectors :=
        (Nat.mul_le_mul_left _ (by omega)).trans hm
      obtain ⟨f', buf', hf', hcur, hbuf, hpass⟩ := hf.createLoop_pass (d := d) hv hj name dir n pc buf
      have hsplit : v.sb.sectorsPerCluster * (m + 1) =
          v.sb.sectorsPerCluster + v.sb.sectorsPerCluster * m := by ring
      rw [hsplit, sectorSlots_add, firstFree_append, hbuf.firstFree_eq hv] at ha
      cases hi : firstIndex (fun i => isFreeSlot (readEnt buf' (direntSize * i)))
          ((v.clusterBytes + 31) / direntSize) 0 with
      | some i =>
          have hlt : i < (v.clusterBytes + 31) / direntSize := by
            have := (firstIndex_spec hi).2.1
            omega
          rw [hi, Option.map_some, Option.some_or] at ha
          obtain rfl := Option.some.inj ha
          have hslots : (v.clusterBytes + 31) / direntSize = 16 * v.sb.sectorsPerCluster := hv.base.slots_eq
          have hhere : sectorSize * (v.rootDirStart + v.sb.sectorsPerCluster * j) + direntSize * i <
              sectorSize * (v.rootDirStart + v.sb.sectorsPerCluster * (j + 1)) := by
            rw [Nat.mul_succ v.sb.sectorsPerCluster]
            unfold sectorSize direntSize at *
            omega
          rw [hi] at hpass
          rw [hpass, if_pos hhere]
          exact createFileDirent_root hv hf' hbuf hlt hj hy hyr pc
      | none =>
          rw [hi, Option.map_none, Option.none_or] at ha
          rw [hi] at hpass
          have hnext : v.rootDirStart + v.sb.sectorsPerCluster * j + v.sb.sectorsPerCluster =
              v.rootDirStart + v.sb.sectorsPerCluster * (j + 1) := by ring
          rw [hnext] at ha
          obtain ⟨k, -, hak⟩ := mem_sectorSlots.mp (firstFree_eq_some ha).1
          have hlater : ¬a < sectorSize * (v.rootDirStart + v.sb.sectorsPerCluster * (j + 1)) := by omega
          have hm' : v.sb.sectorsPerCluster * (j + 1 + m) ≤ v.rootSectors := by
            rw [Nat.add_right_comm]
            exact hm
          have hlen : m < n := by omega
          rw [hpass, if_neg hlater, ih hf' _ _ hm' hlen ha, hcur, ite_self]

/-- A creation in a root directory with a free slot in its full blocks. -/
theorem AtRootBlock.fatCreateFile_slot {a m y : Nat} (hf : AtRootBlock v f 0)
    (hm : v.sb.sectorsPerCluster * m ≤ v.rootSectors) (hn : m < n)
    (hy : fatGetFreeCluster v d = (.ok y, d)) (hyr : InRange v y)
    (ha : firstFree d (sectorSlots v.rootDirStart (v.sb.sectorsPerCluster * m)) = some a) :
    fatCreateFile v n f name dir d = (.ok (), entered v d name dir a y
      (if a < sectorSize * (v.rootDirStart + v.sb.sectorsPerCluster) then 0 else f.currentCluster)) := by
  have hrun := hf.createLoop_slot hv name dir clusRoot (fun _ => 0)
    (by rw [Nat.zero_add]; exact hm) hn hy hyr (by rw [Nat.mul_zero, Nat.add_zero]; exact ha)
  unfold fatCreateFile
  rw [hf.root, hrun, Nat.zero_add, Nat.mul_one]
  rfl

omit hv in
/-- A pass that leaves no free slot in the buffer goes on to the next one. -/
theorem createLoop_more {cnt : Int} {out : List UInt8} {f' : Fat16File}
    (hread : fatReadFile v f (fun _ => 0) v.clusterBytes d = (.ok (cnt, out, f'), d))
    (hcur : clusEof f'.currentCluster = false)
    (hnone : ∀ i < (v.clusterBytes + 31) / direntSize,
      isFreeSlot (readEnt (patch buf 0 out) (direntSize * i)) = false) :
    createLoop v name dir (n + 1) f pc buf d =
      createLoop v name dir n f' f'.currentCluster (patch buf 0 out) d := by
  have hindex : firstIndex (fun i => isFreeSlot (readEnt (patch buf 0 out) (direntSize * i)))
      ((v.clusterBytes + 31) / direntSize) 0 = none := by
    rw [firstIndex_eq_find?, ← List.range_eq_range', List.find?_eq_none]
    intro i hi
    rw [hnone i (List.mem_range.mp hi)]
    exact Bool.false_ne_true
  rw [createLoop_read hread, hcur, if_neg Bool.false_ne_true, hindex]

omit hv in
/-- A slot of the buffer after sectors of the root directory have been copied to its start. -/
theorem readEnt_patch_rootFrom (q k i : Nat) :
    readEnt (patch buf 0 (rootFrom v d (sectorSize * q) (sectorSize * k))) (direntSize * i) =
      if i < 16 * k then readEnt d (sectorSize * (v.rootDirStart + q) + direntSize * i)
      else readEnt buf (direntSize * i) := by
  by_cases hin : i < 16 * k
  · rw [if_pos hin]
    funext t
    unfold readEnt
    split
    next ht =>
      rw [patch_rootFrom_of_lt (by unfold sectorSize direntSize at *; omega), Nat.mul_add,
        Nat.add_assoc _ (direntSize * i) t]
    next => rfl
  · rw [if_neg hin]
    refine readEnt_congr fun x hx _ => patch_of_outside buf (Or.inr ?_)
    rw [rootFrom, length_slice]
    unfold sectorSize direntSize at *
    omega

/-- The loop goes on for ever when neither the buffer nor the rest of the root directory has a free
slot. -/
theorem createLoop_hang {q : Nat} (hf : RootHandle f) (hcur : clusEof f.currentCluster = false)
    (hoff : f.byteOffset = sectorSize * q) (hq : q ≤ v.rootSectors)
    (hbuf : ∀ i < (v.clusterBytes + 31) / direntSize, isFreeSlot (readEnt buf (direntSize * i)) = false)
    (hrest : firstFree d (sectorSlots (v.rootDirStart + q) (v.rootSectors - q)) = none) :
    createLoop v name dir n f pc buf d = (.error .hang, d) := by
  have hcb : v.clusterBytes = sectorSize * v.sb.sectorsPerCluster := hv.base.clusterBytes
  have hpos : 0 < v.sb.sectorsPerCluster := hv.base.sectorsPerCluster_pos
  have hspc : v.sb.sectorsPerCluster < 256 := hv.base.sectorsPerCluster_lt
  have hlt := hv.root_lt
  induction n generalizing f q pc buf with
  | zero => rfl
  | succ n ih =>
      rcases Nat.eq_or_lt_of_le hq with rfl | hmore
      · -- Behind the end nothing is read, and the next pass is the same.
        have hread := hf.fatReadFile_end (d := d) (n := v.clusterBytes) hv.rootGeometry (fun _ => 0)
          (by rw [hoff])
        rw [createLoop_more hread hcur (by rwa [patch_nil]), patch_nil]
        exact ih hf hcur hoff hq hbuf hrest
      · have hread := hf.fatReadFile_good (d := d) (n := v.clusterBytes) hv.rootGeometry (fun _ => 0)
          (by unfold sectorSize at *; omega) (by unfold sectorSize at *; omega)
          ⟨by unfold sectorSize at *; omega, Or.inl ⟨_, hoff⟩⟩
        obtain ⟨k, hk⟩ : ∃ k, k = min v.sb.sectorsPerCluster (v.rootSectors - q) := ⟨_, rfl⟩
        have hcnt : min v.clusterBytes (sectorSize * v.rootSectors - f.byteOffset) = sectorSize * k := by
          unfold sectorSize at *
          omega
        have hend : min (f.byteOffset + v.clusterBytes) (sectorSize * v.rootSectors) =
            sectorSize * (q + k) := by
          unfold sectorSize at *
          omega
        rw [hcnt, hend, hoff] at hread
        have hsplit : v.rootSectors - q = k + (v.rootSectors - (q + k)) := by omega
        rw [hsplit, sectorSlots_add, firstFree_append] at hrest
        obtain ⟨hhere, hrest'⟩ := Option.or_eq_none_iff.mp hrest
        rw [Nat.add_assoc] at hrest'
        have hbuf' : ∀ i < (v.clusterBytes + 31) / direntSize, isFreeSlot (readEnt
            (patch buf 0 (rootFrom v d (sectorSize * q) (sectorSize * k))) (direntSize * i)) = false := by
          intro i hi
          rw [readEnt_patch_rootFrom]
          split
          next hin => exact firstFree_eq_none.mp hhere _ (mem_sectorSlots.mpr ⟨i, hin, rfl⟩)
          next hin => exact hbuf i hi
        rw [createLoop_more hread hcur hbuf']
        exact ih ⟨hf.root, hf.mode⟩ hcur rfl (by omega) hbuf' hrest'

/-- A creation in a root directory without a free slot does not return. -/
theorem AtRootBlock.fatCreateFile_hang (hf : AtRootBlock v f 0) (hspc : v.sb.sectorsPerCluster ≤ v.rootSectors)
    (hnone : firstFree d (rootSlots v) = none) : fatCreateFile v n f name dir d = (.error .hang, d) := by
  have hj : v.sb.sectorsPerCluster * (0 + 1) ≤ v.rootSectors := by omega
  cases n with
  | zero => rfl
  | succ n =>
      obtain ⟨f', buf', hf', hcur, hbuf, hpass⟩ :=
        hf.createLoop_pass (d := d) hv hj name dir n f.dirent.startCluster fun _ => 0
      have hsplit : v.rootSectors = v.sb.sectorsPerCluster + (v.rootSectors - v.sb.sectorsPerCluster) := by
        omega
      rw [rootSlots, hsplit, sectorSlots_add, firstFree_append] at hnone
      obtain ⟨hfirst, hrest⟩ := Option.or_eq_none_iff.mp hnone
      have hslots := hbuf.firstFree_eq hv
      rw [Nat.mul_zero, Nat.add_zero, hfirst] at hslots
      have hindex := Option.map_eq_none_iff.mp hslots.symm
      rw [hindex] at hpass
      have hoff : f'.byteOffset = sectorSize * v.sb.sectorsPerCluster := by
        rw [hf'.offset, Nat.zero_add, Nat.mul_one]
      unfold fatCreateFile
      rw [hpass]
      refine createLoop_hang hv hf'.toRootHandle hf'.current hoff hspc (fun i hi => ?_) hrest
      have := firstIndex_none hindex (Nat.zero_le i) (by omega)
      simpa using this

end Root

end TsOs.Fat
