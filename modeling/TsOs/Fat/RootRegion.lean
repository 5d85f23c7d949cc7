import TsOs.Fat.Placement

/-!
# Staying inside of the root directory

Lookups and creations in the root directory work in blocks of the size of a cluster. The
search reads full blocks only, and thus goes on behind the root directory when that is
not a multiple of the cluster size. Whether the two operations stay inside of the root
directory on every disk depends on the geometry alone.
-/

namespace TsOs.Fat
open ByteMemory

variable {v : Fat16Volume} {d d' : Disk} {f : Fat16File} {name : List UInt8} {dir : Bool} {fuel : Nat}

variable (v) in
/-- The bytes that have changed are in the FAT, in a cluster that was free, and in one free slot of the
root directory, unless nothing has changed. -/
def ChangesSlot (d d' : Disk) : Prop :=
  d' = d ∨ ∃ a ∈ rootSlots v, ∃ y ∈ freeClusters v d, isFreeSlot (readEnt d a) = true ∧
    ∀ x, d' x ≠ d x →
      (sectorSize * v.fatStart ≤ x ∧ x < sectorSize * (v.fatStart + v.sb.sectorsFat)) ∨
        (clusterAddr v y ≤ x ∧ x < clusterAddr v y + v.clusterBytes) ∨ (a ≤ x ∧ x < a + direntSize)

variable (v fuel) in
/-- The operations on the root directory stay inside of it: what a lookup returns depends on its sectors
only, and a creation changes one slot of it. -/
structure RootInside : Prop where
  lookup : ∀ (file : Fat16File) (name : List UInt8) (d d' : Disk),
    (∀ x, sectorSize * v.rootDirStart ≤ x → x < sectorSize * (v.rootDirStart + v.rootSectors) → d' x = d x) →
    (fatSearchFile v fuel file name clusRoot d').1 = (fatSearchFile v fuel file name clusRoot d).1
  create : ∀ (d : Disk) (f : Fat16File) (name : List UInt8) (dir : Bool), AtRootBlock v f 0 →
    (freeClusters v d).Nonempty → ChangesSlot v d (fatCreateFile v fuel f name dir d).2

/-- Every superblock whose regions can be addressed gives such a geometry. -/
theorem fatGetVolume_anyRoot {sb : FatSuperBlock} (hbps : sb.bytesPerSector = sectorSize)
    (hpos : 0 < sb.sectorsPerCluster) (hlt : sb.sectorsPerCluster < 256) (hfat : 0 < sb.fatNum)
    (hsize : sb.hiddenSectors + sb.reserveSectors + sb.sectorsFat * sb.fatNum +
      sb.rootEntsNum * direntSize / sectorSize < 2 ^ 16 - 1) : AnyRoot (fatGetVolume sb) := by
  have hfats : sb.sectorsFat ≤ sb.sectorsFat * sb.fatNum := Nat.le_mul_of_pos_right _ hfat
  obtain ⟨k, hk⟩ : ∃ k, k = sb.rootEntsNum * direntSize / sectorSize := ⟨_, rfl⟩
  rw [← hk] at hsize
  have hvolume : u16 sb.hiddenSectors = sb.hiddenSectors := u16_of_lt (by omega)
  have hstart : u16 (sb.hiddenSectors + sb.reserveSectors) = sb.hiddenSectors + sb.reserveSectors :=
    u16_of_lt (by omega)
  have hroot : u16 (sb.hiddenSectors + sb.reserveSectors + sb.sectorsFat * sb.fatNum) =
      sb.hiddenSectors + sb.reserveSectors + sb.sectorsFat * sb.fatNum := u16_of_lt (by omega)
  have hdata : u16 (sb.hiddenSectors + sb.reserveSectors + sb.sectorsFat * sb.fatNum + k) =
      sb.hiddenSectors + sb.reserveSectors + sb.sectorsFat * sb.fatNum + k := u16_of_lt (by omega)
  have hsectors : (sb.rootEntsNum * direntSize + sectorSize - 1) / sectorSize ≤ k + 1 := by
    rw [hk]
    unfold sectorSize direntSize
    omega
  unfold fatGetVolume
  dsimp only
  rw [hbps, ← hk, hvolume, hstart, hroot, hdata]
  refine ⟨⟨hbps, hpos, hlt, Nat.mul_comm _ _, ?_, ?_, ?_⟩, ?_, ?_⟩
  all_goals
    simp only [Fat16Volume.rootless]
    omega

/-! ## Lookups -/

theorem searchNameInBlock_zero {b : Buf} {n : Nat} {key : Mem} (h : ∀ i, b i = 0) :
    searchNameInBlock b n key = none := by
  unfold searchNameInBlock
  rw [firstIndex_eq_find?, List.find?_eq_none]
  intro i _
  have hent : readEnt b (direntSize * i) = fun _ => 0 := by
    funext j
    unfold readEnt
    rw [h, ite_self]
  rw [hent]
  exact Bool.false_ne_true

section Lookups

variable (hv : AnyRoot v) {file : Fat16File} {key : Mem} {n j : Nat}
include hv

/-- One block of the search. -/
theorem searchRootLoop_block (hj : v.sb.sectorsPerCluster * j < v.rootSectors) :
    searchRootLoop v file key (n + 1) (v.rootDirStart + v.sb.sectorsPerCluster * j) d =
      match searchNameInBlock (block d (sectorSize * (v.rootDirStart + v.sb.sectorsPerCluster * j))
          v.clusterBytes) v.clusterBytes key with
      | some i => (.ok (some { file with
          dirent := readEnt (block d (sectorSize * (v.rootDirStart + v.sb.sectorsPerCluster * j))
            v.clusterBytes) (direntSize * i)
          currentCluster := (readEnt (block d (sectorSize * (v.rootDirStart + v.sb.sectorsPerCluster * j))
            v.clusterBytes) (direntSize * i)).startCluster
          direntCluster := clusRoot
          direntSector := v.rootDirStart + v.sb.sectorsPerCluster * j +
            direntSize * i / v.sb.bytesPerSector }), d)
      | none => searchRootLoop v file key n (v.rootDirStart + v.sb.sectorsPerCluster * (j + 1)) d := by
  have hcb : v.clusterBytes = sectorSize * v.sb.sectorsPerCluster := hv.base.clusterBytes
  have hbps : v.sb.bytesPerSector = sectorSize := hv.base.bytesPerSector
  have hread : v.sb.sectorsPerCluster ≤ v.clusterBytes / sectorSize := by
    rw [hcb, Nat.mul_div_cancel_left _ (by decide)]
  have hsize : v.sb.sectorsPerCluster * v.sb.bytesPerSector = v.clusterBytes := by
    rw [hcb, hbps, Nat.mul_comm]
  have hin : v.rootDirStart + v.sb.sectorsPerCluster * j - v.rootDirStart < v.rootSectors := by omega
  rw [searchRootLoop, if_pos hin, FatM.bind_ok (ataReadSector_run d hread), ← hcb]
  dsimp only
  rw [hsize, Nat.mul_succ, ← Nat.add_assoc]
  generalize searchNameInBlock _ _ _ = r
  cases r <;> rfl

omit hv in
theorem searchRootLoop_end (hj : v.rootSectors ≤ v.sb.sectorsPerCluster * j) :
    searchRootLoop v file key (n + 1) (v.rootDirStart + v.sb.sectorsPerCluster * j) d = (.ok none, d) := by
  rw [searchRootLoop, if_neg (by omega)]
  rfl

/-- The search in full blocks depends on the root directory only. -/
theorem searchRootLoop_congr (file : Fat16File) (key : Mem) (n j : Nat) (hdvd : v.sb.sectorsPerCluster ∣ v.rootSectors)
    (hsame : ∀ x, sectorSize * v.rootDirStart ≤ x →
      x < sectorSize * (v.rootDirStart + v.rootSectors) → d' x = d x) :
    (searchRootLoop v file key n (v.rootDirStart + v.sb.sectorsPerCluster * j) d').1 =
      (searchRootLoop v file key n (v.rootDirStart + v.sb.sectorsPerCluster * j) d).1 := by
  induction n generalizing j with
  | zero => rfl
  | succ n ih =>
      by_cases hj : v.sb.sectorsPerCluster * j < v.rootSectors
      · obtain ⟨q, hq⟩ := hdvd
        have hle : v.sb.sectorsPerCluster * (j + 1) ≤ v.rootSectors := by
          rw [hq] at hj ⊢
          exact Nat.mul_le_mul_left _ (Nat.lt_of_mul_lt_mul_left hj)
        have hcb : v.clusterBytes = sectorSize * v.sb.sectorsPerCluster := hv.base.clusterBytes
        rw [Nat.mul_succ] at hle
        have hblock : block d' (sectorSize * (v.rootDirStart + v.sb.sectorsPerCluster * j)) v.clusterBytes =
            block d (sectorSize * (v.rootDirStart + v.sb.sectorsPerCluster * j)) v.clusterBytes := by
          refine block_congr fun x hx hx' => hsame x ?_ ?_
          · unfold sectorSize at *
            omega
          · unfold sectorSize at *
            omega
        rw [searchRootLoop_block hv hj, searchRootLoop_block hv hj, hblock]
        generalize searchNameInBlock _ _ _ = r
        cases r with
        | none => exact ih _
        | some i => rfl
      · rw [searchRootLoop_end (by omega), searchRootLoop_end (by omega)]

/-- The search reads an entry behind a root directory that ends with a partial block. -/
theorem searchRootLoop_leaves (file : Fat16File) (key : Mem) (n : Nat) {a : Nat} {e : DirEnt} (hj : j ≤ v.rootSectors / v.sb.sectorsPerCluster)
    (hpart : v.sb.sectorsPerCluster * (v.rootSectors / v.sb.sectorsPerCluster) < v.rootSectors)
    (hn : v.rootSectors / v.sb.sectorsPerCluster - j + 2 ≤ n)
    (ha : a = sectorSize * (v.rootDirStart + v.rootSectors)) (htrim : ∀ i, direntSize ≤ i → e i = 0)
    (hname : fatFilenameMatch e key = true) (hstart : e.startCluster ≠ 0) :
    (searchRootLoop v file key n (v.rootDirStart + v.sb.sectorsPerCluster * j) fun _ => 0).1 = .ok none ∧
      (searchRootLoop v file key n (v.rootDirStart + v.sb.sectorsPerCluster * j)
        (writeEnt (fun _ => 0) a e)).1 ≠ .ok none := by
  have hcb : v.clusterBytes = sectorSize * v.sb.sectorsPerCluster := hv.base.clusterBytes
  have hpos : 0 < v.sb.sectorsPerCluster := hv.base.sectorsPerCluster_pos
  have hzero : ∀ b, searchNameInBlock (block (fun _ => 0) b v.clusterBytes) v.clusterBytes key = none :=
    fun b => searchNameInBlock_zero fun i => ite_self _
  induction n generalizing j with
  | zero => omega
  | succ n ih =>
      rcases Nat.eq_or_lt_of_le hj with rfl | hlt
      · -- The partial block: the sector behind the root directory is part of it.
        have hend : v.rootSectors < v.sb.sectorsPerCluster *
            (v.rootSectors / v.sb.sectorsPerCluster + 1) := by
          rw [Nat.mul_comm]
          exact Nat.lt_mul_of_div_lt (Nat.lt_succ_self _) hpos
        obtain ⟨m, rfl⟩ : ∃ m, n = m + 1 := ⟨n - 1, by omega⟩
        constructor
        · rw [searchRootLoop_block hv hpart, hzero, searchRootLoop_end hend.le]
        · rw [Nat.mul_succ] at hend
          obtain ⟨i, hi⟩ : ∃ i, i = 16 * (v.rootSectors - v.sb.sectorsPerCluster *
            (v.rootSectors / v.sb.sectorsPerCluster)) := ⟨_, rfl⟩
          have haddr : sectorSize * (v.rootDirStart + v.sb.sectorsPerCluster *
              (v.rootSectors / v.sb.sectorsPerCluster)) + direntSize * i = a := by
            rw [ha, hi]
            unfold sectorSize direntSize
            omega
          have hfit : direntSize * i + direntSize ≤ v.clusterBytes := by
            rw [hcb, hi]
            unfold sectorSize direntSize
            omega
          have hent : readEnt (block (writeEnt (fun _ => 0) a e) (sectorSize * (v.rootDirStart +
              v.sb.sectorsPerCluster * (v.rootSectors / v.sb.sectorsPerCluster))) v.clusterBytes)
                (direntSize * i) = e := by
            rw [readEnt_block _ hfit, haddr, readEnt_writeEnt_eq htrim]
          rw [searchRootLoop_block hv hpart]
          cases hfound : searchNameInBlock (block (writeEnt (fun _ => 0) a e) (sectorSize *
              (v.rootDirStart + v.sb.sectorsPerCluster * (v.rootSectors / v.sb.sectorsPerCluster)))
                v.clusterBytes) v.clusterBytes key with
          | some k => exact fun h => absurd h (by simp)
          | none =>
              have htest := firstIndex_none hfound (Nat.zero_le i) (by unfold direntSize at *; omega)
              have hfree : ¬clusFree e.startCluster = true := fun h => hstart (clusFree_iff.mp h)
              rw [hent, hname, Bool.and_true, Bool.not_eq_false'] at htest
              exact absurd htest hfree
      · have hle := Nat.mul_le_mul_left v.sb.sectorsPerCluster (Nat.succ_le_of_lt hlt)
        have hmore : v.sb.sectorsPerCluster * j < v.rootSectors := by
          rw [Nat.succ_eq_add_one, Nat.mul_succ] at hle
          omega
        have hblock : block (writeEnt (fun _ => 0) a e) (sectorSize * (v.rootDirStart +
            v.sb.sectorsPerCluster * j)) v.clusterBytes = block (fun _ => 0) (sectorSize * (v.rootDirStart +
              v.sb.sectorsPerCluster * j)) v.clusterBytes := by
          refine block_congr fun x _ hx => writeEnt_of_outside _ (Or.inl ?_)
          rw [Nat.succ_eq_add_one, Nat.mul_succ] at hle
          rw [ha]
          unfold sectorSize at *
          omega
        rw [searchRootLoop_block hv hmore, searchRootLoop_block hv hmore, hblock, hzero]
        exact ih (by omega) (by omega)

end Lookups

/-! ## Creations -/

section Creations

variable (hv : AnyRoot v) {a y pc : Nat}

/-- The search for a cluster does not use the root directory. -/
theorem fatGetFreeCluster_rootless : fatGetFreeCluster v.rootless = fatGetFreeCluster v := by
  have hscan : ∀ n lba cnt, scanFat v.rootless n lba cnt = scanFat v n lba cnt := by
    intro n
    induction n with
    | zero => exact fun _ _ => rfl
    | succ n ih =>
        intro lba cnt
        simp only [scanFat, ih]
        rfl
  exact hscan _ _ _

theorem entered_changes (hy : y < 256 * v.sb.sectorsFat) {x : Nat}
    (hx : entered v d name dir a y pc x ≠ d x) :
    (sectorSize * v.fatStart ≤ x ∧ x < sectorSize * (v.fatStart + v.sb.sectorsFat)) ∨
      (clusterAddr v y ≤ x ∧ x < clusterAddr v y + v.clusterBytes) ∨ (a ≤ x ∧ x < a + direntSize) := by
  by_contra hout
  refine hx ?_
  have hcell : x < fatCell v y ∨ fatCell v y + 2 ≤ x := by
    unfold fatCell
    unfold sectorSize at *
    omega
  rw [entered, setCluster, setBlock_of_outside _ (by omega), setFat_of_outside hcell,
    writeEnt_of_outside _ (by omega)]

include hv

/-- In a root directory of full blocks a creation changes one slot, or does not return. -/
theorem AtRootBlock.changesSlot (hf : AtRootBlock v f 0) (hfuel : 2 ^ 16 ≤ fuel) (hpos : 0 < v.rootSectors)
    (hdvd : v.sb.sectorsPerCluster ∣ v.rootSectors) (hroom : (freeClusters v d).Nonempty) :
    ChangesSlot v d (fatCreateFile v fuel f name dir d).2 := by
  have hlt := hv.root_lt
  obtain ⟨q, hq⟩ := hdvd
  have hqle : q ≤ v.rootSectors := by
    rw [hq]
    exact Nat.le_mul_of_pos_left q hv.base.sectorsPerCluster_pos
  cases ha : firstFree d (rootSlots v) with
  | none =>
      have hle : v.sb.sectorsPerCluster ≤ v.rootSectors := Nat.le_of_dvd hpos ⟨q, hq⟩
      rw [hf.fatCreateFile_hang hv hle ha]
      exact Or.inl rfl
  | some a =>
      obtain ⟨hmem, hfree⟩ := firstFree_eq_some ha
      obtain ⟨y, hy, -, hbase⟩ := fatGetFreeCluster_run hv.base hroom
      rw [fatGetFreeCluster_rootless] at hbase
      have hlen : q < fuel := by omega
      have hyr : InRange v y := (mem_freeClusters.mp hy).1
      rw [rootSlots, hq] at ha
      rw [hf.fatCreateFile_slot hv hq.ge hlen hbase hyr ha]
      exact Or.inr ⟨a, hmem, y, hy, hfree, fun x hx => entered_changes hyr.2.2 hx⟩

/-- A creation in a root directory without sectors marks a cluster all the same. -/
theorem AtRootBlock.fatCreateFile_empty (name : List UInt8) (dir : Bool) (n : Nat) (hf : AtRootBlock v f 0)
    (hzero : v.rootSectors = 0) (hrun : fatGetFreeCluster v d = (.ok y, d)) (hy : InRange v y) :
    fatEntry v (fatCreateFile v (n + 1) f name dir d).2 y = 0xFFFF := by
  have hbps : v.sb.bytesPerSector = sectorSize := hv.base.bytesPerSector
  have hread := hf.fatReadFile_end (d := d) (n := v.clusterBytes) hv.rootGeometry (fun _ => 0)
    (by rw [hzero]; exact Nat.zero_le _)
  obtain ⟨m, hm⟩ : ∃ m, (v.clusterBytes + 31) / direntSize = m + 1 := by
    have hslots : (v.clusterBytes + 31) / direntSize = 16 * v.sb.sectorsPerCluster := hv.base.slots_eq
    have hpos : 0 < v.sb.sectorsPerCluster := hv.base.sectorsPerCluster_pos
    exact ⟨16 * v.sb.sectorsPerCluster - 1, by omega⟩
  have hfirst : firstIndex (fun i => isFreeSlot (readEnt (fun _ => 0) (direntSize * i)))
      ((v.clusterBytes + 31) / direntSize) 0 = some 0 := by
    rw [hm, firstIndex]
    rfl
  have hfat : ∀ D : Disk, writeFat v y 0xFFFF D = (.ok (), setFat v D y 0xFFFF) := fun D =>
    writeFat_run hv.base D 0xFFFF hy.2.2
  have hcluster : ∀ (D : Disk) (b : Buf), fatWriteCluster v b y D = (.ok (), setCluster v D y b) := fun D b =>
    fatWriteCluster_run hv.base D b hy.clusNormal
  have hentry : ∀ (D : Disk) (b : Buf), fatEntry v (setCluster v (setFat v D y 0xFFFF) y b) y = 0xFFFF := by
    intro D b
    have hroot : sectorSize * v.rootDirStart ≤ clusterAddr v y := hv.base.root_le_clusterAddr y
    have hsame : fatEntry v (setCluster v (setFat v D y 0xFFFF) y b) y = fatEntry v (setFat v D y 0xFFFF) y :=
      hv.base.fatEntry_congr hy.2.2 fun x hx => setBlock_of_outside _ (Or.inl (hx.trans_le hroot))
    rw [hsame, fatEntry_setFat_same (by decide)]
  unfold fatCreateFile
  rw [createLoop_read hread, hf.current, if_neg Bool.false_ne_true, patch_nil, hfirst]
  dsimp only
  unfold createFileDirent
  rw [FatM.bind_ok hrun]
  dsimp only
  rw [if_pos hf.root, FatM.bind_ok (ataWriteSector_run d _ _ _), FatM.bind_ok (hfat _), hcluster, hentry]

end Creations

/-- The operations on the root directory stay inside of it exactly when it consists of full blocks. -/
theorem rootInside_iff (hv : AnyRoot v) (hfuel : 2 ^ 16 ≤ fuel) (hfat : 0 < v.sb.sectorsFat) :
    RootInside v fuel ↔ 0 < v.rootSectors ∧ v.sb.sectorsPerCluster ∣ v.rootSectors := by
  have hpos : 0 < v.sb.sectorsPerCluster := hv.base.sectorsPerCluster_pos
  constructor
  · intro hinside
    constructor
    · by_contra hzero
      have hzero' : v.rootSectors = 0 := by omega
      have h3 : 3 ∈ freeClusters v fun _ => 0 := mem_freeClusters.mpr ⟨⟨by decide, by decide, by omega⟩, rfl⟩
      obtain ⟨y, hy, -, hbase⟩ := fatGetFreeCluster_run hv.base ⟨3, h3⟩
      obtain ⟨n, rfl⟩ : ∃ n, fuel = n + 1 := ⟨fuel - 1, by omega⟩
      have hroot : AtRootBlock v (openedRoot Flags.none) 0 := ⟨⟨rfl, rfl⟩, by rw [Nat.mul_zero]; rfl, rfl⟩
      rw [fatGetFreeCluster_rootless] at hbase
      have hmark := hroot.fatCreateFile_empty hv [] false n hzero' hbase (mem_freeClusters.mp hy).1
      rcases hinside.create _ _ [] false hroot ⟨3, h3⟩ with hsame | ⟨a, ha, -⟩
      · rw [hsame] at hmark
        exact absurd hmark (by simp [fatEntry, load16, load])
      · rw [rootSlots, hzero'] at ha
        exact absurd ha (by simp [sectorSlots])
    · by_contra hnot
      have hpart : v.sb.sectorsPerCluster * (v.rootSectors / v.sb.sectorsPerCluster) < v.rootSectors := by
        refine lt_of_le_of_ne (Nat.mul_div_le _ _) fun heq => hnot ⟨_, heq.symm⟩
      have hspc : 1 < v.sb.sectorsPerCluster := by
        by_contra hone
        have : v.sb.sectorsPerCluster = 1 := by omega
        exact hnot (this ▸ one_dvd _)
      have hdiv : v.rootSectors / v.sb.sectorsPerCluster < v.rootSectors :=
        Nat.div_lt_self (by omega) hspc
      have htrim : ∀ i, direntSize ≤ i → newDirent [65] false 3 i = 0 := fun i hi => newDirent_of_le hi
      have hleaves := searchRootLoop_leaves hv (openedRoot Flags.none)
        (fat16FilenameFmt (fun _ => 0) (cstr [65])) (v.rootSectors + 1) (Nat.zero_le _) hpart (by omega) rfl
        htrim (by decide) (by decide)
      rw [Nat.mul_zero, Nat.add_zero] at hleaves
      refine hleaves.2 (Eq.trans ?_ hleaves.1)
      refine hinside.lookup (openedRoot Flags.none) [65] _ _ fun x _ hx => writeEnt_of_outside _ (Or.inl hx)
  · rintro ⟨hsectors, hdvd⟩
    constructor
    · intro file name d d' hsame
      unfold fatSearchFile fatSearchRoot
      rw [if_pos rfl]
      have hcongr := searchRootLoop_congr hv file (fat16FilenameFmt (fun _ => 0) (cstr name))
        (v.rootSectors + 1) 0 hdvd hsame
      rw [Nat.mul_zero, Nat.add_zero] at hcongr
      exact hcongr
    · intro d f name dir hf hroom
      exact hf.changesSlot hv hfuel hsectors hdvd hroom

theorem rootInside_sample : RootInside smallVolume (2 ^ 16) :=
  (rootInside_iff smallVolume_geometry.anyRoot (le_refl _) (by decide)).mpr (by decide)

/-- A volume with two sectors in a cluster and a root directory of one sector. -/
def partialVolume : Fat16Volume := fatGetVolume ⟨512, 2, 1, 1, 16, 1, 0⟩

/-- An entry in the sector behind the root directory is found as a file of the root directory. -/
theorem not_rootInside_partial : ¬RootInside partialVolume (2 ^ 16) := by
  intro hinside
  have hsame := hinside.lookup (newFat16File Flags.none) [65] (fun _ => 0)
    (writeEnt (fun _ => 0) 1536 (newDirent [65] false 3)) fun x _ hx => writeEnt_of_outside _ (Or.inl hx)
  have hzero : ((fatSearchFile partialVolume (2 ^ 16) (newFat16File Flags.none) [65] clusRoot
      fun _ => 0).1.toOption.map Option.isSome) = some false := by
    decide
  rw [← hsame] at hzero
  exact absurd hzero (by decide)

end TsOs.Fat
