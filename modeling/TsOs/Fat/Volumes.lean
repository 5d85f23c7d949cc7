import Mathlib.Algebra.Order.Floor.Div
import TsOs.Fat.Chains
import TsOs.Fat.Lookup
import Mathlib.Order.CompletePartialOrder

/-!
# The layout of a volume

`fat_get_volume` computes the starts of the regions with 16 bits, and rounds the size of the
root directory up in `root_sectors` and down in `data_start`. The values are the exact ones,
and the sectors that the driver reads for the FAT, the root directory and the clusters are
apart, when the regions end below sector 65536 and the root directory consists of whole
sectors and whole blocks.

## Implementation notes

`Mathlib.Order.CompletePartialOrder` gives the order of sets that `Disjoint` is stated in.
-/

namespace TsOs.Fat
open ByteMemory

variable {v : Fat16Volume} {sb : FatSuperBlock} {c : Nat}

/-! ## The sectors of a command -/

/-- The result of the operation depends on the bytes of these sectors only. -/
def Reads {α : Type} (x : FatM α) (S : Set Nat) : Prop :=
  ∀ d d' : Disk, (∀ a, a / sectorSize ∈ S → d' a = d a) → (x d').1 = (x d).1

theorem ataReadSector_reads (lbaStart : Nat) {secNum bufSize : Nat} (hfit : secNum ≤ bufSize / sectorSize) (buf : Buf) :
    Reads (ataReadSector lbaStart secNum bufSize buf) (Set.Ico lbaStart (lbaStart + secNum)) := by
  intro d d' hagree
  have hbytes : ∀ i < sectorSize * secNum, d' (sectorSize * lbaStart + i) = d (sectorSize * lbaStart + i) := by
    intro i hi
    have hsector : (sectorSize * lbaStart + i) / sectorSize = lbaStart + i / sectorSize :=
      Nat.mul_add_div (by decide) _ _
    refine hagree _ ?_
    rw [hsector]
    exact ⟨Nat.le_add_right _ _, Nat.add_lt_add_left (Nat.div_lt_of_lt_mul hi) _⟩
  unfold ataReadSector
  rw [if_neg (Nat.not_lt.mpr hfit)]
  refine congrArg (fun buf => Except.ok (secNum, buf)) (funext fun i => ?_)
  split
  next hi => exact hbytes i hi
  next => rfl

variable (v) in
/-- The sector that `read_fat` reads. -/
def fatSector (cluster : Nat) : Nat := u16 (v.fatStart + cluster * 2 / v.sb.bytesPerSector)

variable (v) in
/-- The sectors that `read_fat` reads for the cluster numbers that have an entry. -/
def fatSectors : Set Nat := {s | ∃ c < 2 ^ 16, c < 256 * v.sb.sectorsFat ∧ s = fatSector v c}

variable (v) in
/-- The sectors of the blocks that `_fat_search_root` reads when it finds nothing. -/
def searchedSectors : Set Nat :=
  {s | ∃ k, k * v.sb.sectorsPerCluster < v.rootSectors ∧
    s ∈ Set.Ico (v.rootDirStart + k * v.sb.sectorsPerCluster)
      (v.rootDirStart + k * v.sb.sectorsPerCluster + v.sb.sectorsPerCluster)}

variable (v) in
/-- The sectors that `fat_read_cluster` reads. -/
def clusterSectors (cluster : Nat) : Set Nat :=
  Set.Ico (clusterSector v cluster) (clusterSector v cluster + v.sb.sectorsPerCluster)

section Commands

variable (hbps : v.sb.bytesPerSector = sectorSize)
  (hbytes : v.clusterBytes = v.sb.sectorsPerCluster * v.sb.bytesPerSector)
include hbps

theorem readFat_reads (c : Nat) : Reads (readFat v c) {fatSector v c} := by
  intro d d' hagree
  have hfit : 1 ≤ v.sb.bytesPerSector / sectorSize := by rw [hbps]; decide
  have hread := ataReadSector_reads (fatSector v c) hfit (fun _ => 0) d d' ?_
  · exact (Quiet.ataReadSector _ _ _ _).bind_congr hread fun _ => rfl
  · rintro a ⟨hle, hlt⟩
    exact hagree a (Nat.le_antisymm (Nat.le_of_lt_succ hlt) hle)

include hbytes

theorem sectorsPerCluster_le : v.sb.sectorsPerCluster ≤ v.clusterBytes / sectorSize := by
  rw [hbytes, hbps, Nat.mul_div_cancel _ (by decide)]

theorem fatReadCluster_reads (c : Nat) (buf : Buf) : Reads (fatReadCluster v c buf) (clusterSectors v c) :=
  ataReadSector_reads _ (sectorsPerCluster_le hbps hbytes) buf

theorem searchRootLoop_reads (file : Fat16File) (name : Mem) (n k : Nat) :
    Reads (searchRootLoop v file name n (v.rootDirStart + k * v.sb.sectorsPerCluster)) (searchedSectors v) := by
  intro d d' hagree
  have hfit := sectorsPerCluster_le hbps hbytes
  induction n generalizing k with
  | zero => rfl
  | succ n ih =>
      rw [searchRootLoop]
      split
      next hin =>
        have hblock := ataReadSector_reads _ hfit (fun _ => 0) d d' fun a ha =>
          hagree a ⟨k, by omega, ha⟩
        rw [ataReadSector_run d hfit, ataReadSector_run d' hfit] at hblock
        rw [FatM.bind_ok (ataReadSector_run d hfit), FatM.bind_ok (ataReadSector_run d' hfit)]
        dsimp only
        rw [(Prod.mk.inj (Except.ok.inj hblock)).2, Nat.add_assoc, ← Nat.succ_mul]
        generalize searchNameInBlock _ _ _ = r
        cases r with
        | none => exact ih (k + 1)
        | some i => rfl
      next => rfl

theorem fatSearchRoot_reads (file : Fat16File) (name : Mem) :
    Reads (fatSearchRoot v file name) (searchedSectors v) := by
  have hloop := searchRootLoop_reads hbps hbytes file name (v.rootSectors + 1) 0
  rwa [Nat.zero_mul] at hloop

end Commands

/-! ## Exact values -/

variable (sb) in
/-- The first sector of the data, with unbounded integers. -/
def exactDataStart : Nat :=
  sb.hiddenSectors + sb.reserveSectors + sb.fatNum * sb.sectorsFat + sb.rootEntsNum * direntSize ⌈/⌉ sectorSize

variable (sb) in
/-- The volume has the values of unbounded integers. -/
structure ExactLayout : Prop where
  fatStart : (fatGetVolume sb).fatStart = sb.hiddenSectors + sb.reserveSectors
  rootDirStart : (fatGetVolume sb).rootDirStart = sb.hiddenSectors + sb.reserveSectors + sb.fatNum * sb.sectorsFat
  rootSectors : (fatGetVolume sb).rootSectors = sb.rootEntsNum * direntSize ⌈/⌉ sectorSize
  dataStart : (fatGetVolume sb).dataStart = exactDataStart sb

variable (v) in
/-- No sector is read as a part of two regions or of two clusters. -/
structure Apart : Prop where
  fat_root : Disjoint (fatSectors v) (searchedSectors v)
  fat_cluster : ∀ c, 2 ≤ c → c < 2 ^ 16 → Disjoint (fatSectors v) (clusterSectors v c)
  root_cluster : ∀ c, 2 ≤ c → c < 2 ^ 16 → Disjoint (searchedSectors v) (clusterSectors v c)
  clusters : ∀ c c', 2 ≤ c → c < 2 ^ 16 → 2 ≤ c' → c' < 2 ^ 16 → c ≠ c' →
    Disjoint (clusterSectors v c) (clusterSectors v c')

theorem ceilDiv_eq (n : Nat) :
    n * direntSize ⌈/⌉ sectorSize = n * direntSize / sectorSize + if 16 ∣ n then 0 else 1 := by
  rw [Nat.ceilDiv_eq_add_pred_div]
  unfold direntSize sectorSize
  split
  · omega
  · omega

/-- The values are exact when the regions end below sector 65536 and the root directory consists of
whole sectors. -/
theorem exactLayout_iff (hbps : sb.bytesPerSector = sectorSize) :
    ExactLayout sb ↔ exactDataStart sb < 2 ^ 16 ∧ 16 ∣ sb.rootEntsNum := by
  have hceil := ceilDiv_eq sb.rootEntsNum
  have hroot : (fatGetVolume sb).rootDirStart =
      u16 ((fatGetVolume sb).fatStart + sb.fatNum * sb.sectorsFat) := by
    rw [Nat.mul_comm sb.fatNum]
    rfl
  have hdata : (fatGetVolume sb).dataStart =
      u16 ((fatGetVolume sb).rootDirStart + sb.rootEntsNum * direntSize / sectorSize) := by
    rw [← hbps]
    rfl
  have hexact : exactDataStart sb =
      sb.hiddenSectors + sb.reserveSectors + sb.fatNum * sb.sectorsFat +
        (sb.rootEntsNum * direntSize / sectorSize + if 16 ∣ sb.rootEntsNum then 0 else 1) := by
    rw [← hceil]
    rfl
  generalize sb.rootEntsNum * direntSize / sectorSize = k at hdata hexact
  constructor
  · intro h
    have hlt : exactDataStart sb < 2 ^ 16 := by
      rw [← h.dataStart, hdata]
      exact Nat.mod_lt _ (by decide)
    refine ⟨hlt, ?_⟩
    by_contra hpart
    rw [if_neg hpart] at hexact
    have hfloor := h.dataStart
    rw [hdata, h.rootDirStart, u16_of_lt (by omega)] at hfloor
    omega
  · rintro ⟨hlt, hwhole⟩
    rw [if_pos hwhole] at hexact
    have hfat : (fatGetVolume sb).fatStart = sb.hiddenSectors + sb.reserveSectors := by
      have hvolume : u16 sb.hiddenSectors = sb.hiddenSectors := u16_of_lt (by omega)
      unfold fatGetVolume
      dsimp only
      rw [hvolume, u16_of_lt (by omega)]
    rw [hfat, u16_of_lt (by omega)] at hroot
    rw [hroot, u16_of_lt (by omega)] at hdata
    refine ⟨hfat, hroot, ?_, by omega⟩
    rw [Nat.ceilDiv_eq_add_pred_div, ← hbps]
    rfl

/-! ## Regions that are apart -/

/-- Clusters of no sectors are apart, and nothing is searched. -/
theorem apart_of_no_sectors (hzero : sb.sectorsPerCluster = 0) : Apart (fatGetVolume sb) := by
  have hsb : (fatGetVolume sb).sb.sectorsPerCluster = 0 := hzero
  have hroot : searchedSectors (fatGetVolume sb) = ∅ := by
    refine Set.eq_empty_iff_forall_notMem.mpr fun s hs => ?_
    obtain ⟨k, -, hle, hlt⟩ := hs
    omega
  have hcluster : ∀ c, clusterSectors (fatGetVolume sb) c = ∅ := by
    intro c
    unfold clusterSectors
    rw [hsb, Nat.add_zero, Set.Ico_self]
  constructor
  · rw [hroot]
    exact Set.disjoint_empty _
  · intro c _ _
    rw [hcluster]
    exact Set.disjoint_empty _
  · intro c _ _
    rw [hcluster]
    exact Set.disjoint_empty _
  · intro c c' _ _ _ _ _
    rw [hcluster c']
    exact Set.disjoint_empty _

section Regions

variable (hexact : ExactLayout sb) (hbps : sb.bytesPerSector = sectorSize) (hspc : sb.sectorsPerCluster < 2 ^ 8)
include hexact

/-- The regions follow each other. -/
theorem ExactLayout.data_eq :
    (fatGetVolume sb).dataStart = (fatGetVolume sb).rootDirStart + (fatGetVolume sb).rootSectors := by
  rw [hexact.dataStart, hexact.rootDirStart, hexact.rootSectors]
  rfl

theorem ExactLayout.root_eq :
    (fatGetVolume sb).rootDirStart = (fatGetVolume sb).fatStart + sb.fatNum * sb.sectorsFat := by
  rw [hexact.fatStart, hexact.rootDirStart]

omit hexact in
theorem fatGetVolume_dataStart_lt (sb : FatSuperBlock) : (fatGetVolume sb).dataStart < 2 ^ 16 := Nat.mod_lt _ (by decide)

omit hexact in
include hspc in
theorem clusterSector_fatGetVolume (hc : 2 ≤ c) (hlt : c < 2 ^ 16) :
    clusterSector (fatGetVolume sb) c = (fatGetVolume sb).dataStart + (c - 2) * sb.sectorsPerCluster := by
  have hdata := fatGetVolume_dataStart_lt sb
  have hmul : (c - 2) * sb.sectorsPerCluster ≤ 2 ^ 16 * 2 ^ 8 := Nat.mul_le_mul (by omega) (by omega)
  have hsb : (fatGetVolume sb).sb = sb := rfl
  unfold clusterSector
  rw [hsb, sub32_of_le hc (by omega), u32_of_lt (by omega)]

omit hexact in
include hbps in
theorem fatSector_fatGetVolume (hfat : (fatGetVolume sb).fatStart + c / 256 < 2 ^ 16) :
    fatSector (fatGetVolume sb) c = (fatGetVolume sb).fatStart + c / 256 := by
  have hdiv : c * 2 / 512 = c / 256 := by omega
  have hbps : (fatGetVolume sb).sb.bytesPerSector = 512 := hbps
  unfold fatSector
  rw [hbps, hdiv]
  exact u16_of_lt hfat

include hbps in
/-- The FAT is read below the root directory, if there is a copy of it. -/
theorem ExactLayout.fatSectors_below (hcopy : sb.sectorsFat = 0 ∨ 0 < sb.fatNum) :
    ∀ s ∈ fatSectors (fatGetVolume sb), s < (fatGetVolume sb).rootDirStart := by
  rintro s ⟨c, -, hc, rfl⟩
  have hc : c < 256 * sb.sectorsFat := hc
  have hdata := fatGetVolume_dataStart_lt sb
  have hroot := hexact.root_eq
  have hregion := hexact.data_eq
  have hmul : sb.sectorsFat ≤ sb.fatNum * sb.sectorsFat :=
    Nat.le_mul_of_pos_left _ (hcopy.resolve_left (by omega))
  rw [fatSector_fatGetVolume hbps (by omega)]
  omega

/-- The root directory is searched in front of the data when it consists of whole blocks. -/
theorem ExactLayout.searchedSectors_inside (hdvd : sb.sectorsPerCluster ∣ (fatGetVolume sb).rootSectors) :
    ∀ s ∈ searchedSectors (fatGetVolume sb),
      (fatGetVolume sb).rootDirStart ≤ s ∧ s < (fatGetVolume sb).dataStart := by
  rintro s ⟨k, hk, hle, hlt⟩
  have hk : k * sb.sectorsPerCluster < (fatGetVolume sb).rootSectors := hk
  have hlt : s < (fatGetVolume sb).rootDirStart + k * sb.sectorsPerCluster + sb.sectorsPerCluster := hlt
  have hblock : k * sb.sectorsPerCluster + sb.sectorsPerCluster ≤ (fatGetVolume sb).rootSectors := by
    obtain ⟨m, hm⟩ := hdvd
    rw [hm, Nat.mul_comm] at hk
    rw [hm, ← Nat.succ_mul, Nat.mul_comm]
    exact Nat.mul_le_mul_left _ (Nat.succ_le_of_lt (Nat.lt_of_mul_lt_mul_left hk))
  rw [hexact.data_eq]
  omega

omit hexact in
include hspc in
theorem clusterSectors_above (hc : 2 ≤ c) (hlt : c < 2 ^ 16) :
    ∀ s ∈ clusterSectors (fatGetVolume sb) c, (fatGetVolume sb).dataStart ≤ s := by
  rintro s ⟨hle, -⟩
  rw [clusterSector_fatGetVolume hspc hc hlt] at hle
  omega

omit hexact in
include hspc in
theorem clusterSectors_ordered {c' : Nat} (hc : 2 ≤ c) (hlt : c < c') (hc' : c' < 2 ^ 16) :
    Disjoint (clusterSectors (fatGetVolume sb) c) (clusterSectors (fatGetVolume sb) c') := by
  have hmul : (c - 2 + 1) * sb.sectorsPerCluster ≤ (c' - 2) * sb.sectorsPerCluster :=
    Nat.mul_le_mul_right _ (by omega)
  refine Set.disjoint_left.mpr fun s hs hs' => ?_
  obtain ⟨-, hend⟩ := hs
  obtain ⟨hstart, -⟩ := hs'
  rw [clusterSector_fatGetVolume hspc hc (by omega)] at hend
  rw [clusterSector_fatGetVolume hspc (by omega) hc'] at hstart
  have hsb : (fatGetVolume sb).sb = sb := rfl
  rw [hsb] at hend
  rw [Nat.succ_mul] at hmul
  omega

include hbps hspc in
theorem ExactLayout.apart (hcopy : sb.sectorsFat = 0 ∨ 0 < sb.fatNum)
    (hdvd : sb.sectorsPerCluster ∣ (fatGetVolume sb).rootSectors) : Apart (fatGetVolume sb) := by
  have hfat := hexact.fatSectors_below hbps hcopy
  have hroot := hexact.searchedSectors_inside hdvd
  have hregion := hexact.data_eq
  refine ⟨?_, fun c hc hlt => ?_, fun c hc hlt => ?_, fun c c' hc hlt hc' hlt' hne => ?_⟩
  · exact Set.disjoint_left.mpr fun s hs hs' => absurd (hfat s hs) (Nat.not_lt.mpr (hroot s hs').1)
  · refine Set.disjoint_left.mpr fun s hs hs' => ?_
    have habove := clusterSectors_above hspc hc hlt s hs'
    have hbelow := hfat s hs
    omega
  · refine Set.disjoint_left.mpr fun s hs hs' => ?_
    exact absurd (hroot s hs).2 (Nat.not_lt.mpr (clusterSectors_above hspc hc hlt s hs'))
  · rcases Nat.lt_or_gt_of_ne hne with hless | hless
    · exact clusterSectors_ordered hspc hc hless hlt'
    · exact (clusterSectors_ordered hspc hc' hless hlt).symm

omit hexact in
include hspc in
/-- The first sector of the data belongs to the first cluster. -/
theorem dataStart_mem_clusterSectors (hpos : 0 < sb.sectorsPerCluster) :
    (fatGetVolume sb).dataStart ∈ clusterSectors (fatGetVolume sb) 2 := by
  have hstart : clusterSector (fatGetVolume sb) 2 = (fatGetVolume sb).dataStart := by
    rw [clusterSector_fatGetVolume hspc (le_refl 2) (by decide), Nat.sub_self, Nat.zero_mul]
    rfl
  unfold clusterSectors
  rw [hstart]
  exact ⟨le_refl _, Nat.lt_add_of_pos_right hpos⟩

include hbps hspc in
/-- Without a copy of the FAT, its first sector is the first one behind it. -/
theorem ExactLayout.copy_of_apart (hpos : 0 < sb.sectorsPerCluster) (h : Apart (fatGetVolume sb)) :
    sb.sectorsFat = 0 ∨ 0 < sb.fatNum := by
  by_contra hnone
  obtain ⟨hfat, hzero⟩ := not_or.mp hnone
  have hdata := fatGetVolume_dataStart_lt sb
  have hregion := hexact.data_eq
  have hroot := hexact.root_eq
  rw [Nat.eq_zero_of_not_pos hzero, Nat.zero_mul, Nat.add_zero] at hroot
  have hmem : (fatGetVolume sb).rootDirStart ∈ fatSectors (fatGetVolume sb) := by
    refine ⟨0, by decide, Nat.mul_pos (by decide) (Nat.pos_of_ne_zero hfat), ?_⟩
    rw [fatSector_fatGetVolume hbps (by omega), hroot]
    rfl
  by_cases hsectors : (fatGetVolume sb).rootSectors = 0
  · rw [hsectors, Nat.add_zero] at hregion
    refine Set.disjoint_left.mp (h.fat_cluster 2 (le_refl 2) (by decide)) hmem ?_
    rw [← hregion]
    exact dataStart_mem_clusterSectors hspc hpos
  · refine Set.disjoint_left.mp h.fat_root hmem ⟨0, ?_, ?_⟩
    · rw [Nat.zero_mul]
      exact Nat.pos_of_ne_zero hsectors
    · rw [Nat.zero_mul, Nat.add_zero]
      exact ⟨le_refl _, Nat.lt_add_of_pos_right hpos⟩

include hspc in
/-- The last block of the search goes on behind a root directory that is no multiple of the blocks. -/
theorem ExactLayout.dvd_of_apart (hpos : 0 < sb.sectorsPerCluster) (h : Apart (fatGetVolume sb)) :
    sb.sectorsPerCluster ∣ (fatGetVolume sb).rootSectors := by
  by_contra hpart
  have hmod : 0 < (fatGetVolume sb).rootSectors % sb.sectorsPerCluster :=
    Nat.pos_of_ne_zero fun hzero => hpart (Nat.dvd_of_mod_eq_zero hzero)
  have hlt := Nat.mod_lt (fatGetVolume sb).rootSectors hpos
  have hdiv := Nat.div_add_mod' (fatGetVolume sb).rootSectors sb.sectorsPerCluster
  have hregion := hexact.data_eq
  refine Set.disjoint_left.mp (h.root_cluster 2 (le_refl 2) (by decide))
    ⟨(fatGetVolume sb).rootSectors / sb.sectorsPerCluster, ?_, ?_, ?_⟩ (dataStart_mem_clusterSectors hspc hpos)
  all_goals
    have hsb : (fatGetVolume sb).sb = sb := rfl
    rw [hsb]
    omega

include hbps hspc in
/-- A layout with exact values is one that the driver can address. -/
theorem ExactLayout.geometry (hpos : 0 < sb.sectorsPerCluster) (hcopy : sb.sectorsFat = 0 ∨ 0 < sb.fatNum) :
    Geometry (fatGetVolume sb) where
  bytesPerSector := hbps
  sectorsPerCluster_pos := hpos
  sectorsPerCluster_lt := hspc
  clusterBytes := by
    rw [Nat.mul_comm sectorSize, ← hbps]
    rfl
  fat_le_root := by
    rw [hexact.root_eq]
    refine Nat.add_le_add_left ?_ _
    rcases hcopy with hzero | hcopy
    · exact hzero.le.trans (Nat.zero_le _)
    · exact Nat.le_mul_of_pos_left _ hcopy
  root_le_data := hexact.data_eq.ge
  dataStart_lt := fatGetVolume_dataStart_lt sb

end Regions

/-- The layout is exact and its regions are apart when they end below sector 65536 and the root directory
consists of whole sectors and, unless a cluster has no sectors, of whole blocks behind a copy of the FAT. -/
theorem layout_iff (hbps : sb.bytesPerSector = sectorSize) (hspc : sb.sectorsPerCluster < 2 ^ 8) :
    ExactLayout sb ∧ Apart (fatGetVolume sb) ↔
      exactDataStart sb < 2 ^ 16 ∧ 16 ∣ sb.rootEntsNum ∧ (sb.sectorsPerCluster = 0 ∨
        (sb.sectorsFat = 0 ∨ 0 < sb.fatNum) ∧ sb.sectorsPerCluster ∣ sb.rootEntsNum / 16) := by
  have hsectors : 16 ∣ sb.rootEntsNum → (fatGetVolume sb).rootSectors = sb.rootEntsNum / 16 := by
    rintro ⟨k, hk⟩
    unfold fatGetVolume direntSize
    rw [hbps, hk]
    unfold sectorSize
    dsimp only
    omega
  rw [exactLayout_iff hbps]
  constructor
  · rintro ⟨⟨hlt, hwhole⟩, hapart⟩
    have hexact := (exactLayout_iff hbps).mpr ⟨hlt, hwhole⟩
    refine ⟨hlt, hwhole, ?_⟩
    rcases Nat.eq_zero_or_pos sb.sectorsPerCluster with hzero | hpos
    · exact Or.inl hzero
    · rw [← hsectors hwhole]
      exact Or.inr ⟨hexact.copy_of_apart hbps hspc hpos hapart, hexact.dvd_of_apart hspc hpos hapart⟩
  · rintro ⟨hlt, hwhole, hblocks⟩
    have hexact := (exactLayout_iff hbps).mpr ⟨hlt, hwhole⟩
    refine ⟨⟨hlt, hwhole⟩, ?_⟩
    rcases hblocks with hzero | ⟨hcopy, hdvd⟩
    · exact apart_of_no_sectors hzero
    · rw [← hsectors hwhole] at hdvd
      exact hexact.apart hbps hspc hcopy hdvd

/-- The volume of an image with two copies of the FAT. -/
def imageBlock : FatSuperBlock := ⟨512, 4, 4, 2, 512, 128, 0⟩

theorem layout_sample : ExactLayout imageBlock ∧ Apart (fatGetVolume imageBlock) ↔
    exactDataStart imageBlock < 2 ^ 16 ∧ 16 ∣ imageBlock.rootEntsNum ∧ (imageBlock.sectorsPerCluster = 0 ∨
      (imageBlock.sectorsFat = 0 ∨ 0 < imageBlock.fatNum) ∧
        imageBlock.sectorsPerCluster ∣ imageBlock.rootEntsNum / 16) :=
  layout_iff rfl (by decide)

/-- With one entry in the root directory, its sector is the first one of the data. -/
theorem layout_rounding :
    (fatGetVolume ⟨512, 1, 1, 1, 1, 1, 0⟩).rootSectors = 1 ∧
      (fatGetVolume ⟨512, 1, 1, 1, 1, 1, 0⟩).dataStart = (fatGetVolume ⟨512, 1, 1, 1, 1, 1, 0⟩).rootDirStart ∧
      ¬Apart (fatGetVolume ⟨512, 1, 1, 1, 1, 1, 0⟩) := by
  refine ⟨by decide, by decide, fun h => ?_⟩
  have hroot : 2 ∈ searchedSectors (fatGetVolume ⟨512, 1, 1, 1, 1, 1, 0⟩) := ⟨0, by decide, by decide, by decide⟩
  have hcluster : 2 ∈ clusterSectors (fatGetVolume ⟨512, 1, 1, 1, 1, 1, 0⟩) 2 := ⟨by decide, by decide⟩
  exact Set.disjoint_left.mp (h.root_cluster 2 (le_refl 2) (by decide)) hroot hcluster

end TsOs.Fat
