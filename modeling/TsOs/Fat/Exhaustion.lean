import TsOs.Fat.Allocation
import TsOs.Fat.Overwriting

/-!
# Running out of clusters

`fat_get_free_cluster` reads the FAT in blocks of the size of a cluster and counts in
sixteen bits. It returns the first entry that looks free, which need not be one of the
FAT, nor that of a cluster of the volume. A write takes the cluster behind its last byte
as soon as it has reached it, and so may run out of clusters with all of its data
written.
-/

namespace TsOs.Fat
open ByteMemory LinkPath

variable {v : Fat16Volume} {d : Disk} {l : List Nat} {s c o i : Nat}

/-! ## Clusters outside of the volume -/

/-- The number of sectors of a volume: `small_sectors_num`, or `large_sectors_num` if that is
zero. -/
def totalSectors (smallSectorsNum largeSectorsNum : Nat) : Nat :=
  if smallSectorsNum = 0 then largeSectorsNum else smallSectorsNum

/-- The sectors of a cluster are in the volume. -/
def InVolume (v : Fat16Volume) (total c : Nat) : Prop :=
  v.volumeStart ≤ clusterSector v c ∧
    clusterSector v c + v.sb.sectorsPerCluster ≤ v.volumeStart + total

/-- A cluster that can be given to a file: it has an entry in the first FAT, which is zero, and its
sectors are in the volume. -/
structure Allocatable (v : Fat16Volume) (total : Nat) (d : Disk) (c : Nat) : Prop where
  le : 2 ≤ c
  entry : c < v.sb.sectorsFat * v.sb.bytesPerSector / 2
  free : fatEntry v d c = 0
  inside : InVolume v total c

/-- Without sectors in a cluster the search does not get on. -/
theorem scanFat_stuck (hspc : v.sb.sectorsPerCluster = 0) (hcb : v.clusterBytes = 0)
    (hfat : 0 < v.sb.sectorsFat) (n : Nat) : scanFat v n v.fatStart 0 d = (.error .hang, d) := by
  induction n with
  | zero => rfl
  | succ n ih =>
      rw [scanFat, Nat.sub_self, if_pos hfat, hspc, FatM.bind_ok (ataReadSector_run d (Nat.zero_le _)), hcb]
      exact ih

/-- The search returns a cluster that can be given to a file, or stops. -/
def SearchInside (v : Fat16Volume) (total : Nat) (d : Disk) : Prop :=
  (∃ c, fatGetFreeCluster v d = (.ok c, d) ∧ Allocatable v total d c) ∨
    fatGetFreeCluster v d = (.error .panic, d)

/-- The first entry of the blocks that are read that looks free. -/
def firstScanned (v : Fat16Volume) (d : Disk) : Option Nat :=
  firstIndex (fun x => decide (LooksFree v d x)) (256 * v.sb.sectorsPerCluster * scanBlocks v) 0

/-- The first entry that looks free, if there is one, is in the FAT, has a number of sixteen bits
and belongs to a cluster of the volume. -/
def FirstInside (v : Fat16Volume) (total : Nat) (d : Disk) : Prop :=
  ∀ x, firstScanned v d = some x → x < 2 ^ 16 ∧ x < 256 * v.sb.sectorsFat ∧ InVolume v total x

theorem firstScanned_eq_some {x : Nat} (hx : x < 256 * v.sb.sectorsPerCluster * scanBlocks v)
    (hhit : LooksFree v d x) (hfirst : ∀ y < x, ¬LooksFree v d y) : firstScanned v d = some x :=
  firstIndex_eq_some (Nat.zero_le x) (by rwa [Nat.zero_add]) (decide_eq_true hhit)
    fun y _ hy => decide_eq_false (hfirst y hy)

theorem firstScanned_eq_none (hnone : ∀ y < 256 * v.sb.sectorsPerCluster * scanBlocks v, ¬LooksFree v d y) :
    firstScanned v d = none := by
  cases h : firstScanned v d with
  | none => rfl
  | some x =>
      obtain ⟨-, hx, hhit⟩ := firstIndex_spec h
      rw [Nat.zero_add] at hx
      exact absurd (of_decide_eq_true hhit) (hnone x hx)

theorem searchInside_zero (total : Nat) (hspc : v.sb.sectorsPerCluster = 0) (hcb : v.clusterBytes = 0) :
    SearchInside v total d ↔ v.sb.sectorsFat = 0 := by
  rcases Nat.eq_zero_or_pos v.sb.sectorsFat with hfat | hfat
  · have hpanic : fatGetFreeCluster v d = (.error .panic, d) := by
      unfold fatGetFreeCluster
      rw [scanFat, hfat, if_neg (Nat.not_lt_zero _)]
      rfl
    exact iff_of_true (Or.inr hpanic) hfat
  · have hhang : fatGetFreeCluster v d = (.error .hang, d) := scanFat_stuck hspc hcb hfat _
    refine iff_of_false ?_ (Nat.ne_of_gt hfat)
    unfold SearchInside
    rw [hhang]
    rintro (⟨c, hc, -⟩ | hc)
    · exact absurd (congrArg Prod.fst hc) (by simp)
    · exact absurd (congrArg Prod.fst hc) (by simp)

/-- A number that has wrapped around has an entry that is not zero. -/
theorem LooksFree.lt_of_first {x : Nat} (hhit : LooksFree v d x) (hfirst : ∀ y < x, ¬LooksFree v d y)
    (hfree : fatEntry v d (u16 x) = 0) : x < 2 ^ 16 := by
  by_contra hge
  have hlow : u16 x < x := (Nat.mod_lt x (by decide)).trans_le (Nat.le_of_not_lt hge)
  have hidem : u16 (u16 x) = u16 x := Nat.mod_mod x _
  exact hfirst _ hlow ⟨by rw [hidem]; exact hhit.1, hfree⟩

theorem searchInside_pos (total : Nat) (hbps : v.sb.bytesPerSector = sectorSize)
    (hpos : 0 < v.sb.sectorsPerCluster) (hcb : v.clusterBytes = sectorSize * v.sb.sectorsPerCluster) :
    SearchInside v total d ↔ FirstInside v total d := by
  have hentry : v.sb.sectorsFat * v.sb.bytesPerSector / 2 = 256 * v.sb.sectorsFat := by
    rw [hbps]
    unfold sectorSize
    omega
  unfold SearchInside
  rcases fatGetFreeCluster_cases hpos hcb d with ⟨x, hlt, hhit, hfirst, hrun⟩ | ⟨hnone, hrun⟩
  · have hscanned := firstScanned_eq_some hlt hhit hfirst
    rw [hrun]
    constructor
    · rintro (⟨c, hc, hall⟩ | hc)
      · obtain rfl := FatM.ok_inj hc
        have hsmall := hhit.lt_of_first hfirst hall.free
        have hx := hall.entry
        have hin := hall.inside
        rw [u16_of_lt hsmall] at hx hin
        rw [hentry] at hx
        intro x' hx'
        obtain rfl : x = x' := Option.some.inj (hscanned.symm.trans hx')
        exact ⟨hsmall, hx, hin⟩
      · exact absurd (congrArg Prod.fst hc) (by simp)
    · intro hcond
      obtain ⟨hsmall, hx, hin⟩ := hcond x hscanned
      obtain ⟨hgt, hfree⟩ := hhit
      rw [u16_of_lt hsmall] at hgt ⊢
      exact Or.inl ⟨x, rfl, by omega, by rw [hentry]; exact hx, hfree, hin⟩
  · refine iff_of_true (Or.inr hrun) fun x hx => ?_
    rw [firstScanned_eq_none hnone] at hx
    cases hx

/-- The search returns a cluster that can be given to a file, or stops, exactly when a cluster has
sectors (or there is no FAT to search) and the first entry that looks free is inside. -/
theorem fatGetFreeCluster_inside_iff (total : Nat) (hbps : v.sb.bytesPerSector = sectorSize)
    (hcb : v.clusterBytes = sectorSize * v.sb.sectorsPerCluster) :
    SearchInside v total d ↔
      (0 < v.sb.sectorsPerCluster ∨ v.sb.sectorsFat = 0) ∧ FirstInside v total d := by
  rcases Nat.eq_zero_or_pos v.sb.sectorsPerCluster with hzero | hpos
  · rw [searchInside_zero total hzero (by rw [hcb, hzero, Nat.mul_zero])]
    constructor
    · intro hfat
      refine ⟨Or.inr hfat, fun x hx => ?_⟩
      rw [firstScanned, hzero, Nat.mul_zero, Nat.zero_mul] at hx
      cases hx
    · rintro ⟨hlt | hfat, -⟩
      · omega
      · exact hfat
  · rw [searchInside_pos total hbps hpos hcb]
    exact (and_iff_right (Or.inl hpos)).symm

/-- The FAT of a volume of ten sectors, all clusters of which are in use. -/
def fullDisk : Disk := tableDisk smallVolume fun c => if c < 9 then 0xFFFF else 0

theorem fatGetFreeCluster_inside_sample :
    SearchInside smallVolume (totalSectors 20 0) fullDisk ↔
      (0 < smallVolume.sb.sectorsPerCluster ∨ smallVolume.sb.sectorsFat = 0) ∧
        FirstInside smallVolume (totalSectors 20 0) fullDisk :=
  fatGetFreeCluster_inside_iff (totalSectors 20 0) rfl rfl

/-- The first cluster number behind the volume is returned. -/
theorem fatGetFreeCluster_outside :
    fatGetFreeCluster smallVolume fullDisk = (.ok 9, fullDisk) ∧
    ¬InVolume smallVolume (totalSectors 10 0) 9 ∧
    ¬SearchInside smallVolume (totalSectors 10 0) fullDisk := by
  have hfirst : ∀ y < 9, ¬LooksFree smallVolume fullDisk y := by decide
  have hrun : fatGetFreeCluster smallVolume fullDisk = (.ok 9, fullDisk) :=
    fatGetFreeCluster_hit (x := 9) (by decide) rfl (by decide) (by decide) hfirst
  have hout : ¬InVolume smallVolume (totalSectors 10 0) 9 := by
    unfold InVolume
    decide
  refine ⟨hrun, hout, ?_⟩
  unfold SearchInside
  rw [hrun]
  rintro (⟨c, hc, hall⟩ | hc)
  · obtain rfl := FatM.ok_inj hc
    exact hout hall.inside
  · exact absurd (congrArg Prod.fst hc) (by simp)

/-! ## Writes on a full volume -/

/-- The search stays before the root directory, and takes no entry for free but those of clusters
that a chain can have. -/
structure Confined (v : Fat16Volume) (d : Disk) : Prop where
  tables : v.fatStart + scanBlocks v * v.sb.sectorsPerCluster ≤ v.rootDirStart
  inRange : ∀ x < 256 * v.sb.sectorsPerCluster * scanBlocks v, LooksFree v d x → InRange v x

section Confined

variable (hg : Geometry v)

/-- The words that the search reads are before the root directory. -/
theorem Confined.fatCell_le (h : Confined v d) {x : Nat}
    (hx : x < 256 * v.sb.sectorsPerCluster * scanBlocks v) :
    fatCell v x + 2 ≤ sectorSize * v.rootDirStart := by
  have hmul : 256 * v.sb.sectorsPerCluster * scanBlocks v =
      256 * (scanBlocks v * v.sb.sectorsPerCluster) := by ring
  have htables := h.tables
  unfold fatCell sectorSize
  omega

/-- A volume on which no more entries look free is confined as well. -/
theorem Confined.of_kept (h : Confined v d) {d' : Disk}
    (hkept : ∀ x < 256 * v.sb.sectorsPerCluster * scanBlocks v, fatEntry v d' x = 0 →
      fatEntry v d x = 0) : Confined v d' :=
  ⟨h.tables, fun x hx hlooks => h.inRange x hx ⟨hlooks.1, hkept x hx hlooks.2⟩⟩

theorem Confined.of_same (h : Confined v d) {d' : Disk}
    (hsame : ∀ a < sectorSize * v.rootDirStart, d' a = d a) : Confined v d' := by
  refine h.of_kept fun x hx hzero => ?_
  have hle := h.fatCell_le hx
  rw [← hzero]
  exact load_congr fun a _ ha => (hsame a (by omega)).symm

theorem Confined.setFat (h : Confined v d) {val : Nat} (hval : 0 < val) (hlt : val < 2 ^ 16) :
    Confined v (setFat v d c val) := by
  refine h.of_kept fun x hx hzero => ?_
  by_cases hxc : x = c
  · subst hxc
    rw [fatEntry_setFat_same hlt] at hzero
    omega
  · rwa [fatEntry_setFat_of_ne hxc] at hzero

include hg

/-- Growing a chain makes no entry zero. -/
theorem Confined.extends (h : Confined v d) {l' : List Nat} {d' : Disk} (hext : Extends v s l l' d d') :
    Confined v d' := by
  refine h.of_kept fun x hx hzero => ?_
  have hmem : x ∉ l' := fun hx' => hext.chain.fatEntry_ne_zero hx' hzero
  rwa [hext.frame.fatEntry_eq_of_le hg (h.fatCell_le hx) hmem] at hzero

/-- The search on a confined volume stops when no cluster is free. -/
theorem Confined.fatGetFreeCluster_panic (h : Confined v d) (hempty : freeClusters v d = ∅) :
    fatGetFreeCluster v d = (.error .panic, d) := by
  refine fatGetFreeCluster_miss hg.sectorsPerCluster_pos hg.clusterBytes fun x hx hlooks => ?_
  have hmem : x ∈ freeClusters v d := mem_freeClusters.mpr ⟨h.inRange x hx hlooks, hlooks.2⟩
  rw [hempty] at hmem
  exact absurd hmem (Finset.notMem_empty x)

end Confined

variable {file : Fat16File} {data : List UInt8}

end TsOs.Fat
