import TsOs.Fat.Search
import TsOs.Fat.Writing

/-!
# Operations that complete

An operation may stop for want of clusters, and the search for one may return a number
that no chain can have. The lemmas of this module start from an operation that has
completed: either all the clusters it took were free ones in range, or no such cluster
is left when it ends.
-/

namespace TsOs.Fat
open ByteMemory LinkPath

variable {v : Fat16Volume} {d d' : Disk} {l : List Nat} {s c : Nat}

variable (v) in
/-- A free cluster in range is left, or the FAT has entries for no other numbers. -/
def RoomLeft (d : Disk) : Prop := (freeClusters v d).Nonempty ∨ 256 * v.sb.sectorsFat ≤ 0xFFF0

/-! ## The search for a free cluster -/

/-- The search stops, or returns the number of an entry that looks free, reduced to sixteen bits. -/
theorem fatGetFreeCluster_cases (hpos : 0 < v.sb.sectorsPerCluster)
    (hcb : v.clusterBytes = sectorSize * v.sb.sectorsPerCluster) (d : Disk) :
    (∃ x < 256 * v.sb.sectorsPerCluster * scanBlocks v, LooksFree v d x ∧
      (∀ y < x, ¬LooksFree v d y) ∧ fatGetFreeCluster v d = (.ok (u16 x), d)) ∨
    (∀ y < 256 * v.sb.sectorsPerCluster * scanBlocks v, ¬LooksFree v d y) ∧
      fatGetFreeCluster v d = (.error .panic, d) := by
  by_cases hsome : ∃ x < 256 * v.sb.sectorsPerCluster * scanBlocks v, LooksFree v d x
  · left
    have hfound : ∃ x, x < 256 * v.sb.sectorsPerCluster * scanBlocks v ∧ LooksFree v d x := hsome
    obtain ⟨hlt, hhit⟩ := Nat.find_spec hfound
    have hfirst : ∀ y < Nat.find hfound, ¬LooksFree v d y := fun y hy hlooks =>
      Nat.find_min hfound hy ⟨by omega, hlooks⟩
    exact ⟨_, hlt, hhit, hfirst, fatGetFreeCluster_hit hpos hcb hlt hhit hfirst⟩
  · right
    have hnone : ∀ y < 256 * v.sb.sectorsPerCluster * scanBlocks v, ¬LooksFree v d y := fun y hy hlooks =>
      hsome ⟨y, hy, hlooks⟩
    exact ⟨hnone, fatGetFreeCluster_miss hpos hcb hnone⟩

/-- Blocks that tile the FAT do not go on behind it. -/
theorem Aligned.scan_eq (hv : Aligned v) :
    256 * v.sb.sectorsPerCluster * scanBlocks v = 256 * v.sb.sectorsFat := by
  obtain ⟨m, hm⟩ := hv.fat_dvd
  have hpos := hv.sectorsPerCluster_pos
  have hblocks : scanBlocks v = m := by
    refine Nat.le_antisymm (Nat.le_of_not_lt fun hlt => ?_) (Nat.le_of_not_lt fun hlt => ?_)
    · rw [lt_scanBlocks hpos, hm, Nat.mul_comm m] at hlt
      exact Nat.lt_irrefl _ hlt
    · have hnot : ¬scanBlocks v < scanBlocks v := Nat.lt_irrefl _
      rw [lt_scanBlocks hpos, hm, Nat.mul_comm v.sb.sectorsPerCluster m] at hnot
      exact hnot (Nat.mul_lt_mul_of_pos_right hlt hpos)
  rw [hblocks, hm, Nat.mul_assoc]

/-- A cluster is taken in range, or no such cluster is left. -/
theorem fatGetFreeCluster_ok (hv : Aligned v) (h : fatGetFreeCluster v d = (.ok c, d')) :
    d' = d ∧ (c ∈ freeClusters v d ∨
      ¬RoomLeft v d ∧ 3 ≤ c ∧ c < 2 ^ 16 ∧ c < 256 * v.sb.sectorsFat) := by
  rcases fatGetFreeCluster_cases hv.sectorsPerCluster_pos hv.clusterBytes d with ⟨x, hx, ⟨hgt, hzero⟩, -, hrun⟩ | ⟨-, hrun⟩
  · rw [hrun] at h
    obtain rfl := FatM.ok_inj h
    obtain rfl : d = d' := congrArg Prod.snd h
    rw [hv.scan_eq] at hx
    refine ⟨rfl, ?_⟩
    by_cases hroom : RoomLeft v d
    · left
      rcases hroom with hne | hsmall
      · obtain ⟨y, hy, -, hrun'⟩ := fatGetFreeCluster_run hv.toGeometry hne
        rwa [FatM.ok_inj (hrun.symm.trans hrun')]
      · rw [u16_of_lt (by omega)] at hgt ⊢
        exact mem_freeClusters.mpr ⟨⟨hgt, by omega, hx⟩, hzero⟩
    · right
      have hle : u16 x ≤ x := Nat.mod_le x _
      have hlt : u16 x < 2 ^ 16 := Nat.mod_lt x (by decide)
      exact ⟨hroom, hgt, hlt, by omega⟩
  · rw [hrun] at h
    exact absurd (congrArg Prod.fst h) (by simp)

/-! ## No room left -/

theorem RoomLeft.of_kept (h : RoomLeft v d')
    (hkept : ∀ x, InRange v x → fatEntry v d x ≠ 0 → fatEntry v d' x ≠ 0) : RoomLeft v d := by
  rcases h with ⟨x, hx⟩ | hsmall
  · obtain ⟨hr, hzero⟩ := mem_freeClusters.mp hx
    refine Or.inl ⟨x, mem_freeClusters.mpr ⟨hr, ?_⟩⟩
    by_contra hne
    exact hkept x hr hne hzero
  · exact Or.inr hsmall

theorem RoomLeft.of_setFat {val : Nat} (h : RoomLeft v (setFat v d c val)) (hval : 0 < val)
    (hlt : val < 2 ^ 16) : RoomLeft v d := by
  refine h.of_kept fun x _ hx => ?_
  by_cases hxc : x = c
  · subst hxc
    rw [fatEntry_setFat_same hlt]
    omega
  · rwa [fatEntry_setFat_of_ne hxc]

/-- Writes behind the FAT do not change what is left. -/
theorem RoomLeft.of_same (hg : Geometry v) (h : RoomLeft v d')
    (hsame : ∀ x < sectorSize * v.rootDirStart, d' x = d x) : RoomLeft v d :=
  h.of_kept fun _ hr hx => by rwa [hg.fatEntry_congr hr.2.2 hsame]

variable (v) in
/-- A cluster with an end mark, which need not be one that a chain can have. -/
structure Dangling (d : Disk) (c : Nat) : Prop where
  le : 3 ≤ c
  lt : c < 2 ^ 16
  entry : c < 256 * v.sb.sectorsFat
  eof : clusEof (fatEntry v d c) = true

/-- A number that is linked when no room is left. -/
theorem not_roomLeft_link {y : Nat} (hroom : ¬RoomLeft v d)
    (hy : 3 ≤ y ∧ y < 2 ^ 16 ∧ y < 256 * v.sb.sectorsFat) :
    ¬RoomLeft v (setFat v (setFat v d c y) y 0xFFFF) ∧
      Dangling v (setFat v (setFat v d c y) y 0xFFFF) y := by
  refine ⟨fun h => hroom ((h.of_setFat (by decide) (by decide)).of_setFat (by omega) hy.2.1),
    hy.1, hy.2.1, hy.2.2, ?_⟩
  rw [fatEntry_setFat_same (by decide)]
  rfl

section Writing

variable (hv : Aligned v)
include hv

theorem nextOrNewCluster_dangling {c' : Nat} (hc : Dangling v d c) (hroom : ¬RoomLeft v d)
    (h : nextOrNewCluster v c d = (.ok c', d')) : ¬RoomLeft v d' ∧ Dangling v d' c' := by
  have hg := hv.toGeometry
  rw [nextOrNewCluster, FatM.bind_ok (fatGetNextCluster_run hg d hc.entry), if_pos hc.eof] at h
  obtain ⟨y, d₁, hy, hrest⟩ := FatM.bind_eq_ok h
  obtain ⟨rfl, hfree | ⟨-, hlow⟩⟩ := fatGetFreeCluster_ok hv hy
  · exact absurd (Or.inl ⟨y, hfree⟩) hroom
  · rw [FatM.bind_ok (writeFat_run hg _ y hc.entry),
      FatM.bind_ok (writeFat_run hg _ 0xFFFF hlow.2.2)] at hrest
    obtain rfl := FatM.ok_inj hrest
    obtain rfl : _ = d' := congrArg Prod.snd hrest
    exact not_roomLeft_link hroom hlow

/-- The move to the next cluster of a chain, which takes a free one at the end. -/
theorem nextOrNewCluster_ok {c' : Nat} (hl : IsChain v d s l) (hc : c ∈ l)
    (h : nextOrNewCluster v c d = (.ok c', d')) :
    (∃ l', Extends v s l l' d d' ∧ c' ∈ l') ∨ ¬RoomLeft v d' ∧ Dangling v d' c' := by
  have hg := hv.toGeometry
  obtain ⟨i, hi⟩ := List.mem_iff_getElem?.mp hc
  have hcr := hl.inRange c hc
  by_cases hroom : l.length = i + 1 → (freeClusters v d).Nonempty
  · obtain ⟨x, l', d₁, hrun, hext, hx, -, -⟩ := nextOrNewCluster_run hg hl hi hroom
    rw [h] at hrun
    obtain rfl := FatM.ok_inj hrun
    obtain rfl : d' = d₁ := congrArg Prod.snd hrun
    exact Or.inl ⟨l', hext, List.mem_of_getElem? hx⟩
  · obtain ⟨hlast, hempty⟩ := Classical.not_imp.mp hroom
    have heof := hl.fatEntry_last hi hlast
    rw [nextOrNewCluster, FatM.bind_ok (fatGetNextCluster_run hg d hcr.2.2), if_pos heof] at h
    obtain ⟨y, d₁, hy, hrest⟩ := FatM.bind_eq_ok h
    obtain ⟨rfl, hfree | ⟨hnone, hlow⟩⟩ := fatGetFreeCluster_ok hv hy
    · exact absurd ⟨y, hfree⟩ hempty
    · rw [FatM.bind_ok (writeFat_run hg _ y hcr.2.2),
        FatM.bind_ok (writeFat_run hg _ 0xFFFF hlow.2.2)] at hrest
      obtain rfl := FatM.ok_inj hrest
      obtain rfl : _ = d' := congrArg Prod.snd hrest
      exact Or.inr (not_roomLeft_link hnone hlow)

omit hv in
/-- One pass of a write that completes. -/
theorem writeLoop_ok (hg : Geometry v) {data : List UInt8} {n o cnt : Nat} {r : Nat × Nat}
    (hc : 2 ≤ c) (hlt : c < 2 ^ 16) (h : writeLoop v data (n + 1) c o cnt d = (.ok r, d')) :
    (r.1 = c ∧ d' = d) ∨ ∃ q piece c₁ d₁ o₁ cnt₁, q + piece.length ≤ v.clusterBytes ∧
      ((c₁ = c ∧ d₁ = patch d (clusterAddr v c + q) piece) ∨
        nextOrNewCluster v c (patch d (clusterAddr v c + q) piece) = (.ok c₁, d₁)) ∧
      writeLoop v data n c₁ o₁ cnt₁ d₁ = (.ok r, d') := by
  rw [writeLoop] at h
  split at h
  next hcnt =>
    right
    rw [FatM.bind_ok (fatReadCluster_of_lt hg d hc hlt)] at h
    dsimp only at h
    generalize min32 _ _ = tmp at h
    split at h
    next => exact absurd (congrArg Prod.fst h) (by simp [FatM.stop])
    next hfit =>
      have hpiece : ((data.drop cnt).take tmp).length ≤ tmp := List.length_take_le _ _
      rw [FatM.bind_ok (fatWriteCluster_of_lt hg d _ hc hlt), setCluster, clusterBlock,
        setBlock_patch d (by omega)] at h
      split at h
      next =>
        obtain ⟨c₁, d₁, hnext, hrest⟩ := FatM.bind_eq_ok h
        exact ⟨_, _, c₁, d₁, _, _, by omega, Or.inr hnext, hrest⟩
      next => exact ⟨_, _, c, _, _, _, by omega, Or.inl ⟨rfl, rfl⟩, h⟩
  next =>
    left
    obtain rfl := FatM.ok_inj h
    exact ⟨rfl, (congrArg Prod.snd h).symm⟩

theorem Dangling.same {x : Nat} (hx : Dangling v d x)
    (hsame : ∀ a < sectorSize * v.rootDirStart, d' a = d a) : Dangling v d' x :=
  ⟨hx.le, hx.lt, hx.entry, by rw [hv.fatEntry_congr hx.entry hsame]; exact hx.eof⟩

omit hv in
theorem Geometry.patch_same (hg : Geometry v) {q : Nat} {piece : List UInt8} :
    ∀ a < sectorSize * v.rootDirStart, patch d (clusterAddr v c + q) piece a = d a := by
  intro a ha
  have := hg.root_le_clusterAddr c
  exact patch_of_outside d (Or.inl (by omega))

theorem writeLoop_dangling {data : List UInt8} {n o cnt : Nat} {r : Nat × Nat} (hc : Dangling v d c)
    (hroom : ¬RoomLeft v d) (h : writeLoop v data n c o cnt d = (.ok r, d')) : ¬RoomLeft v d' := by
  have hg := hv.toGeometry
  induction n generalizing c d o cnt with
  | zero => exact absurd (congrArg Prod.fst h) (by simp [writeLoop, FatM.stop])
  | succ n ih =>
      have hle := hc.le
      rcases writeLoop_ok hg (by omega) hc.lt h with ⟨-, rfl⟩ | ⟨q, piece, c₁, d₁, o₁, cnt₁, -, hnext, hrest⟩
      · exact hroom
      · have hc' : Dangling v (patch d (clusterAddr v c + q) piece) c := hc.same hv hg.patch_same
        have hroom' : ¬RoomLeft v (patch d (clusterAddr v c + q) piece) := fun hr =>
          hroom (hr.of_same hg hg.patch_same)
        rcases hnext with ⟨rfl, rfl⟩ | hnext
        · exact ih hc' hroom' hrest
        · obtain ⟨hroom₁, hc₁⟩ := nextOrNewCluster_dangling hv hc' hroom' hnext
          exact ih hc₁ hroom₁ hrest

/-- A write that completes has made the chain longer by clusters that were free, unless it has
used up the room. -/
theorem writeLoop_extends {data : List UInt8} {n o cnt : Nat} {r : Nat × Nat} (hl : IsChain v d s l)
    (hc : c ∈ l) (h : writeLoop v data n c o cnt d = (.ok r, d')) :
    (∃ l', Extends v s l l' d d' ∧ r.1 ∈ l') ∨ ¬RoomLeft v d' := by
  have hg := hv.toGeometry
  induction n generalizing c d o cnt l with
  | zero => exact absurd (congrArg Prod.fst h) (by simp [writeLoop, FatM.stop])
  | succ n ih =>
      have hcr := hl.inRange c hc
      have hle := hcr.1
      have hlt := hcr.2.1
      rcases writeLoop_ok hg (by omega) (by omega) h with
        ⟨hr, rfl⟩ | ⟨q, piece, c₁, d₁, o₁, cnt₁, hfit, hnext, hrest⟩
      · exact Or.inl ⟨l, Extends.refl hl, hr ▸ hc⟩
      · have hpatch : Extends v s l l d (patch d (clusterAddr v c + q) piece) :=
          Extends.patch hg hl hc hfit
        rcases hnext with ⟨rfl, rfl⟩ | hnext
        · refine (ih hpatch.chain hc hrest).imp_left ?_
          rintro ⟨l', hext, hr⟩
          exact ⟨l', hpatch.trans hg hext, hr⟩
        · rcases nextOrNewCluster_ok hv hpatch.chain hc hnext with ⟨l₁, hext₁, hc₁⟩ | ⟨hroom, hdang⟩
          · refine (ih hext₁.chain hc₁ hrest).imp_left ?_
            rintro ⟨l', hext, hr⟩
            exact ⟨l', (hpatch.trans hg hext₁).trans hg hext, hr⟩
          · exact Or.inr (writeLoop_dangling hv hdang hroom hrest)

end Writing

/-! ## The entry of the file -/

/-- Replacing an entry does not touch the FAT. -/
theorem fatUpdateFileDirent_same (hg : Geometry v) {file : Fat16File} {e : Option DirEnt} {u : Unit}
    (hroot : file.direntCluster = clusRoot → v.rootDirStart ≤ file.direntSector)
    (hcluster : file.direntCluster ≠ clusRoot → clusNormal file.direntCluster = true)
    (h : fatUpdateFileDirent v file e d = (.ok u, d')) :
    ∀ a < sectorSize * v.rootDirStart, d' a = d a := by
  intro a ha
  unfold fatUpdateFileDirent at h
  by_cases hr : file.direntCluster = clusRoot
  · have hread : 1 ≤ v.clusterBytes / sectorSize := by
      have := hg.le_clusterBytes
      unfold sectorSize
      omega
    rw [if_pos hr, FatM.bind_ok (ataReadSector_run d hread)] at h
    dsimp only at h
    cases hi : searchNameInBlock (block d (sectorSize * file.direntSector) (sectorSize * 1))
        v.clusterBytes file.dirent with
    | none =>
      rw [hi] at h
      exact absurd (congrArg Prod.fst h) (by simp [FatM.stop])
    | some i =>
      rw [hi] at h
      dsimp only at h
      rw [if_pos hr, FatM.bind_ok (ataWriteSector_run d _ _ _)] at h
      obtain rfl : _ = d' := congrArg Prod.snd h
      have := Nat.mul_le_mul_left sectorSize (hroot hr)
      exact setBlock_of_outside d (Or.inl (by omega))
  · rw [if_neg hr, FatM.bind_ok (fatReadCluster_run hg d (hcluster hr))] at h
    dsimp only at h
    cases hi : searchNameInBlock (clusterBlock v d file.direntCluster) v.clusterBytes file.dirent with
    | none =>
      rw [hi] at h
      exact absurd (congrArg Prod.fst h) (by simp [FatM.stop])
    | some i =>
      rw [hi] at h
      dsimp only at h
      rw [if_neg hr, fatWriteCluster_run hg d _ (hcluster hr)] at h
      obtain rfl : _ = d' := congrArg Prod.snd h
      have := hg.root_le_clusterAddr file.direntCluster
      exact setBlock_of_outside d (Or.inl (by omega))

end TsOs.Fat
