import TsOs.Fat.Layout
import TsOs.Library.LinkPath

/-!
# Chains of clusters

The FAT links the clusters of a file. A chain is the list of the clusters from the
first one to the one whose entry is a mark for the end of file. The three loops of
the driver along a chain are determined by that list, and a new cluster is linked at
its end.
-/

namespace TsOs.Fat
open ByteMemory LinkPath

variable (v : Fat16Volume)

/-- `l` has the clusters of the chain from `c` on. -/
structure IsChain (d : Disk) (c : Nat) (l : List Nat) : Prop where
  inRange : ∀ x ∈ l, InRange v x
  path : ∃ e, clusEof e = true ∧ Path (fatEntry v d) c l e

/-- The clusters that can be given to a file. -/
def freeClusters (d : Disk) : Finset Nat :=
  (Finset.range (2 ^ 16)).filter fun c => InRange v c ∧ fatEntry v d c = 0

/-- The disk after the entries of some clusters have been cleared. -/
def freed (d : Disk) (l : List Nat) : Disk := fun a =>
  if ∃ c ∈ l, fatCell v c ≤ a ∧ a < fatCell v c + 2 then 0 else d a

variable {v} {d d' : Disk} {c : Nat} {l : List Nat}

/-! ## The clusters of a chain -/

/-- There are fewer clusters than cluster numbers. -/
theorem length_le_of_nodup (hl : ∀ x ∈ l, InRange v x) (hnodup : l.Nodup) : l.length ≤ 0xFFEF := by
  have hsub : l.toFinset ⊆ Finset.Icc 3 0xFFEF := by
    intro x hx
    have hr := hl x (List.mem_toFinset.mp hx)
    exact Finset.mem_Icc.mpr ⟨hr.1, hr.2.1⟩
  have hcard := Finset.card_le_card hsub
  rw [List.toFinset_card_of_nodup hnodup, Nat.card_Icc] at hcard
  omega

namespace IsChain

theorem not_mem_of_eof {e : Nat} (hl : ∀ x ∈ l, InRange v x) (he : clusEof e = true) : e ∉ l := by
  intro hmem
  have hnormal := (hl e hmem).clusNormal
  rw [not_clusNormal_of_eof he] at hnormal
  exact absurd hnormal (by decide)

theorem nodup (h : IsChain v d c l) : l.Nodup := by
  obtain ⟨e, he, hpath⟩ := h.path
  exact hpath.nodup (not_mem_of_eof h.inRange he)

/-- The FAT determines the chain. -/
theorem unique {l' : List Nat} (h : IsChain v d c l) (h' : IsChain v d c l') : l = l' := by
  obtain ⟨e, he, hpath⟩ := h.path
  obtain ⟨e', he', hpath'⟩ := h'.path
  induction l generalizing c l' with
  | nil =>
      obtain rfl : c = e := hpath
      cases l' with
      | nil => rfl
      | cons a l' =>
          obtain rfl : c = a := hpath'.1
          exact absurd List.mem_cons_self (not_mem_of_eof h'.inRange he)
  | cons a l ih =>
      obtain ⟨rfl, htail⟩ := hpath
      cases l' with
      | nil =>
          obtain rfl : c = e' := hpath'
          exact absurd List.mem_cons_self (not_mem_of_eof h.inRange he')
      | cons b l' =>
          obtain ⟨rfl, htail'⟩ := hpath'
          have hl : IsChain v d (fatEntry v d c) l := by
            exact ⟨fun x hx => h.inRange x (List.mem_cons_of_mem _ hx), e, he, htail⟩
          have hl' : IsChain v d (fatEntry v d c) l' := by
            exact ⟨fun x hx => h'.inRange x (List.mem_cons_of_mem _ hx), e', he', htail'⟩
          rw [ih hl hl' htail htail']

theorem congr (h : IsChain v d c l) (hagree : ∀ x ∈ l, fatEntry v d' x = fatEntry v d x) :
    IsChain v d' c l := by
  obtain ⟨e, he, hpath⟩ := h.path
  exact ⟨h.inRange, e, he, hpath.congr hagree⟩

theorem tail {x : Nat} (h : IsChain v d c (x :: l)) : IsChain v d (fatEntry v d x) l := by
  obtain ⟨e, he, hpath⟩ := h.path
  exact ⟨fun y hy => h.inRange y (List.mem_cons_of_mem _ hy), e, he, hpath.2⟩

theorem head_eq {x : Nat} (h : IsChain v d c (x :: l)) : c = x := by
  obtain ⟨e, -, hpath⟩ := h.path
  exact hpath.1

/-- Only the mark for the end has no cluster. -/
theorem eof_of_nil (h : IsChain v d c []) : clusEof c = true := by
  obtain ⟨e, he, rfl⟩ := h.path
  exact he

theorem ne_nil (h : IsChain v d c l) (hc : clusNormal c = true) : l ≠ [] := by
  rintro rfl
  rw [not_clusNormal_of_eof h.eof_of_nil] at hc
  exact absurd hc (by decide)

theorem mem_head (h : IsChain v d c l) (hc : clusNormal c = true) : c ∈ l := by
  cases l with
  | nil => exact absurd rfl (h.ne_nil hc)
  | cons x l =>
      rw [h.head_eq]
      exact List.mem_cons_self

/-- The part of a chain from one of its clusters on. -/
theorem drop {l₁ l₂ : List Nat} {x : Nat} (h : IsChain v d c (l₁ ++ x :: l₂)) :
    IsChain v d x (x :: l₂) := by
  obtain ⟨e, he, hpath⟩ := h.path
  obtain ⟨-, htail⟩ := path_append_cons.mp hpath
  exact ⟨fun y hy => h.inRange y (List.mem_append_right _ hy), e, he, rfl, htail⟩

/-- The entry of a cluster in use is not zero. -/
theorem fatEntry_ne_zero (h : IsChain v d c l) {x : Nat} (hx : x ∈ l) : fatEntry v d x ≠ 0 := by
  obtain ⟨l₁, l₂, rfl⟩ := List.append_of_mem hx
  have htail := h.drop.tail
  cases l₂ with
  | nil =>
      have heof := clusEof_iff.mp htail.eof_of_nil
      omega
  | cons y l₂ =>
      have hy := htail.inRange y List.mem_cons_self
      rw [htail.head_eq]
      have := hy.1
      omega

theorem length_le (h : IsChain v d c l) : l.length ≤ 0xFFEF := length_le_of_nodup h.inRange h.nodup

theorem start_ne_zero (h : IsChain v d c l) : c ≠ 0 := by
  cases l with
  | nil =>
      have heof := clusEof_iff.mp h.eof_of_nil
      omega
  | cons x l =>
      have hx := (h.inRange x List.mem_cons_self).1
      rw [h.head_eq]
      omega

end IsChain

/-! ## Clearing entries -/

theorem freed_nil : freed v d [] = d := by
  funext a
  simp [freed]

theorem freed_freed {l' : List Nat} : freed v (freed v d l) l' = freed v d (l ++ l') := by
  funext a
  unfold freed
  by_cases hl : ∃ c ∈ l, fatCell v c ≤ a ∧ a < fatCell v c + 2
  · obtain ⟨c, hc, ha⟩ := hl
    rw [if_pos (⟨c, hc, ha⟩ : ∃ c ∈ l, fatCell v c ≤ a ∧ a < fatCell v c + 2), ite_self,
      if_pos ⟨c, List.mem_append_left _ hc, ha⟩]
  · rw [if_neg hl]
    congr 1
    simp only [List.mem_append, or_and_right, exists_or, hl, false_or]

theorem freed_congr {l' : List Nat} (h : ∀ c, c ∈ l ↔ c ∈ l') : freed v d l = freed v d l' := by
  funext a
  unfold freed
  simp only [h]

theorem setFat_zero : setFat v d c 0 = freed v d [c] := by
  funext a
  unfold setFat store16 store freed
  simp

theorem fatEntry_freed (c : Nat) :
    fatEntry v (freed v d l) c = if c ∈ l then 0 else fatEntry v d c := by
  split
  next hc =>
    have hbyte : ∀ i < 2, freed v d l (fatCell v c + i) = UInt8.ofNat (0 / 256 ^ i) := by
      intro i hi
      rw [Nat.zero_div]
      exact if_pos ⟨c, hc, by omega, by omega⟩
    exact load_of_bytes hbyte
  next hc =>
    refine load_congr fun a ha ha' => if_neg ?_
    rintro ⟨x, hx, hle, hlt⟩
    have hne : x ≠ c := by
      rintro rfl
      exact hc hx
    have := fatCell_apart (v := v) hne
    omega

/-- Clearing entries of other clusters keeps a chain. -/
theorem IsChain.freed {A : List Nat} (h : IsChain v d c l) (hdisj : A.Disjoint l) :
    IsChain v (freed v d A) c l := by
  refine h.congr fun x hx => ?_
  rw [fatEntry_freed, if_neg fun hA => hdisj hA hx]

theorem freed_of_le (hg : Geometry v) (hl : ∀ x ∈ l, InRange v x) {a : Nat}
    (ha : sectorSize * v.rootDirStart ≤ a) : freed v d l a = d a := by
  refine if_neg ?_
  rintro ⟨x, hx, -, hlt⟩
  have := hg.fatCell_le (hl x hx).2.2
  omega

/-! ## Loops along a chain -/

section Loops

variable (hg : Geometry v)
include hg

theorem fatFreeClustersUntilEnd_run {n : Nat} (h : IsChain v d c l) (hn : l.length < n) :
    fatFreeClustersUntilEnd v n c d = (.ok (), freed v d l) := by
  induction l generalizing n c d with
  | nil =>
      obtain ⟨n, rfl⟩ : ∃ m, n = m + 1 := ⟨n - 1, by omega⟩
      rw [fatFreeClustersUntilEnd, not_clusNormal_of_eof h.eof_of_nil, freed_nil]
      rfl
  | cons x l ih =>
      obtain ⟨n, rfl⟩ : ∃ m, n = m + 1 := ⟨n - 1, by omega⟩
      obtain rfl := h.head_eq
      have hc := h.inRange c List.mem_cons_self
      have hnext : IsChain v (setFat v d c 0) (fatEntry v d c) l := by
        refine h.tail.congr fun y hy => fatEntry_setFat_of_ne ?_
        rintro rfl
        exact (List.nodup_cons.mp h.nodup).1 hy
      rw [fatFreeClustersUntilEnd, if_pos hc.clusNormal,
        FatM.bind_ok (fatGetNextCluster_run hg d hc.2.2),
        FatM.bind_ok (writeFat_run hg d 0 hc.2.2),
        ih hnext (by rw [List.length_cons] at hn; omega), setFat_zero, freed_freed]
      rfl

theorem lastCluster_run {n : Nat} (h : IsChain v d c l) (hl : l ≠ []) (hn : l.length ≤ n) :
    lastCluster v n c d = (.ok (l.getLast hl), d) := by
  induction l generalizing n c with
  | nil => exact absurd rfl hl
  | cons x l ih =>
      rw [List.length_cons] at hn
      obtain ⟨n, rfl⟩ : ∃ m, n = m + 1 := ⟨n - 1, by omega⟩
      obtain rfl := h.head_eq
      have hc := h.inRange c List.mem_cons_self
      rw [lastCluster, FatM.bind_ok (fatGetNextCluster_run hg d hc.2.2)]
      cases l with
      | nil =>
          rw [not_clusNormal_of_eof h.tail.eof_of_nil]
          rfl
      | cons y l =>
          have hy := h.tail.inRange y List.mem_cons_self
          rw [h.tail.head_eq, if_pos hy.clusNormal]
          have htail := h.tail
          rw [h.tail.head_eq] at htail
          exact ih htail (List.cons_ne_nil y l) (by omega)

end Loops

/-! ## Free clusters -/

section Free

variable {b : Buf} {n i j : Nat}

theorem mem_freeClusters : c ∈ freeClusters v d ↔ InRange v c ∧ fatEntry v d c = 0 := by
  rw [freeClusters, Finset.mem_filter, Finset.mem_range]
  constructor
  · exact fun h => h.2
  · intro h
    refine ⟨?_, h⟩
    have := h.1.2.1
    omega

theorem u16_add (x k : Nat) : u16 (u16 x + k) = u16 (x + k) := Nat.mod_add_mod x _ k

theorem u16_of_lt {x : Nat} (h : x < 2 ^ 16) : u16 x = x := Nat.mod_eq_of_lt h

theorem scanFatBlock_hit {x : Nat} (hj : j < n) (hhit : 2 < u16 (x + j) ∧ load16 b (2 * (i + j)) = 0)
    (hmiss : ∀ k < j, ¬(2 < u16 (x + k) ∧ load16 b (2 * (i + k)) = 0)) :
    scanFatBlock b n i (u16 x) = .inl (u16 (x + j)) := by
  induction j generalizing n i x with
  | zero =>
      obtain ⟨n, rfl⟩ : ∃ m, n = m + 1 := ⟨n - 1, by omega⟩
      rw [scanFatBlock, if_pos ⟨hhit.1, clusFree_iff.mpr hhit.2⟩]
      rfl
  | succ j ih =>
      obtain ⟨n, rfl⟩ : ∃ m, n = m + 1 := ⟨n - 1, by omega⟩
      have hnot : ¬(2 < u16 x ∧ clusFree (load16 b (2 * i)) = true) := by
        rw [clusFree_iff]
        exact hmiss 0 (by omega)
      rw [scanFatBlock, if_neg hnot, u16_add, ih (by omega)]
      · rw [Nat.add_right_comm, Nat.add_assoc]
      · rw [Nat.add_right_comm x 1 j, Nat.add_right_comm i 1 j]
        exact hhit
      · intro k hk
        rw [Nat.add_right_comm x 1 k, Nat.add_right_comm i 1 k]
        exact hmiss (k + 1) (by omega)

theorem scanFatBlock_miss {x : Nat} (hmiss : ∀ k < n, ¬(2 < u16 (x + k) ∧ load16 b (2 * (i + k)) = 0)) :
    scanFatBlock b n i (u16 x) = .inr (u16 (x + n)) := by
  induction n generalizing i x with
  | zero => rfl
  | succ n ih =>
      have hnot : ¬(2 < u16 x ∧ clusFree (load16 b (2 * i)) = true) := by
        rw [clusFree_iff]
        exact hmiss 0 (by omega)
      rw [scanFatBlock, if_neg hnot, u16_add, ih]
      · rw [Nat.add_right_comm, Nat.add_assoc]
      · intro k hk
        rw [Nat.add_right_comm x 1 k, Nat.add_right_comm i 1 k]
        exact hmiss (k + 1) (by omega)

variable (v) in
/-- The number of blocks that the search for a free cluster reads. -/
def scanBlocks : Nat := (v.sb.sectorsFat + v.sb.sectorsPerCluster - 1) / v.sb.sectorsPerCluster

variable (v) in
/-- The search takes the entry number `x` for that of a free cluster. -/
def LooksFree (d : Disk) (x : Nat) : Prop := 2 < u16 x ∧ fatEntry v d x = 0

instance (x : Nat) : Decidable (LooksFree v d x) := inferInstanceAs (Decidable (_ ∧ _))

section Scan

variable (hpos : 0 < v.sb.sectorsPerCluster) (hcb : v.clusterBytes = sectorSize * v.sb.sectorsPerCluster)
  {k x : Nat}
include hpos

theorem lt_scanBlocks : k < scanBlocks v ↔ k * v.sb.sectorsPerCluster < v.sb.sectorsFat := by
  unfold scanBlocks
  rw [← Nat.succ_le_iff, Nat.le_div_iff_mul_le hpos, Nat.succ_mul]
  omega

theorem scanBlocks_le : scanBlocks v ≤ v.sb.sectorsFat := by
  rw [← Nat.not_lt, lt_scanBlocks hpos]
  have := Nat.le_mul_of_pos_right v.sb.sectorsFat hpos
  omega

omit hpos in
/-- The entries of a block are those of the FAT. -/
theorem load16_scanBlock (hj : j < 256 * v.sb.sectorsPerCluster) :
    load16 (block d (sectorSize * (v.fatStart + k * v.sb.sectorsPerCluster))
      (sectorSize * v.sb.sectorsPerCluster)) (2 * (0 + j)) =
        fatEntry v d (256 * v.sb.sectorsPerCluster * k + j) := by
  have hfit : 2 * (0 + j) + 2 ≤ sectorSize * v.sb.sectorsPerCluster := by
    unfold sectorSize
    omega
  have hmul : 256 * v.sb.sectorsPerCluster * k = 256 * (k * v.sb.sectorsPerCluster) := by ring
  rw [load16_block d hfit, fatEntry, fatCell, hmul]
  congr 1
  unfold sectorSize
  omega

/-- The search reads all of the FAT. -/
theorem fat_le_scan : 256 * v.sb.sectorsFat ≤ 256 * v.sb.sectorsPerCluster * scanBlocks v := by
  have hnot : ¬scanBlocks v * v.sb.sectorsPerCluster < v.sb.sectorsFat := by
    rw [← lt_scanBlocks hpos]
    exact Nat.lt_irrefl _
  rw [Nat.mul_assoc, Nat.mul_comm v.sb.sectorsPerCluster]
  exact Nat.mul_le_mul_left _ (by omega)

include hcb

/-- One block of the search. -/
theorem scanFat_block (hk : k < scanBlocks v) :
    scanFat v (n + 1) (v.fatStart + k * v.sb.sectorsPerCluster) (u16 (256 * v.sb.sectorsPerCluster * k)) d =
      match scanFatBlock (block d (sectorSize * (v.fatStart + k * v.sb.sectorsPerCluster))
          (sectorSize * v.sb.sectorsPerCluster)) (256 * v.sb.sectorsPerCluster) 0
          (u16 (256 * v.sb.sectorsPerCluster * k)) with
      | .inl c => (.ok c, d)
      | .inr fatCnt => scanFat v n (v.fatStart + (k + 1) * v.sb.sectorsPerCluster) fatCnt d := by
  have hread : v.sb.sectorsPerCluster ≤ v.clusterBytes / sectorSize := by
    rw [hcb, Nat.mul_div_cancel_left _ (by decide)]
  have hhalf : (v.clusterBytes + 1) / 2 = 256 * v.sb.sectorsPerCluster := by
    rw [hcb]
    unfold sectorSize
    omega
  have hin : v.fatStart + k * v.sb.sectorsPerCluster - v.fatStart < v.sb.sectorsFat := by
    rw [Nat.add_sub_cancel_left]
    exact (lt_scanBlocks hpos).mp hk
  have hnext : v.fatStart + k * v.sb.sectorsPerCluster + v.sb.sectorsPerCluster =
      v.fatStart + (k + 1) * v.sb.sectorsPerCluster := by ring
  rw [scanFat, if_pos hin, FatM.bind_ok (ataReadSector_run d hread)]
  dsimp only
  rw [hhalf, hnext]
  generalize scanFatBlock _ _ _ _ = r
  cases r <;> rfl

/-- The search, from the block number `k` on, returns the first entry that looks free. -/
theorem scanFat_hit (hx : x < 256 * v.sb.sectorsPerCluster * scanBlocks v) (hhit : LooksFree v d x)
    (hfirst : ∀ y < x, ¬LooksFree v d y) (hk : 256 * v.sb.sectorsPerCluster * k ≤ x)
    (hn : scanBlocks v < n + k) :
    scanFat v n (v.fatStart + k * v.sb.sectorsPerCluster) (u16 (256 * v.sb.sectorsPerCluster * k)) d =
      (.ok (u16 x), d) := by
  have hkb : k < scanBlocks v := Nat.lt_of_mul_lt_mul_left (hk.trans_lt hx)
  induction n generalizing k with
  | zero => omega
  | succ n ih =>
      rw [scanFat_block hpos hcb hkb]
      by_cases hhere : x < 256 * v.sb.sectorsPerCluster * k + 256 * v.sb.sectorsPerCluster
      · rw [scanFatBlock_hit (j := x - 256 * v.sb.sectorsPerCluster * k) (by omega)]
        · rw [Nat.add_sub_cancel' hk]
        · rw [load16_scanBlock (by omega), Nat.add_sub_cancel' hk]
          exact hhit
        · intro j hj
          rw [load16_scanBlock (by omega)]
          exact hfirst _ (by omega)
      · have hnext : 256 * v.sb.sectorsPerCluster * k + 256 * v.sb.sectorsPerCluster =
            256 * v.sb.sectorsPerCluster * (k + 1) := by ring
        rw [scanFatBlock_miss, hnext]
        · rw [hnext] at hhere
          exact ih (by omega) (by omega) (Nat.lt_of_mul_lt_mul_left ((Nat.le_of_not_lt hhere).trans_lt hx))
        · intro j hj
          rw [load16_scanBlock hj]
          exact hfirst _ (by omega)

/-- The search stops when no entry looks free. -/
theorem scanFat_miss (hnone : ∀ y < 256 * v.sb.sectorsPerCluster * scanBlocks v, ¬LooksFree v d y)
    (hk : k ≤ scanBlocks v) (hn : scanBlocks v < n + k) :
    scanFat v n (v.fatStart + k * v.sb.sectorsPerCluster) (u16 (256 * v.sb.sectorsPerCluster * k)) d =
      (.error .panic, d) := by
  induction n generalizing k with
  | zero => omega
  | succ n ih =>
      rcases Nat.eq_or_lt_of_le hk with rfl | hlt
      · have hout : ¬v.fatStart + scanBlocks v * v.sb.sectorsPerCluster - v.fatStart < v.sb.sectorsFat := by
          rw [Nat.add_sub_cancel_left, ← lt_scanBlocks hpos]
          exact Nat.lt_irrefl _
        rw [scanFat, if_neg hout]
        rfl
      · have hnext : 256 * v.sb.sectorsPerCluster * k + 256 * v.sb.sectorsPerCluster =
            256 * v.sb.sectorsPerCluster * (k + 1) := by ring
        have hle : 256 * v.sb.sectorsPerCluster * (k + 1) ≤
            256 * v.sb.sectorsPerCluster * scanBlocks v := Nat.mul_le_mul_left _ hlt
        rw [scanFat_block hpos hcb hlt, scanFatBlock_miss, hnext]
        · exact ih hlt (by omega)
        · intro j hj
          rw [load16_scanBlock hj]
          exact hnone _ (by omega)

theorem fatGetFreeCluster_hit (hx : x < 256 * v.sb.sectorsPerCluster * scanBlocks v)
    (hhit : LooksFree v d x) (hfirst : ∀ y < x, ¬LooksFree v d y) :
    fatGetFreeCluster v d = (.ok (u16 x), d) := by
  have hle := scanBlocks_le hpos
  have hscan := scanFat_hit (n := v.sb.sectorsFat + 1) (k := 0) hpos hcb hx hhit hfirst (Nat.zero_le _)
    (by omega)
  rw [Nat.zero_mul, Nat.mul_zero] at hscan
  exact hscan

theorem fatGetFreeCluster_miss
    (hnone : ∀ y < 256 * v.sb.sectorsPerCluster * scanBlocks v, ¬LooksFree v d y) :
    fatGetFreeCluster v d = (.error .panic, d) := by
  have hle := scanBlocks_le hpos
  have hscan := scanFat_miss (n := v.sb.sectorsFat + 1) (k := 0) hpos hcb hnone (Nat.zero_le _) (by omega)
  rw [Nat.zero_mul, Nat.mul_zero] at hscan
  exact hscan

end Scan

/-- `fat_get_free_cluster` returns the lowest free cluster. -/
theorem fatGetFreeCluster_run (hg : Geometry v) (h : (freeClusters v d).Nonempty) :
    ∃ c ∈ freeClusters v d, (∀ x ∈ freeClusters v d, c ≤ x) ∧
      fatGetFreeCluster v d = (.ok c, d) := by
  have hmem := (freeClusters v d).min'_mem h
  have hleast : ∀ x ∈ freeClusters v d, (freeClusters v d).min' h ≤ x := Finset.min'_le _
  obtain ⟨hrange, hfree⟩ := mem_freeClusters.mp hmem
  refine ⟨_, hmem, hleast, ?_⟩
  have hlt : (freeClusters v d).min' h < 2 ^ 16 := by
    have := hrange.2.1
    omega
  have hskip : ∀ x < (freeClusters v d).min' h, ¬LooksFree v d x := by
    rintro x hx ⟨hgt, hzero⟩
    rw [u16_of_lt (by omega)] at hgt
    have hxr : InRange v x := ⟨hgt, by have := hrange.2.1; omega, by have := hrange.2.2; omega⟩
    have := hleast x (mem_freeClusters.mpr ⟨hxr, hzero⟩)
    omega
  have hscan := fatGetFreeCluster_hit hg.sectorsPerCluster_pos hg.clusterBytes
    (hrange.2.2.trans_le (fat_le_scan hg.sectorsPerCluster_pos))
    ⟨by rw [u16_of_lt hlt]; exact hrange.1, hfree⟩ hskip
  rwa [u16_of_lt hlt] at hscan

end Free

end TsOs.Fat
