import TsOs.Fat.Deleting
import TsOs.Fat.Paths

/-!
# Searching a directory

A directory is a list of addresses of slots: those of the sectors of the root, or those
of the clusters of a chain. The search finds the first slot of a name in that list, and
the handle depends on the address of the slot only.
-/

namespace TsOs.Fat
open ByteMemory

variable (v : Fat16Volume)

/-- A geometry in which the blocks that the driver reads stay inside of the root directory and
of the FAT. -/
structure Aligned : Prop extends Geometry v where
  root_dvd : v.sb.sectorsPerCluster ∣ v.rootSectors
  fat_dvd : v.sb.sectorsPerCluster ∣ v.sb.sectorsFat

/-- The slots of some sectors. -/
def sectorSlots (lba count : Nat) : List Nat :=
  (List.range (16 * count)).map fun i => sectorSize * lba + direntSize * i

/-- The slots of the root directory. -/
def rootSlots : List Nat := sectorSlots v.rootDirStart v.rootSectors

/-- The slots of one cluster of a directory. -/
def clusterSlots (c : Nat) : List Nat :=
  (List.range ((v.clusterBytes + 31) / direntSize)).map fun i => clusterAddr v c + direntSize * i

/-- The slots of a directory with the clusters `l`. -/
def chainSlots (l : List Nat) : List Nat := l.flatMap (clusterSlots v)

/-- The slot has an entry with the key. -/
def Named (d : Disk) (k : List UInt8) (a : Nat) : Prop :=
  (readEnt d a).startCluster ≠ 0 ∧ entKey (readEnt d a) = k

instance (d : Disk) (k : List UInt8) (a : Nat) : Decidable (Named d k a) :=
  inferInstanceAs (Decidable (_ ∧ _))

/-- The first slot with the key. -/
def findSlot (d : Disk) (k : List UInt8) (A : List Nat) : Option Nat := A.find? (Named d k ·)

/-- The cluster of an address. -/
def clusterOf (a : Nat) : Nat := 2 + (a / sectorSize - v.dataStart) / v.sb.sectorsPerCluster

/-- The handle on the entry in slot `a`. -/
def Fat16File.place (d : Disk) (file : Fat16File) (a : Nat) : Fat16File :=
  if a < sectorSize * v.dataStart then
    { file with
      dirent := readEnt d a
      currentCluster := (readEnt d a).startCluster
      direntCluster := clusRoot
      direntSector := a / sectorSize }
  else
    { file with
      dirent := readEnt d a
      currentCluster := (readEnt d a).startCluster
      direntCluster := clusterOf v a }

variable {v} {d : Disk} {file : Fat16File} {name k : List UInt8}

/-! ## Addresses of slots -/

theorem firstIndex_eq_find? (p : Nat → Bool) (n i : Nat) :
    firstIndex p n i = (List.range' i n).find? p := by
  induction n generalizing i with
  | zero => rfl
  | succ n ih =>
      rw [firstIndex, List.range'_succ, List.find?_cons, ih]
      cases p i <;> rfl

theorem dirSlots_eq (l : List Nat) : dirSlots v d l = (chainSlots v l).map (readEnt d) := by
  unfold dirSlots chainSlots clusterSlots
  rw [List.map_flatMap]
  simp only [List.map_map]
  rfl

theorem sectorSlots_add (lba m n : Nat) :
    sectorSlots lba (m + n) = sectorSlots lba m ++ sectorSlots (lba + m) n := by
  unfold sectorSlots
  rw [Nat.mul_add, List.range_add, List.map_append, List.map_map]
  congr 1
  refine List.map_congr_left fun i _ => ?_
  unfold sectorSize direntSize
  simp only [Function.comp_apply]
  omega

theorem mem_sectorSlots {lba count a : Nat} :
    a ∈ sectorSlots lba count ↔ ∃ i < 16 * count, a = sectorSize * lba + direntSize * i := by
  simp [sectorSlots, eq_comm]

theorem mem_clusterSlots {c a : Nat} : a ∈ clusterSlots v c ↔
    ∃ i < (v.clusterBytes + 31) / direntSize, a = clusterAddr v c + direntSize * i := by
  simp [clusterSlots, eq_comm]

theorem mem_chainSlots {l : List Nat} {a : Nat} :
    a ∈ chainSlots v l ↔ ∃ c ∈ l, a ∈ clusterSlots v c := List.mem_flatMap

theorem chainSlots_cons (c : Nat) (l : List Nat) :
    chainSlots v (c :: l) = clusterSlots v c ++ chainSlots v l := rfl

theorem chainSlots_append (l l' : List Nat) :
    chainSlots v (l ++ l') = chainSlots v l ++ chainSlots v l' := List.flatMap_append

theorem findSlot_append (A B : List Nat) :
    findSlot d k (A ++ B) = (findSlot d k A).or (findSlot d k B) := List.find?_append

theorem findSlot_eq_none {A : List Nat} : findSlot d k A = none ↔ ∀ a ∈ A, ¬Named d k a := by
  simp [findSlot]

theorem findSlot_eq_some {A : List Nat} {a : Nat} (h : findSlot d k A = some a) :
    a ∈ A ∧ Named d k a :=
  ⟨List.mem_of_find?_eq_some h, by simpa using List.find?_some h⟩

/-- The search in a block is the search in its slots. -/
theorem searchNameInBlock_eq {b n : Nat} (hnul : 0 ∉ name)
    (hfit : direntSize * ((n + 31) / direntSize) ≤ n) :
    findSlot d (key name) ((List.range ((n + 31) / direntSize)).map fun i => b + direntSize * i) =
      (searchNameInBlock (block d b n) n (fat16FilenameFmt (fun _ => 0) (cstr name))).map
        fun i => b + direntSize * i := by
  unfold findSlot searchNameInBlock
  rw [firstIndex_eq_find?, List.find?_map, ← List.range_eq_range']
  congr 1
  refine List.find?_congr fun i hi => ?_
  have hi' := List.mem_range.mp hi
  have hslot : direntSize * i + direntSize ≤ n := by
    unfold direntSize at *
    omega
  rw [readEnt_block d hslot, Bool.eq_iff_iff, Function.comp_apply, decide_eq_true_iff,
    Bool.and_eq_true, fatFilenameMatch_iff_entKey, entKey_fat16FilenameFmt hnul,
    Bool.not_eq_true', ← Bool.not_eq_true, clusFree_iff]
  rfl

/-! ## The search -/

section Search

variable (hg : Geometry v)
include hg

theorem Geometry.clusterOf_eq {c i : Nat} (hc : 2 ≤ c) (hi : i < v.clusterBytes) :
    clusterOf v (clusterAddr v c + i) = c := by
  have hpos := hg.sectorsPerCluster_pos
  have hsector : (clusterAddr v c + i) / sectorSize =
      v.dataStart + (c - 2) * v.sb.sectorsPerCluster + i / sectorSize := by
    unfold clusterAddr
    rw [Nat.mul_add_div (by decide)]
  have hlt : i / sectorSize < v.sb.sectorsPerCluster := by
    rw [hg.clusterBytes] at hi
    exact Nat.div_lt_of_lt_mul hi
  unfold clusterOf
  rw [hsector, Nat.add_assoc, Nat.add_sub_cancel_left, Nat.mul_comm, Nat.mul_add_div hpos,
    Nat.div_eq_of_lt hlt]
  omega

theorem Geometry.place_cluster (d : Disk) (file : Fat16File) {c i : Nat} (hc : 2 ≤ c) (hi : i < v.clusterBytes) :
    file.place v d (clusterAddr v c + i) = { file with
      dirent := readEnt d (clusterAddr v c + i)
      direntCluster := c
      currentCluster := (readEnt d (clusterAddr v c + i)).startCluster } := by
  have hle := le_clusterAddr (v := v) c
  unfold Fat16File.place
  rw [if_neg (by omega), hg.clusterOf_eq hc hi]

omit hg in
theorem place_root (d : Disk) (file : Fat16File) {lba i : Nat} (h : lba < v.dataStart) (hi : i < 16) :
    file.place v d (sectorSize * lba + direntSize * i) = { file with
      dirent := readEnt d (sectorSize * lba + direntSize * i)
      currentCluster := (readEnt d (sectorSize * lba + direntSize * i)).startCluster
      direntCluster := clusRoot
      direntSector := lba } := by
  have hlt : sectorSize * lba + direntSize * i < sectorSize * v.dataStart := by
    have := Nat.mul_le_mul_left sectorSize (Nat.succ_le_of_lt h)
    unfold sectorSize direntSize at *
    omega
  have hdiv : (sectorSize * lba + direntSize * i) / sectorSize = lba := by
    unfold sectorSize direntSize
    omega
  unfold Fat16File.place
  rw [if_pos hlt, hdiv]

/-- The search along a chain. -/
theorem searchFileLoop_run {c n : Nat} {l : List Nat} (h : IsChain v d c l) (hn : l.length < n)
    (hnul : 0 ∉ name) :
    searchFileLoop v file (fat16FilenameFmt (fun _ => 0) (cstr name)) n c d =
      (.ok ((findSlot d (key name) (chainSlots v l)).map (file.place v d)), d) := by
  have hfit : direntSize * ((v.clusterBytes + 31) / direntSize) ≤ v.clusterBytes := by
    rw [hg.slots_eq, hg.clusterBytes]
    unfold sectorSize direntSize
    omega
  induction l generalizing n c with
  | nil =>
      obtain ⟨n, rfl⟩ : ∃ m, n = m + 1 := ⟨n - 1, by omega⟩
      rw [searchFileLoop, not_clusNormal_of_eof h.eof_of_nil]
      rfl
  | cons x l ih =>
      obtain ⟨n, rfl⟩ : ∃ m, n = m + 1 := ⟨n - 1, by omega⟩
      obtain rfl := h.head_eq
      have hc := h.inRange c List.mem_cons_self
      have hslots := searchNameInBlock_eq (d := d) (b := clusterAddr v c) hnul hfit
      rw [searchFileLoop, if_pos hc.clusNormal, FatM.bind_ok (fatReadCluster_run hg d hc.clusNormal)]
      dsimp only
      rw [if_neg (Nat.pos_iff_ne_zero.mp hg.sectorsPerCluster_pos), chainSlots_cons, findSlot_append,
        clusterSlots, hslots]
      unfold clusterBlock
      cases hi : searchNameInBlock (block d (clusterAddr v c) v.clusterBytes) v.clusterBytes
          (fat16FilenameFmt (fun _ => 0) (cstr name)) with
      | none =>
          dsimp only
          rw [FatM.bind_ok (fatGetNextCluster_run hg d hc.2.2), Option.map_none, Option.none_or]
          exact ih h.tail (by rw [List.length_cons] at hn; omega)
      | some i =>
          have hlt := (searchNameInBlock_spec hi).1
          have hslot := hg.slot_le hlt
          dsimp only
          rw [Option.map_some, Option.some_or, Option.map_some,
            hg.place_cluster d file (by have := hc.1; omega) (by unfold direntSize at *; omega),
            readEnt_block d hslot]
          rfl

/-- The search in the root directory, from a block of it on. -/
theorem searchRootLoop_run {n m lba : Nat} (hn : m < n) (hroot : v.rootDirStart ≤ lba)
    (hend : lba + m * v.sb.sectorsPerCluster = v.rootDirStart + v.rootSectors)
    (hnul : 0 ∉ name) :
    searchRootLoop v file (fat16FilenameFmt (fun _ => 0) (cstr name)) n lba d =
      (.ok ((findSlot d (key name) (sectorSlots lba (m * v.sb.sectorsPerCluster))).map
        (file.place v d)), d) := by
  have hpos := hg.sectorsPerCluster_pos
  induction m generalizing n lba with
  | zero =>
      obtain ⟨n, rfl⟩ : ∃ m, n = m + 1 := ⟨n - 1, by omega⟩
      rw [searchRootLoop, if_neg (by omega), Nat.zero_mul]
      rfl
  | succ m ih =>
      obtain ⟨n, rfl⟩ : ∃ m, n = m + 1 := ⟨n - 1, by omega⟩
      rw [Nat.succ_mul] at hend
      have hread : v.sb.sectorsPerCluster ≤ v.clusterBytes / sectorSize := by
        rw [hg.clusterBytes, Nat.mul_div_cancel_left _ (by decide)]
      have hsize : v.sb.sectorsPerCluster * v.sb.bytesPerSector = v.clusterBytes := by
        rw [hg.clusterBytes, hg.bytesPerSector, Nat.mul_comm]
      have hfit : direntSize * ((v.clusterBytes + 31) / direntSize) ≤ v.clusterBytes := by
        rw [hg.slots_eq, hg.clusterBytes]
        unfold sectorSize direntSize
        omega
      have hslots := searchNameInBlock_eq (d := d) (b := sectorSize * lba) hnul hfit
      have hsector : sectorSlots lba v.sb.sectorsPerCluster =
          (List.range ((v.clusterBytes + 31) / direntSize)).map
            fun i => sectorSize * lba + direntSize * i := by
        rw [hg.slots_eq]
        rfl
      have hin : lba - v.rootDirStart < v.rootSectors := by omega
      rw [searchRootLoop, if_pos hin, FatM.bind_ok (ataReadSector_run d hread), ← hg.clusterBytes]
      dsimp only
      rw [hsize, Nat.succ_mul, Nat.add_comm (m * _), sectorSlots_add, findSlot_append,
        hsector, hslots]
      cases hi : searchNameInBlock (block d (sectorSize * lba) v.clusterBytes) v.clusterBytes
          (fat16FilenameFmt (fun _ => 0) (cstr name)) with
      | none =>
          dsimp only
          rw [Option.map_none, Option.none_or]
          exact ih (by omega) (by omega) (by omega)
      | some i =>
          have hlt := (searchNameInBlock_spec hi).1
          have hslot := hg.slot_le hlt
          rw [hg.slots_eq] at hlt
          have hdata := hg.root_le_data
          have haddr : sectorSize * lba + direntSize * i =
              sectorSize * (lba + i / 16) + direntSize * (i % 16) := by
            unfold sectorSize direntSize
            omega
          have hsector : direntSize * i / v.sb.bytesPerSector = i / 16 := by
            rw [hg.bytesPerSector]
            unfold direntSize sectorSize
            omega
          dsimp only
          rw [Option.map_some, Option.some_or, Option.map_some, haddr,
            place_root d file (by omega) (Nat.mod_lt _ (by decide)), ← haddr, readEnt_block d hslot, hsector]
          rfl

end Search

/-- `fat_search_file` in a subdirectory. -/
theorem fatSearchFile_chain (hg : Geometry v) {fuel c : Nat} {l : List Nat} (h : IsChain v d c l)
    (hfuel : 2 ^ 16 ≤ fuel) (hnul : 0 ∉ name) :
    fatSearchFile v fuel file name c d =
      (.ok ((findSlot d (key name) (chainSlots v l)).map (file.place v d)), d) := by
  have hle := h.length_le
  unfold fatSearchFile
  rw [if_neg (show c ≠ clusRoot from h.start_ne_zero)]
  exact searchFileLoop_run hg h (by omega) hnul

/-- `fat_search_file` in the root directory. -/
theorem fatSearchFile_root (hv : Aligned v) {fuel : Nat} (hnul : 0 ∉ name) :
    fatSearchFile v fuel file name clusRoot d =
      (.ok ((findSlot d (key name) (rootSlots v)).map (file.place v d)), d) := by
  obtain ⟨m, hm⟩ := hv.root_dvd
  rw [Nat.mul_comm] at hm
  have hle : m ≤ v.rootSectors := by
    rw [hm]
    exact Nat.le_mul_of_pos_right m hv.sectorsPerCluster_pos
  unfold fatSearchFile fatSearchRoot rootSlots
  rw [if_pos rfl, searchRootLoop_run hv.toGeometry (m := m) (by omega) (le_refl _) (by omega) hnul,
    ← hm]

end TsOs.Fat
