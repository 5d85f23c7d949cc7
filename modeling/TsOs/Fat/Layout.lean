import TsOs.Fat.Model

/-!
# The layout of a volume

Every transfer of the driver is a copy of a block of the disk. The lemmas of this
module turn what the driver does to a block into the same edit at an address of the
disk, and say which of the regions of the volume (the FAT, the root directory, the
clusters) an edit leaves alone.
-/

namespace TsOs.Fat
open ByteMemory

/-! ## Runs of the monad -/

namespace FatM

variable {α β : Type} {x : FatM α} {f : α → FatM β} {d d' : Disk} {a : α} {e : Stop}

/-- A run has one result. -/
theorem ok_inj {b : α} (h : ((.ok a, d) : Except Stop α × Disk) = (.ok b, d')) : a = b :=
  Except.ok.inj (congrArg Prod.fst h)

theorem bind_ok (h : x d = (.ok a, d')) : (x >>= f) d = f a d' := by
  simp only [bind, h]

theorem bind_error (h : x d = (.error e, d')) : (x >>= f) d = (.error e, d') := by
  simp only [bind, h]

@[simp] theorem pure_run : (pure a : FatM α) d = (.ok a, d) := rfl

/-- A sequence that returns has a first part that returns. -/
theorem bind_eq_ok {b : β} (h : (x >>= f) d = (.ok b, d')) :
    ∃ a d₁, x d = (.ok a, d₁) ∧ f a d₁ = (.ok b, d') := by
  cases hx : x d with
  | mk r d₁ =>
      cases r with
      | ok a => exact ⟨a, d₁, rfl, (bind_ok hx).symm.trans h⟩
      | error e =>
          have herr := (bind_error hx).symm.trans h
          simp at herr

/-- A sequence that stops does so in its first part or in its second one. -/
theorem bind_eq_error {e : Stop} (h : (x >>= f) d = (.error e, d')) :
    x d = (.error e, d') ∨ ∃ a d₁, x d = (.ok a, d₁) ∧ f a d₁ = (.error e, d') := by
  cases hx : x d with
  | mk r d₁ =>
      cases r with
      | ok a => exact Or.inr ⟨a, d₁, rfl, (bind_ok hx).symm.trans h⟩
      | error e' =>
          have herr := (bind_error hx).symm.trans h
          obtain rfl : e' = e := Except.error.inj (congrArg Prod.fst herr)
          obtain rfl : d₁ = d' := congrArg Prod.snd herr
          exact Or.inl rfl

end FatM

/-! ## Blocks -/

/-- `n` bytes of the disk from address `a` on, as a buffer. -/
def block (d : Disk) (a n : Nat) : Buf := fun i => if i < n then d (a + i) else 0

/-- The disk after a buffer has been written. -/
def setBlock (d : Disk) (a n : Nat) (buf : Buf) : Disk := fun x =>
  if a ≤ x ∧ x < a + n then buf (x - a) else d x

section Blocks

variable (d : Disk) {a n p : Nat}

theorem block_of_lt {i : Nat} (h : i < n) : block d a n i = d (a + i) := if_pos h

theorem load_block {w : Nat} (h : p + w ≤ n) : load (block d a n) p w = load d (a + p) w := by
  induction w generalizing p with
  | zero => rfl
  | succ w ih =>
      have hhead : block d a n p = d (a + p) := block_of_lt d (by omega)
      have htail := ih (p := p + 1) (by omega)
      rw [← Nat.add_assoc] at htail
      simp only [load, hhead, htail]

theorem load16_block (h : p + 2 ≤ n) : load16 (block d a n) p = load16 d (a + p) := load_block d h

theorem readEnt_block (h : p + direntSize ≤ n) : readEnt (block d a n) p = readEnt d (a + p) := by
  funext i
  unfold readEnt
  split
  · rw [block_of_lt d (by omega), Nat.add_assoc]
  · rfl

theorem setBlock_store {w val : Nat} (h : p + w ≤ n) :
    setBlock d a n (store (block d a n) p w val) = store d (a + p) w val := by
  funext x
  unfold setBlock store
  split
  next hx =>
    rw [block_of_lt d (by omega), Nat.add_sub_cancel' hx.1, Nat.sub_sub]
    split
    next hp => rw [if_pos (by omega)]
    next hp => rw [if_neg (by omega)]
  next hx => rw [if_neg (by omega)]

theorem setBlock_writeEnt {e : DirEnt} (h : p + direntSize ≤ n) :
    setBlock d a n (writeEnt (block d a n) p e) = writeEnt d (a + p) e := by
  funext x
  unfold setBlock writeEnt
  split
  next hx =>
    rw [block_of_lt d (by omega), Nat.add_sub_cancel' hx.1, Nat.sub_sub]
    split
    next hp => rw [if_pos (by omega)]
    next hp => rw [if_neg (by omega)]
  next hx => rw [if_neg (by omega)]

theorem setBlock_patch {l : List UInt8} (h : p + l.length ≤ n) :
    setBlock d a n (patch (block d a n) p l) = patch d (a + p) l := by
  funext x
  unfold setBlock patch
  split
  next hx =>
    rw [block_of_lt d (by omega), Nat.add_sub_cancel' hx.1, Nat.sub_sub]
    split
    next hp => rw [if_pos (by omega)]
    next hp => rw [if_neg (by omega)]
  next hx => rw [if_neg (by omega)]

theorem setBlock_of_outside {buf : Buf} {x : Nat} (h : x < a ∨ a + n ≤ x) :
    setBlock d a n buf x = d x := if_neg (by omega)

theorem writeEnt_of_outside {e : DirEnt} {x : Nat} (h : x < p ∨ p + direntSize ≤ x) :
    writeEnt d p e x = d x := if_neg (by omega)

theorem patch_of_outside {l : List UInt8} {x : Nat} (h : x < p ∨ p + l.length ≤ x) :
    patch d p l x = d x := if_neg (by omega)

theorem patch_nil : patch d p [] = d := by
  funext x
  refine patch_of_outside d ?_
  rw [List.length_nil]
  omega

theorem ataReadSector_run {lbaStart secNum bufSize : Nat} (h : secNum ≤ bufSize / sectorSize) :
    ataReadSector lbaStart secNum bufSize (fun _ => 0) d =
      (.ok (secNum, block d (sectorSize * lbaStart) (sectorSize * secNum)), d) := by
  unfold ataReadSector
  rw [if_neg (by omega)]
  rfl

theorem ataWriteSector_run (lbaStart secNum : Nat) (buf : Buf) :
    ataWriteSector lbaStart secNum buf d =
      (.ok secNum, setBlock d (sectorSize * lbaStart) (sectorSize * secNum) buf) := rfl

end Blocks

/-! ## Regions -/

/-- The geometry of a volume that the driver can address: the FAT, the root directory and the
clusters follow each other, and every number of a cluster fits sixteen bits. -/
structure Geometry (v : Fat16Volume) : Prop where
  bytesPerSector : v.sb.bytesPerSector = sectorSize
  sectorsPerCluster_pos : 0 < v.sb.sectorsPerCluster
  sectorsPerCluster_lt : v.sb.sectorsPerCluster < 256
  clusterBytes : v.clusterBytes = sectorSize * v.sb.sectorsPerCluster
  fat_le_root : v.fatStart + v.sb.sectorsFat ≤ v.rootDirStart
  root_le_data : v.rootDirStart + v.rootSectors ≤ v.dataStart
  dataStart_lt : v.dataStart < 2 ^ 16

variable (v : Fat16Volume)

/-- A cluster number that the driver follows and that has an entry in the FAT. -/
def InRange (c : Nat) : Prop := 3 ≤ c ∧ c ≤ 0xFFEF ∧ c < 256 * v.sb.sectorsFat

instance (c : Nat) : Decidable (InRange v c) := inferInstanceAs (Decidable (_ ∧ _))

/-- The address of the entry of a cluster in the FAT. -/
def fatCell (c : Nat) : Nat := sectorSize * v.fatStart + 2 * c

def fatEntry (d : Disk) (c : Nat) : Nat := load16 d (fatCell v c)

def setFat (d : Disk) (c val : Nat) : Disk := store16 d (fatCell v c) val

/-- The address of the contents of a cluster. -/
def clusterAddr (c : Nat) : Nat := sectorSize * (v.dataStart + (c - 2) * v.sb.sectorsPerCluster)

/-- The contents of a cluster. -/
def clusterBlock (d : Disk) (c : Nat) : Buf := block d (clusterAddr v c) v.clusterBytes

def setCluster (d : Disk) (c : Nat) (buf : Buf) : Disk :=
  setBlock d (clusterAddr v c) v.clusterBytes buf

variable {v}

theorem InRange.clusNormal {c : Nat} (h : InRange v c) : clusNormal c = true :=
  decide_eq_true ⟨h.1, h.2.1⟩

theorem clusNormal_iff {c : Nat} : clusNormal c = true ↔ 3 ≤ c ∧ c ≤ 0xFFEF := decide_eq_true_iff

theorem clusEof_iff {c : Nat} : clusEof c = true ↔ 0xFFF8 ≤ c ∧ c ≤ 0xFFFF := decide_eq_true_iff

theorem clusFree_iff {c : Nat} : clusFree c = true ↔ c = 0 := decide_eq_true_iff

/-- A mark at the end of a chain is not followed. -/
theorem not_clusNormal_of_eof {c : Nat} (h : clusEof c = true) : clusNormal c = false := by
  rw [clusEof_iff] at h
  refine decide_eq_false ?_
  omega

theorem Geometry.clusterBytes_pos (hg : Geometry v) : 0 < v.clusterBytes := by
  rw [hg.clusterBytes]
  exact Nat.mul_pos (by decide) hg.sectorsPerCluster_pos

theorem Geometry.le_clusterBytes (hg : Geometry v) : 512 ≤ v.clusterBytes := by
  rw [hg.clusterBytes]
  exact Nat.le_mul_of_pos_right _ hg.sectorsPerCluster_pos

theorem Geometry.clusterBytes_lt (hg : Geometry v) : v.clusterBytes < 2 ^ 17 := by
  have hlt := hg.sectorsPerCluster_lt
  have hcb : v.clusterBytes = 512 * v.sb.sectorsPerCluster := hg.clusterBytes
  omega

theorem Geometry.fatCell_le (hg : Geometry v) {c : Nat} (hc : c < 256 * v.sb.sectorsFat) :
    fatCell v c + 2 ≤ sectorSize * v.rootDirStart := by
  have hle := hg.fat_le_root
  unfold fatCell sectorSize
  omega

theorem fatCell_apart {c c' : Nat} (h : c ≠ c') :
    fatCell v c + 2 ≤ fatCell v c' ∨ fatCell v c' + 2 ≤ fatCell v c := by
  unfold fatCell
  omega

theorem le_clusterAddr (c : Nat) : sectorSize * v.dataStart ≤ clusterAddr v c :=
  Nat.mul_le_mul_left _ (by omega)

theorem Geometry.root_le_clusterAddr (hg : Geometry v) (c : Nat) :
    sectorSize * v.rootDirStart ≤ clusterAddr v c := by
  have hle := hg.root_le_data
  have hmono : sectorSize * v.rootDirStart ≤ sectorSize * v.dataStart :=
    Nat.mul_le_mul_left _ (by omega)
  exact hmono.trans (le_clusterAddr c)

theorem Geometry.clusterAddr_succ_le (hg : Geometry v) {c c' : Nat} (hc : 2 ≤ c) (h : c < c') :
    clusterAddr v c + v.clusterBytes ≤ clusterAddr v c' := by
  have hmono : (c - 2 + 1) * v.sb.sectorsPerCluster ≤ (c' - 2) * v.sb.sectorsPerCluster :=
    Nat.mul_le_mul_right _ (by omega)
  rw [hg.clusterBytes]
  unfold clusterAddr
  rw [← Nat.mul_add]
  refine Nat.mul_le_mul_left _ ?_
  rw [Nat.succ_mul] at hmono
  omega

theorem Geometry.clusterAddr_apart (hg : Geometry v) {c c' : Nat} (hc : 2 ≤ c) (hc' : 2 ≤ c')
    (h : c ≠ c') : clusterAddr v c + v.clusterBytes ≤ clusterAddr v c' ∨
      clusterAddr v c' + v.clusterBytes ≤ clusterAddr v c := by
  rcases Nat.lt_or_gt_of_ne h with hlt | hlt
  · exact Or.inl (hg.clusterAddr_succ_le hc hlt)
  · exact Or.inr (hg.clusterAddr_succ_le hc' hlt)

theorem Geometry.fatSector_lt (hg : Geometry v) {c : Nat} (hc : c < 256 * v.sb.sectorsFat) :
    v.fatStart + c / 256 < 2 ^ 16 := by
  have hroot := hg.fat_le_root
  have hdata := hg.root_le_data
  have hlt := hg.dataStart_lt
  omega

/-! ## Transfers of entries of the FAT -/

section Entries

variable (hb : v.sb.bytesPerSector = sectorSize) (d : Disk) {c : Nat}
include hb

theorem readFat_of_lt (hlt : v.fatStart + c / 256 < 2 ^ 16) :
    readFat v c d = (.ok (v.fatStart + c / 256, block d (sectorSize * (v.fatStart + c / 256)) sectorSize), d) := by
  have hdiv : c * 2 / 512 = c / 256 := by omega
  have hsector : u16 (v.fatStart + c * 2 / v.sb.bytesPerSector) = v.fatStart + c / 256 := by
    rw [hb]
    unfold sectorSize u16
    rw [hdiv]
    exact Nat.mod_eq_of_lt hlt
  unfold readFat
  rw [hsector, hb, FatM.bind_ok (ataReadSector_run d (by decide)), Nat.mul_one]
  rfl

theorem fatCell_eq : sectorSize * (v.fatStart + c / 256) + fatIndex v c = fatCell v c := by
  unfold fatIndex fatCell
  rw [hb]
  unfold sectorSize
  omega

theorem fatIndex_le : fatIndex v c + 2 ≤ sectorSize := by
  unfold fatIndex
  rw [hb]
  unfold sectorSize
  omega

theorem fatGetNextCluster_of_lt (hlt : v.fatStart + c / 256 < 2 ^ 16) :
    fatGetNextCluster v c d = (.ok (fatEntry v d c), d) := by
  unfold fatGetNextCluster
  rw [FatM.bind_ok (readFat_of_lt hb d hlt)]
  change (Except.ok (load16 (block d _ _) (fatIndex v c)), d) = _
  rw [load16_block d (fatIndex_le hb), fatCell_eq hb]
  rfl

theorem writeFat_of_lt (val : Nat) (hlt : v.fatStart + c / 256 < 2 ^ 16) :
    writeFat v c val d = (.ok (), setFat v d c val) := by
  unfold writeFat
  rw [FatM.bind_ok (readFat_of_lt hb d hlt)]
  change (Except.ok (), setBlock d _ (sectorSize * 1) (store16 (block d _ _) (fatIndex v c) val)) = _
  rw [Nat.mul_one, setBlock_store d (fatIndex_le hb), fatCell_eq hb]
  rfl

end Entries

/-! ## Transfers of clusters and of entries of the FAT -/

section Transfers

variable (hg : Geometry v) (d : Disk) {c : Nat}
include hg

theorem Geometry.clusterSector_eq (hc : 2 ≤ c) (hlt : c < 2 ^ 16) :
    clusterSector v c = v.dataStart + (c - 2) * v.sb.sectorsPerCluster := by
  have hspc := hg.sectorsPerCluster_lt
  have hdata := hg.dataStart_lt
  have hmul : (c - 2) * v.sb.sectorsPerCluster ≤ 2 ^ 16 * 2 ^ 8 :=
    Nat.mul_le_mul (by omega) (by omega)
  unfold clusterSector
  rw [sub32_of_le hc (by omega), u32_of_lt (by omega)]

theorem fatReadCluster_of_lt (hc : 2 ≤ c) (hlt : c < 2 ^ 16) :
    fatReadCluster v c (fun _ => 0) d = (.ok (v.sb.sectorsPerCluster, clusterBlock v d c), d) := by
  unfold fatReadCluster
  rw [ataReadSector_run d, hg.clusterSector_eq hc hlt]
  · unfold clusterBlock clusterAddr
    rw [hg.clusterBytes]
  · rw [hg.clusterBytes, Nat.mul_div_cancel_left _ (by decide)]

theorem fatReadCluster_run (hc : clusNormal c = true) :
    fatReadCluster v c (fun _ => 0) d = (.ok (v.sb.sectorsPerCluster, clusterBlock v d c), d) := by
  rw [clusNormal_iff] at hc
  exact fatReadCluster_of_lt hg d (by omega) (by omega)

theorem fatWriteCluster_of_lt (buf : Buf) (hc : 2 ≤ c) (hlt : c < 2 ^ 16) :
    fatWriteCluster v buf c d = (.ok (), setCluster v d c buf) := by
  unfold fatWriteCluster
  rw [FatM.bind_ok (ataWriteSector_run d _ _ _), hg.clusterSector_eq hc hlt]
  unfold setCluster clusterAddr
  rw [hg.clusterBytes]
  rfl

theorem fatWriteCluster_run (buf : Buf) (hc : clusNormal c = true) :
    fatWriteCluster v buf c d = (.ok (), setCluster v d c buf) := by
  rw [clusNormal_iff] at hc
  exact fatWriteCluster_of_lt hg d buf (by omega) (by omega)

theorem readFat_run (hc : c < 256 * v.sb.sectorsFat) :
    readFat v c d = (.ok (v.fatStart + c / 256, block d (sectorSize * (v.fatStart + c / 256)) sectorSize), d) :=
  readFat_of_lt hg.bytesPerSector d (hg.fatSector_lt hc)

theorem fatGetNextCluster_run (hc : c < 256 * v.sb.sectorsFat) :
    fatGetNextCluster v c d = (.ok (fatEntry v d c), d) :=
  fatGetNextCluster_of_lt hg.bytesPerSector d (hg.fatSector_lt hc)

theorem writeFat_run (val : Nat) (hc : c < 256 * v.sb.sectorsFat) :
    writeFat v c val d = (.ok (), setFat v d c val) :=
  writeFat_of_lt hg.bytesPerSector d val (hg.fatSector_lt hc)

end Transfers

/-! ## What an edit leaves alone -/

section Frames

variable {d : Disk} {c c' val : Nat}

theorem fatEntry_setFat_same (h : val < 2 ^ 16) : fatEntry v (setFat v d c val) c = val :=
  (load_store_same d (fatCell v c) 2 val).trans (Nat.mod_eq_of_lt h)

theorem fatEntry_setFat_of_ne (h : c' ≠ c) : fatEntry v (setFat v d c val) c' = fatEntry v d c' :=
  load_store_disjoint d val (fatCell_apart h)

/-- Equal bytes in the FAT give equal entries. -/
theorem Geometry.fatEntry_congr (hg : Geometry v) {d' : Disk} (hc : c < 256 * v.sb.sectorsFat)
    (h : ∀ x < sectorSize * v.rootDirStart, d' x = d x) : fatEntry v d' c = fatEntry v d c := by
  have hle := hg.fatCell_le hc
  refine load_congr fun x _ hx => h x ?_
  omega

theorem setFat_of_outside {x : Nat} (h : x < fatCell v c ∨ fatCell v c + 2 ≤ x) :
    setFat v d c val x = d x := store_of_outside d _ val h

theorem Geometry.setFat_of_le (hg : Geometry v) {x : Nat} (hc : c < 256 * v.sb.sectorsFat)
    (hx : sectorSize * v.rootDirStart ≤ x) : setFat v d c val x = d x := by
  have hle := hg.fatCell_le hc
  exact setFat_of_outside (by omega)

theorem readEnt_congr {d' : Disk} {p : Nat} (h : ∀ x, p ≤ x → x < p + direntSize → d' x = d x) :
    readEnt d' p = readEnt d p := by
  funext i
  unfold readEnt
  split
  · exact h _ (by omega) (by omega)
  · rfl

theorem block_congr {d' : Disk} {a n : Nat} (h : ∀ x, a ≤ x → x < a + n → d' x = d x) :
    block d' a n = block d a n := by
  funext i
  unfold block
  split
  · exact h _ (by omega) (by omega)
  · rfl

theorem readEnt_writeEnt {p : Nat} {e : DirEnt} :
    readEnt (writeEnt d p e) p = fun i => if i < direntSize then e i else 0 := by
  funext i
  unfold readEnt writeEnt
  split
  · rw [if_pos (by omega), Nat.add_sub_cancel_left]
  · rfl

theorem readEnt_zero (p : Nat) : readEnt (fun _ => 0) p = fun _ => 0 := by
  funext i
  exact ite_self _

theorem readEnt_setCluster {p : Nat} {buf : Buf} (h : p + direntSize ≤ v.clusterBytes) :
    readEnt (setCluster v d c buf) (clusterAddr v c + p) = readEnt buf p := by
  funext i
  unfold readEnt
  split
  next hi =>
    rw [setCluster, setBlock, if_pos (by unfold direntSize at *; omega), Nat.add_assoc, Nat.add_sub_cancel_left]
  next => rfl

/-- An entry has no bytes beyond its size. -/
theorem readEnt_of_le {p i : Nat} (h : direntSize ≤ i) : readEnt d p i = 0 := if_neg (by omega)

theorem readEnt_writeEnt_eq {p : Nat} {e : DirEnt} (h : ∀ i, direntSize ≤ i → e i = 0) :
    readEnt (writeEnt d p e) p = e := by
  rw [readEnt_writeEnt]
  funext i
  split
  · rfl
  · exact (h i (by omega)).symm

theorem readEnt_writeEnt_of_apart {p q : Nat} {e : DirEnt}
    (h : q + direntSize ≤ p ∨ p + direntSize ≤ q) : readEnt (writeEnt d p e) q = readEnt d q :=
  readEnt_congr fun _ _ _ => writeEnt_of_outside d (by omega)

end Frames

/-! ## Fields of an entry -/

namespace DirEnt

variable (e : DirEnt) {n : Nat}

theorem setFileSize_of_ne {i : Nat} (h : i < 28 ∨ 32 ≤ i) : e.setFileSize n i = e i :=
  store_of_outside e 28 n h

@[simp] theorem startCluster_setFileSize : (e.setFileSize n).startCluster = e.startCluster :=
  load_store_disjoint e n (by omega)

theorem fileSize_setFileSize (h : n < 2 ^ 32) : (e.setFileSize n).fileSize = n :=
  load32_store32_same e 28 h

@[simp] theorem isDirectory_setFileSize : isDirectory (e.setFileSize n) = isDirectory e := by
  unfold isDirectory attr
  rw [setFileSize_of_ne e (by omega)]

end DirEnt

end TsOs.Fat
