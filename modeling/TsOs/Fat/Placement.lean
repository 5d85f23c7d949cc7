import TsOs.Fat.RootSlots

/-!
# The place of a new entry

What a creation does to the directory: which slot gets the new entry, whether that slot
was in use, and whether the directory grows. The driver takes an entry without a cluster
for a free slot, and does not look for one in the last cluster of a subdirectory.
-/

namespace TsOs.Fat
open ByteMemory

variable {v : Fat16Volume} {d d' : Disk} {f : Fat16File} {name : List UInt8} {dir : Bool} {l : List Nat}

/-! ## Handles on directories -/

/-- A path without components leads to the root directory. -/
theorem findLoop_root (hg : Geometry v) {n fuel : Nat} {file : Fat16File} {path : List UInt8}
    (h : findLoop v fuel n file path d = (.ok (some f), d)) (hstart : f.dirent.startCluster = 0) :
    f = file := by
  induction n generalizing file path with
  | zero => exact absurd (congrArg Prod.fst h) (by simp [findLoop, FatM.stop])
  | succ n ih =>
      rw [findLoop] at h
      dsimp only at h
      split at h
      next => exact absurd (congrArg Prod.fst h) (by simp [FatM.stop])
      next =>
        split at h
        next => exact (Option.some.inj (FatM.ok_inj h)).symm
        next =>
          obtain ⟨found, d₁, hfound, hrest⟩ := FatM.bind_eq_ok h
          obtain rfl := (fatSearchFile_quiet _ _ _ _ _).same hfound
          cases found with
          | none => exact absurd (congrArg Prod.fst hrest) (by simp)
          | some g =>
              have hopened := fatSearchFile_opened hg hfound
              have hg' : f = g := by
                cases hnext : (strtok path [slash]).2 with
                | none =>
                    rw [hnext] at hrest
                    exact (Option.some.inj (FatM.ok_inj hrest)).symm
                | some next =>
                    rw [hnext] at hrest
                    exact ih hrest
              rw [hg'] at hstart
              exact absurd hstart hopened.start_ne

/-- A handle on the root directory, by the spelling of its path. -/
theorem fatOpenExisting_rootBlock (hg : Geometry v) {fuel : Nat} {path : List UInt8}
    (h : (fatOpenExisting v fuel path Flags.none d).1 = .ok (some f)) (hstart : f.dirent.startCluster = 0) :
    AtRootBlock v f 0 ∧ f.currentCluster = if path = [slash] then 0 else 0xFF := by
  have hrun := (fatOpenExisting_quiet v fuel path Flags.none).eq h
  by_cases hpath : path = [slash]
  · subst hpath
    rw [fatOpenExisting_root v d fuel rfl] at hrun
    obtain rfl := Option.some.inj (FatM.ok_inj hrun)
    exact ⟨⟨⟨rfl, rfl⟩, rfl, rfl⟩, rfl⟩
  · unfold fatOpenExisting at hrun
    obtain ⟨found, d₁, hfound, hrest⟩ := FatM.bind_eq_ok hrun
    obtain rfl := (fat16Find_quiet _ _ _ _).same hfound
    cases found with
    | none => exact absurd (congrArg Prod.fst hrest) (by simp)
    | some g =>
        obtain rfl : g = f := Option.some.inj (FatM.ok_inj hrest)
        unfold fat16Find at hfound
        rw [if_neg hpath] at hfound
        obtain rfl := findLoop_root hg hfound hstart
        rw [if_neg hpath]
        exact ⟨⟨⟨rfl, rfl⟩, rfl, rfl⟩, rfl⟩

/-- A handle on a subdirectory stands at its first cluster. -/
theorem fatOpenExisting_atBlock (hg : Geometry v) (hspc : v.sb.sectorsPerCluster ≤ 128) {fuel c : Nat}
    {path : List UInt8} (h : (fatOpenExisting v fuel path Flags.none d).1 = .ok (some f))
    (hdir : isDirectory f.dirent = true) (hchain : IsChain v d f.dirent.startCluster (c :: l)) :
    AtBlock v d f c l ∧ f.dirent.startCluster = c := by
  have hopened := fatOpenExisting_opened hg h rfl hchain.start_ne_zero
  have hc : f.dirent.startCluster = c := hchain.head_eq
  have hlen := hchain.length_le
  rw [List.length_cons] at hlen
  have hcb : v.clusterBytes ≤ 65536 := by
    rw [hg.clusterBytes]
    unfold sectorSize
    omega
  have hmul : (l.length + 1) * v.clusterBytes ≤ 0xFFEF * 65536 := Nat.mul_le_mul hlen hcb
  refine ⟨⟨?_, hdir, hchain.start_ne_zero, ?_, ?_, ?_⟩, hc⟩
  · rwa [hc] at hchain
  · rw [hopened.current, hc]
  · rw [hopened.offset]
    exact dvd_zero _
  · rw [hopened.offset]
    omega

/-! ## Slots -/

variable (v) in
/-- The handle is on the root directory, or on a subdirectory with the clusters `l`. -/
def OnDirectory (d : Disk) (f : Fat16File) (l : List Nat) : Prop :=
  f.dirent.startCluster = clusRoot ∨
    isDirectory f.dirent = true ∧ IsChain v d f.dirent.startCluster l ∧ l ≠ []

variable (v) in
/-- The slots of the directory. -/
def directorySlots (f : Fat16File) (l : List Nat) : List Nat :=
  if f.dirent.startCluster = clusRoot then rootSlots v else chainSlots v l

variable (v) in
/-- The slots among which the driver finds a free one and writes back to its place: those in the
full blocks of the root directory, and those before the last cluster of a subdirectory. -/
def searchedSlots (f : Fat16File) (l : List Nat) : List Nat :=
  if f.dirent.startCluster = clusRoot then
    sectorSlots v.rootDirStart (v.sb.sectorsPerCluster * (v.rootSectors / v.sb.sectorsPerCluster))
  else chainSlots v l.dropLast

variable (v) in
/-- The clusters that a creation in the directory takes are free. -/
def HasRoom (d : Disk) (f : Fat16File) (l : List Nat) : Prop :=
  (freeClusters v d).Nonempty ∧ (f.dirent.startCluster ≠ clusRoot →
    firstFree d (searchedSlots v f l) = none → 2 ≤ (freeClusters v d).card)

variable (v) in
/-- A slot behind the FAT and outside of the clusters that are free. -/
structure InUse (d : Disk) (b : Nat) : Prop where
  dvd : direntSize ∣ b
  root_le : sectorSize * v.rootDirStart ≤ b
  outside : ∀ y ∈ freeClusters v d, b + direntSize ≤ clusterAddr v y ∨ clusterAddr v y + v.clusterBytes ≤ b

section Slots

variable (hg : Geometry v) {a b c x y pc last : Nat}
include hg

theorem inUse_rootSlots (hb : b ∈ rootSlots v) : InUse v d b := by
  obtain ⟨i, hi, rfl⟩ := mem_sectorSlots.mp hb
  have hdata := hg.root_le_data
  refine ⟨?_, Nat.le_add_right _ _, fun y hy => Or.inl ?_⟩
  · exact dvd_add (dvd_mul_of_dvd_left (by decide) _) (dvd_mul_right _ _)
  · have := le_clusterAddr (v := v) y
    unfold sectorSize direntSize at *
    omega

theorem inUse_clusterSlots (hc : InRange v c) (hused : fatEntry v d c ≠ 0) (hb : b ∈ clusterSlots v c) :
    InUse v d b := by
  obtain ⟨i, hi, rfl⟩ := mem_clusterSlots.mp hb
  have hslot := hg.slot_le hi
  refine ⟨?_, (hg.root_le_clusterAddr c).trans (Nat.le_add_right _ _), fun y hy => ?_⟩
  · have hsector : direntSize ∣ sectorSize := by decide
    exact dvd_add (dvd_mul_of_dvd_left hsector _) (dvd_mul_right _ _)
  · obtain ⟨hyr, hyz⟩ := mem_freeClusters.mp hy
    have hne : c ≠ y := by
      rintro rfl
      exact hused hyz
    have := hg.clusterAddr_apart (by have := hc.1; omega) (by have := hyr.1; omega) hne
    omega

theorem IsChain.inUse {s : Nat} (h : IsChain v d s l) (hb : b ∈ chainSlots v l) : InUse v d b := by
  obtain ⟨c, hc, hmem⟩ := mem_chainSlots.mp hb
  exact inUse_clusterSlots hg (h.inRange c hc) (h.fatEntry_ne_zero hc) hmem

theorem OnDirectory.inUse (h : OnDirectory v d f l) (hb : b ∈ directorySlots v f l) : InUse v d b := by
  unfold directorySlots at hb
  split at hb
  next => exact inUse_rootSlots hg hb
  next hne =>
    obtain ⟨-, hchain, -⟩ := h.resolve_left hne
    exact hchain.inUse hg hb

/-- What a new entry changes in the slots of directories. -/
theorem readEnt_entered (ha : direntSize ∣ a) (hb : direntSize ∣ b) (hroot : sectorSize * v.rootDirStart ≤ b)
    (hyr : InRange v y) (hout : b + direntSize ≤ clusterAddr v y ∨ clusterAddr v y + v.clusterBytes ≤ b) :
    readEnt (entered v d name dir a y pc) b = if b = a then newDirent name dir y else readEnt d b :=
  readEnt_newEntry hg ha hb hroot hyr hout fun _ hi => newDirent_of_le hi

theorem InUse.readEnt_entered (h : InUse v d b) (ha : direntSize ∣ a) (hy : y ∈ freeClusters v d) :
    readEnt (entered v d name dir a y pc) b = if b = a then newDirent name dir y else readEnt d b :=
  TsOs.Fat.readEnt_entered hg ha h.dvd h.root_le (mem_freeClusters.mp hy).1 (h.outside y hy)

/-- A new cluster of the directory changes no slot in use. -/
theorem InUse.readEnt_grown (h : InUse v d b) (hx : x ∈ freeClusters v d) (hlast : last < 256 * v.sb.sectorsFat) :
    readEnt (grown v d last x) b = readEnt d b := by
  have hxr := (mem_freeClusters.mp hx).1
  have hout := h.outside x hx
  have hroot := h.root_le
  refine readEnt_congr fun z hz hz' => ?_
  rw [grown, setCluster, setBlock_of_outside _ (by omega), linked, hg.setFat_of_le hxr.2.2 (by omega),
    hg.setFat_of_le hlast (by omega)]

/-- What a new entry changes in the FAT. -/
theorem fatEntry_entered (hc : c < 256 * v.sb.sectorsFat) (ha : sectorSize * v.rootDirStart ≤ a) :
    fatEntry v (entered v d name dir a y pc) c = if c = y then 0xFFFF else fatEntry v d c :=
  fatEntry_newEntry hg hc ha

/-- A new entry leaves a chain alone. -/
theorem IsChain.entered {s : Nat} (h : IsChain v d s l) (hy : fatEntry v d y = 0)
    (ha : sectorSize * v.rootDirStart ≤ a) : IsChain v (entered v d name dir a y pc) s l := by
  refine h.congr fun z hz => ?_
  have hne : z ≠ y := by
    rintro rfl
    exact h.fatEntry_ne_zero hz hy
  rw [fatEntry_entered hg (h.inRange z hz).2.2 ha, if_neg hne]

/-- Clearing the new cluster does not touch the FAT. -/
theorem fatEntry_grown (hc : c < 256 * v.sb.sectorsFat) :
    fatEntry v (grown v d last x) c = fatEntry v (linked v d last x) c := by
  have hroot := hg.root_le_clusterAddr x
  refine hg.fatEntry_congr hc fun b hb => ?_
  rw [grown, setCluster, setBlock_of_outside _ (Or.inl (by omega))]

/-- The other free clusters stay free. -/
theorem fatEntry_grown_of_free (hlast : fatEntry v d last ≠ 0) (hy : y ∈ freeClusters v d) (hne : y ≠ x) :
    fatEntry v (grown v d last x) y = 0 := by
  obtain ⟨hyr, hyz⟩ := mem_freeClusters.mp hy
  have hylast : y ≠ last := by
    rintro rfl
    exact hlast hyz
  rw [fatEntry_grown hg hyr.2.2, linked, fatEntry_setFat_of_ne hne, fatEntry_setFat_of_ne hylast, hyz]

/-- A chain with a new cluster. -/
theorem IsChain.grown {s : Nat} (h : IsChain v d s (l ++ [last])) (hx : x ∈ freeClusters v d) :
    IsChain v (grown v d last x) s (l ++ [last, x]) := by
  have hlink := (Extends.link h hx).chain
  exact hlink.congr fun z hz => fatEntry_grown hg (hlink.inRange z hz).2.2

/-- A chain with a new cluster that has the new entry. -/
theorem IsChain.grown_entered {s : Nat} (h : IsChain v d s (l ++ [last])) (hx : x ∈ freeClusters v d)
    (hy : y ∈ freeClusters v d) (hne : y ≠ x) :
    IsChain v (Fat.entered v (Fat.grown v d last x) name dir (clusterAddr v x) y pc) s (l ++ [last] ++ [x]) := by
  rw [List.append_assoc]
  refine (h.grown hg hx).entered hg ?_ (hg.root_le_clusterAddr x)
  exact fatEntry_grown_of_free hg (h.fatEntry_ne_zero (by simp)) hy hne

end Slots

/-! ## What a creation does -/

variable (v) in
/-- The cluster that the driver takes for the parent of an entry in slot `a`. -/
def linkTarget (path : List UInt8) (f : Fat16File) (a : Nat) : Nat :=
  if f.dirent.startCluster = clusRoot then
    if a < sectorSize * (v.rootDirStart + v.sb.sectorsPerCluster) ∨ path = [slash] then 0 else 0xFF
  else clusterOf v a

section Creations

variable (hg : Geometry v) (hspc : v.sb.sectorsPerCluster ≤ 128) {fuel : Nat} (hfuel : 2 ^ 16 ≤ fuel)
  {path : List UInt8} (hopen : (fatOpenExisting v fuel path Flags.none d).1 = .ok (some f))
include hg hfuel hopen

include hspc in
/-- With a free slot among those that are searched, the new entry goes there. -/
theorem fatCreateFile_slot {a : Nat} (hdir : OnDirectory v d f l) (hroom : HasRoom v d f l)
    (ha : firstFree d (searchedSlots v f l) = some a) (name : List UInt8) (dir : Bool) :
    ∃ y ∈ freeClusters v d, fatCreateFile v fuel f name dir d =
      (.ok (), entered v d name dir a y (linkTarget v path f a)) := by
  unfold searchedSlots at ha
  unfold linkTarget
  by_cases hroot : f.dirent.startCluster = clusRoot
  · rw [if_pos hroot] at ha
    rw [if_pos hroot]
    obtain ⟨hat, hcur⟩ := fatOpenExisting_rootBlock hg hopen hroot
    obtain ⟨y, hy, -, hfree⟩ := fatGetFreeCluster_run hg hroom.1
    have hm := Nat.mul_div_le v.rootSectors v.sb.sectorsPerCluster
    have hdata := hg.root_le_data
    have hlt := hg.dataStart_lt
    have hle : v.rootSectors / v.sb.sectorsPerCluster ≤ v.rootSectors := Nat.div_le_self _ _
    refine ⟨y, hy, ?_⟩
    rw [hat.fatCreateFile_slot hg.anyRoot hm (by omega) hfree (mem_freeClusters.mp hy).1 ha, hcur]
    by_cases hfirst : a < sectorSize * (v.rootDirStart + v.sb.sectorsPerCluster)
    · rw [if_pos hfirst, if_pos (Or.inl hfirst)]
    · rw [if_neg hfirst]
      by_cases hpath : path = [slash]
      · rw [if_pos hpath, if_pos (Or.inr hpath)]
      · rw [if_neg hpath, if_neg (by simp [hfirst, hpath])]
  · rw [if_neg hroot] at ha
    rw [if_neg hroot]
    obtain ⟨hisDir, hchain, hne⟩ := hdir.resolve_left hroot
    obtain ⟨c, l, rfl⟩ := List.exists_cons_of_ne_nil hne
    obtain ⟨hat, hc⟩ := fatOpenExisting_atBlock hg hspc hopen hisDir hchain
    have hlen := hchain.length_le
    rw [List.length_cons] at hlen
    exact hat.fatCreateFile_slot hg hc (by omega) hroom.1 ha

include hspc in
/-- Without one a subdirectory grows by a cluster, which takes the new entry. -/
theorem fatCreateFile_grows (hdir : OnDirectory v d f l) (hroom : HasRoom v d f l)
    (hsub : f.dirent.startCluster ≠ clusRoot) (hnone : firstFree d (searchedSlots v f l) = none)
    (name : List UInt8) (dir : Bool) :
    ∃ l₀ last, l = l₀ ++ [last] ∧ ∃ x ∈ freeClusters v d, ∃ y ∈ freeClusters v d, y ≠ x ∧
      fatCreateFile v fuel f name dir d =
        (.ok (), entered v (grown v d last x) name dir (clusterAddr v x) y x) := by
  have hcard := hroom.2 hsub hnone
  unfold searchedSlots at hnone
  rw [if_neg hsub] at hnone
  obtain ⟨hisDir, hchain, hne⟩ := hdir.resolve_left hsub
  obtain ⟨c, l, rfl⟩ := List.exists_cons_of_ne_nil hne
  obtain ⟨hat, hc⟩ := fatOpenExisting_atBlock hg hspc hopen hisDir hchain
  have hlen := hchain.length_le
  rw [List.length_cons] at hlen
  exact ⟨_, _, (List.dropLast_append_getLast _).symm,
    hat.fatCreateFile_grows hg hc (by omega) hcard hnone⟩

omit hfuel in
/-- A creation in a root directory without a free slot does not return. -/
theorem fatCreateFile_hang (hroot : f.dirent.startCluster = clusRoot)
    (hle : v.sb.sectorsPerCluster ≤ v.rootSectors) (hnone : firstFree d (rootSlots v) = none)
    (name : List UInt8) (dir : Bool) : fatCreateFile v fuel f name dir d = (.error .hang, d) :=
  (fatOpenExisting_rootBlock hg hopen hroot).1.fatCreateFile_hang hg.anyRoot hle hnone

end Creations

/-! ## Entries in use -/

/-- The first byte of the name marks the slot as one that was never used, or as deleted. -/
def Unused (e : DirEnt) : Prop := e 0 = 0 ∨ e 0 = deletedMark

instance (e : DirEnt) : Decidable (Unused e) := inferInstanceAs (Decidable (_ ∨ _))

/-- At most one of the slots has changed, and it was not in use and has the new entry. -/
structure Spares (d d' : Disk) (A : List Nat) (name : List UInt8) (dir : Bool) : Prop where
  unused : ∀ a ∈ A, readEnt d' a ≠ readEnt d a → Unused (readEnt d a) ∧ ∃ y, readEnt d' a = newDirent name dir y
  one : ∀ a ∈ A, ∀ b ∈ A, readEnt d' a ≠ readEnt d a → readEnt d' b ≠ readEnt d b → a = b

variable (v) in
/-- The first of the slots that are searched and that the driver takes for free is not in use. In a root
directory where there is none, there is none behind the full blocks either. -/
def TakesUnused (d : Disk) (f : Fat16File) (l : List Nat) : Prop :=
  (∀ a, firstFree d (searchedSlots v f l) = some a → Unused (readEnt d a)) ∧
    (f.dirent.startCluster = clusRoot → firstFree d (searchedSlots v f l) = none →
      v.sb.sectorsPerCluster ≤ v.rootSectors ∧ firstFree d (rootSlots v) = none)

theorem Spares.refl (d : Disk) (A : List Nat) (name : List UInt8) (dir : Bool) : Spares d d A name dir :=
  ⟨fun _ _ hne => absurd rfl hne, fun _ _ _ _ hne => absurd rfl hne⟩

theorem searchedSlots_subset (f : Fat16File) (l : List Nat) :
    searchedSlots v f l ⊆ directorySlots v f l := by
  intro a ha
  unfold searchedSlots at ha
  unfold directorySlots
  split at ha
  next hroot =>
    rw [if_pos hroot]
    obtain ⟨i, hi, rfl⟩ := mem_sectorSlots.mp ha
    have hle := Nat.mul_div_le v.rootSectors v.sb.sectorsPerCluster
    exact mem_sectorSlots.mpr ⟨i, by omega, rfl⟩
  next hroot =>
    rw [if_neg hroot]
    obtain ⟨c, hc, hmem⟩ := mem_chainSlots.mp ha
    exact mem_chainSlots.mpr ⟨c, List.dropLast_subset _ hc, hmem⟩

section Changes

variable (hg : Geometry v) (hdir : OnDirectory v d f l) {a x y pc last : Nat}
include hg hdir

/-- The slots of the directory after a new entry has been put into one of them. -/
theorem OnDirectory.readEnt_slot (ha : a ∈ directorySlots v f l) (hy : y ∈ freeClusters v d) :
    ∀ b ∈ directorySlots v f l, readEnt (entered v d name dir a y pc) b =
      if b = a then newDirent name dir y else readEnt d b := fun _ hb =>
  (hdir.inUse hg hb).readEnt_entered hg (hdir.inUse hg ha).dvd hy

/-- The slots of the directory after a new entry has been put into a new cluster. -/
theorem OnDirectory.readEnt_grows (hlast : last < 256 * v.sb.sectorsFat) (hx : x ∈ freeClusters v d)
    (hy : y ∈ freeClusters v d) :
    ∀ b ∈ directorySlots v f l,
      readEnt (entered v (grown v d last x) name dir (clusterAddr v x) y pc) b = readEnt d b := by
  intro b hb
  have huse := hdir.inUse hg hb
  have hout := huse.outside x hx
  have hcb := hg.le_clusterBytes
  have hdvd : direntSize ∣ clusterAddr v x := dvd_mul_of_dvd_left (by decide) _
  have hbx : b ≠ clusterAddr v x := by
    unfold direntSize at hout
    omega
  rw [readEnt_entered hg hdvd huse.dvd huse.root_le (mem_freeClusters.mp hy).1 (huse.outside y hy),
    if_neg hbx, huse.readEnt_grown hg hx hlast]

end Changes

/-- The new entry differs from what the slot had. -/
theorem newDirent_ne {a y : Nat} (hfree : isFreeSlot (readEnt d a) = true) (hy : InRange v y) :
    newDirent name dir y ≠ readEnt d a := by
  intro heq
  have hstart := congrArg DirEnt.startCluster heq
  rw [startCluster_newDirent (by have := hy.2.1; omega), isFreeSlot_startCluster hfree] at hstart
  have := hy.1
  omega

/-- A creation spares the entries in use when the slot it takes is not in use; in a subdirectory, and
in a root directory that consists of full blocks, only then. -/
theorem fatCreateFile_spares (hg : Geometry v) (hspc : v.sb.sectorsPerCluster ≤ 128) {fuel : Nat}
    (hfuel : 2 ^ 16 ≤ fuel) {path : List UInt8}
    (hopen : (fatOpenExisting v fuel path Flags.none d).1 = .ok (some f)) (hdir : OnDirectory v d f l)
    (hroom : HasRoom v d f l) (name : List UInt8) (dir : Bool) :
    (TakesUnused v d f l →
      Spares d (fatCreateFile v fuel f name dir d).2 (directorySlots v f l) name dir) ∧
    ((f.dirent.startCluster = clusRoot → 0 < v.rootSectors ∧ v.sb.sectorsPerCluster ∣ v.rootSectors) →
      Spares d (fatCreateFile v fuel f name dir d).2 (directorySlots v f l) name dir →
      TakesUnused v d f l) := by
  cases ha : firstFree d (searchedSlots v f l) with
  | some a =>
      obtain ⟨hmem, hfree⟩ := firstFree_eq_some ha
      have hmem' := searchedSlots_subset f l hmem
      obtain ⟨y, hy, hrun⟩ := fatCreateFile_slot hg hspc hfuel hopen hdir hroom ha name dir
      have hent : ∀ b ∈ directorySlots v f l, readEnt (fatCreateFile v fuel f name dir d).2 b =
          if b = a then newDirent name dir y else readEnt d b := by
        rw [hrun]
        exact hdir.readEnt_slot hg hmem' hy
      have honly : ∀ b ∈ directorySlots v f l,
          readEnt (fatCreateFile v fuel f name dir d).2 b ≠ readEnt d b → b = a := by
        intro b hb hne
        by_contra hba
        rw [hent b hb, if_neg hba] at hne
        exact hne rfl
      constructor
      · intro htakes
        refine ⟨fun b hb hne => ?_, fun b hb b' hb' hne hne' => ?_⟩
        · obtain rfl := honly b hb hne
          refine ⟨htakes.1 b ha, y, ?_⟩
          rw [hent b hb, if_pos rfl]
        · rw [honly b hb hne, honly b' hb' hne']
      · intro _ hspares
        constructor
        · intro a' ha'
          obtain rfl := Option.some.inj (ha.symm.trans ha')
          refine (hspares.unused a hmem' ?_).1
          rw [hent a hmem', if_pos rfl]
          exact newDirent_ne hfree (mem_freeClusters.mp hy).1
        · intro _ hnone
          exact absurd (ha.symm.trans hnone) (by simp)
  | none =>
      by_cases hroot : f.dirent.startCluster = clusRoot
      · constructor
        · intro htakes
          obtain ⟨hle, hnone⟩ := htakes.2 hroot ha
          rw [fatCreateFile_hang hg hopen hroot hle hnone]
          exact Spares.refl d _ name dir
        · intro hfull _
          obtain ⟨hpos, hdvd⟩ := hfull hroot
          refine ⟨fun a' ha' => absurd (ha.symm.trans ha') (by simp), fun _ _ => ?_⟩
          rw [searchedSlots, if_pos hroot, Nat.mul_div_cancel' hdvd] at ha
          exact ⟨Nat.le_of_dvd hpos hdvd, ha⟩
      · obtain ⟨l₀, last, rfl, x, hx, y, hy, hne, hrun⟩ :=
          fatCreateFile_grows hg hspc hfuel hopen hdir hroom hroot ha name dir
        obtain ⟨-, hchain, -⟩ := hdir.resolve_left hroot
        have hlast := hchain.inRange last (by simp)
        have hsame : ∀ b ∈ directorySlots v f (l₀ ++ [last]),
            readEnt (fatCreateFile v fuel f name dir d).2 b = readEnt d b := by
          rw [hrun]
          exact hdir.readEnt_grows hg hlast.2.2 hx hy
        constructor
        · intro _
          exact ⟨fun b hb hne => absurd (hsame b hb) hne, fun b hb _ _ hne => absurd (hsame b hb) hne⟩
        · intro _ _
          exact ⟨fun a' ha' => absurd (ha.symm.trans ha') (by simp), fun hroot' => absurd hroot' hroot⟩

/-- A root directory with two entries. The new one goes behind them. -/
theorem fatCreateFile_spares_sample :
    (fatOpenExisting smallVolume (2 ^ 16) [slash] Flags.none (deletedSlotDisk 5)).1 =
      .ok (some (openedRoot Flags.none)) ∧
    Spares (deletedSlotDisk 5)
      (fatCreateFile smallVolume (2 ^ 16) (openedRoot Flags.none) [71] false (deletedSlotDisk 5)).2
      (directorySlots smallVolume (openedRoot Flags.none) []) [71] false := by
  have hopen : (fatOpenExisting smallVolume (2 ^ 16) [slash] Flags.none (deletedSlotDisk 5)).1 =
      .ok (some (openedRoot Flags.none)) := by
    rw [fatOpenExisting_root smallVolume _ _ rfl]
  have hroom : HasRoom smallVolume (deletedSlotDisk 5) (openedRoot Flags.none) [] :=
    ⟨⟨5, mem_freeClusters.mpr ⟨by decide, by decide⟩⟩, fun hne => absurd rfl hne⟩
  have hfirst : firstFree (deletedSlotDisk 5) (searchedSlots smallVolume (openedRoot Flags.none) []) =
      some 1088 := by decide
  have htakes : TakesUnused smallVolume (deletedSlotDisk 5) (openedRoot Flags.none) [] := by
    refine ⟨fun a ha => ?_, fun _ hnone => absurd (hfirst.symm.trans hnone) (by simp)⟩
    obtain rfl := Option.some.inj (hfirst.symm.trans ha)
    exact Or.inl (by decide)
  exact ⟨hopen, (fatCreateFile_spares smallVolume_geometry (by decide) (le_refl _) hopen (Or.inl rfl)
    hroom [71] false).1 htakes⟩

/-- The root directory has the empty file `F`, which has no cluster. -/
def emptyFileDisk : Disk := writeEnt (fun _ => 0) 1024 (mkEnt [70] 0 0 0)

/-- The entry of an empty file gives way to the new entry. -/
theorem fatCreateFile_overwrites :
    (fatOpenExisting smallVolume (2 ^ 16) [slash] Flags.none emptyFileDisk).1 =
      .ok (some (openedRoot Flags.none)) ∧
    OnDirectory smallVolume emptyFileDisk (openedRoot Flags.none) [] ∧
    HasRoom smallVolume emptyFileDisk (openedRoot Flags.none) [] ∧
    ¬Spares emptyFileDisk
      (fatCreateFile smallVolume (2 ^ 16) (openedRoot Flags.none) [71] false emptyFileDisk).2
      (directorySlots smallVolume (openedRoot Flags.none) []) [71] false := by
  have hopen : (fatOpenExisting smallVolume (2 ^ 16) [slash] Flags.none emptyFileDisk).1 =
      .ok (some (openedRoot Flags.none)) := by
    rw [fatOpenExisting_root smallVolume _ _ rfl]
  have hdir : OnDirectory smallVolume emptyFileDisk (openedRoot Flags.none) [] := Or.inl rfl
  have hroom : HasRoom smallVolume emptyFileDisk (openedRoot Flags.none) [] :=
    ⟨⟨3, mem_freeClusters.mpr ⟨by decide, by decide⟩⟩, fun hne => absurd rfl hne⟩
  have hfirst : firstFree emptyFileDisk (searchedSlots smallVolume (openedRoot Flags.none) []) =
      some 1024 := by decide
  have hmem : 1024 ∈ directorySlots smallVolume (openedRoot Flags.none) [] := by decide
  obtain ⟨y, hy, hrun⟩ := fatCreateFile_slot smallVolume_geometry (by decide) (le_refl _) hopen hdir hroom
    hfirst [71] false
  refine ⟨hopen, hdir, hroom, fun hspares => ?_⟩
  rw [hrun] at hspares
  have hchanged : readEnt (entered smallVolume emptyFileDisk [71] false 1024 y
      (linkTarget smallVolume [slash] (openedRoot Flags.none) 1024)) 1024 ≠ readEnt emptyFileDisk 1024 := by
    rw [hdir.readEnt_slot smallVolume_geometry hmem hy 1024 hmem, if_pos rfl]
    exact newDirent_ne (firstFree_eq_some hfirst).2 (mem_freeClusters.mp hy).1
  exact absurd (hspares.unused 1024 hmem hchanged).1 (by decide)

/-! ## Directories that grow -/

variable (v) in
/-- The directory has a cluster more afterwards exactly when it had no free slot, and otherwise its
first free slot has the new entry. -/
structure GrowsWhenFull (d d' : Disk) (s : Nat) (l : List Nat) (name : List UInt8) (dir : Bool) : Prop where
  grows : (∃ x, IsChain v d' s (l ++ [x])) ↔ firstFree d (chainSlots v l) = none
  first : ∀ a, firstFree d (chainSlots v l) = some a → IsChain v d' s l ∧
    ∃ y, ∀ b ∈ chainSlots v l, readEnt d' b = if b = a then newDirent name dir y else readEnt d b

/-- A subdirectory grows only when it is full, exactly when the clusters before the last one have a free
slot or the last one has none. -/
theorem fatCreateFile_grows_iff (hg : Geometry v) (hspc : v.sb.sectorsPerCluster ≤ 128) {fuel last : Nat}
    (hfuel : 2 ^ 16 ≤ fuel) {path : List UInt8}
    (hopen : (fatOpenExisting v fuel path Flags.none d).1 = .ok (some f))
    (hisDir : isDirectory f.dirent = true) (hchain : IsChain v d f.dirent.startCluster (l ++ [last]))
    (hroom : HasRoom v d f (l ++ [last])) (name : List UInt8) (dir : Bool) :
    GrowsWhenFull v d (fatCreateFile v fuel f name dir d).2 f.dirent.startCluster (l ++ [last]) name dir ↔
      firstFree d (chainSlots v l) ≠ none ∨ firstFree d (clusterSlots v last) = none := by
  have hsub : f.dirent.startCluster ≠ clusRoot := hchain.start_ne_zero
  have hdir : OnDirectory v d f (l ++ [last]) := Or.inr ⟨hisDir, hchain, by simp⟩
  have hslots : directorySlots v f (l ++ [last]) = chainSlots v (l ++ [last]) := if_neg hsub
  have hsearched : searchedSlots v f (l ++ [last]) = chainSlots v l := by
    rw [searchedSlots, if_neg hsub, List.dropLast_concat]
  have hall : firstFree d (chainSlots v (l ++ [last])) =
      (firstFree d (chainSlots v l)).or (firstFree d (clusterSlots v last)) := by
    rw [chainSlots_append, firstFree_append]
    congr 1
    simp [chainSlots]
  cases ha : firstFree d (chainSlots v l) with
  | some a =>
      rw [ha, Option.some_or] at hall
      obtain ⟨y, hy, hrun⟩ := fatCreateFile_slot hg hspc hfuel hopen hdir hroom (hsearched ▸ ha) name dir
      have hmem : a ∈ directorySlots v f (l ++ [last]) := by
        rw [hslots]
        exact (firstFree_eq_some hall).1
      have hkept : IsChain v (entered v d name dir a y (linkTarget v path f a)) f.dirent.startCluster
          (l ++ [last]) := hchain.entered hg (mem_freeClusters.mp hy).2 (hdir.inUse hg hmem).root_le
      rw [hrun]
      refine ⟨fun _ => Or.inl (by simp), fun _ => ⟨?_, fun a' ha' => ⟨hkept, y, ?_⟩⟩⟩
      · rw [hall]
        refine ⟨fun hlonger => ?_, fun hnone => absurd hnone (by simp)⟩
        obtain ⟨x, hx⟩ := hlonger
        have hlen := congrArg List.length (hkept.unique hx)
        simp at hlen
      · obtain rfl := Option.some.inj (hall.symm.trans ha')
        rw [← hslots]
        exact hdir.readEnt_slot hg hmem hy
  | none =>
      rw [ha, Option.none_or] at hall
      obtain ⟨l₀, last', hl, x, hx, y, hy, hne, hrun⟩ :=
        fatCreateFile_grows hg hspc hfuel hopen hdir hroom hsub (hsearched ▸ ha) name dir
      obtain ⟨rfl, rfl⟩ : l = l₀ ∧ last = last' := by simpa using hl
      have hgrown : IsChain v (entered v (grown v d last x) name dir (clusterAddr v x) y x)
          f.dirent.startCluster (l ++ [last] ++ [x]) := hchain.grown_entered hg hx hy hne
      rw [hrun]
      constructor
      · intro hgw
        rw [← hall]
        exact Or.inr (hgw.grows.mp ⟨x, hgrown⟩)
      · intro hcond
        have hfull : firstFree d (clusterSlots v last) = none :=
          hcond.resolve_left fun hsome => hsome rfl
        rw [hfull] at hall
        exact ⟨⟨fun _ => hall, fun _ => ⟨x, hgrown⟩⟩,
          fun a' ha' => absurd (hall.symm.trans ha') (by simp)⟩

/-- The root directory has the directory `P` with the given clusters, the first of which is 3, and `P` has
nothing but its links. -/
def dirDisk (l : List Nat) : Disk :=
  let d := writeEnt (fun _ => 0) 1024 (mkEnt [80] entAttrDir 3 0)
  let d := (l.zip (l.tail ++ [0xFFFF])).foldl (fun d p => setFat smallVolume d p.1 p.2) d
  writeEnt (writeEnt d 2048 (mkEnt [46] entAttrDir 3 0)) 2080 (mkEnt [46, 46] entAttrDir 0 0)

theorem dirDisk_opened {l : List Nat} (h : foundWith (headsAt true 3)
      (fatOpenExisting smallVolume (2 ^ 16) [47, 80] Flags.none (dirDisk l)).1 = true) :
    ∃ f, (fatOpenExisting smallVolume (2 ^ 16) [47, 80] Flags.none (dirDisk l)).1 = .ok (some f) ∧
      isDirectory f.dirent = true ∧ f.dirent.startCluster = 3 := by
  obtain ⟨f, hopen, htest⟩ := exists_found h
  rw [headsAt, Bool.and_eq_true, beq_iff_eq, beq_iff_eq] at htest
  exact ⟨f, hopen, htest.1, htest.2⟩

theorem dirDisk_room {l : List Nat} (h5 : fatEntry smallVolume (dirDisk l) 5 = 0)
    (h6 : fatEntry smallVolume (dirDisk l) 6 = 0) (f : Fat16File) : HasRoom smallVolume (dirDisk l) f l := by
  have h5' : 5 ∈ freeClusters smallVolume (dirDisk l) := mem_freeClusters.mpr ⟨by decide, h5⟩
  have h6' : 6 ∈ freeClusters smallVolume (dirDisk l) := mem_freeClusters.mpr ⟨by decide, h6⟩
  exact ⟨⟨5, h5'⟩, fun _ _ => Finset.one_lt_card.mpr ⟨5, h5', 6, h6', by decide⟩⟩

theorem dirDisk_pair_chain : IsChain smallVolume (dirDisk [3, 4]) 3 ([3] ++ [4]) := by
  have hnext : fatEntry smallVolume (dirDisk [3, 4]) 3 = 4 := by decide
  have hend : fatEntry smallVolume (dirDisk [3, 4]) 4 = 0xFFFF := by decide
  refine ⟨fun x hx => ?_, 0xFFFF, rfl, rfl, hnext, hend⟩
  obtain rfl | rfl : x = 3 ∨ x = 4 := by simpa using hx
  · decide
  · decide

theorem fatCreateFile_grows_sample : ∃ f,
    (fatOpenExisting smallVolume (2 ^ 16) [47, 80] Flags.none (dirDisk [3, 4])).1 = .ok (some f) ∧
    (GrowsWhenFull smallVolume (dirDisk [3, 4])
        (fatCreateFile smallVolume (2 ^ 16) f [71] false (dirDisk [3, 4])).2 f.dirent.startCluster
        ([3] ++ [4]) [71] false ↔
      firstFree (dirDisk [3, 4]) (chainSlots smallVolume [3]) ≠ none ∨
        firstFree (dirDisk [3, 4]) (clusterSlots smallVolume 4) = none) := by
  obtain ⟨f, hopen, hdir, hstart⟩ := dirDisk_opened (l := [3, 4]) (by decide)
  have hchain : IsChain smallVolume (dirDisk [3, 4]) f.dirent.startCluster ([3] ++ [4]) := by
    rw [hstart]
    exact dirDisk_pair_chain
  have hroom := dirDisk_room (l := [3, 4]) (by decide) (by decide) f
  exact ⟨f, hopen, fatCreateFile_grows_iff smallVolume_geometry (by decide) (le_refl _) hopen hdir hchain
    hroom [71] false⟩

theorem eq_nil_of_concat {c last : Nat} {l₀ : List Nat} (h : [c] = l₀ ++ [last]) : l₀ = [] ∧ last = c := by
  cases l₀ with
  | nil => exact ⟨rfl, (List.singleton_inj.mp h).symm⟩
  | cons z l₀ => exact absurd (congrArg List.length h) (by simp)

/-- A directory of one cluster with two links gets a second cluster for its third entry. -/
theorem fatCreateFile_grows_early : ∃ f,
    (fatOpenExisting smallVolume (2 ^ 16) [47, 80] Flags.none (dirDisk [3])).1 = .ok (some f) ∧
    isDirectory f.dirent = true ∧ IsChain smallVolume (dirDisk [3]) f.dirent.startCluster [3] ∧
    HasRoom smallVolume (dirDisk [3]) f [3] ∧
    ¬GrowsWhenFull smallVolume (dirDisk [3])
      (fatCreateFile smallVolume (2 ^ 16) f [71] false (dirDisk [3])).2 f.dirent.startCluster [3] [71] false := by
  obtain ⟨f, hopen, hdir, hstart⟩ := dirDisk_opened (l := [3]) (by decide)
  have hchain : IsChain smallVolume (dirDisk [3]) f.dirent.startCluster ([] ++ [3]) := by
    rw [hstart]
    exact chain_singleton (by decide) (by decide)
  have hroom := dirDisk_room (l := [3]) (by decide) (by decide) f
  have hsub : f.dirent.startCluster ≠ clusRoot := hchain.start_ne_zero
  have hnone : firstFree (dirDisk [3]) (searchedSlots smallVolume f [3]) = none := by
    rw [searchedSlots, if_neg hsub]
    rfl
  obtain ⟨l₀, last, hl, x, hx, y, hy, hne, hrun⟩ := fatCreateFile_grows smallVolume_geometry (by decide)
    (le_refl _) hopen (Or.inr ⟨hdir, hchain, by simp⟩) hroom hsub hnone [71] false
  obtain ⟨rfl, rfl⟩ := eq_nil_of_concat hl
  refine ⟨f, hopen, hdir, hchain, hroom, fun hgrows => ?_⟩
  rw [hrun] at hgrows
  have hfull := hgrows.grows.mp ⟨x, hchain.grown_entered smallVolume_geometry hx hy hne⟩
  exact absurd hfull (by decide)

end TsOs.Fat
