import TsOs.Fat.Placement

/-!
# Searches along the FAT

A search visits the clusters that the FAT links until it finds the name or arrives at a
number that is no cluster. Since no cluster is visited twice on the way, it ends within as
many steps as there are clusters, or never. Linking one more cluster behind a chain does
not change any result as long as that cluster has no entries.
-/

namespace TsOs.Fat
open ByteMemory LinkPath

variable {v : Fat16Volume} {d d' : Disk} {f file : Fat16File} {key : Mem} {c n : Nat}

/-! ## Searches that end -/

variable (v) in
/-- The search for a key ends at the cluster. -/
def EndsSearch (d : Disk) (key : Mem) (c : Nat) : Prop :=
  clusNormal c = true → (searchNameInBlock (clusterBlock v d c) v.clusterBytes key).isSome

variable (v) in
/-- The result of a search that ends at the cluster. -/
def searchResult (d : Disk) (file : Fat16File) (key : Mem) (c : Nat) : Option Fat16File :=
  if clusNormal c then
    (searchNameInBlock (clusterBlock v d c) v.clusterBytes key).map fun i =>
      let dirent := readEnt (clusterBlock v d c) (direntSize * i)
      { file with dirent := dirent, direntCluster := c, currentCluster := dirent.startCluster }
  else none

section Searches

variable (hg : Geometry v)
include hg

/-- The search at a cluster where it ends. -/
theorem searchFileLoop_ends (hc : EndsSearch v d key c) :
    searchFileLoop v file key (n + 1) c d = (.ok (searchResult v d file key c), d) := by
  unfold searchResult
  rw [searchFileLoop]
  by_cases hnormal : clusNormal c = true
  · rw [if_pos hnormal, if_pos hnormal, FatM.bind_ok (fatReadCluster_run hg d hnormal)]
    dsimp only
    rw [if_neg (Nat.pos_iff_ne_zero.mp hg.sectorsPerCluster_pos)]
    obtain ⟨i, hi⟩ := Option.isSome_iff_exists.mp (hc hnormal)
    rw [hi]
    rfl
  · rw [if_neg hnormal, if_neg hnormal]
    rfl

/-- The search at a cluster where it goes on. -/
theorem searchFileLoop_passes (hc : ¬EndsSearch v d key c) :
    searchFileLoop v file key (n + 1) c d = searchFileLoop v file key n (nextCluster v d c) d := by
  obtain ⟨hnormal, hnone⟩ := Classical.not_imp.mp hc
  rw [Option.not_isSome_iff_eq_none] at hnone
  rw [searchFileLoop, if_pos hnormal, FatM.bind_ok (fatReadCluster_run hg d hnormal)]
  dsimp only
  rw [if_neg (Nat.pos_iff_ne_zero.mp hg.sectorsPerCluster_pos), hnone]
  dsimp only
  rw [FatM.bind_ok (fatGetNextCluster_eq hg d c)]

theorem searchFileLoop_path {l : List Nat} {e : Nat} (hpath : Path (nextCluster v d) c l e)
    (hl : ∀ x ∈ l, ¬EndsSearch v d key x) (he : EndsSearch v d key e) (hn : l.length < n) :
    searchFileLoop v file key n c d = (.ok (searchResult v d file key e), d) := by
  induction l generalizing c n with
  | nil =>
      obtain rfl : c = e := hpath
      obtain ⟨n, rfl⟩ : ∃ m, n = m + 1 := ⟨n - 1, by omega⟩
      exact searchFileLoop_ends hg he
  | cons x l ih =>
      obtain ⟨rfl, htail⟩ := hpath
      obtain ⟨n, rfl⟩ : ∃ m, n = m + 1 := ⟨n - 1, by omega⟩
      rw [searchFileLoop_passes hg (hl c List.mem_cons_self)]
      exact ih htail (fun y hy => hl y (List.mem_cons_of_mem _ hy)) (Nat.lt_of_succ_lt_succ hn)

/-- A search that ends does so with fuel for all clusters. -/
theorem searchFileLoop_arrives {e : Nat} (h : Arrives (nextCluster v d) (EndsSearch v d key) c e)
    (hn : 2 ^ 16 ≤ n) : searchFileLoop v file key n c d = (.ok (searchResult v d file key e), d) := by
  have hnormal : ∀ x, ¬EndsSearch v d key x → x ∈ Finset.Icc 3 0xFFEF := fun x hx =>
    Finset.mem_Icc.mpr (clusNormal_iff.mp (Classical.not_imp.mp hx).1)
  obtain ⟨l, hpath, hl, he, hlen⟩ := h.exists_path _ hnormal
  rw [Nat.card_Icc] at hlen
  exact searchFileLoop_path hg hpath hl he (by omega)

/-- A search that does not end uses all of its fuel. -/
theorem searchFileLoop_hang (h : ∀ e, ¬Arrives (nextCluster v d) (EndsSearch v d key) c e) :
    searchFileLoop v file key n c d = (.error .hang, d) := by
  induction n generalizing c with
  | zero => rfl
  | succ n ih =>
      have hc : ¬EndsSearch v d key c := fun hc => h c (Arrives.of_stop hc)
      rw [searchFileLoop_passes hg hc]
      exact ih fun e he => h e (he.step hc)

end Searches

/-! ## Searches on two disks -/

theorem searchResult_eq_none (hc : clusNormal c = false) : searchResult v d file key c = none := by
  unfold searchResult
  rw [hc]
  rfl

theorem endsSearch_of_not_normal (hc : clusNormal c = false) : EndsSearch v d key c := fun hnormal =>
  absurd (hc.symm.trans hnormal) (by decide)

variable (v) in
/-- With the FAT of `d'` and the entries of `d`, the search from the cluster ends without a result. -/
def EndsEmpty (d d' : Disk) (key : Mem) (c : Nat) : Prop :=
  ∃ e, clusNormal e = false ∧ Arrives (nextCluster v d') (EndsSearch v d key) c e

theorem EndsEmpty.of_not_normal (hc : clusNormal c = false) : EndsEmpty v d d' key c :=
  ⟨c, hc, Arrives.of_stop (endsSearch_of_not_normal hc)⟩

theorem EndsEmpty.step (hc : ¬EndsSearch v d key c) (h : EndsEmpty v d d' key (nextCluster v d' c)) :
    EndsEmpty v d d' key c := by
  obtain ⟨e, he, harrives⟩ := h
  exact ⟨e, he, harrives.step hc⟩

/-- Where the one search arrives, the other one arrives with the same result. -/
theorem exists_arrives {d₁ d₂ : Disk} (file : Fat16File)
    (hdiff : ∀ c, ¬EndsSearch v d key c → nextCluster v d₂ c ≠ nextCluster v d₁ c →
      EndsEmpty v d d₁ key c ∧ EndsEmpty v d d₂ key c) {e : Nat}
    (h : Arrives (nextCluster v d₁) (EndsSearch v d key) c e) :
    ∃ e', Arrives (nextCluster v d₂) (EndsSearch v d key) c e' ∧
      searchResult v d file key e = searchResult v d file key e' := by
  refine h.transfer (R := fun e e' => searchResult v d file key e = searchResult v d file key e')
    (fun _ => rfl) fun c e hne harrives => ?_
  by_cases hc : EndsSearch v d key c
  · obtain rfl := harrives.eq_of_stop hc
    exact ⟨e, Arrives.of_stop hc, rfl⟩
  · obtain ⟨⟨e₁, he₁, h₁⟩, e₂, he₂, h₂⟩ := hdiff c hc hne
    refine ⟨e₂, h₂, ?_⟩
    rw [harrives.unique h₁, searchResult_eq_none he₁, searchResult_eq_none he₂]

/-- Two disks with the same clusters give the same results, if both searches end without one where the
FAT differs. -/
theorem searchFileLoop_congr (hg : Geometry v) (hsame : ∀ c, clusterBlock v d' c = clusterBlock v d c)
    (hn : 2 ^ 16 ≤ n) (hdiff : ∀ c, ¬EndsSearch v d key c → nextCluster v d' c ≠ nextCluster v d c →
      EndsEmpty v d d key c ∧ EndsEmpty v d d' key c) :
    (searchFileLoop v file key n c d').1 = (searchFileLoop v file key n c d).1 := by
  have hends : EndsSearch v d' key = EndsSearch v d key := by
    funext c
    unfold EndsSearch
    rw [hsame]
  have hresult : searchResult v d' file key = searchResult v d file key := by
    funext c
    unfold searchResult
    rw [hsame]
  by_cases h : ∃ e, Arrives (nextCluster v d) (EndsSearch v d key) c e
  · obtain ⟨e, he⟩ := h
    obtain ⟨e', he', heq⟩ := exists_arrives file hdiff he
    have hrun : searchFileLoop v file key n c d = (.ok (searchResult v d file key e), d) :=
      searchFileLoop_arrives hg he hn
    rw [← hends] at he'
    rw [hrun, searchFileLoop_arrives hg he' hn, hresult, heq]
  · have h' : ∀ e, ¬Arrives (nextCluster v d') (EndsSearch v d' key) c e := by
      intro e he
      rw [hends] at he
      obtain ⟨e', he', -⟩ := exists_arrives file (fun c hc hne => (hdiff c hc (Ne.symm hne)).symm) he
      exact h ⟨e', he'⟩
    rw [searchFileLoop_hang hg h', searchFileLoop_hang hg (not_exists.mp h)]

/-! ## Searches after a cluster has been linked -/

variable (v) in
/-- The cluster has no entry that a search can find. -/
def Blank (d : Disk) (x : Nat) : Prop := ∀ a ∈ clusterSlots v x, (readEnt d a).startCluster = 0

section Linked

variable (hg : Geometry v) {last x : Nat}
include hg

theorem linked_of_le (hlast : InRange v last) (hx : InRange v x) {z : Nat}
    (hz : sectorSize * v.rootDirStart ≤ z) : linked v d last x z = d z := by
  rw [linked, hg.setFat_of_le hx.2.2 hz, hg.setFat_of_le hlast.2.2 hz]

theorem clusterBlock_congr (hsame : ∀ z, sectorSize * v.rootDirStart ≤ z → d' z = d z) (c : Nat) :
    clusterBlock v d' c = clusterBlock v d c :=
  block_congr fun z hz _ => hsame z ((hg.root_le_clusterAddr c).trans hz)

theorem nextCluster_setFat_of_ne {val : Nat} (hlast : InRange v last) (hc : c < 2 ^ 16) (hne : c ≠ last) :
    nextCluster v (setFat v d last val) c = nextCluster v d c := by
  have hle := hg.fat_le_root
  have hroot := hg.root_le_data
  have hdata := hg.dataStart_lt
  have hfat := hlast.2.2
  refine load_store_disjoint d val ?_
  unfold fatCell u16 sectorSize
  omega

theorem nextCluster_linked (hlast : InRange v last) (hx : InRange v x) (hc : c < 2 ^ 16) (hcl : c ≠ last)
    (hcx : c ≠ x) : nextCluster v (linked v d last x) c = nextCluster v d c := by
  rw [linked, nextCluster_setFat_of_ne hg hx hc hcx, nextCluster_setFat_of_ne hg hlast hc hcl]

theorem nextCluster_linked_last (hlast : InRange v last) (hx : InRange v x) (hne : last ≠ x) :
    nextCluster v (linked v d last x) last = x := by
  have hlt := hx.2.1
  rw [nextCluster_eq hg hlast.2.2, linked, fatEntry_setFat_of_ne hne, fatEntry_setFat_same (by omega)]

theorem nextCluster_linked_new (hx : InRange v x) : nextCluster v (linked v d last x) x = 0xFFFF := by
  rw [nextCluster_eq hg hx.2.2, linked, fatEntry_setFat_same (by decide)]

/-- A search goes on behind a cluster without entries. -/
theorem Blank.not_endsSearch (h : Blank v d x) (hx : InRange v x) : ¬EndsSearch v d key x := by
  intro hends
  obtain ⟨i, hi⟩ := Option.isSome_iff_exists.mp (hends hx.clusNormal)
  obtain ⟨hlt, hstart, -⟩ := searchNameInBlock_spec hi
  rw [clusterBlock, readEnt_block d (hg.slot_le hlt)] at hstart
  exact hstart (h _ (mem_clusterSlots.mpr ⟨i, hlt, rfl⟩))

/-- Behind the cluster that was the last one, the search ends without a result before and after the link. -/
theorem searchFileLoop_linked (hlast : InRange v last) (heof : clusEof (fatEntry v d last) = true)
    (hx : x ∈ freeClusters v d) (hblank : Blank v d x) (hn : 2 ^ 16 ≤ n) :
    (searchFileLoop v file key n c (linked v d last x)).1 = (searchFileLoop v file key n c d).1 := by
  obtain ⟨hxr, hxz⟩ := mem_freeClusters.mp hx
  have hne : last ≠ x := by
    rintro rfl
    rw [hxz] at heof
    exact absurd heof (by decide)
  have hsame : ∀ c, clusterBlock v (linked v d last x) c = clusterBlock v d c :=
    clusterBlock_congr hg fun z hz => linked_of_le hg hlast hxr hz
  have hxpass : ¬EndsSearch v d key x := hblank.not_endsSearch hg hxr
  have hxends : EndsEmpty v d d key x := by
    refine EndsEmpty.step hxpass (EndsEmpty.of_not_normal ?_)
    rw [nextCluster_eq hg hxr.2.2, hxz]
    rfl
  have hxends' : EndsEmpty v d (linked v d last x) key x := by
    refine EndsEmpty.step hxpass (EndsEmpty.of_not_normal ?_)
    rw [nextCluster_linked_new hg hxr]
    rfl
  refine searchFileLoop_congr hg hsame hn fun c hc hdiff => ?_
  by_cases hcx : c = x
  · subst hcx
    exact ⟨hxends, hxends'⟩
  · have hcl : c = last := by
      by_contra hcl
      have hnormal := clusNormal_iff.mp (Classical.not_imp.mp hc).1
      exact hdiff (nextCluster_linked hg hlast hxr (by omega) hcl hcx)
    subst hcl
    constructor
    · refine EndsEmpty.step hc (EndsEmpty.of_not_normal ?_)
      rw [nextCluster_eq hg hlast.2.2]
      exact not_clusNormal_of_eof heof
    · refine EndsEmpty.step hc ?_
      rw [nextCluster_linked_last hg hlast hxr hne]
      exact hxends'

end Linked

/-! ## Lookups -/

/-- The search in the root directory depends on the bytes from there on. -/
theorem searchRootLoop_same (hsame : ∀ z, sectorSize * v.rootDirStart ≤ z → d' z = d z) {lba : Nat}
    (hlba : v.rootDirStart ≤ lba) :
    (searchRootLoop v file key n lba d').1 = (searchRootLoop v file key n lba d).1 := by
  induction n generalizing lba with
  | zero => rfl
  | succ n ih =>
      have hread : (ataReadSector lba v.sb.sectorsPerCluster v.clusterBytes (fun _ => 0) d').1 =
          (ataReadSector lba v.sb.sectorsPerCluster v.clusterBytes (fun _ => 0) d).1 := by
        unfold ataReadSector
        simp only [hsame _ ((Nat.mul_le_mul_left sectorSize hlba).trans (Nat.le_add_right _ _))]
      rw [searchRootLoop]
      split
      next =>
        refine (Quiet.ataReadSector _ _ _ _).bind_congr hread fun r => ?_
        dsimp only
        generalize searchNameInBlock _ _ _ = found
        cases found with
        | some i => rfl
        | none => exact ih (hlba.trans (Nat.le_add_right _ _))
      next => rfl

variable {fuel : Nat}

/-- A lookup is determined by the searches. -/
theorem findLoop_same (hsearch : ∀ file name s, (fatSearchFile v fuel file name s d').1 =
      (fatSearchFile v fuel file name s d).1) (path : List UInt8) :
    (findLoop v fuel n file path d').1 = (findLoop v fuel n file path d).1 := by
  induction n generalizing file path with
  | zero => rfl
  | succ n ih =>
      rw [findLoop]
      dsimp only
      split
      next => rfl
      next =>
        split
        next => rfl
        next =>
          refine (fatSearchFile_quiet v fuel _ _ _).bind_congr (hsearch _ _ _) fun found => ?_
          cases found with
          | none => rfl
          | some g =>
              cases (strtok path [slash]).2 with
              | none => rfl
              | some rest => exact ih rest

theorem fat16Find_same (hsearch : ∀ file name s, (fatSearchFile v fuel file name s d').1 =
      (fatSearchFile v fuel file name s d).1) (file : Fat16File) (path : List UInt8) :
    (fat16Find v fuel file path d').1 = (fat16Find v fuel file path d).1 := by
  unfold fat16Find
  split
  next => rfl
  next => exact findLoop_same hsearch path

/-- After a cluster without entries has been linked, every lookup has the result that it had before. -/
theorem fat16Find_linked (hg : Geometry v) (hfuel : 2 ^ 16 ≤ fuel) {last x : Nat} (hlast : InRange v last)
    (heof : clusEof (fatEntry v d last) = true) (hx : x ∈ freeClusters v d) (hblank : Blank v d x)
    (file : Fat16File) (path : List UInt8) :
    (fat16Find v fuel file path (linked v d last x)).1 = (fat16Find v fuel file path d).1 := by
  have hxr := (mem_freeClusters.mp hx).1
  refine fat16Find_same (fun file name s => ?_) file path
  unfold fatSearchFile
  split
  next => exact searchRootLoop_same (fun z hz => linked_of_le hg hlast hxr hz) (le_refl _)
  next => exact searchFileLoop_linked hg hlast heof hx hblank hfuel

end TsOs.Fat
