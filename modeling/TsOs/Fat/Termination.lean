import TsOs.Fat.Handles
import TsOs.Fat.OutOfClusters

/-!
# Calls that end

A lookup without `FAT16_CTL_CREATE` is a search in one directory after the other, and with
`FAT16_CTL_APPEND` a walk to the last cluster of what was found. On any disk it returns
exactly when each of these ends; since nothing counts the clusters, a FAT with a cycle keeps
it busy for ever. A creation in a root directory without a free slot never ends, whatever
the disk.
-/

namespace TsOs.Fat
open ByteMemory LinkPath

variable {v : Fat16Volume} {d d' : Disk} {fuel : Nat} {file f : Fat16File} {name path : List UInt8}
  {flag : Flags} {s c n : Nat}

/-! ## The searches -/

variable (v) in
/-- The search for a name in the directory with the first cluster `s` ends. -/
def SearchEnds (d : Disk) (s : Nat) (name : List UInt8) : Prop :=
  s = clusRoot ∨
    ∃ e, Arrives (nextCluster v d) (EndsSearch v d (fat16FilenameFmt (fun _ => 0) (cstr name))) s e

variable (v) in
/-- The walk from the cluster `s` to the last one ends. -/
def WalkEnds (d : Disk) (s : Nat) : Prop :=
  ∃ e, Arrives (nextCluster v d) (fun c => clusNormal (nextCluster v d c) = false) s e

variable (v) in
/-- The searches for the components from the handle on end, one after the other. -/
def LookupEnds (d : Disk) : Fat16File → List (List UInt8) → Prop
  | _, [] => True
  | file, c :: cs => SearchEnds v d file.dirent.startCluster c ∧
      ∀ f, (fatSearchFile v (2 ^ 16) file c file.dirent.startCluster d).1 = .ok (some f) → LookupEnds d f cs

section Searches

variable (hg : Geometry v)
include hg

theorem searchRootLoop_returns (file : Fat16File) (key : Mem) {lba : Nat} (hlba : v.rootDirStart ≤ lba)
    (hn : v.rootSectors ≤ n + (lba - v.rootDirStart)) :
    ∃ r, searchRootLoop v file key (n + 1) lba d = (.ok r, d) := by
  have hpos := hg.sectorsPerCluster_pos
  have hread : v.sb.sectorsPerCluster ≤ v.clusterBytes / sectorSize := by
    rw [hg.clusterBytes, Nat.mul_div_cancel_left _ (by decide)]
  induction n generalizing lba with
  | zero =>
      rw [searchRootLoop, if_neg (by omega)]
      exact ⟨none, rfl⟩
  | succ n ih =>
      rw [searchRootLoop]
      split
      next hin =>
        rw [FatM.bind_ok (ataReadSector_run d hread)]
        dsimp only
        generalize searchNameInBlock _ _ _ = r
        cases r with
        | none => exact ih (by omega) (by omega)
        | some i => exact ⟨_, rfl⟩
      next => exact ⟨none, rfl⟩

/-- A search that ends has the same result for every fuel that is enough. -/
theorem fatSearchFile_returns (file : Fat16File) (h : SearchEnds v d s name) (hfuel : 2 ^ 16 ≤ fuel) :
    ∃ r, fatSearchFile v fuel file name s d = (.ok r, d) ∧
      fatSearchFile v (2 ^ 16) file name s d = (.ok r, d) := by
  unfold fatSearchFile
  by_cases hs : s = clusRoot
  · rw [if_pos hs, if_pos hs]
    obtain ⟨r, hr⟩ := searchRootLoop_returns (d := d) (n := v.rootSectors) hg file
      (fat16FilenameFmt (fun _ => 0) (cstr name)) (le_refl v.rootDirStart) (Nat.le_add_right _ _)
    exact ⟨r, hr, hr⟩
  · rw [if_neg hs, if_neg hs]
    obtain ⟨e, he⟩ := h.resolve_left hs
    exact ⟨_, searchFileLoop_arrives hg he hfuel, searchFileLoop_arrives hg he (le_refl _)⟩

theorem fatSearchFile_hang (file : Fat16File) (h : ¬SearchEnds v d s name) :
    fatSearchFile v fuel file name s d = (.error .hang, d) := by
  obtain ⟨hs, hnone⟩ := not_or.mp h
  unfold fatSearchFile
  rw [if_neg hs]
  exact searchFileLoop_hang hg (not_exists.mp hnone)

theorem findComponents_returns {cs : List (List UInt8)} (h : LookupEnds v d file cs)
    (hcs : ∀ c ∈ cs, c.length < 16) (hfuel : 2 ^ 16 ≤ fuel) :
    ∃ r, findComponents v fuel file cs d = (.ok r, d) ∧
      findComponents v (2 ^ 16) file cs d = (.ok r, d) := by
  induction cs generalizing file with
  | nil => exact ⟨some file, rfl, rfl⟩
  | cons c cs ih =>
      obtain ⟨hsearch, hrest⟩ := h
      have hlen := hcs c List.mem_cons_self
      obtain ⟨r, hr, hr'⟩ := fatSearchFile_returns hg file hsearch hfuel
      rw [findComponents, findComponents, if_neg (by omega), if_neg (by omega), FatM.bind_ok hr,
        FatM.bind_ok hr']
      cases r with
      | none => exact ⟨none, rfl, rfl⟩
      | some f => exact ih (hrest f (congrArg Prod.fst hr')) fun x hx => hcs x (List.mem_cons_of_mem _ hx)

theorem findComponents_hang {cs : List (List UInt8)} (h : ¬LookupEnds v d file cs)
    (hcs : ∀ c ∈ cs, c.length < 16) (hfuel : 2 ^ 16 ≤ fuel) :
    findComponents v fuel file cs d = (.error .hang, d) := by
  induction cs generalizing file with
  | nil => exact absurd trivial h
  | cons c cs ih =>
      have hlen := hcs c List.mem_cons_self
      rw [findComponents, if_neg (by omega)]
      by_cases hsearch : SearchEnds v d file.dirent.startCluster c
      · obtain ⟨f, hf, hrest⟩ : ∃ f, (fatSearchFile v (2 ^ 16) file c file.dirent.startCluster d).1 =
            .ok (some f) ∧ ¬LookupEnds v d f cs := by
          by_contra hnone
          refine h ⟨hsearch, fun f hf => ?_⟩
          by_contra hrest
          exact hnone ⟨f, hf, hrest⟩
        obtain ⟨r, hr, hr'⟩ := fatSearchFile_returns hg file hsearch hfuel
        rw [hr'] at hf
        obtain rfl := Except.ok.inj hf
        rw [FatM.bind_ok hr]
        exact ih hrest fun x hx => hcs x (List.mem_cons_of_mem _ hx)
      · exact FatM.bind_error (fatSearchFile_hang hg file hsearch)

/-- The walk to the last cluster, at a cluster where it ends and at one where it goes on. -/
theorem lastCluster_ends (hc : clusNormal (nextCluster v d c) = false) :
    lastCluster v (n + 1) c d = (.ok c, d) := by
  rw [lastCluster, FatM.bind_ok (fatGetNextCluster_eq hg d c), hc, if_neg Bool.false_ne_true]
  rfl

theorem lastCluster_passes (hc : ¬clusNormal (nextCluster v d c) = false) :
    lastCluster v (n + 1) c d = lastCluster v n (nextCluster v d c) d := by
  rw [Bool.not_eq_false] at hc
  rw [lastCluster, FatM.bind_ok (fatGetNextCluster_eq hg d c), if_pos hc]

theorem lastCluster_path {l : List Nat} {e : Nat} (hpath : Path (nextCluster v d) c l e)
    (hl : ∀ x ∈ l, ¬clusNormal (nextCluster v d x) = false)
    (he : clusNormal (nextCluster v d e) = false) (hn : l.length < n) :
    lastCluster v n c d = (.ok e, d) := by
  induction l generalizing c n with
  | nil =>
      obtain rfl : c = e := hpath
      obtain ⟨n, rfl⟩ : ∃ m, n = m + 1 := ⟨n - 1, by omega⟩
      exact lastCluster_ends hg he
  | cons x l ih =>
      obtain ⟨rfl, htail⟩ := hpath
      obtain ⟨n, rfl⟩ : ∃ m, n = m + 1 := ⟨n - 1, by omega⟩
      rw [lastCluster_passes hg (hl c List.mem_cons_self)]
      exact ih htail (fun y hy => hl y (List.mem_cons_of_mem _ hy)) (Nat.lt_of_succ_lt_succ hn)

omit hg in
/-- Behind its first node, the walk visits clusters only. -/
theorem mem_insert_of_path {l : List Nat} {e x : Nat} (hpath : Path (nextCluster v d) c l e)
    (hl : ∀ x ∈ l, ¬clusNormal (nextCluster v d x) = false) (hx : x ∈ l) :
    x ∈ insert c (Finset.Icc 3 0xFFEF) := by
  induction l generalizing c with
  | nil => exact absurd hx List.not_mem_nil
  | cons y l ih =>
      obtain ⟨rfl, htail⟩ := hpath
      rcases List.mem_cons.mp hx with rfl | hx
      · exact Finset.mem_insert_self _ _
      · have hnext : clusNormal (nextCluster v d c) = true := by simpa using hl c List.mem_cons_self
        have hmem : nextCluster v d c ∈ Finset.Icc 3 0xFFEF := Finset.mem_Icc.mpr (clusNormal_iff.mp hnext)
        have hin := ih htail (fun z hz => hl z (List.mem_cons_of_mem _ hz)) hx
        rw [Finset.insert_eq_of_mem hmem] at hin
        exact Finset.mem_insert_of_mem hin

theorem lastCluster_returns (h : WalkEnds v d s) :
    ∃ e, ∀ fuel, 2 ^ 16 ≤ fuel → lastCluster v fuel s d = (.ok e, d) := by
  obtain ⟨e, l, hpath, hl, he⟩ := h
  refine ⟨e, fun fuel hfuel => lastCluster_path hg hpath hl he ?_⟩
  have hnodup : l.Nodup := hpath.nodup fun hmem => hl e hmem he
  have hsub : l.toFinset ⊆ insert s (Finset.Icc 3 0xFFEF) := fun x hx =>
    mem_insert_of_path hpath hl (List.mem_toFinset.mp hx)
  calc
    l.length = l.toFinset.card := (List.toFinset_card_of_nodup hnodup).symm
    _ ≤ (insert s (Finset.Icc 3 0xFFEF)).card := Finset.card_le_card hsub
    _ ≤ (Finset.Icc 3 0xFFEF).card + 1 := Finset.card_insert_le _ _
    _ < 2 ^ 16 := by rw [Nat.card_Icc]; decide
    _ ≤ fuel := hfuel

theorem lastCluster_hang (h : ¬WalkEnds v d s) : lastCluster v n s d = (.error .hang, d) := by
  induction n generalizing s with
  | zero => rfl
  | succ n ih =>
      have hs : ¬clusNormal (nextCluster v d s) = false := fun hs => h ⟨s, Arrives.of_stop hs⟩
      rw [lastCluster_passes hg hs]
      exact ih fun ⟨e, he⟩ => h ⟨e, he.step hs⟩

end Searches

/-! ## Lookups -/

variable (v) in
/-- The searches of a call without `FAT16_CTL_CREATE` end, and so does its walk for appending. -/
def CallEnds (d : Disk) (path : List UInt8) (flag : Flags) : Prop :=
  LookupEnds v d { newFat16File flag with dirent := rootEnt } (components path) ∧
    (flag.append = true → ∀ f, (fat16Find v (2 ^ 16) (newFat16File flag) path d).1 = .ok (some f) →
      WalkEnds v d f.dirent.startCluster)

section Call

variable (hg : Geometry v) (hcs : ∀ c ∈ components path, c.length < 16)
include hg hcs

theorem fat16Find_returns (h : LookupEnds v d { file with dirent := rootEnt } (components path)) :
    ∃ r, ∀ fuel, 2 ^ 16 ≤ fuel → fat16Find v fuel file path d = (.ok r, d) := by
  by_cases hpath : path = [slash]
  · refine ⟨some (rootFound path file), fun fuel _ => ?_⟩
    rw [hpath]
    exact fat16Find_root rfl
  · obtain ⟨r, -, hr⟩ := findComponents_returns hg h hcs (le_refl _)
    refine ⟨r, fun fuel hfuel => ?_⟩
    obtain ⟨r', hrun, hr'⟩ := findComponents_returns hg h hcs hfuel
    obtain rfl : r' = r := FatM.ok_inj (hr'.symm.trans hr)
    unfold fat16Find
    rw [if_neg hpath, findLoop_eq v fuel (Nat.lt_succ_self _), hrun]

theorem fat16Find_hang (h : ¬LookupEnds v d { file with dirent := rootEnt } (components path))
    (hfuel : 2 ^ 16 ≤ fuel) : fat16Find v fuel file path d = (.error .hang, d) := by
  have hpath : path ≠ [slash] := by
    rintro rfl
    exact h trivial
  unfold fat16Find
  rw [if_neg hpath, findLoop_eq v fuel (Nat.lt_succ_self _)]
  exact findComponents_hang hg h hcs hfuel

/-- On any disk the call returns when its searches and its walk end, and otherwise it never does. -/
theorem fatOpen_returns (d : Disk) (hflag : flag.create = false) :
    (CallEnds v d path flag ∧ ∃ r, ∀ fuel, 2 ^ 16 ≤ fuel → fatOpen v fuel path flag d = (.ok r, d)) ∨
      (¬CallEnds v d path flag ∧
        ∀ fuel, 2 ^ 16 ≤ fuel → fatOpen v fuel path flag d = (.error .hang, d)) := by
  have hopen : ∀ fuel, fatOpen v fuel path flag = fatOpenExisting v fuel path flag := by
    intro fuel
    unfold fatOpen
    rw [hflag, if_neg Bool.false_ne_true]
  simp only [hopen]
  by_cases hlookup : LookupEnds v d { newFat16File flag with dirent := rootEnt } (components path)
  · obtain ⟨found, hfound⟩ := fat16Find_returns hg hcs hlookup
    cases found with
    | none =>
        left
        refine ⟨⟨hlookup, fun _ f hf => ?_⟩, none, fun fuel hfuel => ?_⟩
        · rw [hfound _ (le_refl _)] at hf
          exact absurd hf (by simp)
        · unfold fatOpenExisting
          rw [FatM.bind_ok (hfound fuel hfuel)]
          rfl
    | some f =>
        have hrun : ∀ fuel, 2 ^ 16 ≤ fuel → fatOpenExisting v fuel path flag d =
            (if flag.append then do
              let cluster ← lastCluster v fuel f.dirent.startCluster
              return some { f with
                flag := { f.flag with write := true }
                currentCluster := cluster
                byteOffset := f.dirent.fileSize }
            else return some f : FatM (Option Fat16File)) d := by
          intro fuel hfuel
          unfold fatOpenExisting
          rw [FatM.bind_ok (hfound fuel hfuel)]
        by_cases happend : flag.append = true
        · simp only [happend, if_true] at hrun
          by_cases hwalk : WalkEnds v d f.dirent.startCluster
          · left
            obtain ⟨e, he⟩ := lastCluster_returns hg hwalk
            refine ⟨⟨hlookup, fun _ g hg' => ?_⟩, some (f.atEnd e), fun fuel hfuel => ?_⟩
            · rw [hfound _ (le_refl _)] at hg'
              obtain rfl := Option.some.inj (Except.ok.inj hg')
              exact hwalk
            · rw [hrun fuel hfuel, FatM.bind_ok (he fuel hfuel)]
              rfl
          · right
            refine ⟨fun hends => hwalk (hends.2 happend f ?_), fun fuel hfuel => ?_⟩
            · rw [hfound _ (le_refl _)]
            · rw [hrun fuel hfuel]
              exact FatM.bind_error (lastCluster_hang hg hwalk)
        · left
          simp only [happend] at hrun
          exact ⟨⟨hlookup, fun h => absurd h happend⟩, some f, hrun⟩
  · right
    refine ⟨fun hends => hlookup hends.1, fun fuel hfuel => ?_⟩
    unfold fatOpenExisting
    exact FatM.bind_error (fat16Find_hang hg hcs hlookup hfuel)

end Call

/-- The directory `P` in the root directory, in a cluster that the FAT links to itself. -/
def cycleDisk : Disk :=
  writeEnt (tableDisk smallVolume fun c => if c = 3 then 3 else 0) 1024 (mkEnt [80] entAttrDir 3 0)

theorem fatOpen_returns_sample :
    (CallEnds smallVolume cycleDisk [47, 80] Flags.none ∧ ∃ r, ∀ fuel, 2 ^ 16 ≤ fuel →
      fatOpen smallVolume fuel [47, 80] Flags.none cycleDisk = (.ok r, cycleDisk)) ∨
    (¬CallEnds smallVolume cycleDisk [47, 80] Flags.none ∧ ∀ fuel, 2 ^ 16 ≤ fuel →
      fatOpen smallVolume fuel [47, 80] Flags.none cycleDisk = (.error .hang, cycleDisk)) :=
  fatOpen_returns smallVolume_geometry (by decide) cycleDisk rfl

theorem cycleDisk_next : nextCluster smallVolume cycleDisk 3 = 3 := by decide

/-- The search for a name that is not in the cluster stays there. -/
theorem not_searchEnds_cycle : ¬SearchEnds smallVolume cycleDisk 3 [88] := by
  have hstay : ¬EndsSearch smallVolume cycleDisk (fat16FilenameFmt (fun _ => 0) (cstr [88])) 3 := by
    unfold EndsSearch
    decide
  rintro (hroot | ⟨e, l, hpath, hl, he⟩)
  · exact absurd hroot (by decide)
  · suffices e = 3 from hstay (this ▸ he)
    clear hl he
    induction l with
    | nil => exact hpath.symm
    | cons x l ih =>
        obtain ⟨rfl, htail⟩ := hpath
        rw [cycleDisk_next] at htail
        exact ih htail

/-- A name that is not in a directory with a cyclic chain is looked for without end. -/
theorem fatOpen_cycle : nextCluster smallVolume cycleDisk 3 = 3 ∧ ∀ fuel,
    fatOpen smallVolume fuel [47, 80, 47, 88] Flags.none cycleDisk = (.error .hang, cycleDisk) := by
  refine ⟨cycleDisk_next, fun fuel => ?_⟩
  obtain ⟨f, hf, hstart⟩ : ∃ f, (fatSearchFile smallVolume 0
      { newFat16File Flags.none with dirent := rootEnt } [80] 0 cycleDisk).1 = .ok (some f) ∧
      (f.dirent.startCluster == 3) = true := exists_found (by decide)
  have hroot : fatSearchFile smallVolume fuel { newFat16File Flags.none with dirent := rootEnt } [80] 0
      cycleDisk = (.ok (some f), cycleDisk) := (fatSearchFile_quiet _ _ _ _ _).eq hf
  have hstart : f.dirent.startCluster = 3 := of_decide_eq_true hstart
  have hfind : findComponents smallVolume fuel { newFat16File Flags.none with dirent := rootEnt }
      [[80], [88]] cycleDisk = (.error .hang, cycleDisk) := by
    have hhang : fatSearchFile smallVolume fuel f [88] 3 cycleDisk = (.error .hang, cycleDisk) :=
      fatSearchFile_hang smallVolume_geometry f not_searchEnds_cycle
    rw [findComponents, if_neg (by decide)]
    refine (FatM.bind_ok hroot).trans ?_
    dsimp only
    rw [findComponents, if_neg (by decide), hstart]
    exact FatM.bind_error hhang
  have hopen : fatOpen smallVolume fuel [47, 80, 47, 88] Flags.none =
      fatOpenExisting smallVolume fuel [47, 80, 47, 88] Flags.none := rfl
  rw [hopen]
  unfold fatOpenExisting
  refine FatM.bind_error ?_
  unfold fat16Find
  rw [if_neg (by decide), findLoop_eq smallVolume fuel (Nat.lt_succ_self _)]
  exact hfind

/-! ## Creating in a full root directory -/

section Full

variable (hname : slash ∉ name) (hne : name ≠ [])
include hname hne

theorem split_root : getBasedir (slash :: name) = some [slash] ∧ getFilename (slash :: name) = some name := by
  constructor
  · have hsnoc : name = name.dropLast ++ [name.getLast hne] := (List.dropLast_append_getLast hne).symm
    have hnot : slash ∉ name.dropLast := fun hmem => hname (List.mem_of_mem_dropLast hmem)
    have hbase := getBasedir_eq (q := []) (x := name.getLast hne) hnot
    rwa [← hsnoc] at hbase
  · have hfile := getFilename_eq (q := []) (z := []) (by simp) hname hne
    rwa [List.append_nil] at hfile

theorem length_lt_of_new {flag : Flags}
    (hnew : (fatOpenExisting v fuel (slash :: name) flag d).1 = .ok none) : name.length < 16 := by
  have hrun := (fatOpenExisting_quiet v fuel _ _).eq hnew
  have hcomps : components (slash :: name) = [name] := by
    rw [components_slash, components_of_not_mem hname, if_neg hne]
  have hpath : slash :: name ≠ [slash] := fun heq => hne (List.cons.inj heq).2
  by_contra hlong
  unfold fatOpenExisting fat16Find at hrun
  rw [if_neg hpath, findLoop_eq v fuel (Nat.lt_succ_self _), hcomps] at hrun
  have hfault : findComponents v fuel { newFat16File flag with dirent := rootEnt } [name] d =
      (.error .fault, d) := by
    rw [findComponents, if_pos (Nat.not_lt.mp hlong)]
    rfl
  rw [FatM.bind_error hfault] at hrun
  exact absurd (congrArg Prod.fst hrun) (by simp)

section Creation

variable (hg : Geometry v) (hcreate : flag.create = true)
  (hnew : (fatOpenExisting v fuel (slash :: name) { flag with create := false } d).1 = .ok none)
  (hfull : ∀ a ∈ rootSlots v, (readEnt d a).startCluster ≠ 0)
include hcreate hnew

include hg hfull in
theorem fullRoot_hang (hle : v.sb.sectorsPerCluster ≤ v.rootSectors) :
    fatOpen v fuel (slash :: name) flag d = (.error .hang, d) := by
  obtain ⟨hbase, hfile⟩ := split_root hname hne
  have hparent : fatOpenExisting v fuel [slash] Flags.none d = _ := fatOpenExisting_root v d fuel rfl
  have hlen : name.length < 16 := length_lt_of_new hname hne hnew
  have hnone : firstFree d (rootSlots v) = none := by
    refine firstFree_eq_none.mpr fun a ha => ?_
    rw [← Bool.not_eq_true]
    exact fun hfree => hfull a ha (isFreeSlot_startCluster hfree)
  have hcreation := fatCreateFile_hang hg (congrArg Prod.fst hparent) rfl hle hnone name flag.dir
  unfold fatOpen
  rw [if_pos hcreate, FatM.bind_ok ((fatOpenExisting_quiet v fuel _ _).eq hnew), hbase, hfile]
  dsimp only
  rw [if_neg (by rw [List.length_singleton, pathBufSize]; omega), FatM.bind_ok hparent]
  exact FatM.bind_error hcreation

/-- A call that leaves the disk alone has found no parent, but the root directory is always there. -/
theorem create_root_ne : fatOpen v fuel (slash :: name) flag d ≠ (.ok none, d) := by
  obtain ⟨hbase, hfile⟩ := split_root hname hne
  intro hrun
  rcases fatOpen_absent hcreate hnew hrun with
    ⟨-, -, hnone | ⟨base, hb, hnone⟩⟩ | ⟨base, nm, f, u, g, -, -, -, -, -, hr⟩
  · rw [hfile] at hnone
    exact absurd hnone (by simp)
  · obtain rfl := Option.some.inj (hbase.symm.trans hb)
    exact fatOpenExisting_root_ne rfl hnone
  · exact absurd hr (by simp)

include hg hfull in
/-- A creation of a new name in a full root directory does not fail and leave the disk alone: when the
root directory has a whole block, it does not end. -/
theorem fatOpen_fullRoot :
    fatOpen v fuel (slash :: name) flag d ≠ (.ok none, d) ∧ (v.sb.sectorsPerCluster ≤ v.rootSectors →
      fatOpen v fuel (slash :: name) flag d = (.error .hang, d)) :=
  ⟨create_root_ne hname hne hcreate hnew, fullRoot_hang hname hne hg hcreate hnew hfull⟩

end Creation

end Full

/-- All slots of the root directory are in use, by the files `A`, `B` and so on of one cluster. -/
def fullRootDisk : Disk :=
  (List.range 16).foldl (fun d i => writeEnt d (1024 + 32 * i) (mkEnt [UInt8.ofNat (65 + i)] 0 (3 + i) 0))
    (tableDisk smallVolume fun c => if c < 19 then 0xFFFF else 0)

/-- `Z` is a new name. -/
theorem fullRootDisk_new (fuel : Nat) : (fatOpenExisting smallVolume fuel [47, 90]
    { createFlag with create := false } fullRootDisk).1 = .ok none := by
  have hsearch : (fatSearchFile smallVolume 0 { newFat16File Flags.none with dirent := rootEnt } [90] 0
      fullRootDisk).1 = .ok none := eq_of_notFound (by decide)
  have hroot : fatSearchFile smallVolume fuel { newFat16File Flags.none with dirent := rootEnt } [90] 0
      fullRootDisk = (.ok none, fullRootDisk) := (fatSearchFile_quiet _ _ _ _ _).eq hsearch
  have hfind : findComponents smallVolume fuel { newFat16File Flags.none with dirent := rootEnt } [[90]]
      fullRootDisk = (.ok none, fullRootDisk) := by
    rw [findComponents, if_neg (by decide)]
    exact FatM.bind_ok hroot
  unfold fatOpenExisting fat16Find
  rw [if_neg (by decide), findLoop_eq smallVolume fuel (Nat.lt_succ_self _)]
  exact congrArg Prod.fst (FatM.bind_ok hfind)

theorem fatOpen_fullRoot_sample :
    fatOpen smallVolume (2 ^ 16) [47, 90] createFlag fullRootDisk ≠ (.ok none, fullRootDisk) ∧
      (smallVolume.sb.sectorsPerCluster ≤ smallVolume.rootSectors →
        fatOpen smallVolume (2 ^ 16) [47, 90] createFlag fullRootDisk = (.error .hang, fullRootDisk)) :=
  fatOpen_fullRoot (by decide) (by decide) smallVolume_geometry rfl (fullRootDisk_new _) (by decide)

/-- The creation of `/Z` in it goes on for ever. -/
theorem fatOpen_fullRoot_hangs :
    (∀ a ∈ rootSlots smallVolume, (readEnt fullRootDisk a).startCluster ≠ 0) ∧ ∀ fuel,
      fatOpen smallVolume fuel [47, 90] createFlag fullRootDisk = (.error .hang, fullRootDisk) := by
  have hfull : ∀ a ∈ rootSlots smallVolume, (readEnt fullRootDisk a).startCluster ≠ 0 := by decide
  exact ⟨hfull, fun fuel => fullRoot_hang (by decide) (by decide) smallVolume_geometry rfl
    (fullRootDisk_new fuel) hfull (by decide)⟩

end TsOs.Fat
