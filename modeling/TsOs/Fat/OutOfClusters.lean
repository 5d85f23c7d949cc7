import TsOs.Fat.Exhaustion
import TsOs.Fat.Walks

/-!
# Creations that run out of clusters

A creation in a subdirectory can take two clusters: one for the directory and one for the
new file. When only the first of them is there, the driver stops after that cluster has
been linked and before it has been cleared. What the cluster had before becomes a part of
the directory.
-/

namespace TsOs.Fat
open ByteMemory

variable {v : Fat16Volume} {d d' : Disk} {f : Fat16File} {c n fuel : Nat}

/-! ## Where a creation stops -/

section Stops

variable (hg : Geometry v) {name : List UInt8} {dir : Bool} {buf : Buf} {i pc : Nat}

/-- With a cluster for the file, the part behind the search returns. -/
theorem createFileDirent_returns {y : Nat} (hy : fatGetFreeCluster v d = (.ok y, d)) :
    ∃ d', createFileDirent v f name dir buf i pc d = (.ok (), d') := by
  unfold createFileDirent
  rw [FatM.bind_ok hy]
  dsimp only
  split
  · exact ⟨_, rfl⟩
  · exact ⟨_, rfl⟩

include hg

theorem fatGetFreeCluster_quiet : Quiet (fatGetFreeCluster v) := by
  intro d
  rcases fatGetFreeCluster_cases hg.sectorsPerCluster_pos hg.clusterBytes d with
    ⟨x, -, -, -, hrun⟩ | ⟨-, hrun⟩
  · rw [hrun]
  · rw [hrun]

theorem freeClusters_eq_empty {e : Stop} (h : fatGetFreeCluster v d = (.error e, d')) :
    freeClusters v d = ∅ := by
  by_contra hne
  obtain ⟨y, -, -, hy⟩ := fatGetFreeCluster_run hg (Finset.nonempty_iff_ne_empty.mpr hne)
  exact absurd (congrArg Prod.fst (hy.symm.trans h)) (by simp)

/-- The part behind the search stops only when no cluster is free, and has changed nothing then. -/
theorem createFileDirent_panic (h : createFileDirent v f name dir buf i pc d = (.error .panic, d')) :
    d' = d ∧ freeClusters v d = ∅ := by
  cases hfree : fatGetFreeCluster v d with
  | mk r d₁ =>
      obtain rfl : d₁ = d := by
        have hquiet := fatGetFreeCluster_quiet hg d
        rwa [hfree] at hquiet
      cases r with
      | error e =>
          unfold createFileDirent at h
          have hstop := (FatM.bind_error hfree).symm.trans h
          exact ⟨(congrArg Prod.snd hstop).symm, freeClusters_eq_empty hg hfree⟩
      | ok y =>
          obtain ⟨d₂, hreturns⟩ := createFileDirent_returns (f := f) (i := i) hfree
          exact absurd (congrArg Prod.fst (hreturns.symm.trans h)) (by simp)

/-- Behind the last cluster of a directory, the creation stops before its first step, or after the only
free cluster has been linked. -/
theorem createInNew_panic {last : Nat} (hconf : Confined v d) (hlast : InRange v last)
    (hused : fatEntry v d last ≠ 0) (h : createInNew v f name dir last d = (.error .panic, d')) :
    (d' = d ∧ freeClusters v d = ∅) ∨ ∃ x, freeClusters v d = {x} ∧ d' = linked v d last x := by
  by_cases hroom : (freeClusters v d).Nonempty
  · right
    obtain ⟨x, hx, -, hrun⟩ := fatGetFreeCluster_run hg hroom
    have hxr := (mem_freeClusters.mp hx).1
    unfold createInNew at h
    rw [FatM.bind_ok hrun, FatM.bind_ok (writeFat_run hg d x hlast.2.2),
      FatM.bind_ok (writeFat_run hg _ 0xFFFF hxr.2.2)] at h
    obtain ⟨rfl, hempty⟩ := createFileDirent_panic hg h
    refine ⟨x, Finset.eq_singleton_iff_unique_mem.mpr ⟨hx, fun y hy => ?_⟩, rfl⟩
    by_contra hne
    obtain ⟨hyr, hyz⟩ := mem_freeClusters.mp hy
    have hyl : y ≠ last := by
      rintro rfl
      exact hused hyz
    have hy' : y ∈ freeClusters v (linked v d last x) := by
      refine mem_freeClusters.mpr ⟨hyr, ?_⟩
      rw [linked, fatEntry_setFat_of_ne hne, fatEntry_setFat_of_ne hyl, hyz]
    exact absurd (hempty ▸ hy') (Finset.notMem_empty y)
  · left
    rw [Finset.not_nonempty_iff_eq_empty] at hroom
    unfold createInNew at h
    have hstop := (FatM.bind_error (hconf.fatGetFreeCluster_panic hg hroom)).symm.trans h
    exact ⟨(congrArg Prod.snd hstop).symm, hroom⟩

end Stops

/-! ## The loop of a creation -/

variable (v) in
/-- The handle on a file stands at the start of cluster `c`, which `l` follows in the chain, or behind
the end of the file. -/
structure AtFileCluster (d : Disk) (f : Fat16File) (c : Nat) (l : List Nat) : Prop where
  chain : IsChain v d c (c :: l)
  start_ne : f.dirent.startCluster ≠ 0
  current : f.currentCluster = c
  position : v.clusterBytes ∣ f.byteOffset ∨
    isDirectory f.dirent = false ∧ f.dirent.fileSize ≤ f.byteOffset
  lt : f.byteOffset + (l.length + 1) * v.clusterBytes < 2 ^ 32

section Loop

variable (hg : Geometry v) {name : List UInt8} {dir : Bool} {buf : Buf} {l : List Nat} {pc : Nat}
include hg

/-- One read of the loop. The handle moves on to the next cluster, unless it is behind the end. -/
theorem AtFileCluster.fatReadFile_next (h : AtFileCluster v d f c l) (buf : Buf) :
    (∃ cnt out f', fatReadFile v f (fun _ => 0) v.clusterBytes d = (.ok (cnt, out, f'), d) ∧
      f'.dirent = f.dirent ∧ f'.currentCluster = fatEntry v d c ∧
      HoldsCluster v d c (patch buf 0 out) ∧ ∀ y l', l = y :: l' → AtFileCluster v d f' y l') ∨
    ∃ cnt, fatReadFile v f (fun _ => 0) v.clusterBytes d = (.ok (cnt, [], f), d) := by
  have hc := h.chain.inRange c List.mem_cons_self
  have heof : clusEof f.currentCluster = false := by
    rw [h.current, ← Bool.not_eq_true, clusEof_iff]
    have := hc.2.1
    omega
  by_cases hmore : isDirectory f.dirent = true ∨ f.byteOffset < f.dirent.fileSize
  · left
    have hdvd : v.clusterBytes ∣ f.byteOffset := by
      refine h.position.resolve_right fun hend => ?_
      rcases hmore with hdir | hsize
      · exact absurd (hdir.symm.trans hend.1) (by decide)
      · exact absurd hend.2 (by omega)
    have hlt := h.lt
    rw [Nat.succ_mul] at hlt
    obtain ⟨cnt, o', hoff, hread⟩ := fatReadFile_block (d := d) hg (fun _ => 0) h.start_ne hmore
      heof hdvd (by omega)
    rw [h.current, nextCluster_eq hg hc.2.2] at hread
    have hsector : clusterSector v c = v.dataStart + (c - 2) * v.sb.sectorsPerCluster := by
      have := hc.1
      have := hc.2.1
      exact hg.clusterSector_eq (by omega) (by omega)
    have ho' : o' ≤ f.byteOffset + v.clusterBytes ∧ (v.clusterBytes ∣ o' ∨
        isDirectory f.dirent = false ∧ f.dirent.fileSize ≤ o') := by
      have hnext : v.clusterBytes ∣ f.byteOffset + v.clusterBytes := dvd_add hdvd (dvd_refl _)
      rcases hoff with ⟨-, rfl⟩ | ⟨hfile, rfl⟩
      · exact ⟨le_refl _, Or.inl hnext⟩
      · refine ⟨Nat.min_le_left _ _, ?_⟩
        rcases Nat.le_total (f.byteOffset + v.clusterBytes) f.dirent.fileSize with hle | hle
        · rw [Nat.min_eq_left hle]
          exact Or.inl hnext
        · rw [Nat.min_eq_right hle]
          exact Or.inr ⟨hfile, le_refl _⟩
    refine ⟨cnt, _, _, hread, rfl, rfl, fun i hi => ?_, ?_⟩
    · rw [patch_slice_of_lt hi, block_of_lt d hi, hsector]
      rfl
    · rintro y l' rfl
      have hy : fatEntry v d c = y := h.chain.tail.head_eq
      have htail := h.chain.tail
      rw [hy] at htail ⊢
      rw [List.length_cons] at hlt
      refine ⟨htail, h.start_ne, rfl, ho'.2, ?_⟩
      change o' + _ < _
      have hle := ho'.1
      omega
  · right
    rw [not_or, Bool.not_eq_true, Nat.not_lt] at hmore
    refine ⟨fatFileEof, ?_⟩
    unfold fatReadFile
    rw [if_neg (show f.dirent.startCluster ≠ clusRoot from h.start_ne), if_pos (by simp [hmore])]
    rfl

/-- The loop stops before anything has changed, or after the only free cluster has been linked behind a
file that has no free slot before its last cluster. -/
theorem AtFileCluster.createLoop_panic (hconf : Confined v d) (h : AtFileCluster v d f c l)
    (hrun : createLoop v name dir n f pc buf d = (.error .panic, d')) :
    (d' = d ∧ freeClusters v d = ∅) ∨ (firstFree d (chainSlots v (c :: l).dropLast) = none ∧
      ∃ x, freeClusters v d = {x} ∧ d' = linked v d ((c :: l).getLast (List.cons_ne_nil c l)) x) := by
  induction n generalizing f c l pc buf with
  | zero => exact absurd (congrArg Prod.fst hrun) (by simp [createLoop, FatM.stop])
  | succ n ih =>
      have hc := h.chain.inRange c List.mem_cons_self
      rcases h.fatReadFile_next hg buf with
        ⟨cnt, out, f', hread, hdirent, hcur, hholds, hnext⟩ | ⟨cnt, hread⟩
      · rw [createLoop_read hread] at hrun
        cases l with
        | nil =>
            have heof := h.chain.tail.eof_of_nil
            rw [hcur, if_pos heof, h.current] at hrun
            rcases createInNew_panic hg hconf hc (h.chain.fatEntry_ne_zero List.mem_cons_self) hrun with
              hsame | hlinked
            · exact Or.inl hsame
            · exact Or.inr ⟨rfl, hlinked⟩
        | cons y l =>
            have hy : fatEntry v d c = y := h.chain.tail.head_eq
            have hyr := h.chain.tail.inRange y List.mem_cons_self
            have heof : clusEof y = false := by
              rw [← Bool.not_eq_true, clusEof_iff]
              have := hyr.2.1
              omega
            rw [hcur, hy, heof, if_neg Bool.false_ne_true] at hrun
            have hslots := hholds.firstFree_eq hg
            cases hi : firstIndex (fun i => isFreeSlot (readEnt (patch buf 0 out) (direntSize * i)))
                ((v.clusterBytes + 31) / direntSize) 0 with
            | some i =>
                rw [hi] at hrun
                exact Or.inl (createFileDirent_panic hg hrun)
            | none =>
                rw [hi] at hrun hslots
                rcases ih (hnext y l rfl) hrun with hsame | ⟨hnone, hlinked⟩
                · exact Or.inl hsame
                · refine Or.inr ⟨?_, hlinked⟩
                  rw [List.dropLast_cons_cons, chainSlots_cons, firstFree_append, hslots, hnone]
                  rfl
      · have heof : clusEof f.currentCluster = false := by
          rw [h.current, ← Bool.not_eq_true, clusEof_iff]
          have := hc.2.1
          omega
        rw [createLoop_read hread, heof, if_neg Bool.false_ne_true] at hrun
        cases hi : firstIndex (fun i => isFreeSlot (readEnt (patch buf 0 []) (direntSize * i)))
            ((v.clusterBytes + 31) / direntSize) 0 with
        | some i =>
            rw [hi] at hrun
            exact Or.inl (createFileDirent_panic hg hrun)
        | none =>
            rw [hi] at hrun
            exact ih h hrun

/-- A creation in the root directory stops before anything has changed. -/
theorem RootHandle.createLoop_panic {q : Nat} (hf : RootHandle f) (hcur : clusEof f.currentCluster = false)
    (hoff : f.byteOffset = sectorSize * q) (hq : q ≤ v.rootSectors)
    (hrun : createLoop v name dir n f pc buf d = (.error .panic, d')) : d' = d ∧ freeClusters v d = ∅ := by
  have hcb := hg.clusterBytes
  have hpos := hg.sectorsPerCluster_pos
  have hspc := hg.sectorsPerCluster_lt
  have hlt := hg.anyRoot.root_lt
  induction n generalizing f q pc buf with
  | zero => exact absurd (congrArg Prod.fst hrun) (by simp [createLoop, FatM.stop])
  | succ n ih =>
      -- The handle after the read is again at the start of a sector.
      have hread : ∃ cnt out f' q', fatReadFile v f (fun _ => 0) v.clusterBytes d = (.ok (cnt, out, f'), d) ∧
          RootHandle f' ∧ f'.currentCluster = f.currentCluster ∧ f'.byteOffset = sectorSize * q' ∧
            q' ≤ v.rootSectors := by
        rcases Nat.eq_or_lt_of_le hq with rfl | hmore
        · exact ⟨_, _, f, v.rootSectors, hf.fatReadFile_end hg.anyRoot.rootGeometry _ hoff.ge, hf, rfl, hoff,
            le_refl _⟩
        · refine ⟨_, _, _, min (q + v.sb.sectorsPerCluster) v.rootSectors,
            hf.fatReadFile_good hg.anyRoot.rootGeometry _ (by unfold sectorSize at *; omega)
              (by unfold sectorSize at *; omega) ⟨by unfold sectorSize at *; omega, Or.inl ⟨_, hoff⟩⟩,
            ⟨hf.root, hf.mode⟩, rfl, ?_, Nat.min_le_right _ _⟩
          change min (f.byteOffset + v.clusterBytes) _ = _
          unfold sectorSize at *
          omega
      obtain ⟨cnt, out, f', q', hread, hf', hcur', hoff', hq'⟩ := hread
      rw [createLoop_read hread, hcur', hcur, if_neg Bool.false_ne_true] at hrun
      cases hi : firstIndex (fun i => isFreeSlot (readEnt (patch buf 0 out) (direntSize * i)))
          ((v.clusterBytes + 31) / direntSize) 0 with
      | some i =>
          rw [hi] at hrun
          exact createFileDirent_panic hg hrun
      | none =>
          rw [hi] at hrun
          exact ih hf' (hcur'.symm ▸ hcur) hoff' hq' hrun

end Loop

/-! ## Opening with `FAT16_CTL_CREATE` -/

/-- The operation does not end in a panic. -/
def NoPanic {α : Type} (x : FatM α) : Prop := ∀ d, (x d).1 ≠ .error .panic

namespace NoPanic

variable {α β : Type} {x : FatM α} {g : α → FatM β}

theorem pure (a : α) : NoPanic (Pure.pure a : FatM α) := fun _ => by simp

theorem stop {e : Stop} (he : e ≠ .panic) : NoPanic (FatM.stop e : FatM α) := fun _ h =>
  he (Except.error.inj h)

/-- A panic comes from the second part. -/
theorem after (hx : NoPanic x) (h : (x >>= g) d = (.error .panic, d')) :
    ∃ a d₁, x d = (.ok a, d₁) ∧ g a d₁ = (.error .panic, d') := by
  rcases FatM.bind_eq_error h with hstop | hrest
  · exact absurd (congrArg Prod.fst hstop) (hx d)
  · exact hrest

/-- A panic comes from the first part. -/
theorem before (hg : ∀ a, NoPanic (g a)) (h : (x >>= g) d = (.error .panic, d')) : x d = (.error .panic, d') := by
  rcases FatM.bind_eq_error h with hstop | ⟨a, d₁, -, hrest⟩
  · exact hstop
  · exact absurd (congrArg Prod.fst hrest) (hg a d₁)

theorem bind (hx : NoPanic x) (hg : ∀ a, NoPanic (g a)) : NoPanic (x >>= g) := by
  intro d h
  obtain ⟨a, d₁, -, hrest⟩ := hx.after (Prod.ext h rfl : (x >>= g) d = (.error .panic, ((x >>= g) d).2))
  exact hg a d₁ (congrArg Prod.fst hrest)

theorem ataReadSector (lbaStart secNum bufSize : Nat) (buf : Buf) :
    NoPanic (ataReadSector lbaStart secNum bufSize buf) := fun _ => by simp [Fat.ataReadSector]

end NoPanic

section Opening

variable (hg : Geometry v)

theorem fatGetNextCluster_noPanic (c : Nat) : NoPanic (fatGetNextCluster v c) :=
  ((NoPanic.ataReadSector _ _ _ _).bind fun _ => NoPanic.pure _).bind fun _ => NoPanic.pure _

theorem searchRootLoop_noPanic (file : Fat16File) (key : Mem) (n lba : Nat) :
    NoPanic (searchRootLoop v file key n lba) := by
  induction n generalizing lba with
  | zero => exact NoPanic.stop (by decide)
  | succ n ih =>
      rw [searchRootLoop]
      split
      · refine (NoPanic.ataReadSector _ _ _ _).bind fun r => ?_
        dsimp only
        split
        · exact NoPanic.pure _
        · exact ih _
      · exact NoPanic.pure _

include hg

theorem searchFileLoop_noPanic (file : Fat16File) (key : Mem) (n c : Nat) :
    NoPanic (searchFileLoop v file key n c) := by
  intro d
  induction n generalizing c with
  | zero => exact NoPanic.stop (by decide) d
  | succ n ih =>
      by_cases hc : EndsSearch v d key c
      · rw [searchFileLoop_ends hg hc]
        simp
      · rw [searchFileLoop_passes hg hc]
        exact ih _

theorem findLoop_noPanic (fuel n : Nat) (file : Fat16File) (path : List UInt8) :
    NoPanic (findLoop v fuel n file path) := by
  induction n generalizing file path with
  | zero => exact NoPanic.stop (by decide)
  | succ n ih =>
      rw [findLoop]
      dsimp only
      split
      · exact NoPanic.stop (by decide)
      · split
        · exact NoPanic.pure _
        · have hsearch : ∀ name s, NoPanic (fatSearchFile v fuel file name s) := by
            intro name s
            unfold fatSearchFile
            split
            · exact searchRootLoop_noPanic file _ _ _
            · exact searchFileLoop_noPanic hg file _ _ _
          refine (hsearch _ _).bind fun found => ?_
          split
          · exact NoPanic.pure _
          · exact ih _ _
          · exact NoPanic.pure _

/-- Lookups do not end in a panic. -/
theorem fatOpenExisting_noPanic (fuel : Nat) (path : List UInt8) (flag : Flags) :
    NoPanic (fatOpenExisting v fuel path flag) := by
  have hfind : NoPanic (fat16Find v fuel (newFat16File flag) path) := by
    unfold fat16Find
    split
    · exact NoPanic.pure _
    · exact findLoop_noPanic hg fuel _ _ _
  have hlast : ∀ n c, NoPanic (lastCluster v n c) := by
    intro n
    induction n with
    | zero => exact fun _ => NoPanic.stop (by decide)
    | succ n ih =>
        intro c
        rw [lastCluster]
        refine (fatGetNextCluster_noPanic c).bind fun tmp => ?_
        split
        · exact ih _
        · exact NoPanic.pure _
  unfold fatOpenExisting
  refine hfind.bind fun found => ?_
  split
  · exact NoPanic.pure _
  · split
    · exact (hlast _ _).bind fun _ => NoPanic.pure _
    · exact NoPanic.pure _

/-- A panic comes from the creation in the directory of the path. -/
theorem fatOpen_panic {path : List UInt8} {flag : Flags} (hrun : fatOpen v fuel path flag d = (.error .panic, d')) :
    ∃ base name f, getBasedir path = some base ∧
      (fatOpenExisting v fuel base Flags.none d).1 = .ok (some f) ∧
      fatCreateFile v fuel f name flag.dir d = (.error .panic, d') := by
  have hlookup := fatOpenExisting_noPanic hg fuel
  unfold fatOpen at hrun
  split at hrun
  next =>
    obtain ⟨found, d₁, hfound, hrest⟩ := (hlookup _ _).after hrun
    obtain rfl := (fatOpenExisting_quiet _ _ _ _).same hfound
    cases found with
    | some g => exact absurd (congrArg Prod.fst hrest) (by simp)
    | none =>
        cases hbase : getBasedir path with
        | none =>
            rw [hbase] at hrest
            exact absurd (congrArg Prod.fst hrest) (by simp [FatM.stop])
        | some base =>
            cases hname : getFilename path with
            | none =>
                rw [hbase, hname] at hrest
                exact absurd (congrArg Prod.fst hrest) (by simp)
            | some name =>
                rw [hbase, hname] at hrest
                dsimp only at hrest
                split at hrest
                next => exact absurd (congrArg Prod.fst hrest) (by simp [FatM.stop])
                next =>
                  obtain ⟨parent, d₂, hparent, hmake⟩ := (hlookup _ _).after hrest
                  obtain rfl := (fatOpenExisting_quiet _ _ _ _).same hparent
                  cases parent with
                  | none => exact absurd (congrArg Prod.fst hmake) (by simp)
                  | some f =>
                      refine ⟨base, name, f, rfl, congrArg Prod.fst hparent, NoPanic.before (fun _ => ?_) hmake⟩
                      refine (hlookup _ _).bind fun again => ?_
                      cases again with
                      | none => exact NoPanic.stop (by simp)
                      | some g => exact NoPanic.pure _
  next => exact absurd (congrArg Prod.fst hrun) (hlookup _ _ _)

end Opening

/-! ## The volume after a panic -/

/-- The entries that a search sees in some slots. -/
def listing (d : Disk) (A : List Nat) : List DirEnt :=
  (A.map (readEnt d)).filter fun e => !clusFree e.startCluster

variable (v) in
/-- The subdirectory with the first cluster `s` has the entries `es`. -/
def Lists (d : Disk) (s : Nat) (es : List DirEnt) : Prop :=
  ∃ l, IsChain v d s l ∧ listing d (chainSlots v l) = es

variable (v fuel) in
/-- Every path resolves, and every directory is listed, as before. -/
structure SameVolume (d d' : Disk) : Prop where
  resolves : ∀ file path, (fat16Find v fuel file path d').1 = (fat16Find v fuel file path d).1
  root : listing d' (rootSlots v) = listing d (rootSlots v)
  lists : ∀ path f es, (fatOpenExisting v fuel path Flags.none d).1 = .ok (some f) →
    isDirectory f.dirent = true → Lists v d f.dirent.startCluster es → Lists v d' f.dirent.startCluster es

variable (v) in
/-- A subdirectory that has no free slot before its last cluster would get a cluster without entries. -/
def TakesBlank (d : Disk) (f : Fat16File) (l : List Nat) : Prop :=
  f.dirent.startCluster ≠ clusRoot → firstFree d (searchedSlots v f l) = none →
    ∀ x ∈ freeClusters v d, Blank v d x

theorem SameVolume.refl (d : Disk) : SameVolume v fuel d d :=
  ⟨fun _ _ => rfl, rfl, fun _ _ _ _ _ h => h⟩

theorem listing_append (A B : List Nat) : listing d (A ++ B) = listing d A ++ listing d B := by
  unfold listing
  rw [List.map_append, List.filter_append]

theorem listing_congr {A : List Nat} (h : ∀ a ∈ A, readEnt d' a = readEnt d a) :
    listing d' A = listing d A := by
  unfold listing
  rw [List.map_congr_left h]

/-- The clusters without entries are those with an empty listing. -/
theorem listing_eq_nil_iff {x : Nat} : listing d (clusterSlots v x) = [] ↔ Blank v d x := by
  unfold listing Blank
  simp [List.filter_eq_nil_iff, clusFree]

section Linking

variable (hg : Geometry v) {last x s : Nat} {l : List Nat} {es : List DirEnt}
include hg

theorem readEnt_linked (hlast : InRange v last) (hx : InRange v x) {a : Nat}
    (ha : sectorSize * v.rootDirStart ≤ a) : readEnt (linked v d last x) a = readEnt d a :=
  readEnt_congr fun _ hz _ => linked_of_le hg hlast hx (ha.trans hz)

theorem listing_linked (hlast : InRange v last) (hx : InRange v x) (l : List Nat) :
    listing (linked v d last x) (chainSlots v l) = listing d (chainSlots v l) := by
  refine listing_congr fun a ha => readEnt_linked hg hlast hx ?_
  obtain ⟨c, -, hmem⟩ := mem_chainSlots.mp ha
  obtain ⟨i, -, rfl⟩ := mem_clusterSlots.mp hmem
  exact (hg.root_le_clusterAddr c).trans (Nat.le_add_right _ _)

/-- The directory that has got the cluster lists what it did, and what the cluster has. -/
theorem lists_linked (hchain : IsChain v d s (l ++ [last])) (hx : x ∈ freeClusters v d) :
    Lists v (linked v d last x) s es ↔
      listing d (chainSlots v (l ++ [last])) ++ listing d (clusterSlots v x) = es := by
  have hlast := hchain.inRange last (by simp)
  have hxr := (mem_freeClusters.mp hx).1
  have hgrown : IsChain v (linked v d last x) s (l ++ [last, x]) := (Extends.link hchain hx).chain
  have hlisting : listing (linked v d last x) (chainSlots v (l ++ [last, x])) =
      listing d (chainSlots v (l ++ [last])) ++ listing d (clusterSlots v x) := by
    have hsplit : l ++ [last, x] = (l ++ [last]) ++ [x] := by simp
    rw [listing_linked hg hlast hxr, hsplit, chainSlots_append, listing_append]
    congr 2
    simp [chainSlots]
  constructor
  · rintro ⟨m, hm, rfl⟩
    rw [hm.unique hgrown, hlisting]
  · rintro rfl
    exact ⟨_, hgrown, hlisting⟩

/-- The other directories have the clusters that they had. -/
theorem lists_linked_of_not_mem (hlast : InRange v last) (hx : x ∈ freeClusters v d)
    (hchain : IsChain v d s l) (hmem : last ∉ l) :
    Lists v (linked v d last x) s (listing d (chainSlots v l)) := by
  obtain ⟨hxr, hxz⟩ := mem_freeClusters.mp hx
  refine ⟨l, hchain.congr fun z hz => ?_, listing_linked hg hlast hxr l⟩
  have hzx : z ≠ x := by
    rintro rfl
    exact hchain.fatEntry_ne_zero hz hxz
  have hzl : z ≠ last := by
    rintro rfl
    exact hmem hz
  rw [linked, fatEntry_setFat_of_ne hzx, fatEntry_setFat_of_ne hzl]

/-- Linking a cluster without entries changes nothing that can be seen. -/
theorem sameVolume_linked (hfuel : 2 ^ 16 ≤ fuel) (hlast : InRange v last)
    (heof : clusEof (fatEntry v d last) = true) (hx : x ∈ freeClusters v d) (hblank : Blank v d x) :
    SameVolume v fuel d (linked v d last x) := by
  have hxr := (mem_freeClusters.mp hx).1
  refine ⟨fat16Find_linked hg hfuel hlast heof hx hblank, listing_congr fun a ha => ?_, ?_⟩
  · obtain ⟨i, -, rfl⟩ := mem_sectorSlots.mp ha
    exact readEnt_linked hg hlast hxr (Nat.le_add_right _ _)
  · rintro path g es - - ⟨l, hchain, rfl⟩
    by_cases hmem : last ∈ l
    · obtain ⟨l₁, l₂, rfl⟩ := List.append_of_mem hmem
      obtain rfl : l₂ = [] := by
        cases l₂ with
        | nil => rfl
        | cons y l₂ =>
            have htail := hchain.drop.tail
            have hnormal := (htail.inRange y List.mem_cons_self).clusNormal
            rw [htail.head_eq] at heof
            exact absurd (hnormal.symm.trans (not_clusNormal_of_eof heof)) (by decide)
      rw [lists_linked hg hchain hx, listing_eq_nil_iff.mpr hblank, List.append_nil]
    · exact lists_linked_of_not_mem hg hlast hx hchain hmem

end Linking

section Panics

variable (hg : Geometry v) (hspc : v.sb.sectorsPerCluster ≤ 128) (hconf : Confined v d) {l : List Nat}
  {base name : List UInt8} {dir : Bool}
include hg hspc hconf

/-- The disk when a creation stops. -/
theorem fatCreateFile_panic (hopen : (fatOpenExisting v fuel base Flags.none d).1 = .ok (some f))
    (hfile : f.dirent.startCluster = clusRoot ∨ IsChain v d f.dirent.startCluster l ∧ l ≠ [])
    (hrun : fatCreateFile v fuel f name dir d = (.error .panic, d')) :
    (d' = d ∧ freeClusters v d = ∅) ∨ (f.dirent.startCluster ≠ clusRoot ∧
      firstFree d (searchedSlots v f l) = none ∧ ∃ l₀ last x, l = l₀ ++ [last] ∧
        freeClusters v d = {x} ∧ d' = linked v d last x) := by
  unfold fatCreateFile at hrun
  by_cases hroot : f.dirent.startCluster = clusRoot
  · obtain ⟨hat, -⟩ := fatOpenExisting_rootBlock hg hopen hroot
    exact Or.inl (hat.toRootHandle.createLoop_panic hg hat.current hat.offset (by simp) hrun)
  · obtain ⟨hchain, hne⟩ := hfile.resolve_left hroot
    obtain ⟨c, l, rfl⟩ := List.exists_cons_of_ne_nil hne
    have hopened := fatOpenExisting_opened hg hopen rfl hroot
    have hc : f.dirent.startCluster = c := hchain.head_eq
    have hlen := hchain.length_le
    rw [List.length_cons] at hlen
    have hcb : v.clusterBytes ≤ 65536 := by
      rw [hg.clusterBytes]
      unfold sectorSize
      omega
    have hmul : (l.length + 1) * v.clusterBytes ≤ 0xFFEF * 65536 := Nat.mul_le_mul hlen hcb
    have hat : AtFileCluster v d f c l := by
      refine ⟨hc ▸ hchain, hroot, ?_, Or.inl ?_, ?_⟩
      · rw [hopened.current, hc]
      · rw [hopened.offset]
        exact dvd_zero _
      · rw [hopened.offset]
        omega
    rcases hat.createLoop_panic hg hconf hrun with hsame | ⟨hnone, x, hx, hd'⟩
    · exact Or.inl hsame
    · refine Or.inr ⟨hroot, ?_, _, _, x, (List.dropLast_append_getLast (List.cons_ne_nil c l)).symm, hx, hd'⟩
      rw [searchedSlots, if_neg hroot]
      exact hnone

/-- When an open that has to create a file stops for want of clusters, the volume is as it was if the
cluster that its directory has got had no entries; if the parent is a directory, only then. -/
theorem fatOpen_panic_same (hfuel : 2 ^ 16 ≤ fuel) {path : List UInt8} {flag : Flags}
    (hbase : getBasedir path = some base)
    (hopen : (fatOpenExisting v fuel base Flags.none d).1 = .ok (some f))
    (hfile : f.dirent.startCluster = clusRoot ∨ IsChain v d f.dirent.startCluster l ∧ l ≠ [])
    (hrun : fatOpen v fuel path flag d = (.error .panic, d')) :
    (TakesBlank v d f l → SameVolume v fuel d d') ∧
    (isDirectory f.dirent = true → SameVolume v fuel d d' → TakesBlank v d f l) := by
  obtain ⟨base', name, f', hbase', hopen', hmade⟩ := fatOpen_panic hg hrun
  obtain rfl := Option.some.inj (hbase.symm.trans hbase')
  obtain rfl := Option.some.inj (Except.ok.inj (hopen.symm.trans hopen'))
  rcases fatCreateFile_panic hg hspc hconf hopen hfile hmade with
    ⟨rfl, hempty⟩ | ⟨hsub, hnone, l₀, last, x, rfl, hfree, rfl⟩
  · refine ⟨fun _ => SameVolume.refl d', fun _ _ _ _ x hx => ?_⟩
    rw [hempty] at hx
    exact absurd hx (Finset.notMem_empty x)
  · obtain ⟨hchain, -⟩ := hfile.resolve_left hsub
    have hx : x ∈ freeClusters v d := hfree ▸ Finset.mem_singleton_self x
    have hlast := hchain.inRange last (by simp)
    have heof : clusEof (fatEntry v d last) = true := hchain.drop.tail.eof_of_nil
    constructor
    · intro htakes
      exact sameVolume_linked hg hfuel hlast heof hx (htakes hsub hnone x hx)
    · intro hdir hsame _ _ y hy
      obtain rfl : y = x := Finset.mem_singleton.mp (hfree ▸ hy)
      have hlists := hsame.lists _ _ _ hopen hdir ⟨_, hchain, rfl⟩
      rw [lists_linked hg hchain hx] at hlists
      exact listing_eq_nil_iff.mp (List.append_right_eq_self.mp hlists)

end Panics

/-- A volume all clusters of which are in use but 4: the directory `P` has cluster 3, and the file `B` those
from 5 on. The first slot of cluster 4 has the entry `e`. -/
def oneFreeDisk (e : DirEnt) : Disk :=
  let d := tableDisk smallVolume fun c => if c = 4 then 0 else if c = 3 ∨ c = 255 then 0xFFFF else c + 1
  let d := writeEnt (writeEnt d 1024 (mkEnt [80] entAttrDir 3 0)) 1056 (mkEnt [66] 0 5 1)
  writeEnt (writeEnt (writeEnt d 2048 (mkEnt [46] entAttrDir 3 0)) 2080 (mkEnt [46, 46] entAttrDir 0 0)) 2560 e

/-- `FAT16_CTL_CREATE`. -/
def createFlag : Flags := { Flags.none with create := true }

/-- The call has ended in a panic. -/
def panicked : Except Stop (Option Fat16File) → Bool
  | .error .panic => true
  | _ => false

theorem exists_panic {x : Except Stop (Option Fat16File) × Disk} (h : panicked x.1 = true) :
    ∃ d', x = (.error .panic, d') := by
  match x, h with
  | (.error .panic, d'), _ => exact ⟨d', rfl⟩

theorem confined_smallVolume (d : Disk) : Confined smallVolume d := by
  refine ⟨by decide, fun x hx hlooks => ?_⟩
  have hlt : x < 256 := hx
  have hgt := hlooks.1
  rw [u16_of_lt (by omega)] at hgt
  exact ⟨by omega, by omega, hlt⟩

/-- The free cluster has no entries. -/
theorem fatOpen_panic_sample : ∃ d',
    fatOpen smallVolume (2 ^ 16) [47, 80, 47, 81] createFlag (oneFreeDisk fun _ => 0) = (.error .panic, d') ∧
    SameVolume smallVolume (2 ^ 16) (oneFreeDisk fun _ => 0) d' := by
  obtain ⟨f, hparent, htest⟩ : ∃ f, (fatOpenExisting smallVolume (2 ^ 16) [47, 80, 47] Flags.none
      (oneFreeDisk fun _ => 0)).1 = .ok (some f) ∧ headsAt true 3 f = true := exists_found (by decide)
  obtain ⟨d', hrun⟩ := exists_panic (x := fatOpen smallVolume (2 ^ 16) [47, 80, 47, 81] createFlag
    (oneFreeDisk fun _ => 0)) (by decide +kernel)
  rw [headsAt, Bool.and_eq_true, beq_iff_eq, beq_iff_eq] at htest
  have hchain : IsChain smallVolume (oneFreeDisk fun _ => 0) f.dirent.startCluster [3] := by
    rw [htest.2]
    exact chain_singleton (by decide) (by decide)
  have htakes : TakesBlank smallVolume (oneFreeDisk fun _ => 0) f [3] := by
    intro _ _ x hx
    obtain ⟨hxr, hxz⟩ := mem_freeClusters.mp hx
    have honly : ∀ y < 256, fatEntry smallVolume (oneFreeDisk fun _ => 0) y = 0 → y = 4 := by decide +kernel
    obtain rfl := honly x hxr.2.2 hxz
    unfold Blank
    decide
  exact ⟨d', hrun, (fatOpen_panic_same smallVolume_geometry (by decide) (confined_smallVolume _) (le_refl _)
    (by decide) hparent (Or.inr ⟨hchain, by simp⟩) hrun).1 htakes⟩

/-- The free cluster has an old entry `X`: after the panic `/P/X` is a file. -/
theorem fatOpen_panic_garbage : ∃ f d',
    (fatOpenExisting smallVolume (2 ^ 16) [47, 80, 47] Flags.none (oneFreeDisk (mkEnt [88] 0 5 1))).1 =
      .ok (some f) ∧
    isDirectory f.dirent = true ∧
    IsChain smallVolume (oneFreeDisk (mkEnt [88] 0 5 1)) f.dirent.startCluster [3] ∧
    fatOpen smallVolume (2 ^ 16) [47, 80, 47, 81] createFlag (oneFreeDisk (mkEnt [88] 0 5 1)) =
      (.error .panic, d') ∧
    ¬SameVolume smallVolume (2 ^ 16) (oneFreeDisk (mkEnt [88] 0 5 1)) d' := by
  obtain ⟨f, hparent, htest⟩ : ∃ f, (fatOpenExisting smallVolume (2 ^ 16) [47, 80, 47] Flags.none
      (oneFreeDisk (mkEnt [88] 0 5 1))).1 = .ok (some f) ∧ headsAt true 3 f = true :=
    exists_found (by decide)
  obtain ⟨d', hrun⟩ := exists_panic (x := fatOpen smallVolume (2 ^ 16) [47, 80, 47, 81] createFlag
    (oneFreeDisk (mkEnt [88] 0 5 1))) (by decide +kernel)
  rw [headsAt, Bool.and_eq_true, beq_iff_eq, beq_iff_eq] at htest
  have hchain : IsChain smallVolume (oneFreeDisk (mkEnt [88] 0 5 1)) f.dirent.startCluster [3] := by
    rw [htest.2]
    exact chain_singleton (by decide) (by decide)
  refine ⟨f, d', hparent, htest.1, hchain, hrun, fun hsame => ?_⟩
  have hbefore : foundWith (headsAt false 5) (fat16Find smallVolume (2 ^ 16) (newFat16File Flags.none)
      [47, 80, 47, 88] (oneFreeDisk (mkEnt [88] 0 5 1))).1 = false := by decide
  have hafter : foundWith (headsAt false 5) (fat16Find smallVolume (2 ^ 16) (newFat16File Flags.none)
      [47, 80, 47, 88] (fatOpen smallVolume (2 ^ 16) [47, 80, 47, 81] createFlag
        (oneFreeDisk (mkEnt [88] 0 5 1))).2).1 = true := by decide +kernel
  rw [hrun, hsame.resolves, hbefore] at hafter
  exact absurd hafter Bool.false_ne_true

end TsOs.Fat
