import TsOs.Fat.Overwriting
import TsOs.Fat.Paths

/-!
# Handles

What a handle that `fat_open` returns may be used for. This depends on its flags, which
the branches of `fat_open` build in different ways, and on its entry: the root directory has
an entry of zeros, without the attribute of a directory, and only for the path `/` a handle on
it has the cluster number of the root. Nothing here depends on the volume.
-/

namespace TsOs.Fat
open ByteMemory

variable {v : Fat16Volume} {d d' e e' : Disk} {fuel : Nat} {file f g : Fat16File} {path : List UInt8}
  {flag : Flags} {data : List UInt8}

/-! ## What a lookup finds -/

/-- A handle that a search from `file` returns: on an entry with a cluster, with the flags of `file`. -/
structure Found (file f : Fat16File) : Prop where
  start_ne : f.dirent.startCluster ≠ 0
  flag : f.flag = file.flag

theorem searchRootLoop_found {name : Mem} {n lbaStart : Nat}
    (h : searchRootLoop v file name n lbaStart d = (.ok (some f), d')) : Found file f := by
  induction n generalizing lbaStart with
  | zero => exact absurd (congrArg Prod.fst h) (by simp [searchRootLoop, FatM.stop])
  | succ n ih =>
      rw [searchRootLoop] at h
      split at h
      next =>
        obtain ⟨⟨readSector, buf⟩, d₁, hread, hrest⟩ := FatM.bind_eq_ok h
        obtain rfl := (Quiet.ataReadSector _ _ _ _).same hread
        dsimp only at hrest
        cases hi : searchNameInBlock buf (readSector * v.sb.bytesPerSector) name with
        | none =>
            rw [hi] at hrest
            exact ih hrest
        | some i =>
            rw [hi] at hrest
            obtain rfl := Option.some.inj (FatM.ok_inj hrest)
            exact ⟨(searchNameInBlock_spec hi).2.1, rfl⟩
      next => exact absurd (congrArg Prod.fst h) (by simp)

theorem searchFileLoop_found {name : Mem} {n cluster : Nat}
    (h : searchFileLoop v file name n cluster d = (.ok (some f), d')) : Found file f := by
  induction n generalizing cluster with
  | zero => exact absurd (congrArg Prod.fst h) (by simp [searchFileLoop, FatM.stop])
  | succ n ih =>
      rw [searchFileLoop] at h
      split at h
      next =>
        obtain ⟨⟨readSector, buf⟩, d₁, hread, hrest⟩ := FatM.bind_eq_ok h
        obtain rfl := (Quiet.ataReadSector _ _ _ _).same hread
        dsimp only at hrest
        split at hrest
        next => exact absurd (congrArg Prod.fst hrest) (by simp [FatM.stop])
        next =>
          cases hi : searchNameInBlock buf v.clusterBytes name with
          | none =>
              rw [hi] at hrest
              obtain ⟨next, d₂, hnext, hrest⟩ := FatM.bind_eq_ok hrest
              obtain rfl := (fatGetNextCluster_quiet _ _).same hnext
              exact ih hrest
          | some i =>
              rw [hi] at hrest
              obtain rfl := Option.some.inj (FatM.ok_inj hrest)
              exact ⟨(searchNameInBlock_spec hi).2.1, rfl⟩
      next => exact absurd (congrArg Prod.fst h) (by simp)

theorem fatSearchFile_found {name : List UInt8} {start : Nat}
    (h : fatSearchFile v fuel file name start d = (.ok (some f), d')) : Found file f := by
  unfold fatSearchFile at h
  split at h
  · exact searchRootLoop_found h
  · exact searchFileLoop_found h

theorem findComponents_found {cs : List (List UInt8)} (hcs : cs ≠ [])
    (h : findComponents v fuel file cs d = (.ok (some f), d')) : Found file f := by
  induction cs generalizing file with
  | nil => exact absurd rfl hcs
  | cons c cs ih =>
      rw [findComponents] at h
      split at h
      next => exact absurd (congrArg Prod.fst h) (by simp [FatM.stop])
      next =>
        obtain ⟨found, d₁, hfound, hrest⟩ := FatM.bind_eq_ok h
        obtain rfl := (fatSearchFile_quiet _ _ _ _ _).same hfound
        cases found with
        | none => exact absurd (congrArg Prod.fst hrest) (by simp)
        | some g =>
            have hg := fatSearchFile_found hfound
            cases cs with
            | nil =>
                obtain rfl := Option.some.inj (FatM.ok_inj hrest)
                exact hg
            | cons c' cs =>
                have hf := ih (List.cons_ne_nil _ _) hrest
                exact ⟨hf.start_ne, hf.flag.trans hg.flag⟩

/-! ## The root and its spellings -/

/-- The handle on the root that a lookup returns. -/
def rootFound (path : List UInt8) (file : Fat16File) : Fat16File :=
  if path = [slash] then
    { file with
      dirent := rootEnt
      currentCluster := clusRoot
      direntCluster := 0xFF
      direntSector := 0xFF
      flag := { file.flag with isRoot := true } }
  else { file with dirent := rootEnt }

@[simp] theorem rootFound_dirent : (rootFound path file).dirent = rootEnt := by
  unfold rootFound
  split <;> rfl

@[simp] theorem rootFound_flag_write : (rootFound path file).flag.write = file.flag.write := by
  unfold rootFound
  split <;> rfl

theorem fat16Find_root (hroot : components path = []) :
    fat16Find v fuel file path d = (.ok (some (rootFound path file)), d) := by
  unfold fat16Find rootFound
  split
  next => rfl
  next =>
    rw [findLoop_eq v fuel (Nat.lt_succ_self _), hroot]
    rfl

theorem fat16Find_found (hpath : components path ≠ [])
    (h : fat16Find v fuel file path d = (.ok (some f), d')) : Found file f := by
  unfold fat16Find at h
  split at h
  next hslash =>
    rw [hslash] at hpath
    exact absurd rfl hpath
  next =>
    rw [findLoop_eq v fuel (Nat.lt_succ_self _)] at h
    have hfound := findComponents_found hpath h
    exact ⟨hfound.start_ne, hfound.flag⟩

/-- `fat_open` without `FAT16_CTL_CREATE` permits writing when it is asked for writing or appending. -/
theorem fatOpenExisting_flag_write (h : fatOpenExisting v fuel path flag d = (.ok (some f), d')) :
    f.flag.write = (flag.write || flag.append) ∧ (components path ≠ [] →
      f.flag = { flag with write := flag.write || flag.append } ∧ f.dirent.startCluster ≠ 0) ∧
      (components path = [] → f.dirent = rootEnt) := by
  unfold fatOpenExisting at h
  obtain ⟨found, d₁, hfound, hrest⟩ := FatM.bind_eq_ok h
  obtain rfl := (fat16Find_quiet _ _ _ _).same hfound
  cases found with
  | none => exact absurd (congrArg Prod.fst hrest) (by simp)
  | some g =>
      have hg : g.flag.write = flag.write ∧ (components path ≠ [] → g.flag = flag ∧
          g.dirent.startCluster ≠ 0) ∧ (components path = [] → g.dirent = rootEnt) := by
        by_cases hroot : components path = []
        · rw [fat16Find_root hroot] at hfound
          obtain rfl := Option.some.inj (FatM.ok_inj hfound)
          exact ⟨rootFound_flag_write, fun hne => absurd hroot hne, fun _ => rootFound_dirent⟩
        · have hg := fat16Find_found hroot hfound
          exact ⟨congrArg Flags.write hg.flag, fun _ => ⟨hg.flag, hg.start_ne⟩,
            fun hnil => absurd hnil hroot⟩
      obtain ⟨hwrite, hne, hnil⟩ := hg
      dsimp only at hrest
      by_cases happend : flag.append = true
      · rw [if_pos happend] at hrest
        obtain ⟨c, d₂, -, hlast⟩ := FatM.bind_eq_ok hrest
        obtain rfl := Option.some.inj (FatM.ok_inj hlast)
        have hmode : (flag.write || flag.append) = true := by rw [happend, Bool.or_true]
        refine ⟨hmode.symm, fun hpath => ⟨?_, (hne hpath).2⟩, hnil⟩
        obtain rfl := (hne hpath).1
        rw [hmode]
      · rw [if_neg happend] at hrest
        obtain rfl := Option.some.inj (FatM.ok_inj hrest)
        have hmode : (flag.write || flag.append) = flag.write := by simp [happend]
        refine ⟨hwrite.trans hmode.symm, fun hpath => ⟨?_, (hne hpath).2⟩, hnil⟩
        obtain rfl := (hne hpath).1
        rw [hmode]

/-- The root is always there. -/
theorem fatOpenExisting_root_ne (hroot : components path = []) :
    (fatOpenExisting v fuel path flag d).1 ≠ .ok none := by
  intro hnone
  have hrun := (fatOpenExisting_quiet v fuel path flag).eq hnone
  unfold fatOpenExisting at hrun
  rw [FatM.bind_ok (fat16Find_root hroot)] at hrun
  dsimp only at hrun
  split at hrun
  next =>
    obtain ⟨c, d₁, -, hlast⟩ := FatM.bind_eq_ok hrun
    exact absurd (congrArg Prod.fst hlast) (by simp)
  next => exact absurd (congrArg Prod.fst hrun) (by simp)

/-- A handle whose entry has no attribute of a directory is refused a write exactly when its flags
do not permit writing. -/
theorem fatWriteFile_refused_iff (hreg : isDirectory f.dirent = false) :
    fatWriteFile v f data d = (.ok (-2, f), d) ↔ f.flag.write = false := by
  unfold fatWriteFile
  rw [hreg, if_neg Bool.false_ne_true]
  cases hmode : f.flag.write with
  | false => exact iff_of_true rfl rfl
  | true =>
      refine iff_of_false (fun hrun => ?_) (by decide)
      rw [if_neg (by decide)] at hrun
      split at hrun
      next => exact absurd (congrArg Prod.fst (FatM.ok_inj hrun)) (by simp [fatFileEof])
      next =>
        obtain ⟨r, d₁, -, hrest⟩ := FatM.bind_eq_ok hrun
        obtain ⟨u, d₂, -, hlast⟩ := FatM.bind_eq_ok hrest
        have hcount : (data.length : Int) = -2 :=
          congrArg Prod.fst (FatM.ok_inj hlast)
        omega

/-- `fat_delete_file` refuses the root under the path `/` only. -/
theorem fatDeleteFile_root_iff (hroot : ∀ x ∈ path, x = slash) :
    fatDeleteFile v fuel path d = (.ok (-1), d) ↔ path = [slash] := by
  have hopen : fatOpenExisting v fuel path Flags.none d =
      (.ok (some (rootFound path (newFat16File Flags.none))), d) := by
    unfold fatOpenExisting
    rw [FatM.bind_ok (fat16Find_root (components_eq_nil_iff.mpr hroot))]
    rfl
  unfold fatDeleteFile
  rw [FatM.bind_ok hopen]
  dsimp only
  constructor
  · intro hrun
    by_contra hpath
    have hcur : (rootFound path (newFat16File Flags.none)).currentCluster ≠ clusRoot := by
      rw [rootFound, if_neg hpath]
      decide
    have hreg : isDirectory (rootFound path (newFat16File Flags.none)).dirent = false := by
      rw [rootFound_dirent]
      rfl
    rw [if_neg hcur, hreg, if_neg Bool.false_ne_true] at hrun
    obtain ⟨u, d₁, -, hrest⟩ := FatM.bind_eq_ok hrun
    obtain ⟨u', d₂, -, hlast⟩ := FatM.bind_eq_ok hrest
    exact absurd (FatM.ok_inj hlast) (by decide)
  · rintro rfl
    rfl

theorem fatDeleteFile_root_sample :
    fatDeleteFile smallVolume (2 ^ 16) [47] (fileDisk [3] 3 [1, 2, 3]) = (.ok (-1), fileDisk [3] 3 [1, 2, 3]) ∧
    fatDeleteFile smallVolume (2 ^ 16) [47, 47] (fileDisk [3] 3 [1, 2, 3]) ≠
      (.ok (-1), fileDisk [3] 3 [1, 2, 3]) := by
  have hone : ∀ x ∈ ([47] : List UInt8), x = slash := by simp [slash]
  have htwo : ∀ x ∈ ([47, 47] : List UInt8), x = slash := by simp [slash]
  exact ⟨(fatDeleteFile_root_iff hone).mpr rfl, fun h => absurd ((fatDeleteFile_root_iff htwo).mp h) (by decide)⟩

/-- Under the path `//` the call stops with an error. -/
theorem fatDeleteFile_root_panic :
    (fatDeleteFile smallVolume (2 ^ 16) [47, 47] fun _ => 0).1 = .error .panic := by decide

/-- A handle on the root has an entry of zeros. -/
theorem fatOpen_root (hroot : components path = []) (hopen : fatOpen v fuel path flag d = (.ok (some f), d')) :
    f.dirent = rootEnt ∧
      f.flag.write = if flag.create = true then flag.write else flag.write || flag.append := by
  by_cases hcreate : flag.create = true
  · rw [if_pos hcreate]
    cases hfound : (fatOpenExisting v fuel path { flag with create := false } d).1 with
    | error s =>
        unfold fatOpen at hopen
        rw [if_pos hcreate] at hopen
        obtain ⟨found, d₁, hrun, -⟩ := FatM.bind_eq_ok hopen
        rw [hrun] at hfound
        exact absurd hfound (by simp)
    | ok found =>
        cases found with
        | none => exact absurd hfound (fatOpenExisting_root_ne hroot)
        | some g =>
            have hrun := (fatOpenExisting_quiet _ _ _ _).eq hfound
            rw [fatOpen_existing hcreate hfound] at hopen
            obtain rfl := Option.some.inj (FatM.ok_inj hopen)
            exact ⟨(fatOpenExisting_flag_write hrun).2.2 hroot, rfl⟩
  · unfold fatOpen at hopen
    rw [if_neg hcreate] at hopen ⊢
    have hflag := fatOpenExisting_flag_write hopen
    exact ⟨hflag.2.2 hroot, hflag.1⟩

/-- A directory that is opened for writing or appending is refused a write exactly when it is not
the root, or the call has `FAT16_CTL_CREATE` and does not ask for writing. -/
theorem fatWriteFile_directory_iff (hopen : fatOpen v fuel path flag d = (.ok (some f), d'))
    (hmode : (flag.write || flag.append) = true)
    (hdir : isDirectory f.dirent = true ∨ ∀ x ∈ path, x = slash) (data : List UInt8) :
    fatWriteFile v f data d' = (.ok (-2, f), d') ↔
      ¬(∀ x ∈ path, x = slash) ∨ flag.create = true ∧ flag.write = false := by
  by_cases hroot : ∀ x ∈ path, x = slash
  · have hnil := components_eq_nil_iff.mpr hroot
    have hreg : isDirectory rootEnt = false := rfl
    have hf := fatOpen_root hnil hopen
    rw [fatWriteFile_refused_iff (by rw [hf.1, hreg]), hf.2]
    have hno : ¬¬(∀ x ∈ path, x = slash) := not_not_intro hroot
    by_cases hcreate : flag.create = true
    · rw [if_pos hcreate]
      exact ⟨fun hwrite => Or.inr ⟨hcreate, hwrite⟩, fun h => (h.resolve_left hno).2⟩
    · rw [if_neg hcreate, hmode]
      exact iff_of_false (by decide) fun h => hcreate (h.resolve_left hno).1
  · have hisDir := hdir.resolve_right hroot
    refine iff_of_true ?_ (Or.inl hroot)
    unfold fatWriteFile
    rw [if_pos hisDir]
    rfl

/-- The directory `P`. -/
theorem fatWriteFile_directory_sample : ∃ f d',
    fatOpen smallVolume (2 ^ 16) [47, 80] writeFlag (deletedSlotDisk 5) = (.ok (some f), d') ∧
    fatWriteFile smallVolume f [1] d' = (.ok (-2, f), d') := by
  obtain ⟨f, d', hf, hdir⟩ := exists_opened (p := fun f => isDirectory f.dirent)
    (x := fatOpen smallVolume (2 ^ 16) [47, 80] writeFlag (deletedSlotDisk 5)) (by decide)
  exact ⟨f, d', hf, (fatWriteFile_directory_iff hf rfl (Or.inl hdir) [1]).mpr (Or.inl (by simp [slash]))⟩

/-- A byte written through a handle on the root goes to the FAT. -/
theorem fatWriteFile_directory_root : ∃ f d',
    fatOpen smallVolume (2 ^ 16) [47] writeFlag (fun _ => 0) = (.ok (some f), d') ∧
    fatWriteFile smallVolume f [1] d' ≠ (.ok (-2, f), d') ∧ d' 512 = 0 ∧
    (fatWriteFile smallVolume f [1] d').2 512 = 1 := by
  have hbytes : ((fatOpen smallVolume (2 ^ 16) [47] writeFlag >>= fun found =>
      found.elim (FatM.stop .fault) fun f => fatWriteFile smallVolume f [1]) fun _ => 0).2 512 = 1 := by
    decide
  obtain ⟨f, d', hf⟩ := exists_run (x := fatOpen smallVolume (2 ^ 16) [47] writeFlag fun _ => 0)
    (by decide)
  rw [FatM.bind_ok hf, Option.elim_some] at hbytes
  have hzero : (fatOpen smallVolume (2 ^ 16) [47] writeFlag fun _ => 0).2 512 = 0 := by decide
  rw [hf] at hzero
  refine ⟨f, d', hf, fun hrun => ?_, hzero, hbytes⟩
  rw [hrun] at hbytes
  exact absurd (hzero.symm.trans hbytes) (by decide)

end TsOs.Fat
