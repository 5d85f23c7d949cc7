import TsOs.Fat.Layout

/-!
# Looking up entries

Looking up a path reads the disk only. A handle that is found knows where its entry
is: the driver finds the entry again, by its name, in the sector of the root directory
or in the cluster that the handle names.
-/

namespace TsOs.Fat
open ByteMemory

/-! ## Operations that only read -/

/-- The operation leaves the disk as it is. -/
def Quiet {α : Type} (x : FatM α) : Prop := ∀ d, (x d).2 = d

namespace Quiet

variable {α β : Type} {x : FatM α} {f : α → FatM β}

theorem pure (a : α) : Quiet (Pure.pure a : FatM α) := fun _ => rfl

theorem stop (e : Stop) : Quiet (FatM.stop e : FatM α) := fun _ => rfl

theorem bind (hx : Quiet x) (hf : ∀ a, Quiet (f a)) : Quiet (x >>= f) := by
  intro d
  have hd := hx d
  cases h : x d with
  | mk r d' =>
      rw [h] at hd
      obtain rfl : d' = d := hd
      cases r with
      | ok a =>
          rw [FatM.bind_ok h]
          exact hf a d'
      | error e => rw [FatM.bind_error h]

theorem ataReadSector (lbaStart secNum bufSize : Nat) (buf : Buf) :
    Quiet (ataReadSector lbaStart secNum bufSize buf) := fun _ => rfl

theorem eq (hx : Quiet x) {d : Disk} {a : α} (h : (x d).1 = .ok a) : x d = (.ok a, d) :=
  Prod.ext h (hx d)

theorem same (hx : Quiet x) {d d' : Disk} {r : Except Stop α} (h : x d = (r, d')) : d' = d := by
  rw [← hx d, h]

/-- The results of two runs agree when the results of their parts do. -/
theorem bind_congr (hx : Quiet x) {d d' : Disk} (h : (x d').1 = (x d).1)
    (hf : ∀ a, (f a d').1 = (f a d).1) : ((x >>= f) d').1 = ((x >>= f) d).1 := by
  cases hr : (x d).1 with
  | ok a =>
      rw [FatM.bind_ok (hx.eq hr), FatM.bind_ok (hx.eq (h.trans hr))]
      exact hf a
  | error e =>
      have hrun : x d = (.error e, d) := Prod.ext hr (hx d)
      have hrun' : x d' = (.error e, d') := Prod.ext (h.trans hr) (hx d')
      rw [FatM.bind_error hrun, FatM.bind_error hrun']

end Quiet

section Lookups

variable (v : Fat16Volume) (fuel : Nat)

theorem readFat_quiet (c : Nat) : Quiet (readFat v c) :=
  (Quiet.ataReadSector _ _ _ _).bind fun _ => Quiet.pure _

theorem fatGetNextCluster_quiet (c : Nat) : Quiet (fatGetNextCluster v c) :=
  (readFat_quiet v c).bind fun _ => Quiet.pure _

theorem searchRootLoop_quiet (file : Fat16File) (name : Mem) (n lbaStart : Nat) :
    Quiet (searchRootLoop v file name n lbaStart) := by
  induction n generalizing lbaStart with
  | zero => exact Quiet.stop _
  | succ n ih =>
      rw [searchRootLoop]
      split
      · refine (Quiet.ataReadSector _ _ _ _).bind fun r => ?_
        dsimp only
        split
        · exact Quiet.pure _
        · exact ih _
      · exact Quiet.pure _

theorem searchFileLoop_quiet (file : Fat16File) (name : Mem) (n cluster : Nat) :
    Quiet (searchFileLoop v file name n cluster) := by
  induction n generalizing cluster with
  | zero => exact Quiet.stop _
  | succ n ih =>
      rw [searchFileLoop]
      split
      · refine (Quiet.ataReadSector _ _ _ _).bind fun r => ?_
        dsimp only
        split
        · exact Quiet.stop _
        · split
          · exact Quiet.pure _
          · exact (fatGetNextCluster_quiet v cluster).bind fun _ => ih _
      · exact Quiet.pure _

theorem fatSearchFile_quiet (file : Fat16File) (name : List UInt8) (start : Nat) :
    Quiet (fatSearchFile v fuel file name start) := by
  unfold fatSearchFile
  dsimp only
  split
  · exact searchRootLoop_quiet v file _ _ _
  · exact searchFileLoop_quiet v file _ _ _

theorem findLoop_quiet (n : Nat) (file : Fat16File) (path : List UInt8) :
    Quiet (findLoop v fuel n file path) := by
  induction n generalizing file path with
  | zero => exact Quiet.stop _
  | succ n ih =>
      rw [findLoop]
      dsimp only
      split
      · exact Quiet.stop _
      · split
        · exact Quiet.pure _
        · refine (fatSearchFile_quiet v fuel _ _ _).bind fun found => ?_
          split
          · exact Quiet.pure _
          · exact ih _ _
          · exact Quiet.pure _

theorem fat16Find_quiet (file : Fat16File) (path : List UInt8) :
    Quiet (fat16Find v fuel file path) := by
  unfold fat16Find
  split
  · exact Quiet.pure _
  · exact findLoop_quiet v fuel _ _ _

theorem lastCluster_quiet (n c : Nat) : Quiet (lastCluster v n c) := by
  induction n generalizing c with
  | zero => exact Quiet.stop _
  | succ n ih =>
      rw [lastCluster]
      refine (fatGetNextCluster_quiet v c).bind fun _ => ?_
      split
      · exact ih _
      · exact Quiet.pure _

theorem fatOpenExisting_quiet (path : List UInt8) (flag : Flags) :
    Quiet (fatOpenExisting v fuel path flag) := by
  refine (fat16Find_quiet v fuel _ _).bind fun found => ?_
  split
  · exact Quiet.pure _
  · split
    · exact (lastCluster_quiet v fuel _).bind fun _ => Quiet.pure _
    · exact Quiet.pure _

end Lookups

section Creating

variable {v : Fat16Volume} {fuel : Nat} {path : List UInt8} {flag : Flags} {d d' : Disk}
  {r : Option Fat16File} (hcreate : flag.create = true)
include hcreate

/-- With `FAT16_CTL_CREATE` a path that exists is opened, and the handle has the flags of the call. -/
theorem fatOpen_existing {g : Fat16File}
    (hopen : (fatOpenExisting v fuel path { flag with create := false } d).1 = .ok (some g)) :
    fatOpen v fuel path flag d = (.ok (some { g with flag := flag }), d) := by
  unfold fatOpen
  rw [if_pos hcreate, FatM.bind_ok ((fatOpenExisting_quiet v fuel path _).eq hopen)]
  rfl

/-- With `FAT16_CTL_CREATE` a call that finds no entry and returns has not found the parent
either, or has created the entry and opened it. -/
theorem fatOpen_absent
    (hnew : (fatOpenExisting v fuel path { flag with create := false } d).1 = .ok none)
    (hrun : fatOpen v fuel path flag d = (.ok r, d')) :
    (d' = d ∧ r = none ∧ (getFilename path = none ∨ ∃ base, getBasedir path = some base ∧
      (fatOpenExisting v fuel base Flags.none d).1 = .ok none)) ∨
    ∃ base name f u g, getBasedir path = some base ∧ getFilename path = some name ∧
      fatOpenExisting v fuel base Flags.none d = (.ok (some f), d) ∧
      fatCreateFile v fuel f name flag.dir d = (.ok u, d') ∧
      fatOpenExisting v fuel path { flag with create := false } d' = (.ok (some g), d') ∧
      r = some { g with flag := { g.flag with create := true } } := by
  unfold fatOpen at hrun
  rw [if_pos hcreate, FatM.bind_ok ((fatOpenExisting_quiet v fuel path _).eq hnew)] at hrun
  dsimp only at hrun
  cases hbase : getBasedir path with
  | none =>
      rw [hbase] at hrun
      exact absurd (congrArg Prod.fst hrun) (by simp [FatM.stop])
  | some base =>
      cases hname : getFilename path with
      | none =>
          rw [hbase, hname] at hrun
          left
          exact ⟨(congrArg Prod.snd hrun).symm, (FatM.ok_inj hrun).symm, Or.inl rfl⟩
      | some name =>
          rw [hbase, hname] at hrun
          dsimp only at hrun
          split at hrun
          next => exact absurd (congrArg Prod.fst hrun) (by simp [FatM.stop])
          next =>
            obtain ⟨parent, d₁, hparent, hmake⟩ := FatM.bind_eq_ok hrun
            obtain rfl := (fatOpenExisting_quiet _ _ _ _).same hparent
            cases parent with
            | none =>
                left
                exact ⟨(congrArg Prod.snd hmake).symm, (FatM.ok_inj hmake).symm,
                  Or.inr ⟨base, rfl, congrArg Prod.fst hparent⟩⟩
            | some f =>
                right
                obtain ⟨u, d₂, hmade, hrest⟩ := FatM.bind_eq_ok hmake
                obtain ⟨again, d₃, hagain, hlast⟩ := FatM.bind_eq_ok hrest
                obtain rfl := (fatOpenExisting_quiet _ _ _ _).same hagain
                cases again with
                | none => exact absurd (congrArg Prod.fst hlast) (by simp [FatM.stop])
                | some g =>
                    obtain rfl : d₃ = d' := congrArg Prod.snd hlast
                    exact ⟨base, name, f, u, g, rfl, rfl, hparent, hmade, hagain,
                      (FatM.ok_inj hlast).symm⟩

end Creating

/-! ## The place of an entry -/

section Names

variable {b : Buf} {e : DirEnt} {name name' : Mem} {bsize i : Nat}

theorem fatFilenameMatch_iff : fatFilenameMatch e name = true ↔ ∀ i < 8, e i = name i := by
  simp [fatFilenameMatch]

theorem fatFilenameMatch_congr (h : ∀ i < 8, name' i = name i) :
    fatFilenameMatch e name' = fatFilenameMatch e name := by
  rw [Bool.eq_iff_iff, fatFilenameMatch_iff, fatFilenameMatch_iff]
  constructor
  · exact fun hm j hj => (hm j hj).trans (h j hj)
  · exact fun hm j hj => (hm j hj).trans (h j hj).symm

/-- The search depends on the first eight characters only. -/
theorem searchNameInBlock_congr (h : ∀ i < 8, name' i = name i) :
    searchNameInBlock b bsize name' = searchNameInBlock b bsize name := by
  unfold searchNameInBlock
  simp only [fatFilenameMatch_congr h]

theorem searchNameInBlock_spec (h : searchNameInBlock b bsize name = some i) :
    i < (bsize + 31) / direntSize ∧ (readEnt b (direntSize * i)).startCluster ≠ 0 ∧
      ∀ j < 8, readEnt b (direntSize * i) j = name j := by
  obtain ⟨-, hlt, hmatch⟩ := firstIndex_spec h
  rw [Bool.and_eq_true, fatFilenameMatch_iff, Bool.not_eq_true', ← Bool.not_eq_true,
    clusFree_iff] at hmatch
  exact ⟨by omega, hmatch⟩

/-- An entry is found again by its own name. -/
theorem searchNameInBlock_self (h : searchNameInBlock b bsize name = some i) :
    searchNameInBlock b bsize (readEnt b (direntSize * i)) = some i :=
  (searchNameInBlock_congr (searchNameInBlock_spec h).2.2).trans h

end Names

variable (v : Fat16Volume)

/-- The address of the block in which the entry of a handle is looked up again. -/
def direntAddr (file : Fat16File) : Nat :=
  if file.direntCluster = clusRoot then sectorSize * file.direntSector
  else clusterAddr v file.direntCluster

/-- The size of that block. -/
def direntLen (file : Fat16File) : Nat :=
  if file.direntCluster = clusRoot then sectorSize else v.clusterBytes

/-- The entry of the handle is number `i` of the block that the handle names. -/
structure Located (d : Disk) (file : Fat16File) (i : Nat) : Prop where
  found : searchNameInBlock (block d (direntAddr v file) (direntLen v file)) v.clusterBytes
    file.dirent = some i
  fits : direntSize * i + direntSize ≤ direntLen v file
  entry : readEnt d (direntAddr v file + direntSize * i) = file.dirent
  root : file.direntCluster = clusRoot → v.rootDirStart ≤ file.direntSector
  cluster : file.direntCluster ≠ clusRoot → clusNormal file.direntCluster = true

/-- The address of the entry of a handle. -/
def entryAddr (d : Disk) (file : Fat16File) : Nat :=
  direntAddr v file + direntSize * (searchNameInBlock
    (block d (direntAddr v file) (direntLen v file)) v.clusterBytes file.dirent).getD 0

/-- The handle has found its entry and not been moved since. -/
structure Opened (d : Disk) (flag : Flags) (byteOffset : Nat) (f : Fat16File) : Prop where
  start_ne : f.dirent.startCluster ≠ 0
  current : f.currentCluster = f.dirent.startCluster
  offset : f.byteOffset = byteOffset
  flags : f.flag = flag
  located : ∃ i, Located v d f i

variable {v} (hg : Geometry v) {d : Disk}
include hg

theorem Geometry.slots_eq : (v.clusterBytes + 31) / direntSize = 16 * v.sb.sectorsPerCluster := by
  rw [hg.clusterBytes]
  unfold sectorSize direntSize
  omega

theorem Geometry.slot_le {i : Nat} (hi : i < (v.clusterBytes + 31) / direntSize) :
    direntSize * i + direntSize ≤ v.clusterBytes := by
  rw [hg.slots_eq] at hi
  rw [hg.clusterBytes]
  unfold sectorSize direntSize
  omega

/-- The entry found in a block of the root directory is the first of its name in its sector. -/
theorem searchNameInBlock_sector {lba i : Nat} {name : Mem}
    (h : searchNameInBlock (block d (sectorSize * lba) v.clusterBytes) v.clusterBytes name = some i) :
    searchNameInBlock (block d (sectorSize * (lba + i / 16)) sectorSize) v.clusterBytes name =
      some (i % 16) := by
  have hi := firstIndex_spec h
  have hslots := hg.slots_eq
  have hent : ∀ k < 16, i / 16 * 16 + k < (v.clusterBytes + 31) / direntSize →
      readEnt (block d (sectorSize * (lba + i / 16)) sectorSize) (direntSize * k) =
        readEnt (block d (sectorSize * lba) v.clusterBytes) (direntSize * (i / 16 * 16 + k)) := by
    intro k hk hlt
    have haddr : sectorSize * (lba + i / 16) + direntSize * k =
        sectorSize * lba + direntSize * (i / 16 * 16 + k) := by
      unfold sectorSize direntSize
      omega
    have hfit : direntSize * k + direntSize ≤ sectorSize := by
      unfold sectorSize direntSize
      omega
    have hslot := hg.slot_le hlt
    rw [readEnt_block d hfit, readEnt_block d hslot, haddr]
  have hdecomp : i / 16 * 16 + i % 16 = i := Nat.div_add_mod' i 16
  refine firstIndex_eq_some (Nat.zero_le _) ?_ ?_ ?_
  · have := hg.sectorsPerCluster_pos
    omega
  · rw [hent _ (Nat.mod_lt _ (by decide)) (by omega), hdecomp]
    exact hi.2.2
  · intro j _ hj
    rw [hent j (by omega) (by omega)]
    exact firstIndex_least h (Nat.zero_le _) (by omega)

theorem searchRootLoop_opened {file f : Fat16File} {name : Mem} {n lbaStart : Nat}
    (hlba : v.rootDirStart ≤ lbaStart)
    (h : searchRootLoop v file name n lbaStart d = (.ok (some f), d)) :
    Opened v d file.flag file.byteOffset f := by
  induction n generalizing lbaStart with
  | zero => exact absurd (congrArg Prod.fst h) (by simp [searchRootLoop, FatM.stop])
  | succ n ih =>
      rw [searchRootLoop] at h
      split at h
      next hlt =>
        have hread : v.sb.sectorsPerCluster ≤ v.clusterBytes / sectorSize := by
          rw [hg.clusterBytes, Nat.mul_div_cancel_left _ (by decide)]
        rw [FatM.bind_ok (ataReadSector_run d hread), ← hg.clusterBytes] at h
        have hsize : v.sb.sectorsPerCluster * v.sb.bytesPerSector = v.clusterBytes := by
          rw [hg.clusterBytes, hg.bytesPerSector, Nat.mul_comm]
        dsimp only at h
        rw [hsize] at h
        cases hi : searchNameInBlock (block d (sectorSize * lbaStart) v.clusterBytes)
            v.clusterBytes name with
        | none =>
            rw [hi] at h
            exact ih (hlba.trans (Nat.le_add_right _ _)) h
        | some i =>
          rw [hi] at h
          obtain rfl := Option.some.inj (FatM.ok_inj h)
          obtain ⟨hlt, hstart, hname⟩ := searchNameInBlock_spec hi
          have hsector : direntSize * i / v.sb.bytesPerSector = i / 16 := by
            rw [hg.bytesPerSector]
            unfold direntSize sectorSize
            omega
          refine ⟨hstart, rfl, rfl, rfl, i % 16, ?_⟩
          constructor
          · change searchNameInBlock (block d (sectorSize * (lbaStart + _)) sectorSize) _ _ = _
            rw [hsector]
            exact searchNameInBlock_sector hg (searchNameInBlock_self hi)
          · change direntSize * (i % 16) + direntSize ≤ sectorSize
            unfold direntSize sectorSize
            omega
          · change readEnt d (sectorSize * (lbaStart + _) + _) = readEnt _ _
            rw [hsector, readEnt_block d (hg.slot_le hlt)]
            congr 1
            unfold direntSize sectorSize
            omega
          · intro _
            exact hlba.trans (Nat.le_add_right _ _)
          · exact fun hne => absurd rfl hne
      next => exact absurd (congrArg Prod.fst h) (by simp)

theorem searchFileLoop_opened {file f : Fat16File} {name : Mem} {n cluster : Nat}
    (h : searchFileLoop v file name n cluster d = (.ok (some f), d)) :
    Opened v d file.flag file.byteOffset f := by
  induction n generalizing cluster with
  | zero => exact absurd (congrArg Prod.fst h) (by simp [searchFileLoop, FatM.stop])
  | succ n ih =>
      rw [searchFileLoop] at h
      split at h
      next hnormal =>
        rw [FatM.bind_ok (fatReadCluster_run hg d hnormal)] at h
        dsimp only at h
        rw [if_neg (Nat.pos_iff_ne_zero.mp hg.sectorsPerCluster_pos)] at h
        cases hi : searchNameInBlock (clusterBlock v d cluster) v.clusterBytes name with
        | none =>
            rw [hi] at h
            obtain ⟨next, d₁, hnext, hrest⟩ := FatM.bind_eq_ok h
            obtain rfl := (fatGetNextCluster_quiet _ _).same hnext
            exact ih hrest
        | some i =>
          rw [hi] at h
          obtain rfl := Option.some.inj (FatM.ok_inj h)
          obtain ⟨hlt, hstart, hname⟩ := searchNameInBlock_spec hi
          have hne : cluster ≠ clusRoot := by
            have := clusNormal_iff.mp hnormal
            unfold clusRoot
            omega
          refine ⟨hstart, rfl, rfl, rfl, i, ?_⟩
          constructor
          · rw [direntAddr, direntLen, if_neg hne, if_neg hne]
            exact searchNameInBlock_self hi
          · rw [direntLen, if_neg hne]
            exact hg.slot_le hlt
          · rw [direntAddr, if_neg hne]
            exact (readEnt_block d (hg.slot_le hlt)).symm
          · exact fun heq => absurd heq hne
          · exact fun _ => hnormal
      next => exact absurd (congrArg Prod.fst h) (by simp)

theorem fatSearchFile_opened {file f : Fat16File} {name : List UInt8} {fuel start : Nat}
    (h : fatSearchFile v fuel file name start d = (.ok (some f), d)) :
    Opened v d file.flag file.byteOffset f := by
  unfold fatSearchFile at h
  split at h
  · exact searchRootLoop_opened hg (le_refl _) h
  · exact searchFileLoop_opened hg h

theorem findLoop_opened {n fuel : Nat} {file f : Fat16File} {path : List UInt8}
    (hfile : file.dirent.startCluster ≠ 0 → Opened v d file.flag file.byteOffset file)
    (h : findLoop v fuel n file path d = (.ok (some f), d)) (hstart : f.dirent.startCluster ≠ 0) :
    Opened v d file.flag file.byteOffset f := by
  induction n generalizing file path with
  | zero => exact absurd (congrArg Prod.fst h) (by simp [findLoop, FatM.stop])
  | succ n ih =>
      rw [findLoop] at h
      dsimp only at h
      split at h
      next => exact absurd (congrArg Prod.fst h) (by simp [FatM.stop])
      next =>
        split at h
        next =>
          obtain rfl := Option.some.inj (FatM.ok_inj h)
          exact hfile hstart
        next =>
          obtain ⟨found, d₁, hfound, hrest⟩ := FatM.bind_eq_ok h
          obtain rfl := (fatSearchFile_quiet _ _ _ _ _).same hfound
          cases found with
          | none => exact absurd (congrArg Prod.fst hrest) (by simp)
          | some g =>
              have hg' := fatSearchFile_opened hg hfound
              cases hnext : (strtok path [slash]).2 with
              | none =>
                  rw [hnext] at hrest
                  obtain rfl := Option.some.inj (FatM.ok_inj hrest)
                  exact hg'
              | some next =>
                  rw [hnext] at hrest
                  rw [← hg'.flags, ← hg'.offset]
                  refine ih (fun _ => ?_) hrest
                  rw [hg'.flags, hg'.offset]
                  exact hg'

/-- A handle on an entry that has a cluster knows the place of the entry. -/
theorem fat16Find_opened {fuel : Nat} {file f : Fat16File} {path : List UInt8}
    (h : fat16Find v fuel file path d = (.ok (some f), d)) (hstart : f.dirent.startCluster ≠ 0) :
    Opened v d file.flag file.byteOffset f := by
  have hroot : rootEnt.startCluster = 0 := rfl
  unfold fat16Find at h
  split at h
  next =>
    obtain rfl := Option.some.inj (FatM.ok_inj h)
    exact absurd hroot hstart
  next =>
    have hopened := findLoop_opened hg (fun hne => absurd hroot hne) h hstart
    exact hopened

/-- Opening without `FAT16_CTL_APPEND`. -/
theorem fatOpenExisting_opened {fuel : Nat} {path : List UInt8} {flag : Flags} {f : Fat16File}
    (h : (fatOpenExisting v fuel path flag d).1 = .ok (some f)) (hflag : flag.append = false)
    (hstart : f.dirent.startCluster ≠ 0) : Opened v d flag 0 f := by
  have hrun := (fatOpenExisting_quiet v fuel path flag).eq h
  unfold fatOpenExisting at hrun
  obtain ⟨found, d₁, hfound, hrest⟩ := FatM.bind_eq_ok hrun
  obtain rfl := (fat16Find_quiet _ _ _ _).same hfound
  cases found with
  | none => exact absurd (congrArg Prod.fst hrest) (by simp)
  | some g =>
      rw [hflag] at hrest
      obtain rfl := Option.some.inj (FatM.ok_inj hrest)
      exact fat16Find_opened hg hfound hstart

omit hg in
/-- A handle that is moved knows its entry as before. -/
theorem Located.moved {file : Fat16File} {i : Nat} (h : Located v d file i) (c o : Nat) :
    Located v d { file with currentCluster := c, byteOffset := o } i :=
  ⟨h.found, h.fits, h.entry, h.root, h.cluster⟩

omit hg in
theorem Located.entryAddr_eq {file : Fat16File} {i : Nat} (h : Located v d file i) :
    entryAddr v d file = direntAddr v file + direntSize * i := by
  rw [entryAddr, h.found]
  rfl

/-- The entry of a handle is behind the FAT. -/
theorem Located.le_direntAddr {file : Fat16File} {i : Nat} (h : Located v d file i) :
    sectorSize * v.rootDirStart ≤ direntAddr v file := by
  unfold direntAddr
  split
  next hroot => exact Nat.mul_le_mul_left _ (h.root hroot)
  next => exact hg.root_le_clusterAddr _

/-! ## Replacing an entry -/

/-- `fat_update_file_dirent` writes to the entry that it finds by name. -/
theorem fatUpdateFileDirent_run {file : Fat16File} {newDirent : Option DirEnt} {i : Nat}
    (hfound : searchNameInBlock (block d (direntAddr v file) (direntLen v file)) v.clusterBytes
      file.dirent = some i) (hfits : direntSize * i + direntSize ≤ direntLen v file)
    (hcluster : file.direntCluster ≠ clusRoot → clusNormal file.direntCluster = true) :
    fatUpdateFileDirent v file newDirent d =
      (.ok (), writeEnt d (direntAddr v file + direntSize * i) (newDirent.getD file.dirent)) := by
  unfold fatUpdateFileDirent
  by_cases hroot : file.direntCluster = clusRoot
  · have hread : 1 ≤ v.clusterBytes / sectorSize := by
      rw [hg.clusterBytes, Nat.mul_div_cancel_left _ (by decide)]
      exact hg.sectorsPerCluster_pos
    rw [direntAddr, direntLen, if_pos hroot, if_pos hroot] at hfound
    rw [direntLen, if_pos hroot] at hfits
    rw [if_pos hroot, FatM.bind_ok (ataReadSector_run d hread), Nat.mul_one]
    dsimp only
    rw [hfound]
    dsimp only
    rw [if_pos hroot, FatM.bind_ok (ataWriteSector_run d _ _ _), Nat.mul_one,
      setBlock_writeEnt d hfits, direntAddr, if_pos hroot]
    rfl
  · rw [direntAddr, direntLen, if_neg hroot, if_neg hroot] at hfound
    rw [direntLen, if_neg hroot] at hfits
    rw [if_neg hroot, FatM.bind_ok (fatReadCluster_run hg d (hcluster hroot))]
    dsimp only
    unfold clusterBlock
    rw [hfound]
    dsimp only
    rw [if_neg hroot, fatWriteCluster_run hg d _ (hcluster hroot), setCluster,
      setBlock_writeEnt d hfits, direntAddr, if_neg hroot]

end TsOs.Fat
