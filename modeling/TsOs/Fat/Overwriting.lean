import TsOs.Fat.Deleting
import TsOs.Fat.Writing

/-!
# Overwriting and appending

What the size in the entry means for a write inside of a file and for one at its end.
`fat_write_file` always records the position at which it stops, so a write that stops
inside of a file cuts the file there. A handle for appending combines the last cluster
of the chain with the size, and these belong together for one length of the chain only.
-/

namespace TsOs.Fat
open ByteMemory LinkPath

variable {v : Fat16Volume} {d : Disk} {l : List Nat} {data bytes : List UInt8} {o c i : Nat}
  {file : Fat16File}

/-- The bytes from `o` on are replaced; the list grows where they end behind it. -/
def overwrite (bytes : List UInt8) (o : Nat) (data : List UInt8) : List UInt8 :=
  bytes.take o ++ data ++ bytes.drop (o + data.length)

theorem length_overwrite (ho : o ≤ bytes.length) :
    (overwrite bytes o data).length = max bytes.length (o + data.length) := by
  unfold overwrite
  rw [List.length_append, List.length_append, List.length_take, List.length_drop]
  omega

theorem overwrite_of_le (h : bytes.length ≤ o + data.length) :
    overwrite bytes o data = bytes.take o ++ data := by
  unfold overwrite
  rw [List.drop_eq_nil_of_le h, List.append_nil]

/-- A buffer from `2 ^ 31` bytes on is copied past the end of the block. -/
theorem fatWriteFile_fault (hg : Geometry v) (h : Writable v d file l i) (hlen : 2 ^ 31 ≤ data.length)
    (hmax : data.length < 2 ^ 32) : fatWriteFile v file data d = (.error .fault, d) := by
  have hnow : InRange v file.currentCluster := h.chain.inRange _ h.current
  have hlt := hg.clusterBytes_lt
  have htmp : min32 (v.clusterBytes - file.byteOffset % v.clusterBytes) (data.length - 0) =
      data.length := min32_of_le (by omega) hlen hmax
  have hloop : writeLoop v data (data.length + 1) file.currentCluster file.byteOffset 0 d =
      (.error .fault, d) := by
    rw [writeLoop, if_pos (by omega), FatM.bind_ok (fatReadCluster_run hg d hnow.clusNormal)]
    dsimp only
    rw [htmp, if_pos (by omega)]
    rfl
  unfold fatWriteFile
  rw [h.regular, h.mode, if_neg Bool.false_ne_true, if_neg (by decide), if_neg h.not_eof,
    FatM.bind_error hloop]

/-- A handle that is open for writing, moved to a position of its file. -/
theorem writable_of_opened {flag : Flags} {n : Nat} (h : Opened v d flag n file)
    (hloc : Located v d file i) (hwrite : flag.write = true) (hreg : isDirectory file.dirent = false)
    (hchain : IsChain v d file.dirent.startCluster l) (hapart : EntryApart v d file l)
    (hcur : c ∈ l) :
    Writable v d { file with currentCluster := c, byteOffset := o } l i := by
  have hmode : file.flag.write = true := by rw [h.flags, hwrite]
  exact ⟨hreg, hmode, hloc.moved c o, ⟨hapart.root, hapart.cluster⟩, hchain, hcur⟩

/-- A write through a handle at position `o` replaces the bytes from there on and leaves those
behind them exactly when it does not stop inside of the file. -/
theorem fatWriteFile_overwrites_iff {fuel : Nat} {path : List UInt8} {flag : Flags} (hg : Geometry v)
    (hopen : (fatOpenExisting v fuel path flag d).1 = .ok (some file)) (hwrite : flag.write = true)
    (hflag : flag.append = false) (hreg : isDirectory file.dirent = false)
    (hstart : file.dirent.startCluster ≠ 0)
    (hfile : FileAt v d (entryAddr v d file) l bytes) (hapart : EntryApart v d file l)
    (hcur : l[o / v.clusterBytes]? = some c) (ho : o ≤ bytes.length)
    (hmax : o + data.length < 2 ^ 32)
    (hfits : (o + data.length) / v.clusterBytes + 1 ≤ l.length + (freeClusters v d).card) :
    (∃ file' d' l', fatWriteFile v { file with currentCluster := c, byteOffset := o } data d =
        (.ok ((data.length : Int), file'), d') ∧
      FileAt v d' (entryAddr v d file) l' (overwrite bytes o data)) ↔
      bytes.length ≤ o + data.length ∧ data.length < 2 ^ 31 := by
  have hopened := fatOpenExisting_opened hg hopen hflag hstart
  obtain ⟨i, hloc⟩ := hopened.located
  have haddr := hloc.entryAddr_eq
  rw [haddr] at hfile ⊢
  have hchain : IsChain v d file.dirent.startCluster l := by
    rw [← hloc.entry]
    exact hfile.chain
  have hw := writable_of_opened (o := o) hopened hloc hwrite hreg hchain hapart (List.mem_of_getElem? hcur)
  constructor
  · rintro ⟨file', d', l', hrun, hfile'⟩
    have hlen : data.length < 2 ^ 31 := by
      by_contra hge
      rw [fatWriteFile_fault hg hw (by omega) (by omega)] at hrun
      exact absurd (congrArg Prod.fst hrun) (by simp)
    refine ⟨?_, hlen⟩
    obtain ⟨c', l₁, d₁, hrun₁, hext, hcur₁, hlen₁, hbytes⟩ := fatWriteFile_run hg hw hcur hlen hmax hfits
    obtain rfl : _ = d' := congrArg Prod.snd (hrun₁.symm.trans hrun)
    have hcut := FileAt.wrote hg hw hfile ho hmax hext hlen₁
      (List.mem_of_getElem? hcur₁) hbytes
    have hsize := hcut.size.symm.trans hfile'.size
    rw [length_overwrite ho, List.length_append, List.length_take] at hsize
    dsimp only at hsize
    omega
  · rintro ⟨hle, hlen⟩
    obtain ⟨c', l₁, d₁, hrun₁, hext, hcur₁, hlen₁, hbytes⟩ := fatWriteFile_run hg hw hcur hlen hmax hfits
    refine ⟨_, _, l₁, hrun₁, ?_⟩
    rw [overwrite_of_le hle]
    exact FileAt.wrote hg hw hfile ho hmax hext hlen₁
      (List.mem_of_getElem? hcur₁) hbytes

/-- The file `F` in the root directory, with the chain `l` and the given bytes in its clusters. -/
def fileDisk (l : List Nat) (size : Nat) (bytes : List UInt8) : Disk :=
  let d := writeEnt (fun _ => 0) 1024 (mkEnt [70] 0 (l.headD 0) size)
  let d := (l.zip (l.tail ++ [0xFFFF])).foldl (fun d p => setFat smallVolume d p.1 p.2) d
  patch d 2048 bytes

/-- `FAT16_CTL_WRITE`. -/
def writeFlag : Flags := { Flags.none with write := true }

/-- The lookup has found the entry of `F`. -/
def isF (d : Disk) (file : Fat16File) : Bool :=
  headsAt false 3 file && file.direntCluster == clusRoot && file.direntSector == 2 &&
    entryAddr smallVolume d file == 1024

theorem of_isF {file : Fat16File} (h : isF d file = true) (l : List Nat) :
    isDirectory file.dirent = false ∧ file.dirent.startCluster = 3 ∧
      entryAddr smallVolume d file = 1024 ∧ EntryApart smallVolume d file l := by
  simp only [isF, headsAt, Bool.and_eq_true, beq_iff_eq] at h
  obtain ⟨⟨⟨⟨hdir, hstart⟩, hroot⟩, hsector⟩, haddr⟩ := h
  refine ⟨hdir, hstart, haddr, fun _ => ?_, fun hne => absurd hroot hne⟩
  rw [hsector]
  decide

theorem fileDisk_fileAt : FileAt smallVolume (fileDisk [3] 3 [1, 2, 3]) 1024 [3] [1, 2, 3] := by
  have hstart : (readEnt (fileDisk [3] 3 [1, 2, 3]) 1024).startCluster = 3 := by decide
  refine ⟨?_, by decide, by decide, by decide⟩
  rw [hstart]
  exact chain_singleton (by decide) (by decide)

theorem fatWriteFile_overwrites_sample : ∃ file,
    (fatOpenExisting smallVolume 2 [47, 70] writeFlag (fileDisk [3] 3 [1, 2, 3])).1 = .ok (some file) ∧
    ((∃ file' d' l', fatWriteFile smallVolume { file with currentCluster := 3, byteOffset := 1 }
        [7, 8, 9] (fileDisk [3] 3 [1, 2, 3]) = (.ok (3, file'), d') ∧
      FileAt smallVolume d' (entryAddr smallVolume (fileDisk [3] 3 [1, 2, 3]) file) l'
        (overwrite [1, 2, 3] 1 [7, 8, 9])) ↔ 3 ≤ 1 + 3 ∧ 3 < 2 ^ 31) := by
  obtain ⟨file, hopen, hF⟩ : ∃ file,
      (fatOpenExisting smallVolume 2 [47, 70] writeFlag (fileDisk [3] 3 [1, 2, 3])).1 =
        .ok (some file) ∧ isF (fileDisk [3] 3 [1, 2, 3]) file = true := exists_found (by decide)
  obtain ⟨hdir, hstart, haddr, hapart⟩ := of_isF hF [3]
  refine ⟨file, hopen, ?_⟩
  have hfile := fileDisk_fileAt
  rw [← haddr] at hfile
  have hfits : (1 + [7, 8, 9].length) / smallVolume.clusterBytes + 1 ≤
      [3].length + (freeClusters smallVolume (fileDisk [3] 3 [1, 2, 3])).card := by
    have hone : (1 + [7, 8, 9].length) / smallVolume.clusterBytes + 1 ≤ [3].length := by decide
    exact hone.trans (Nat.le_add_right _ _)
  have hcur : [3][1 / smallVolume.clusterBytes]? = some 3 := by decide
  exact fatWriteFile_overwrites_iff smallVolume_geometry hopen rfl rfl hdir (by rw [hstart]; decide) hfile
    hapart hcur (by decide) (by decide) hfits

/-- One byte written at the start of a file of three bytes: the size is one afterwards. -/
theorem fatWriteFile_truncates : ∃ file,
    (fatOpenExisting smallVolume 2 [47, 70] writeFlag (fileDisk [3] 3 [1, 2, 3])).1 = .ok (some file) ∧
    FileAt smallVolume (fileDisk [3] 3 [1, 2, 3])
      (entryAddr smallVolume (fileDisk [3] 3 [1, 2, 3]) file) [3] [1, 2, 3] ∧
    ∀ file' d' l', fatWriteFile smallVolume file [9] (fileDisk [3] 3 [1, 2, 3]) = (.ok (1, file'), d') →
      (readEnt d' (entryAddr smallVolume (fileDisk [3] 3 [1, 2, 3]) file)).fileSize = 1 ∧
      ¬FileAt smallVolume d' (entryAddr smallVolume (fileDisk [3] 3 [1, 2, 3]) file) l'
        (overwrite [1, 2, 3] 0 [9]) := by
  obtain ⟨file, hopen, htest⟩ : ∃ file,
      (fatOpenExisting smallVolume 2 [47, 70] writeFlag (fileDisk [3] 3 [1, 2, 3])).1 =
        .ok (some file) ∧ (isF (fileDisk [3] 3 [1, 2, 3]) file && (readEnt
          (fatWriteFile smallVolume file [9] (fileDisk [3] 3 [1, 2, 3])).2 1024).fileSize == 1) = true :=
    exists_found (by decide)
  rw [Bool.and_eq_true, beq_iff_eq] at htest
  obtain ⟨-, -, haddr, -⟩ := of_isF htest.1 [3]
  refine ⟨file, hopen, ?_⟩
  rw [haddr]
  refine ⟨fileDisk_fileAt, fun file' d' l' hrun => ?_⟩
  have hsize := htest.2
  rw [hrun] at hsize
  refine ⟨hsize, fun hfile => ?_⟩
  exact absurd (hsize.symm.trans hfile.size) (by decide)

/-! ## Appending -/

/-- One byte through a handle at cluster number `i` of a chain, whatever its position is. -/
theorem writeLoop_byte {s : Nat} {x : UInt8} (hg : Geometry v) (h : IsChain v d s l)
    (hi : l[i]? = some c) (hfree : (freeClusters v d).Nonempty) (ho : o + 1 < 2 ^ 32) :
    ∃ c' l' d₁, writeLoop v [x] 2 c o 0 d = (.ok (c', o + 1), d₁) ∧ Extends v s l l' d d₁ ∧
      c' ∈ l' ∧ ((o + 1) % v.clusterBytes ≠ 0 → l' = l) ∧
      ∀ p < l.length * v.clusterBytes, fileByte v d₁ l' p =
        if p = i * v.clusterBytes + o % v.clusterBytes then x else fileByte v d l p := by
  have hmod := Nat.mod_lt o hg.clusterBytes_pos
  have hmem : c ∈ l := List.mem_of_getElem? hi
  have hk : 1 = min (v.clusterBytes - o % v.clusterBytes) ([x].length - 0) := by
    rw [List.length_singleton]
    omega
  have hpass : writeLoop v [x] 2 c o 0 d = _ :=
    writeLoop_pass (n := 1) hg (h.inRange c hmem) hk Nat.one_pos
      (by rw [List.length_singleton]; decide) ho
  have hpatch : Extends v s l l d (patch d (clusterAddr v c + o % v.clusterBytes) [x]) :=
    Extends.patch hg h hmem (by rw [List.length_singleton]; omega)
  obtain ⟨d₁, hd₁⟩ : ∃ d₁, d₁ = patch d (clusterAddr v c + o % v.clusterBytes) [x] := ⟨_, rfl⟩
  rw [← hd₁] at hpatch
  have hfree₁ : (freeClusters v d₁).Nonempty := by
    have := hpatch.card_free hg h
    have := Finset.card_pos.mpr hfree
    exact Finset.card_pos.mp (by omega)
  -- The move behind the byte changes the FAT only.
  obtain ⟨c', l', d₂, hmove, hext, hc', hsame, hdata⟩ : ∃ c' l' d₂,
      (if (o + 1) % v.clusterBytes = 0 then nextOrNewCluster v c else pure c) d₁ = (.ok c', d₂) ∧
        Extends v s l l' d₁ d₂ ∧ c' ∈ l' ∧ ((o + 1) % v.clusterBytes ≠ 0 → l' = l) ∧
        ∀ a, sectorSize * v.rootDirStart ≤ a → d₂ a = d₁ a := by
    split
    next hzero =>
      obtain ⟨c', l', d₂, hrun, hext, hc', -, hdata⟩ :=
        nextOrNewCluster_run hg hpatch.chain hi fun _ => hfree₁
      exact ⟨c', l', d₂, hrun, hext, List.mem_of_getElem? hc', fun hne => absurd hzero hne, hdata⟩
    next => exact ⟨c, l, d₁, rfl, Extends.refl hpatch.chain, hmem, fun _ => rfl, fun _ _ => rfl⟩
  refine ⟨c', l', d₂, ?_, hpatch.trans hg hext, hc', hsame, fun p hp => ?_⟩
  · have hbyte : ([x].drop 0).take 1 = [x] := rfl
    rw [hpass, hbyte, ← hd₁, FatM.bind_ok hmove]
    rfl
  · have hp' : p < l'.length * v.clusterBytes :=
      hp.trans_le (Nat.mul_le_mul_right _ hext.grows.length_le)
    have hcongr : fileByte v d₂ l' p = fileByte v d₁ l' p := fileByte_congr hg hp' fun y _ k _ =>
      hdata _ ((hg.root_le_clusterAddr y).trans (Nat.le_add_right _ _))
    rw [hcongr, fileByte_of_grows hext.grows hp, hd₁, fileByte_patch hg h.inRange h.nodup hi
      (by rw [List.length_singleton]; omega) hp, List.length_singleton]
    by_cases hat : p = i * v.clusterBytes + o % v.clusterBytes
    · rw [if_pos (by omega), if_pos hat, hat, Nat.sub_self]
      rfl
    · rw [if_neg (by omega), if_neg hat]

/-- The handle that `fat_open` with `FAT16_CTL_APPEND` makes from the one found. -/
def Fat16File.atEnd (file : Fat16File) (c : Nat) : Fat16File :=
  { file with
    flag := { file.flag with write := true }
    currentCluster := c
    byteOffset := file.dirent.fileSize }

section Append

variable {fuel : Nat} {path : List UInt8} {flag : Flags} (hg : Geometry v) (hfuel : 2 ^ 16 ≤ fuel)
include hg hfuel

theorem fatOpenExisting_append (hflag : flag.append = true)
    (hfind : (fat16Find v fuel (newFat16File flag) path d).1 = .ok (some file))
    (hchain : IsChain v d file.dirent.startCluster l) (hl : l ≠ []) :
    fatOpenExisting v fuel path flag d = (.ok (some (file.atEnd (l.getLast hl))), d) := by
  have hlen := hchain.length_le
  unfold fatOpenExisting
  rw [FatM.bind_ok ((fat16Find_quiet v fuel _ path).eq hfind)]
  dsimp only
  rw [if_pos hflag, FatM.bind_ok (lastCluster_run hg hchain hl (by omega))]
  rfl

end Append

theorem getElem?_getLast (hl : l ≠ []) : l[l.length - 1]? = some (l.getLast hl) := by
  rw [List.getLast_eq_getElem, List.getElem?_eq_getElem]

section Append

variable (hg : Geometry v) {hl : l ≠ []} (hw : Writable v d (file.atEnd (l.getLast hl)) l i)
  (hfile : FileAt v d (direntAddr v file + direntSize * i) l bytes)
  (hsize : file.dirent.fileSize = bytes.length)
include hg hw hfile hsize

/-- The handle is at the right position when the chain ends with the cluster of that position. -/
theorem append_run (hlen : l.length = bytes.length / v.clusterBytes + 1) (hdata : data.length < 2 ^ 31)
    (hmax : bytes.length + data.length < 2 ^ 32)
    (hfits : (bytes.length + data.length) / v.clusterBytes + 1 ≤ l.length + (freeClusters v d).card) :
    ∃ file' d' l', fatWriteFile v (file.atEnd (l.getLast hl)) data d =
        (.ok ((data.length : Int), file'), d') ∧
      FileAt v d' (direntAddr v file + direntSize * i) l' (bytes ++ data) := by
  have hcur : l[(file.atEnd (l.getLast hl)).byteOffset / v.clusterBytes]? =
      some (file.atEnd (l.getLast hl)).currentCluster := by
    change l[file.dirent.fileSize / v.clusterBytes]? = some (l.getLast hl)
    rw [hsize, ← getElem?_getLast hl, hlen]
    rfl
  rw [← hsize] at hmax hfits
  obtain ⟨c', l', d₁, hrun, hext, hcur', hlen', hbytes⟩ := fatWriteFile_run hg hw hcur hdata hmax hfits
  refine ⟨_, _, l', hrun, ?_⟩
  have hwrote := FileAt.wrote hg hw hfile hsize.le hmax hext hlen' (List.mem_of_getElem? hcur') hbytes
  have htake : bytes.take (file.atEnd (l.getLast hl)).byteOffset = bytes :=
    List.take_of_length_le hsize.ge
  rwa [htake] at hwrote

/-- On a chain of another length one byte goes astray. -/
theorem append_byte (hlen : l.length ≠ bytes.length / v.clusterBytes + 1)
    (hfree : (freeClusters v d).Nonempty) (hmax : bytes.length + 1 < 2 ^ 32) {x : UInt8}
    (hx : x ≠ fileByte v d l bytes.length) :
    ¬∃ file' d' l', fatWriteFile v (file.atEnd (l.getLast hl)) [x] d = (.ok (1, file'), d') ∧
      FileAt v d' (direntAddr v file + direntSize * i) l' (bytes ++ [x]) := by
  rintro ⟨file', d', l'', hrun', hfile'⟩
  obtain ⟨c', l', d₁, hloop, hext, hc', hsame, hbytes⟩ :=
    writeLoop_byte (x := x) hg hw.chain (getElem?_getLast hl) hfree hmax
  have hrun : fatWriteFile v (file.atEnd (l.getLast hl)) [x] d = _ :=
    fatWriteFile_of_loop hg hw (by rw [← hsize] at hloop; exact hloop) hext hc'
  have hd' : writeEnt d₁ (direntAddr v file + direntSize * i)
      ((file.atEnd (l.getLast hl)).wrote 1 c').dirent = d' :=
    congrArg Prod.snd (hrun.symm.trans hrun')
  have hwrote := hw.wrote (n := 1) hg hext hc'
  have hentry : readEnt d' (direntAddr v file + direntSize * i) =
      ((file.atEnd (l.getLast hl)).wrote 1 c').dirent := hd' ▸ hwrote.located.entry
  have hchain : IsChain v d' (readEnt d' (direntAddr v file + direntSize * i)).startCluster l' := by
    rw [hentry]
    exact hd' ▸ hwrote.chain
  obtain rfl := hfile'.chain.unique hchain
  have hpos := hg.clusterBytes_pos
  have hcovers := hfile'.covers
  rw [List.length_append, List.length_singleton] at hcovers
  have hold := hfile.covers
  have hdiv := Nat.div_add_mod bytes.length v.clusterBytes
  have hmod := Nat.mod_lt bytes.length hpos
  by_cases hfull : l.length * v.clusterBytes ≤ bytes.length
  · -- The last cluster is full: the byte overwrites its start and the chain is too short.
    have hzero : bytes.length % v.clusterBytes = 0 := by
      rw [le_antisymm hold hfull, Nat.mul_mod_left]
    have htwo := hg.le_clusterBytes
    have hone : (bytes.length + 1) % v.clusterBytes ≠ 0 := by
      rw [Nat.add_mod, hzero, Nat.zero_add, Nat.mod_mod, Nat.mod_eq_of_lt (by omega)]
      exact Nat.one_ne_zero
    rw [hsame hone] at hcovers
    omega
  · -- The byte goes to a later cluster than the one in which it belongs.
    have hlt : bytes.length < l.length * v.clusterBytes := Nat.lt_of_not_le hfull
    have hbyte := hfile'.fileByte_eq (p := bytes.length) (by simp)
    have hbefore : bytes.length / v.clusterBytes + 1 ≤ l.length - 1 := by
      have := (Nat.div_lt_iff_lt_mul hpos).mpr hlt
      omega
    have hne : bytes.length ≠ (l.length - 1) * v.clusterBytes + bytes.length % v.clusterBytes := by
      have := Nat.mul_le_mul_right v.clusterBytes hbefore
      rw [Nat.succ_mul, Nat.mul_comm _ v.clusterBytes] at this
      omega
    have hkept : fileByte v d' l'' bytes.length = fileByte v d₁ l'' bytes.length := by
      rw [← hd']
      exact hw.fileByte_wrote hg hext (by omega)
    rw [hkept, hbytes _ hlt, if_neg hne,
      List.getD_eq_getElem?_getD, List.getElem?_append_right (le_refl _), Nat.sub_self] at hbyte
    exact hx hbyte.symm

end Append

theorem writable_atEnd (hloc : Located v d file i)
    (hreg : isDirectory file.dirent = false) (hchain : IsChain v d file.dirent.startCluster l)
    (hapart : EntryApart v d file l) (hl : l ≠ []) :
    Writable v d (file.atEnd (l.getLast hl)) l i := by
  refine ⟨hreg, rfl, ?_, ⟨hapart.root, hapart.cluster⟩, hchain, List.getLast_mem hl⟩
  exact ⟨hloc.found, hloc.fits, hloc.entry, hloc.root, hloc.cluster⟩

/-- A buffer of `n` bytes fits behind position `o` of a file with the clusters `l`: the size can be
recorded, and there is a cluster for every byte and for the position behind them. -/
def Fits (v : Fat16Volume) (d : Disk) (l : List Nat) (o n : Nat) : Prop :=
  o + n < 2 ^ 32 ∧ (o + n) / v.clusterBytes + 1 ≤ l.length + (freeClusters v d).card

/-- Appending gives the old contents followed by the buffer, for every buffer that fits. -/
def Appends (v : Fat16Volume) (d : Disk) (fuel : Nat) (path : List UInt8) (flag : Flags) (file : Fat16File)
    (l : List Nat) (bytes : List UInt8) : Prop :=
  ∀ data : List UInt8, Fits v d l bytes.length data.length →
    ∃ opened file' d' l', fatOpenExisting v fuel path flag d = (.ok (some opened), d) ∧
      fatWriteFile v opened data d = (.ok ((data.length : Int), file'), d') ∧
      FileAt v d' (entryAddr v d file) l' (bytes ++ data)

/-- The chain ends with the cluster of position `o`, and no buffer from `2 ^ 31` bytes on fits. -/
def EndsAt (v : Fat16Volume) (d : Disk) (l : List Nat) (o : Nat) : Prop :=
  l.length = o / v.clusterBytes + 1 ∧ ∀ n, Fits v d l o n → n < 2 ^ 31

/-- Appending works when the chain ends with the cluster in which the next byte of the file is and no
buffer from `2 ^ 31` bytes on fits, and on a volume with a free cluster only then. -/
theorem fatAppend_iff {fuel : Nat} {path : List UInt8} {flag : Flags} (hg : Geometry v)
    (hfuel : 2 ^ 16 ≤ fuel) (hflag : flag.append = true)
    (hfind : (fat16Find v fuel (newFat16File flag) path d).1 = .ok (some file))
    (hstart : clusNormal file.dirent.startCluster = true) (hreg : isDirectory file.dirent = false)
    (hfile : FileAt v d (entryAddr v d file) l bytes) (hapart : EntryApart v d file l) :
    (EndsAt v d l bytes.length → Appends v d fuel path flag file l bytes) ∧
      ((freeClusters v d).Nonempty → bytes.length + 1 < 2 ^ 32 →
        Appends v d fuel path flag file l bytes → EndsAt v d l bytes.length) := by
  have hne : file.dirent.startCluster ≠ 0 := by
    have := clusNormal_iff.mp hstart
    omega
  have hopened := fat16Find_opened hg ((fat16Find_quiet v fuel _ path).eq hfind) hne
  obtain ⟨i, hloc⟩ := hopened.located
  unfold Appends
  rw [hloc.entryAddr_eq] at hfile ⊢
  have hchain : IsChain v d file.dirent.startCluster l := by
    rw [← hloc.entry]
    exact hfile.chain
  have hl := hchain.ne_nil hstart
  have hsize : file.dirent.fileSize = bytes.length := by
    rw [← hloc.entry]
    exact hfile.size
  have hw := writable_atEnd hloc hreg hchain hapart hl
  have hopen := fatOpenExisting_append hg hfuel hflag hfind hchain hl
  constructor
  · rintro ⟨hlen, hsmall⟩ data hfits
    obtain ⟨file', d', l', hrun, hfile'⟩ :=
      append_run hg hw hfile hsize hlen (hsmall _ hfits) hfits.1 hfits.2
    exact ⟨_, file', d', l', hopen, hrun, hfile'⟩
  · intro hfree hmax hall
    have hopened_eq : ∀ data : List UInt8, Fits v d l bytes.length data.length →
        ∃ file' d' l', fatWriteFile v (file.atEnd (l.getLast hl)) data d =
            (.ok ((data.length : Int), file'), d') ∧
          FileAt v d' (direntAddr v file + direntSize * i) l' (bytes ++ data) := by
      intro data hfits
      obtain ⟨opened, file', d', l', hopen', hrun, hfile'⟩ := hall data hfits
      obtain rfl : file.atEnd (l.getLast hl) = opened :=
        Option.some.inj (FatM.ok_inj (hopen.symm.trans hopen'))
      exact ⟨file', d', l', hrun, hfile'⟩
    constructor
    · by_contra hlen
      refine append_byte hg hw hfile hsize hlen hfree hmax (x := fileByte v d l bytes.length + 1)
        (by simp) (hopened_eq _ ⟨hmax, ?_⟩)
      have hcard := Finset.card_pos.mpr hfree
      have hdiv : (bytes.length + 1) / v.clusterBytes < l.length + 1 := by
        have hcovers := hfile.covers
        have htwo := hg.le_clusterBytes
        rw [Nat.div_lt_iff_lt_mul hg.clusterBytes_pos, Nat.succ_mul]
        omega
      rw [List.length_singleton]
      omega
    · intro n hfits
      by_contra hn
      have hlen : (List.replicate n (0 : UInt8)).length = n := List.length_replicate
      obtain ⟨file', d', l', hrun, -⟩ := hopened_eq (List.replicate n 0) (by rwa [hlen])
      rw [fatWriteFile_fault hg hw (by omega) (by have := hfits.1; omega)] at hrun
      exact absurd (congrArg Prod.fst hrun) (by simp)

/-- `FAT16_CTL_APPEND`. -/
def appendFlag : Flags := { Flags.none with append := true }

theorem fileDisk_free {n : Nat} {bytes : List UInt8}
    (h : fatEntry smallVolume (fileDisk [3] n bytes) 5 = 0) :
    (freeClusters smallVolume (fileDisk [3] n bytes)).Nonempty :=
  ⟨5, mem_freeClusters.mpr ⟨by decide, h⟩⟩

theorem fatAppend_sample : ∃ file,
    (fat16Find smallVolume (2 ^ 16) (newFat16File appendFlag) [47, 70] (fileDisk [3] 3 [1, 2, 3])).1 =
      .ok (some file) ∧
    Appends smallVolume (fileDisk [3] 3 [1, 2, 3]) (2 ^ 16) [47, 70] appendFlag file [3] [1, 2, 3] := by
  obtain ⟨file, hfind, hF⟩ : ∃ file, (fat16Find smallVolume (2 ^ 16) (newFat16File appendFlag) [47, 70]
      (fileDisk [3] 3 [1, 2, 3])).1 = .ok (some file) ∧ isF (fileDisk [3] 3 [1, 2, 3]) file = true :=
    exists_found (by decide)
  obtain ⟨hdir, hstart, haddr, hapart⟩ := of_isF hF [3]
  refine ⟨file, hfind, ?_⟩
  have hfile := fileDisk_fileAt
  rw [← haddr] at hfile
  refine (fatAppend_iff smallVolume_geometry (le_refl _) rfl hfind (by rw [hstart]; decide) hdir hfile
    hapart).1 ⟨by decide, fun n hfits => ?_⟩
  -- A buffer that fits is not longer than the clusters of the volume.
  have hsub : freeClusters smallVolume (fileDisk [3] 3 [1, 2, 3]) ⊆ Finset.range 256 := fun x hx =>
    Finset.mem_range.mpr (mem_freeClusters.mp hx).1.2.2
  have hcard := Finset.card_le_card hsub
  have hroom := hfits.2
  have hbytes : smallVolume.clusterBytes = 512 := rfl
  have hlen : ([1, 2, 3] : List UInt8).length = 3 := rfl
  rw [Finset.card_range] at hcard
  rw [hbytes, hlen, List.length_singleton] at hroom
  omega

/-- A file that fills its cluster: one byte appended is written over the first one. -/
theorem fatAppend_full_cluster : ∃ file,
    (fat16Find smallVolume (2 ^ 16) (newFat16File appendFlag) [47, 70] (fileDisk [3] 512 [])).1 =
      .ok (some file) ∧
    FileAt smallVolume (fileDisk [3] 512 []) (entryAddr smallVolume (fileDisk [3] 512 []) file) [3]
      (content smallVolume (fileDisk [3] 512 []) [3] 512) ∧
    Fits smallVolume (fileDisk [3] 512 []) [3] 512 1 ∧
    ¬∃ opened file' d' l', fatOpenExisting smallVolume (2 ^ 16) [47, 70] appendFlag
        (fileDisk [3] 512 []) = (.ok (some opened), fileDisk [3] 512 []) ∧
      fatWriteFile smallVolume opened [9] (fileDisk [3] 512 []) = (.ok (1, file'), d') ∧
      FileAt smallVolume d' (entryAddr smallVolume (fileDisk [3] 512 []) file) l'
        (content smallVolume (fileDisk [3] 512 []) [3] 512 ++ [9]) := by
  have hlen : (content smallVolume (fileDisk [3] 512 []) [3] 512).length = 512 := by simp [content]
  have hchain : IsChain smallVolume (fileDisk [3] 512 []) 3 [3] :=
    chain_singleton (by decide) (by decide)
  have hfile : FileAt smallVolume (fileDisk [3] 512 []) 1024 [3]
      (content smallVolume (fileDisk [3] 512 []) [3] 512) := by
    have hentry : (readEnt (fileDisk [3] 512 []) 1024).startCluster = 3 ∧
        (readEnt (fileDisk [3] 512 []) 1024).fileSize = 512 := by decide
    refine ⟨?_, by rw [hlen]; exact hentry.2, by rw [hlen]; decide, by rw [hlen]⟩
    rw [hentry.1]
    exact hchain
  have hfree : (freeClusters smallVolume (fileDisk [3] 512 [])).Nonempty :=
    fileDisk_free (by decide)
  obtain ⟨file, hfind, hF⟩ : ∃ file, (fat16Find smallVolume (2 ^ 16) (newFat16File appendFlag) [47, 70]
      (fileDisk [3] 512 [])).1 = .ok (some file) ∧ isF (fileDisk [3] 512 []) file = true :=
    exists_found (by decide)
  obtain ⟨hdir, hstart, haddr, hapart⟩ := of_isF hF [3]
  have hopened := fat16Find_opened smallVolume_geometry
    ((fat16Find_quiet smallVolume (2 ^ 16) _ [47, 70]).eq hfind) (by rw [hstart]; decide)
  obtain ⟨i, hloc⟩ := hopened.located
  have hchain' : IsChain smallVolume (fileDisk [3] 512 []) file.dirent.startCluster [3] := by
    rw [hstart]
    exact hchain
  refine ⟨file, hfind, ?_⟩
  rw [haddr]
  refine ⟨hfile, ⟨by decide, ?_⟩, ?_⟩
  · have hcard := Finset.card_pos.mpr hfree
    have htwo : (512 + 1) / smallVolume.clusterBytes + 1 = 2 := by decide
    rw [htwo, List.length_singleton]
    omega
  · rintro ⟨opened, file', d', l', hopen, hrun, hfile'⟩
    have happend : appendFlag.append = true := rfl
    have hatEnd := fatOpenExisting_append smallVolume_geometry (le_refl _) happend hfind hchain'
      (List.cons_ne_nil 3 [])
    obtain rfl := Option.some.inj (FatM.ok_inj (hatEnd.symm.trans hopen))
    rw [← haddr, hloc.entryAddr_eq] at hfile hfile'
    have hsize : file.dirent.fileSize = (content smallVolume (fileDisk [3] 512 []) [3] 512).length := by
      rw [← hloc.entry]
      exact hfile.size
    have hw := writable_atEnd hloc hdir hchain' hapart (List.cons_ne_nil 3 [])
    have hstray : ¬∃ file' d' l', fatWriteFile smallVolume (file.atEnd 3) [9] (fileDisk [3] 512 []) =
        (.ok (1, file'), d') ∧ FileAt smallVolume d' (direntAddr smallVolume file + direntSize * i) l'
          (content smallVolume (fileDisk [3] 512 []) [3] 512 ++ [9]) := by
      refine append_byte smallVolume_geometry hw hfile hsize ?_ hfree ?_ ?_
      · rw [hlen]
        decide
      · rw [hlen]
        decide
      · rw [hlen]
        decide
    exact hstray ⟨file', d', l', hrun, hfile'⟩

end TsOs.Fat
