import TsOs.Fat.Chunks

/-!
# Reading the root directory

`fat_rw_root` reads the root directory in blocks of the size of a cluster. A block starts
at the sector of the position, but is counted from the position itself: from the middle
of a sector a call must end inside of the first block, or it leaves the block or returns
bytes that it has not read.
-/

namespace TsOs.Fat
open ByteMemory

variable {v : Fat16Volume} {d : Disk} {o last : Nat}

variable (v) in
/-- What the transfers of blocks of the root directory need. -/
structure RootGeometry : Prop where
  bytesPerSector : v.sb.bytesPerSector = sectorSize
  sectorsPerCluster_pos : 0 < v.sb.sectorsPerCluster
  sectorsPerCluster_lt : v.sb.sectorsPerCluster < 256
  clusterBytes : v.clusterBytes = sectorSize * v.sb.sectorsPerCluster
  rootSectors_lt : v.rootSectors < 2 ^ 16

theorem Geometry.rootGeometry (hg : Geometry v) : RootGeometry v := by
  have hdata := hg.root_le_data
  have hlt := hg.dataStart_lt
  exact ⟨hg.bytesPerSector, hg.sectorsPerCluster_pos, hg.sectorsPerCluster_lt, hg.clusterBytes, by omega⟩

variable (v) in
/-- The sectors of the block at a position of the root directory. -/
def rootBlock (o : Nat) : Nat := min v.sb.sectorsPerCluster (v.rootSectors - o / sectorSize)

variable (v) in
/-- `n` bytes of the root directory from position `o` on. -/
def rootFrom (d : Disk) (o n : Nat) : List UInt8 := slice d (sectorSize * v.rootDirStart + o) n

variable (v) in
/-- The contents of the root directory. -/
def rootContent (d : Disk) : List UInt8 := rootFrom v d 0 (sectorSize * v.rootSectors)

/-! ## Blocks of the root directory -/

theorem length_slice (m : Mem) (a n : Nat) : (slice m a n).length = n := by
  rw [slice, List.length_map, List.length_range]

theorem slice_append (m : Mem) (a k n : Nat) : slice m a k ++ slice m (a + k) n = slice m a (k + n) := by
  unfold slice
  rw [List.range_add, List.map_append, List.map_map]
  congr 1
  refine List.map_congr_left fun i _ => ?_
  rw [Function.comp_apply, Nat.add_assoc]

theorem slice_take (m : Mem) (a k n : Nat) : (slice m a k).take n = slice m a (min n k) := by
  rw [slice, ← List.map_take, List.take_range]
  rfl

theorem slice_drop (m : Mem) (a k n : Nat) : (slice m a k).drop n = slice m (a + n) (k - n) := by
  refine List.ext_getElem (by simp [slice]) fun i hi hi' => ?_
  simp [slice, Nat.add_assoc]

theorem slice_block {a p n size : Nat} (h : p + n ≤ size) :
    slice (block d a size) p n = slice d (a + p) n := by
  unfold slice
  refine List.map_congr_left fun i hi => ?_
  have hi' := List.mem_range.mp hi
  rw [block_of_lt d (by omega), Nat.add_assoc]

section Passes

variable (hg : RootGeometry v)
include hg

variable {n start : Nat} {out : List UInt8} {ub : Buf}

/-- One pass of the loop, when it reads. -/
theorem rwRootLoop_pass (ho : o < last) (hroot : o < sectorSize * v.rootSectors) {next : Nat}
    (hnext : min32 (o + sectorSize * rootBlock v o) last = next) (hle : o ≤ next) (hlt : next < 2 ^ 32) :
    rwRootLoop v false ub start last (n + 1) o out d =
      if v.clusterBytes < o % sectorSize + (next - o) then (.error .fault, d)
      else rwRootLoop v false ub start last n next
        (out ++ slice (block d (sectorSize * (v.rootDirStart + o / sectorSize))
          (sectorSize * rootBlock v o)) (o % sectorSize) (next - o)) d := by
  have hsectors := hg.rootSectors_lt
  have hspc := hg.sectorsPerCluster_lt
  have hin : ¬v.rootSectors ≤ o / sectorSize := by
    unfold sectorSize at *
    omega
  have hblock : min32 v.sb.sectorsPerCluster (v.rootSectors - o / sectorSize) = rootBlock v o :=
    min32_of_lt (by omega) ((Nat.sub_le _ _).trans_lt (by omega))
  have hread : rootBlock v o ≤ v.clusterBytes / sectorSize := by
    rw [hg.clusterBytes, Nat.mul_div_cancel_left _ (by decide)]
    exact Nat.min_le_left _ _
  have hpos : o - o / sectorSize * sectorSize = o % sectorSize := by
    have := Nat.div_add_mod' o sectorSize
    omega
  have hend : u32 (o + rootBlock v o * sectorSize) = o + sectorSize * rootBlock v o := by
    rw [Nat.mul_comm, u32_of_lt]
    have : rootBlock v o < 256 := (Nat.min_le_left _ _).trans_lt hspc
    unfold sectorSize at *
    omega
  rw [rwRootLoop, hg.bytesPerSector, if_pos ⟨ho, hin⟩]
  dsimp only
  rw [hblock, FatM.bind_ok (ataReadSector_run d hread), hend, hnext, sub32_of_le hle hlt, hpos]
  dsimp only
  split
  next => rfl
  next => rfl

theorem rwRootLoop_done (h : last ≤ o ∨ sectorSize * v.rootSectors ≤ o) :
    rwRootLoop v false ub start last (n + 1) o out d = (.ok out, d) := by
  have hstop : ¬(o < last ∧ ¬v.rootSectors ≤ o / sectorSize) := by
    rintro ⟨hlt, hin⟩
    unfold sectorSize at *
    omega
  rw [rwRootLoop, hg.bytesPerSector, if_neg hstop]
  rfl

/-- The loop from the start of a sector on. -/
theorem rwRootLoop_aligned (hdvd : sectorSize ∣ o) (ho : o ≤ last) (hroot : o ≤ sectorSize * v.rootSectors)
    (hlast : last < 2 ^ 31) (hn : last - o < n) :
    rwRootLoop v false ub start last n o out d =
      (.ok (out ++ rootFrom v d o (min last (sectorSize * v.rootSectors) - o)), d) := by
  have hsectors := hg.rootSectors_lt
  have hspc := hg.sectorsPerCluster_lt
  have hspos := hg.sectorsPerCluster_pos
  induction n generalizing o out with
  | zero => omega
  | succ n ih =>
      by_cases hmore : o < last ∧ o < sectorSize * v.rootSectors
      · obtain ⟨q, rfl⟩ := hdvd
        have hdiv : sectorSize * q / sectorSize = q := Nat.mul_div_cancel_left q (by decide)
        have hmod : sectorSize * q % sectorSize = 0 := Nat.mul_mod_right _ _
        have hq : q < v.rootSectors := Nat.lt_of_mul_lt_mul_left hmore.2
        have hb : rootBlock v (sectorSize * q) = min v.sb.sectorsPerCluster (v.rootSectors - q) := by
          rw [rootBlock, hdiv]
        have hcb : v.clusterBytes = 512 * v.sb.sectorsPerCluster := hg.clusterBytes
        obtain ⟨k, hk⟩ : ∃ k, k = min (sectorSize * rootBlock v (sectorSize * q)) (last - sectorSize * q) :=
          ⟨_, rfl⟩
        have hnext : min32 (sectorSize * q + sectorSize * rootBlock v (sectorSize * q)) last =
            sectorSize * q + k := by
          rw [min32_of_lt (by unfold sectorSize at *; omega) hlast]
          omega
        rw [rwRootLoop_pass hg hmore.1 hmore.2 hnext (by omega) (by unfold sectorSize at *; omega),
          Nat.add_sub_cancel_left, hmod, hdiv, if_neg (by unfold sectorSize at *; omega),
          slice_block (by omega), Nat.mul_add, Nat.add_zero]
        by_cases hlastBlock : k = sectorSize * rootBlock v (sectorSize * q)
        · -- The block is read to its end, which is that of a sector.
          have hdvd' : sectorSize ∣ sectorSize * q + k := by
            rw [hlastBlock]
            exact dvd_add (dvd_mul_right _ _) (dvd_mul_right _ _)
          have hle : sectorSize * q + k ≤ sectorSize * v.rootSectors := by
            unfold sectorSize at *
            omega
          have hpos : 0 < k := by
            unfold sectorSize at *
            omega
          rw [ih hdvd' (by omega) hle (by omega), List.append_assoc]
          unfold rootFrom
          rw [← Nat.add_assoc, slice_append]
          congr 4
          omega
        · have hk' : sectorSize * q + k = last := by omega
          have hle : last ≤ sectorSize * v.rootSectors := by
            unfold sectorSize at *
            omega
          obtain ⟨n, rfl⟩ : ∃ m, n = m + 1 := ⟨n - 1, by omega⟩
          rw [rwRootLoop_done hg (Or.inl (by omega)), Nat.min_eq_left hle, ← hk',
            Nat.add_sub_cancel_left]
          rfl
      · rw [rwRootLoop_done hg (by omega)]
        have hzero : min last (sectorSize * v.rootSectors) - o = 0 := by omega
        rw [hzero]
        exact congrArg (fun x => (Except.ok x, d)) (List.append_nil out).symm

/-- The loop inside of the first block. -/
theorem rwRootLoop_inside (ho : o < last) (hlast : last < 2 ^ 31)
    (hin : o % sectorSize + (last - o) ≤ sectorSize * rootBlock v o) :
    rwRootLoop v false ub start last (n + 2) o out d =
      (.ok (out ++ rootFrom v d o (last - o)), d) := by
  have hsectors := hg.rootSectors_lt
  have hspc := hg.sectorsPerCluster_lt
  have hcb : v.clusterBytes = 512 * v.sb.sectorsPerCluster := hg.clusterBytes
  have hb : rootBlock v o = min v.sb.sectorsPerCluster (v.rootSectors - o / sectorSize) := rfl
  have hroot : o < sectorSize * v.rootSectors := by
    unfold sectorSize at *
    omega
  have hnext : min32 (o + sectorSize * rootBlock v o) last = last := by
    rw [min32_of_lt (by unfold sectorSize at *; omega) hlast]
    omega
  have hpos : sectorSize * (v.rootDirStart + o / sectorSize) + o % sectorSize =
      sectorSize * v.rootDirStart + o := by
    unfold sectorSize
    omega
  rw [rwRootLoop_pass hg ho hroot hnext ho.le (by omega), if_neg (by unfold sectorSize at *; omega),
    rwRootLoop_done hg (Or.inl (le_refl _)), slice_block hin, hpos]
  rfl

end Passes

/-! ## One call -/

variable {file : Fat16File} {n : Nat}

variable (v) in
/-- A call of `n` bytes at position `o` that ends inside of the block with which it starts, unless
it starts with a sector. -/
def RootGood (o n : Nat) : Prop :=
  o + n < 2 ^ 31 ∧ (sectorSize ∣ o ∨ n ≤ sectorSize * rootBlock v o - o % sectorSize)

/-- A handle on the root directory that is open for reading. -/
structure RootHandle (f : Fat16File) : Prop where
  root : f.dirent.startCluster = clusRoot
  mode : f.flag.write = false

section Calls

variable (hg : RootGeometry v) (h : RootHandle file) (ub : Buf)
include hg h

theorem RootHandle.fatReadFile_end (ho : sectorSize * v.rootSectors ≤ file.byteOffset) :
    fatReadFile v file ub n d = (.ok (fatFileEof, [], file), d) := by
  have hend : v.rootSectors ≤ file.byteOffset / sectorSize := by
    unfold sectorSize at *
    omega
  unfold fatReadFile fatRwRoot
  rw [if_pos h.root, hg.bytesPerSector, if_pos hend]
  rfl

theorem RootHandle.fatReadFile_loop (ho : file.byteOffset < sectorSize * v.rootSectors) {out : List UInt8}
    (hloop : rwRootLoop v false ub file.byteOffset (u32 (file.byteOffset + n)) (n + 1)
      file.byteOffset [] d = (.ok out, d)) :
    fatReadFile v file ub n d = (.ok ((out.length : Int), out,
      { file with byteOffset := u32 (file.byteOffset + out.length) }), d) := by
  have hend : ¬v.rootSectors ≤ file.byteOffset / sectorSize := by
    unfold sectorSize at *
    omega
  unfold fatReadFile fatRwRoot
  rw [if_pos h.root, hg.bytesPerSector, if_neg hend, h.mode, FatM.bind_ok hloop]
  rfl

theorem RootHandle.fatReadFile_error (ho : file.byteOffset < sectorSize * v.rootSectors)
    (hloop : rwRootLoop v false ub file.byteOffset (u32 (file.byteOffset + n)) (n + 1)
      file.byteOffset [] d = (.error .fault, d)) :
    fatReadFile v file ub n d = (.error .fault, d) := by
  have hend : ¬v.rootSectors ≤ file.byteOffset / sectorSize := by
    unfold sectorSize at *
    omega
  unfold fatReadFile fatRwRoot
  rw [if_pos h.root, hg.bytesPerSector, if_neg hend, h.mode]
  exact FatM.bind_error hloop

/-- A good call returns the next bytes of the root directory. -/
theorem RootHandle.fatReadFile_good (hn : 0 < n) (ho : file.byteOffset < sectorSize * v.rootSectors)
    (hgood : RootGood v file.byteOffset n) :
    fatReadFile v file ub n d =
      (.ok (((min n (sectorSize * v.rootSectors - file.byteOffset) : Nat) : Int),
        rootFrom v d file.byteOffset (min n (sectorSize * v.rootSectors - file.byteOffset)),
        { file with byteOffset := min (file.byteOffset + n) (sectorSize * v.rootSectors) }), d) := by
  have hsectors := hg.rootSectors_lt
  obtain ⟨hlast, hshape⟩ := hgood
  obtain ⟨m, rfl⟩ : ∃ m, n = m + 1 := ⟨n - 1, by omega⟩
  have hloop : rwRootLoop v false ub file.byteOffset (u32 (file.byteOffset + (m + 1))) (m + 1 + 1)
      file.byteOffset [] d = (.ok (rootFrom v d file.byteOffset
        (min (m + 1) (sectorSize * v.rootSectors - file.byteOffset))), d) := by
    rw [u32_of_lt (by omega)]
    rcases hshape with hdvd | hin
    · rw [rwRootLoop_aligned hg hdvd (by omega) ho.le hlast (by omega), List.nil_append]
      congr 3
      omega
    · have hb : rootBlock v file.byteOffset =
          min v.sb.sectorsPerCluster (v.rootSectors - file.byteOffset / sectorSize) := rfl
      rw [rwRootLoop_inside hg (by omega) hlast (by omega), List.nil_append]
      congr 3
      unfold sectorSize at *
      omega
  rw [h.fatReadFile_loop hg ub ho hloop]
  have hlen : (rootFrom v d file.byteOffset
      (min (m + 1) (sectorSize * v.rootSectors - file.byteOffset))).length =
        min (m + 1) (sectorSize * v.rootSectors - file.byteOffset) := length_slice _ _ _
  have hoff : u32 (file.byteOffset + min (m + 1) (sectorSize * v.rootSectors - file.byteOffset)) =
      min (file.byteOffset + (m + 1)) (sectorSize * v.rootSectors) := by
    rw [u32_of_lt (by omega)]
    omega
  rw [hlen, hoff]

/-- Any other call does not. -/
theorem RootHandle.fatReadFile_bad (hn : 0 < n) (hsize : n < 2 ^ 32)
    (ho : file.byteOffset < sectorSize * v.rootSectors) (hbad : ¬RootGood v file.byteOffset n)
    {out : List UInt8} {f' : Fat16File} {d' : Disk} :
    fatReadFile v file ub n d ≠
      (.ok (((min n (sectorSize * v.rootSectors - file.byteOffset) : Nat) : Int), out, f'), d') := by
  have hsectors := hg.rootSectors_lt
  have hspc := hg.sectorsPerCluster_lt
  have hcb : v.clusterBytes = 512 * v.sb.sectorsPerCluster := hg.clusterBytes
  have hb : rootBlock v file.byteOffset =
      min v.sb.sectorsPerCluster (v.rootSectors - file.byteOffset / sectorSize) := rfl
  obtain ⟨m, rfl⟩ : ∃ m, n = m + 1 := ⟨n - 1, by omega⟩
  intro hrun
  -- A loop that returns has returned as many bytes as are left.
  have hcount : ∀ piece : List UInt8, rwRootLoop v false ub file.byteOffset
      (u32 (file.byteOffset + (m + 1))) (m + 1 + 1) file.byteOffset [] d = (.ok piece, d) →
        piece.length = min (m + 1) (sectorSize * v.rootSectors - file.byteOffset) := by
    intro piece hloop
    have hfst := congrArg Prod.fst ((h.fatReadFile_loop hg ub ho hloop).symm.trans hrun)
    have hres := congrArg Prod.fst (Except.ok.inj hfst)
    exact Int.ofNat.inj hres
  have hfault : rwRootLoop v false ub file.byteOffset (u32 (file.byteOffset + (m + 1))) (m + 1 + 1)
      file.byteOffset [] d ≠ (.error .fault, d) := by
    intro hloop
    exact absurd (congrArg Prod.fst ((h.fatReadFile_error hg ub ho hloop).symm.trans hrun)) (by simp)
  rcases Nat.lt_or_ge (file.byteOffset + (m + 1)) (2 ^ 32) with hlt | hge
  · rw [u32_of_lt hlt] at hcount hfault
    rcases Nat.lt_or_ge (file.byteOffset + (m + 1)) (2 ^ 31) with hlast | hlast
    · -- The call starts inside of a sector and goes on behind the block.
      obtain ⟨k, hk⟩ : ∃ k, k = min (sectorSize * rootBlock v file.byteOffset) (m + 1) := ⟨_, rfl⟩
      have hnext : min32 (file.byteOffset + sectorSize * rootBlock v file.byteOffset)
          (file.byteOffset + (m + 1)) = file.byteOffset + k := by
        rw [min32_of_lt (by unfold sectorSize at *; omega) hlast]
        omega
      have hout : ¬(m + 1 ≤ sectorSize * rootBlock v file.byteOffset - file.byteOffset % sectorSize) :=
        fun hin => hbad ⟨hlast, Or.inr hin⟩
      have hmid : file.byteOffset % sectorSize ≠ 0 := fun hzero =>
        hbad ⟨hlast, Or.inl (Nat.dvd_of_mod_eq_zero hzero)⟩
      rw [rwRootLoop_pass hg (by omega) ho hnext (by omega) (by omega), Nat.add_sub_cancel_left]
        at hcount hfault
      by_cases hfit : v.clusterBytes < file.byteOffset % sectorSize + k
      · rw [if_pos hfit] at hfault
        exact hfault rfl
      · rw [if_neg hfit, rwRootLoop_done hg (by unfold sectorSize at *; omega)] at hcount
        have hlen := hcount _ rfl
        rw [List.nil_append, length_slice] at hlen
        unfold sectorSize at *
        omega
    · -- The last position is negative.
      have hnext : min32 (file.byteOffset + sectorSize * rootBlock v file.byteOffset)
          (file.byteOffset + (m + 1)) = file.byteOffset + (m + 1) :=
        min32_of_le (by unfold sectorSize at *; omega) hlast hlt
      rw [rwRootLoop_pass hg (by omega) ho hnext (by omega) hlt,
        if_pos (by unfold sectorSize at *; omega)] at hfault
      exact hfault rfl
  · -- The last position has wrapped around.
    have hwrap : u32 (file.byteOffset + (m + 1)) ≤ file.byteOffset := by
      unfold u32
      unfold sectorSize at *
      omega
    have hlen := hcount [] (rwRootLoop_done hg (Or.inl hwrap))
    rw [List.length_nil] at hlen
    omega

end Calls

/-! ## The root directory in chunks -/

theorem length_rootContent : (rootContent v d).length = sectorSize * v.rootSectors := length_slice _ _ _

theorem rootServes (hg : RootGeometry v) :
    Serves v d (rootContent v d) RootHandle (fun _ n => 0 < n ∧ n < 2 ^ 32) (RootGood v) := by
  have hlen := length_rootContent (v := v) (d := d)
  constructor
  · intro f n hf hend
    rw [hlen] at hend
    exact hf.fatReadFile_end hg _ hend
  · intro f n hf hlt hallow hgood
    rw [hlen] at hlt ⊢
    refine ⟨_, _, hf.fatReadFile_good hg _ hallow.1 hlt hgood, ?_, ⟨hf.root, hf.mode⟩, rfl⟩
    unfold rootContent rootFrom
    rw [slice_take, Nat.min_self, Nat.add_zero, slice_drop, slice_take]
  · intro f n hf hlt hallow hbad out f' d' hrun
    rw [hlen] at hlt hrun
    exact hf.fatReadFile_bad hg _ hallow.1 hallow.2 hlt hbad hrun

theorem RootHandle.readCalls_iff (hg : RootGeometry v) (h : RootHandle file) (ns : List Nat)
    (ho : file.byteOffset ≤ sectorSize * v.rootSectors) (hpos : ∀ n ∈ ns, 0 < n ∧ n < 2 ^ 32) :
    readCalls v file ns d = (.ok (chunks (rootContent v d) file.byteOffset ns), d) ↔
      EachCall (sectorSize * v.rootSectors) (RootGood v) file.byteOffset ns := by
  have hiff := (rootServes (d := d) hg).readCalls_iff h (by rw [length_rootContent]; exact ho)
    (eachCall_of_forall hpos)
  rwa [length_rootContent] at hiff

/-- The handle that `fat_open` gives for the root directory. -/
def openedRoot (flag : Flags) : Fat16File :=
  { newFat16File flag with
    dirent := rootEnt
    currentCluster := clusRoot
    flag := { flag with isRoot := true } }

theorem fatOpenExisting_root (v : Fat16Volume) (d : Disk) (fuel : Nat) {flag : Flags} (hflag : flag.append = false) :
    fatOpenExisting v fuel [slash] flag d = (.ok (some (openedRoot flag)), d) := by
  have hfind : fat16Find v fuel (newFat16File flag) [slash] d = (.ok (some (openedRoot flag)), d) := by
    unfold fat16Find
    rw [if_pos rfl]
    rfl
  unfold fatOpenExisting
  rw [FatM.bind_ok hfind]
  dsimp only
  rw [hflag]
  rfl

theorem openedRoot_rootHandle {flag : Flags} (hmode : flag.write = false) : RootHandle (openedRoot flag) :=
  ⟨rfl, hmode⟩

/-- Reading the root directory returns it in chunks exactly when every call before the end starts
with a sector or ends inside of the block of its first sector, below position `2 ^ 31`. -/
theorem fatReadFile_root_iff {fuel : Nat} {flag : Flags} {ns : List Nat} (hg : RootGeometry v)
    (hopen : (fatOpenExisting v fuel [slash] flag d).1 = .ok (some file)) (hflag : flag.append = false)
    (hmode : flag.write = false) (hpos : ∀ n ∈ ns, 0 < n ∧ n < 2 ^ 32) :
    readCalls v file ns d = (.ok (chunks (rootContent v d) 0 ns), d) ↔
      EachCall (sectorSize * v.rootSectors) (RootGood v) 0 ns := by
  rw [fatOpenExisting_root v d fuel hflag] at hopen
  obtain rfl := Option.some.inj (Except.ok.inj hopen)
  exact (openedRoot_rootHandle hmode).readCalls_iff hg ns (Nat.zero_le _) hpos

theorem smallVolume_rootGeometry : RootGeometry smallVolume := smallVolume_geometry.rootGeometry

theorem fatReadFile_root_sample : ∃ file,
    (fatOpenExisting smallVolume 2 [slash] Flags.none (fileDisk [3] 3 [1, 2, 3])).1 =
      .ok (some file) ∧
    (readCalls smallVolume file [512, 32] (fileDisk [3] 3 [1, 2, 3]) =
        (.ok (chunks (rootContent smallVolume (fileDisk [3] 3 [1, 2, 3])) 0 [512, 32]),
          fileDisk [3] 3 [1, 2, 3]) ↔
      EachCall (sectorSize * 1) (RootGood smallVolume) 0 [512, 32]) := by
  have hflag : Flags.none.append = false := rfl
  have hopen := congrArg Prod.fst
    (fatOpenExisting_root smallVolume (fileDisk [3] 3 [1, 2, 3]) 2 hflag)
  exact ⟨_, hopen, fatReadFile_root_iff smallVolume_rootGeometry hopen hflag rfl (by decide)⟩

/-- Two calls for 300 bytes: the second one leaves the block. -/
theorem fatReadFile_root_leaves : ∃ file,
    (fatOpenExisting smallVolume 2 [slash] Flags.none (fileDisk [3] 3 [1, 2, 3])).1 =
      .ok (some file) ∧
    readCalls smallVolume file [300, 300] (fileDisk [3] 3 [1, 2, 3]) ≠
      (.ok (chunks (rootContent smallVolume (fileDisk [3] 3 [1, 2, 3])) 0 [300, 300]),
        fileDisk [3] 3 [1, 2, 3]) := by
  have hflag : Flags.none.append = false := rfl
  have hopen := congrArg Prod.fst
    (fatOpenExisting_root smallVolume (fileDisk [3] 3 [1, 2, 3]) 2 hflag)
  refine ⟨_, hopen, fun hrun => ?_⟩
  have hroot : RootHandle (openedRoot Flags.none) := ⟨rfl, rfl⟩
  have hall : EachCall (sectorSize * smallVolume.rootSectors) (RootGood smallVolume) 0
      ([300] ++ 300 :: []) :=
    (hroot.readCalls_iff smallVolume_rootGeometry [300, 300] (Nat.zero_le _) (by decide)).mp hrun
  have hsecond := hall.append (by decide)
  rcases hsecond.2 with hdvd | hin
  · exact absurd hdvd (by decide)
  · exact absurd hin (by decide)

end TsOs.Fat
