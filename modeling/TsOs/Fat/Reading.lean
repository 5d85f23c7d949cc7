import TsOs.Fat.Writing

/-!
# Reading

`fat_read_file` copies a file cluster by cluster. The end of a piece is the smaller of
two positions, taken as signed numbers: a call whose last position and whose cluster
boundaries are not on the same side of `2 ^ 31` copies too much and leaves its buffers.
Every other call moves the handle to the position behind the bytes it has copied.
-/

namespace TsOs.Fat
open ByteMemory

variable {v : Fat16Volume} {d : Disk} {l : List Nat} {s c o last : Nat}

variable (v) in
/-- `n` bytes of a file from position `o` on. -/
def bytesFrom (d : Disk) (l : List Nat) (o n : Nat) : List UInt8 :=
  (List.range n).map fun k => fileByte v d l (o + k)

variable (v) in
/-- The position behind the cluster of a position. -/
def clusterEnd (o : Nat) : Nat := (o / v.clusterBytes + 1) * v.clusterBytes

variable (v) in
/-- The cluster of a position, or the mark for the end at the position behind the chain. -/
def AtCluster (l : List Nat) (o c : Nat) : Prop :=
  l[o / v.clusterBytes]? = some c ∨ o = l.length * v.clusterBytes ∧ clusEof c = true

variable (v) in
/-- The comparison of the last position with the end of the cluster is not upset by the sign. -/
def SameSign (last p : Nat) : Prop := last < 2 ^ 31 ↔ clusterEnd v p < 2 ^ 31

/-! ## Positions -/

theorem length_bytesFrom (d : Disk) (l : List Nat) (o n : Nat) : (bytesFrom v d l o n).length = n := by
  rw [bytesFrom, List.length_map, List.length_range]

theorem bytesFrom_append (d : Disk) (l : List Nat) (o m n : Nat) :
    bytesFrom v d l o m ++ bytesFrom v d l (o + m) n = bytesFrom v d l o (m + n) := by
  unfold bytesFrom
  rw [List.range_add, List.map_append, List.map_map]
  congr 1
  refine List.map_congr_left fun k _ => ?_
  rw [Function.comp_apply, Nat.add_assoc]

theorem bytesFrom_take (d : Disk) (l : List Nat) (o m n : Nat) :
    (bytesFrom v d l o m).take n = bytesFrom v d l o (min n m) := by
  rw [bytesFrom, ← List.map_take, List.take_range]
  rfl

theorem content_drop_take (d : Disk) (l : List Nat) (o m n : Nat) :
    ((content v d l m).drop o).take n = bytesFrom v d l o (min n (m - o)) := by
  have hsplit : (content v d l m).drop o = bytesFrom v d l o (m - o) := by
    refine List.ext_getElem (by simp [content, bytesFrom]) fun k hk hk' => ?_
    simp [content, bytesFrom]
  rw [hsplit, bytesFrom_take]

theorem clusterEnd_add (o : Nat) : clusterEnd v o + o % v.clusterBytes = o + v.clusterBytes := by
  have hdiv := Nat.div_add_mod' o v.clusterBytes
  unfold clusterEnd
  rw [Nat.succ_mul]
  omega

section Positions

variable (hg : Geometry v)
include hg

theorem Geometry.lt_clusterEnd (o : Nat) : o < clusterEnd v o := by
  have hadd := clusterEnd_add (v := v) o
  have hmod := Nat.mod_lt o hg.clusterBytes_pos
  omega

omit hg in
theorem clusterEnd_mono {p q : Nat} (h : p ≤ q) : clusterEnd v p ≤ clusterEnd v q :=
  Nat.mul_le_mul_right _ (Nat.succ_le_succ (Nat.div_le_div_right h))

/-- Positions before the end of a cluster have no later cluster. -/
theorem Geometry.clusterEnd_of_lt {p : Nat} (h : o ≤ p) (hp : p < clusterEnd v o) :
    clusterEnd v p = clusterEnd v o := by
  have hdiv : p / v.clusterBytes = o / v.clusterBytes := by
    refine Nat.le_antisymm ?_ (Nat.div_le_div_right h)
    exact Nat.lt_succ_iff.mp ((Nat.div_lt_iff_lt_mul hg.clusterBytes_pos).mpr hp)
  unfold clusterEnd
  rw [hdiv]

theorem AtCluster.le (h : AtCluster v l o c) : o ≤ l.length * v.clusterBytes := by
  rcases h with hsome | ⟨heq, -⟩
  · have hlt := (List.getElem?_eq_some_iff.mp hsome).1
    have hle := (hg.lt_clusterEnd o).le
    exact hle.trans (Nat.mul_le_mul_right _ hlt)
  · exact heq.le

omit hg in
/-- Before the end of the chain there is a cluster. -/
theorem AtCluster.getElem? (h : AtCluster v l o c) (ho : o < l.length * v.clusterBytes) :
    l[o / v.clusterBytes]? = some c := by
  rcases h with hsome | ⟨heq, -⟩
  · exact hsome
  · omega

/-- The clusters of a chain are those of the positions before its end. -/
theorem Geometry.lt_of_getElem? (h : l[o / v.clusterBytes]? = some c) :
    o < l.length * v.clusterBytes ∧ clusterEnd v o ≤ l.length * v.clusterBytes := by
  have hlt := (List.getElem?_eq_some_iff.mp h).1
  have hle : clusterEnd v o ≤ l.length * v.clusterBytes := Nat.mul_le_mul_right _ hlt
  exact ⟨(hg.lt_clusterEnd o).trans_le hle, hle⟩

theorem AtCluster.eof (h : AtCluster v l o c) (ho : l.length * v.clusterBytes ≤ o) :
    clusEof c = true := by
  rcases h with hsome | ⟨-, heof⟩
  · have := (hg.lt_of_getElem? hsome).1
    omega
  · exact heof

end Positions

/-! ## One pass -/

/-- A position from `2 ^ 31` on is negative as an `int`. -/
theorem min32_of_ge {a b : Nat} (ha : 2 ^ 31 ≤ a) (ha' : a < 2 ^ 32) (hb : b < 2 ^ 31) :
    min32 a b = a := by
  unfold min32 signed32
  split <;> split <;> omega

section Pass

variable (hg : Geometry v)
include hg

theorem min32_of_sameSign (ho : o < last) (hlast : last < 2 ^ 32) (hs : SameSign v last o) :
    min32 last (u32 (clusterEnd v o)) = min last (clusterEnd v o) := by
  have hlt := hg.clusterBytes_lt
  have hadd := clusterEnd_add (v := v) o
  unfold SameSign at hs
  rcases Nat.lt_or_ge (clusterEnd v o) (2 ^ 32) with hend | hend
  · rw [u32_of_lt hend]
    unfold min32 signed32
    split <;> split <;> split <;> omega
  · have hsmall : clusterEnd v o % 2 ^ 32 < 2 ^ 31 := by omega
    exact (min32_of_ge (by omega) hlast hsmall).trans (Nat.min_eq_left (by omega)).symm

/-- A piece that the sign upsets does not fit. -/
theorem count_of_not_sameSign {n bufSize : Nat} (ho : o < last) (hlast : last < 2 ^ 32)
    (hbuf : n + (last - o) = bufSize) (hs : ¬SameSign v last o) :
    v.clusterBytes < o % v.clusterBytes + sub32 (min32 last (u32 (clusterEnd v o))) o ∨
      bufSize < n + sub32 (min32 last (u32 (clusterEnd v o))) o := by
  have hlt := hg.clusterBytes_lt
  have hadd := clusterEnd_add (v := v) o
  have hgt := hg.lt_clusterEnd o
  unfold SameSign at hs
  rcases Nat.lt_or_ge last (2 ^ 31) with hsmall | hlarge
  · -- The end of the cluster is negative.
    right
    have hmin : min32 last (u32 (clusterEnd v o)) = clusterEnd v o := by
      rw [u32_of_lt (by omega)]
      exact min32_of_le hsmall (by omega) (by omega)
    rw [hmin, sub32_of_le hgt.le (by omega)]
    omega
  · -- The last position is negative.
    left
    have hmin : min32 last (u32 (clusterEnd v o)) = last := by
      rw [u32_of_lt (by omega)]
      exact min32_of_ge hlarge hlast (by omega)
    rw [hmin, sub32_of_le ho.le hlast]
    omega

/-- The bytes of a piece. -/
theorem slice_clusterBlock {n : Nat} (hcur : l[o / v.clusterBytes]? = some c)
    (hfit : o % v.clusterBytes + n ≤ v.clusterBytes) :
    slice (clusterBlock v d c) (o % v.clusterBytes) n = bytesFrom v d l o n := by
  unfold slice bytesFrom
  refine List.map_congr_left fun k hk => ?_
  have hk' := List.mem_range.mp hk
  have hpos : o + k = o / v.clusterBytes * v.clusterBytes + (o % v.clusterBytes + k) := by
    rw [← Nat.add_assoc, Nat.div_add_mod']
  rw [hpos, fileByte_of_lt hg hcur (by omega)]
  exact block_of_lt d (by omega)

/-- The move behind a piece, along the chain. -/
theorem advance_read {n : Nat} (h : IsChain v d s l) (hcur : l[o / v.clusterBytes]? = some c)
    (hn : 0 < n) (hfit : o % v.clusterBytes + n ≤ v.clusterBytes) :
    ∃ c', AtCluster v l (o + n) c' ∧
      (if (o + n) / v.clusterBytes ≠ o / v.clusterBytes then fatGetNextCluster v c else pure c) d =
        (.ok c', d) := by
  have hc := h.inRange c (List.mem_of_getElem? hcur)
  have hlt := (List.getElem?_eq_some_iff.mp hcur).1
  rcases offset_cases hg hn hfit with ⟨hmod, hdiv⟩ | ⟨-, hdiv⟩
  · rw [if_pos (by omega)]
    refine ⟨_, ?_, fatGetNextCluster_run hg d hc.2.2⟩
    unfold AtCluster
    rw [hdiv]
    by_cases hlast : l.length = o / v.clusterBytes + 1
    · right
      refine ⟨?_, h.fatEntry_last hcur hlast⟩
      rw [hlast, ← hdiv, Nat.div_mul_cancel (Nat.dvd_of_mod_eq_zero hmod)]
    · left
      have hx : l[o / v.clusterBytes + 1]? = some l[o / v.clusterBytes + 1] :=
        List.getElem?_eq_getElem (by omega)
      rw [h.fatEntry_succ hcur hx]
      exact hx
  · rw [if_neg (by omega)]
    refine ⟨c, Or.inl ?_, rfl⟩
    rw [hdiv]
    exact hcur

variable {bufSize n : Nat} {out : List UInt8}

theorem readLoop_pass (h : IsChain v d s l) (hcur : l[o / v.clusterBytes]? = some c)
    (ho : o < last) (hlast : last < 2 ^ 32) (hbuf : out.length + (last - o) = bufSize)
    (hs : SameSign v last o) :
    ∃ c', AtCluster v l (min last (clusterEnd v o)) c' ∧
      readLoop v bufSize last (n + 1) c o out d = readLoop v bufSize last n c'
        (min last (clusterEnd v o))
        (out ++ bytesFrom v d l o (min last (clusterEnd v o) - o)) d := by
  have hc := h.inRange c (List.mem_of_getElem? hcur)
  have hadd := clusterEnd_add (v := v) o
  have hgt := hg.lt_clusterEnd o
  have hend : (o + v.clusterBytes) / v.clusterBytes * v.clusterBytes = clusterEnd v o := by
    rw [Nat.add_div_right _ hg.clusterBytes_pos]
    rfl
  have hnot : ¬clusEof c = true := by
    rw [clusEof_iff]
    have := hc.2.1
    omega
  obtain ⟨k, hk⟩ : ∃ k, min last (clusterEnd v o) = o + k := ⟨min last (clusterEnd v o) - o, by omega⟩
  have hsub : sub32 (o + k) o = k := by
    rw [sub32_of_le (Nat.le_add_right _ _) (by omega), Nat.add_sub_cancel_left]
  obtain ⟨c', hat, hrun⟩ := advance_read hg h hcur (n := k) (by omega) (by omega)
  rw [hk]
  refine ⟨c', hat, ?_⟩
  rw [readLoop, if_pos ⟨ho, by simpa using hnot⟩, FatM.bind_ok (fatReadCluster_run hg d hc.clusNormal)]
  dsimp only
  rw [hend, min32_of_sameSign hg ho hlast hs, hk, hsub, if_neg (by omega), Nat.add_sub_cancel_left,
    slice_clusterBlock hg hcur (by omega)]
  by_cases hmove : (o + k) / v.clusterBytes ≠ o / v.clusterBytes
  · rw [if_pos hmove] at hrun ⊢
    exact FatM.bind_ok hrun
  · rw [if_neg hmove] at hrun ⊢
    exact FatM.bind_ok hrun

theorem readLoop_fault_here (hc : InRange v c) (ho : o < last) (hlast : last < 2 ^ 32)
    (hbuf : out.length + (last - o) = bufSize) (hs : ¬SameSign v last o) :
    readLoop v bufSize last (n + 1) c o out d = (.error .fault, d) := by
  have hend : (o + v.clusterBytes) / v.clusterBytes * v.clusterBytes = clusterEnd v o := by
    rw [Nat.add_div_right _ hg.clusterBytes_pos]
    rfl
  have hnot : ¬clusEof c = true := by
    rw [clusEof_iff]
    have := hc.2.1
    omega
  rw [readLoop, if_pos ⟨ho, by simpa using hnot⟩, FatM.bind_ok (fatReadCluster_run hg d hc.clusNormal)]
  dsimp only
  rw [hend, if_pos (count_of_not_sameSign hg ho hlast hbuf hs)]
  rfl

end Pass

/-! ## The loop -/

section Loop

variable (hg : Geometry v) {bufSize n : Nat} {out : List UInt8}
include hg

/-- The whole loop, when no piece is upset. -/
theorem readLoop_run (h : IsChain v d s l) (hat : AtCluster v l o c) (ho : o ≤ last)
    (hlast : last < 2 ^ 32) (hbuf : out.length + (last - o) = bufSize) (hn : last - o < n)
    (hs : ∀ p, o ≤ p → p < min last (l.length * v.clusterBytes) → SameSign v last p) :
    ∃ c', AtCluster v l (min last (l.length * v.clusterBytes)) c' ∧
      readLoop v bufSize last n c o out d =
        (.ok (out ++ bytesFrom v d l o (min last (l.length * v.clusterBytes) - o), c',
          min last (l.length * v.clusterBytes)), d) := by
  induction n generalizing c o out with
  | zero => omega
  | succ n ih =>
      have hle := hat.le hg
      by_cases hmore : o < last ∧ o < l.length * v.clusterBytes
      · have hcur := hat.getElem? hmore.2
        have hend := (hg.lt_of_getElem? hcur).2
        have hgt := hg.lt_clusterEnd o
        obtain ⟨c₁, hat₁, hpass⟩ := readLoop_pass (n := n) hg h hcur hmore.1 hlast hbuf
          (hs o (le_refl o) (by omega))
        have hlen : (out ++ bytesFrom v d l o (min last (clusterEnd v o) - o)).length +
            (last - min last (clusterEnd v o)) = bufSize := by
          rw [List.length_append, length_bytesFrom]
          omega
        obtain ⟨c', hat', hrest⟩ := ih hat₁ (by omega) hlen (by omega) fun p hp => hs p (by omega)
        refine ⟨c', hat', ?_⟩
        have hjoin := bytesFrom_append (v := v) d l o (min last (clusterEnd v o) - o)
          (min last (l.length * v.clusterBytes) - min last (clusterEnd v o))
        rw [Nat.add_sub_cancel' (by omega)] at hjoin
        have hcount : min last (clusterEnd v o) - o +
            (min last (l.length * v.clusterBytes) - min last (clusterEnd v o)) =
              min last (l.length * v.clusterBytes) - o := by omega
        rw [hpass, hrest, List.append_assoc, hjoin, hcount]
      · have hend : min last (l.length * v.clusterBytes) = o := by omega
        have hstop : ¬(o < last ∧ (!clusEof c) = true) := by
          rintro ⟨hlt, hne⟩
          rw [hat.eof hg (by omega)] at hne
          exact absurd hne (by decide)
        rw [hend, Nat.sub_self]
        refine ⟨c, hat, ?_⟩
        rw [readLoop, if_neg hstop]
        exact congrArg (fun x => (Except.ok (x, c, o), d)) (List.append_nil out).symm

/-- The loop leaves its buffers when a piece is upset. -/
theorem readLoop_fault (h : IsChain v d s l) (hat : AtCluster v l o c)
    (hlast : last < 2 ^ 32) (hbuf : out.length + (last - o) = bufSize) (hn : last - o < n) {p : Nat}
    (hp : o ≤ p) (hp' : p < min last (l.length * v.clusterBytes)) (hs : ¬SameSign v last p) :
    readLoop v bufSize last n c o out d = (.error .fault, d) := by
  induction n generalizing c o out with
  | zero => omega
  | succ n ih =>
      have hcur := hat.getElem? (by omega)
      have hgt := hg.lt_clusterEnd o
      by_cases hhere : SameSign v last o
      · -- The piece is a later one.
        have hlater : clusterEnd v o ≤ p := by
          by_contra hlt
          rw [SameSign, hg.clusterEnd_of_lt hp (by omega)] at hs
          exact hs hhere
        obtain ⟨c₁, hat₁, hpass⟩ := readLoop_pass (n := n) hg h hcur (by omega) hlast hbuf hhere
        rw [hpass]
        refine ih hat₁ ?_ (by omega) (by omega)
        rw [List.length_append, length_bytesFrom]
        omega
      · exact readLoop_fault_here hg (h.inRange c (List.mem_of_getElem? hcur)) (by omega) hlast hbuf
          hhere

end Loop

/-! ## One call -/

variable {file : Fat16File}

variable (v) in
/-- A handle on a file or directory with the clusters `l`, at a position in it. -/
structure Readable (d : Disk) (file : Fat16File) (l : List Nat) : Prop where
  chain : IsChain v d file.dirent.startCluster l
  position : AtCluster v l file.byteOffset file.currentCluster
  covers : isDirectory file.dirent = false → file.dirent.fileSize ≤ l.length * v.clusterBytes

variable (v) in
/-- The bytes that can be read: those of the chain for a directory, and the size for a file. -/
def Fat16File.extent (file : Fat16File) (l : List Nat) : Nat :=
  if isDirectory file.dirent then l.length * v.clusterBytes else file.dirent.fileSize

/-- The handle after a call. -/
def Fat16File.atPosition (file : Fat16File) (c o : Nat) : Fat16File :=
  { file with currentCluster := c, byteOffset := o }

@[simp] theorem Fat16File.atPosition_dirent (c o : Nat) : (file.atPosition c o).dirent = file.dirent := rfl

@[simp] theorem Fat16File.extent_atPosition (c o : Nat) :
    (file.atPosition c o).extent v l = file.extent v l := rfl

theorem Readable.extent_le (h : Readable v d file l) : file.extent v l ≤ l.length * v.clusterBytes := by
  unfold Fat16File.extent
  split
  next => exact le_refl _
  next hdir => exact h.covers (by simpa using hdir)

theorem AtCluster.lt (h : IsChain v d s l) (hat : AtCluster v l o c) : c < 2 ^ 16 := by
  rcases hat with hsome | ⟨-, heof⟩
  · have := (h.inRange c (List.mem_of_getElem? hsome)).2.1
    omega
  · have := clusEof_iff.mp heof
    omega

/-- A handle that has just been opened is at the first cluster. -/
theorem Opened.readable {flag : Flags} (h : Opened v d flag 0 file)
    (hchain : IsChain v d file.dirent.startCluster l)
    (hcovers : isDirectory file.dirent = false → file.dirent.fileSize ≤ l.length * v.clusterBytes) :
    Readable v d file l := by
  refine ⟨hchain, ?_, hcovers⟩
  rw [h.offset, h.current]
  cases l with
  | nil => exact Or.inr ⟨by simp, hchain.eof_of_nil⟩
  | cons x l => exact Or.inl (by simp [hchain.head_eq])

section Calls

variable (hg : Geometry v) (h : Readable v d file l) {n : Nat} (ub : Buf)
include hg h

omit hg h in
/-- At the end of a regular file, wherever the cluster is. -/
theorem fatReadFile_size (hstart : file.dirent.startCluster ≠ 0) (hreg : isDirectory file.dirent = false)
    (ho : file.dirent.fileSize ≤ file.byteOffset) :
    fatReadFile v file ub n d = (.ok (fatFileEof, [], file), d) := by
  unfold fatReadFile
  rw [if_neg (show file.dirent.startCluster ≠ clusRoot from hstart), hreg, if_pos ⟨rfl, ho⟩]
  rfl

/-- At the end of the file. -/
theorem fatReadFile_end (ho : file.extent v l ≤ file.byteOffset) :
    fatReadFile v file ub n d = (.ok (fatFileEof, [], file), d) := by
  unfold Fat16File.extent at ho
  cases hdir : isDirectory file.dirent with
  | true =>
      rw [hdir, if_pos rfl] at ho
      unfold fatReadFile
      rw [if_neg (show file.dirent.startCluster ≠ clusRoot from h.chain.start_ne_zero), hdir,
        if_neg (by simp), if_pos (h.position.eof hg ho)]
      rfl
  | false =>
      rw [hdir, if_neg Bool.false_ne_true] at ho
      exact fatReadFile_size ub h.chain.start_ne_zero hdir ho

omit hg in
/-- Before the end of the file a call is its loop, cut off at the size. -/
theorem fatReadFile_loop (ho : file.byteOffset < file.extent v l) :
    fatReadFile v file ub n d = (readLoop v n (u32 (file.byteOffset + n)) (n + 1)
      file.currentCluster file.byteOffset [] >>= fun r =>
        let readCnt : Int := if !isDirectory file.dirent ∧ file.dirent.fileSize ≤ r.2.2 then
          (r.1.length : Int) - (r.2.2 - file.dirent.fileSize) else r.1.length
        pure (readCnt, r.1, file.atPosition (u16 r.2.1)
          ((file.byteOffset + readCnt) % 2 ^ 32).toNat)) d := by
  have hle := h.extent_le
  have hcur := h.position.getElem? (by omega)
  have hnot : ¬clusEof file.currentCluster = true := by
    rw [clusEof_iff]
    have := (h.chain.inRange _ (List.mem_of_getElem? hcur)).2.1
    omega
  have hmore : ¬((!isDirectory file.dirent) = true ∧ file.dirent.fileSize ≤ file.byteOffset) := by
    rintro ⟨hfile, hsize⟩
    rw [Bool.not_eq_true'] at hfile
    rw [Fat16File.extent, hfile, if_neg Bool.false_ne_true] at ho
    omega
  unfold fatReadFile
  rw [if_neg (show file.dirent.startCluster ≠ clusRoot from h.chain.start_ne_zero), if_neg hmore,
    if_neg hnot]
  rfl

/-- A call that is not upset copies up to the end of the buffer or of the chain, and returns what
of it is before the end of the file. -/
theorem fatReadFile_run (ho : file.byteOffset < file.extent v l) (hlast : file.byteOffset + n < 2 ^ 32)
    (hs : ∀ p, file.byteOffset ≤ p → p < min (file.byteOffset + n) (l.length * v.clusterBytes) →
      SameSign v (file.byteOffset + n) p) :
    ∃ c', AtCluster v l (min (file.byteOffset + n) (l.length * v.clusterBytes)) c' ∧
      fatReadFile v file ub n d =
        (.ok (((min (file.byteOffset + n) (file.extent v l) - file.byteOffset : Nat) : Int),
          bytesFrom v d l file.byteOffset
            (min (file.byteOffset + n) (l.length * v.clusterBytes) - file.byteOffset),
          file.atPosition c' (min (file.byteOffset + n) (file.extent v l))), d) := by
  have hle := h.extent_le
  have hbuf : ([] : List UInt8).length + (file.byteOffset + n - file.byteOffset) = n := by simp
  obtain ⟨c', hat, hrun⟩ := readLoop_run (n := n + 1) hg h.chain h.position (Nat.le_add_right _ n) hlast
    hbuf (by omega) hs
  have hc' : u16 c' = c' := Nat.mod_eq_of_lt (hat.lt h.chain)
  refine ⟨c', hat, ?_⟩
  rw [fatReadFile_loop h ub ho, u32_of_lt hlast, FatM.bind_ok hrun]
  dsimp only
  rw [hc', List.nil_append, length_bytesFrom]
  have hcount : (if (!isDirectory file.dirent) = true ∧
      file.dirent.fileSize ≤ min (file.byteOffset + n) (l.length * v.clusterBytes) then
        ((min (file.byteOffset + n) (l.length * v.clusterBytes) - file.byteOffset : Nat) : Int) -
          ((min (file.byteOffset + n) (l.length * v.clusterBytes) : Nat) - (file.dirent.fileSize : Int))
      else ((min (file.byteOffset + n) (l.length * v.clusterBytes) - file.byteOffset : Nat) : Int)) =
        ((min (file.byteOffset + n) (file.extent v l) - file.byteOffset : Nat) : Int) := by
    unfold Fat16File.extent at *
    cases hdir : isDirectory file.dirent with
    | true =>
        rw [hdir] at ho
        simp
    | false =>
        rw [hdir] at ho hle
        simp only [Bool.not_false, true_and, Bool.false_eq_true, if_false] at ho hle ⊢
        split <;> omega
  rw [hcount]
  have hoff : (((file.byteOffset : Int) +
      ((min (file.byteOffset + n) (file.extent v l) - file.byteOffset : Nat) : Int)) % 2 ^ 32).toNat =
        min (file.byteOffset + n) (file.extent v l) := by omega
  rw [hoff]
  rfl

/-- A call that is upset leaves its buffers. -/
theorem fatReadFile_fault (ho : file.byteOffset < file.extent v l)
    (hlast : file.byteOffset + n < 2 ^ 32) {p : Nat} (hp : file.byteOffset ≤ p)
    (hp' : p < min (file.byteOffset + n) (l.length * v.clusterBytes))
    (hs : ¬SameSign v (file.byteOffset + n) p) :
    fatReadFile v file ub n d = (.error .fault, d) := by
  have hbuf : ([] : List UInt8).length + (file.byteOffset + n - file.byteOffset) = n := by simp
  have hfault := readLoop_fault (n := n + 1) hg h.chain h.position hlast hbuf (by omega) hp hp' hs
  rw [fatReadFile_loop h ub ho, u32_of_lt hlast]
  exact FatM.bind_error hfault

omit hg in
/-- A call whose last position wraps around copies nothing. -/
theorem fatReadFile_wrap (ho : file.byteOffset < file.extent v l) (hoff : file.byteOffset < 2 ^ 32)
    (hn : n < 2 ^ 32) (hlast : 2 ^ 32 ≤ file.byteOffset + n) :
    fatReadFile v file ub n d = (.ok (0, [], file), d) := by
  have hle : u32 (file.byteOffset + n) ≤ file.byteOffset := by
    unfold u32
    omega
  have hloop : readLoop v n (u32 (file.byteOffset + n)) (n + 1) file.currentCluster file.byteOffset [] d =
      (.ok ([], file.currentCluster, file.byteOffset), d) := by
    rw [readLoop, if_neg (by omega)]
    rfl
  have hmore : ¬((!isDirectory file.dirent) = true ∧ file.dirent.fileSize ≤ file.byteOffset) := by
    rintro ⟨hfile, hsize⟩
    rw [Bool.not_eq_true'] at hfile
    rw [Fat16File.extent, hfile, if_neg Bool.false_ne_true] at ho
    omega
  have hcur : u16 file.currentCluster = file.currentCluster :=
    Nat.mod_eq_of_lt (h.position.lt h.chain)
  have hsame : ((file.byteOffset + (0 : Int)) % 2 ^ 32).toNat = file.byteOffset := by omega
  rw [fatReadFile_loop h ub ho, FatM.bind_ok hloop]
  dsimp only
  rw [if_neg hmore, hcur, List.length_nil, Int.natCast_zero, hsame]
  rfl

end Calls

end TsOs.Fat
