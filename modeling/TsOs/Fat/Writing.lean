import TsOs.Fat.Contents
import TsOs.Fat.Lookup

/-!
# Writing

`fat_write_file` copies the buffer cluster by cluster. Each pass replaces a part of
one cluster and, at the end of the cluster, goes on to the next one, which is linked
in when the chain ends there. The size in the entry becomes the position at which the
write has stopped.
-/

namespace TsOs.Fat
open ByteMemory LinkPath

variable {v : Fat16Volume} {d : Disk} {l : List Nat} {s c i : Nat}

theorem min32_of_lt {a b : Nat} (ha : a < 2 ^ 31) (hb : b < 2 ^ 31) : min32 a b = min a b := by
  unfold min32 signed32
  rw [if_pos ha, if_pos hb]
  split <;> omega

/-- A count from `2 ^ 31` on is negative as an `int`. -/
theorem min32_of_le {a b : Nat} (ha : a < 2 ^ 31) (hb : 2 ^ 31 ≤ b) (hb' : b < 2 ^ 32) :
    min32 a b = b := by
  unfold min32 signed32
  rw [if_pos ha]
  split <;> split <;> omega

/-! ## The next cluster -/

theorem IsChain.fatEntry_succ {x : Nat} (h : IsChain v d s l) (hi : l[i]? = some c)
    (hx : l[i + 1]? = some x) : fatEntry v d c = x := by
  induction l generalizing s i with
  | nil => simp at hi
  | cons a l ih =>
      cases i with
      | zero =>
          obtain rfl : a = c := by simpa using hi
          cases l with
          | nil => simp at hx
          | cons b l =>
              obtain rfl : b = x := by simpa using hx
              exact h.tail.head_eq
      | succ i => exact ih h.tail (by simpa using hi) (by simpa using hx)

theorem IsChain.fatEntry_last (h : IsChain v d s l) (hi : l[i]? = some c) (hlast : l.length = i + 1) :
    clusEof (fatEntry v d c) = true := by
  induction l generalizing s i with
  | nil => simp at hi
  | cons a l ih =>
      cases i with
      | zero =>
          obtain rfl : a = c := by simpa using hi
          obtain rfl : l = [] := List.eq_nil_of_length_eq_zero (by simpa using hlast)
          exact h.tail.eof_of_nil
      | succ i => exact ih h.tail (by simpa using hi) (by simpa using hlast)

section Steps

variable (hg : Geometry v)
include hg

theorem nextOrNewCluster_run (h : IsChain v d s l) (hi : l[i]? = some c)
    (hfree : l.length = i + 1 → (freeClusters v d).Nonempty) :
    ∃ c' l' d', nextOrNewCluster v c d = (.ok c', d') ∧ Extends v s l l' d d' ∧
      l'[i + 1]? = some c' ∧ l'.length = max l.length (i + 2) ∧
      ∀ a, sectorSize * v.rootDirStart ≤ a → d' a = d a := by
  have hc : InRange v c := h.inRange c (List.mem_of_getElem? hi)
  have hlt : i < l.length := (List.getElem?_eq_some_iff.mp hi).1
  rw [nextOrNewCluster, FatM.bind_ok (fatGetNextCluster_run hg d hc.2.2)]
  by_cases hlast : l.length = i + 1
  · obtain ⟨y, hy, -, hrun⟩ := fatGetFreeCluster_run hg (hfree hlast)
    have hyr := (mem_freeClusters.mp hy).1
    obtain ⟨l₀, rfl, rfl⟩ : ∃ l₀, l = l₀ ++ [c] ∧ i = l₀.length := by
      rcases l.eq_nil_or_concat' with rfl | ⟨l₀, x, rfl⟩
      · simp at hi
      · obtain rfl : i = l₀.length := by simpa using hlast.symm
        obtain rfl : x = c := by simpa using hi
        exact ⟨l₀, rfl, rfl⟩
    rw [if_pos (h.fatEntry_last hi hlast), FatM.bind_ok hrun,
      FatM.bind_ok (writeFat_run hg d y hc.2.2), FatM.bind_ok (writeFat_run hg _ 0xFFFF hyr.2.2)]
    refine ⟨y, l₀ ++ [c, y], _, rfl, Extends.link h hy, ?_, ?_, ?_⟩
    · simp
    · simp
    · intro a ha
      rw [hg.setFat_of_le hyr.2.2 ha, hg.setFat_of_le hc.2.2 ha]
  · have hx : l[i + 1]? = some l[i + 1] := List.getElem?_eq_getElem (by omega)
    have hxr := h.inRange l[i + 1] (List.getElem_mem _)
    have hnot : ¬clusEof (fatEntry v d c) = true := by
      rw [h.fatEntry_succ hi hx]
      intro heof
      have := not_clusNormal_of_eof heof
      rw [hxr.clusNormal] at this
      exact absurd this (by decide)
    rw [if_neg hnot]
    refine ⟨_, l, d, rfl, Extends.refl h, ?_, by omega, fun _ _ => rfl⟩
    rw [h.fatEntry_succ hi hx]
    exact hx

/-- A piece that does not leave its cluster ends inside of it or at its end. -/
theorem offset_cases {o k : Nat} (hk : 0 < k) (hle : o % v.clusterBytes + k ≤ v.clusterBytes) :
    (o + k) % v.clusterBytes = 0 ∧ (o + k) / v.clusterBytes = o / v.clusterBytes + 1 ∨
      (o + k) % v.clusterBytes ≠ 0 ∧ (o + k) / v.clusterBytes = o / v.clusterBytes := by
  have hpos := hg.clusterBytes_pos
  have hsplit : o + k = v.clusterBytes * (o / v.clusterBytes) + (o % v.clusterBytes + k) := by
    have := Nat.div_add_mod o v.clusterBytes
    omega
  rcases Nat.eq_or_lt_of_le hle with heq | hlt
  · left
    rw [hsplit, heq, Nat.mul_add_mod, Nat.mod_self, Nat.mul_add_div hpos, Nat.div_self hpos]
    exact ⟨rfl, rfl⟩
  · right
    rw [hsplit, Nat.mul_add_mod, Nat.mod_eq_of_lt hlt, Nat.mul_add_div hpos, Nat.div_eq_of_lt hlt]
    exact ⟨by omega, rfl⟩

/-- The move to the position behind a piece. -/
theorem advance_run {o k : Nat} (h : IsChain v d s l) (hcur : l[o / v.clusterBytes]? = some c)
    (hk : 0 < k) (hle : o % v.clusterBytes + k ≤ v.clusterBytes)
    (hfree : (o + k) / v.clusterBytes + 1 ≤ l.length + (freeClusters v d).card) :
    ∃ c' l' d', (if (o + k) % v.clusterBytes = 0 then nextOrNewCluster v c else pure c) d =
        (.ok c', d') ∧ Extends v s l l' d d' ∧ l'[(o + k) / v.clusterBytes]? = some c' ∧
      l'.length = max l.length ((o + k) / v.clusterBytes + 1) ∧
      ∀ a, sectorSize * v.rootDirStart ≤ a → d' a = d a := by
  have hlt := (List.getElem?_eq_some_iff.mp hcur).1
  rcases offset_cases hg hk hle with ⟨hzero, hdiv⟩ | ⟨hne, hdiv⟩
  · rw [hdiv] at hfree
    rw [if_pos hzero, hdiv]
    exact nextOrNewCluster_run hg h hcur fun hlast => Finset.card_pos.mp (by omega)
  · rw [if_neg hne, hdiv]
    exact ⟨c, l, d, rfl, Extends.refl h, hcur, by omega, fun _ _ => rfl⟩

/-- One pass of the loop. -/
theorem writeLoop_pass {data : List UInt8} {n o cnt k : Nat} (hc : InRange v c)
    (hk : k = min (v.clusterBytes - o % v.clusterBytes) (data.length - cnt))
    (hcnt : cnt < data.length) (hrem : data.length - cnt < 2 ^ 31) (ho : o + k < 2 ^ 32) :
    writeLoop v data (n + 1) c o cnt d =
      ((if (o + k) % v.clusterBytes = 0 then nextOrNewCluster v c else pure c) >>= fun c =>
        writeLoop v data n c (o + k) (cnt + k))
        (patch d (clusterAddr v c + o % v.clusterBytes) ((data.drop cnt).take k)) := by
  have hlt := hg.clusterBytes_lt
  have hmod := Nat.mod_lt o hg.clusterBytes_pos
  have htmp : min32 (v.clusterBytes - o % v.clusterBytes) (data.length - cnt) = k := by
    rw [min32_of_lt (by omega) hrem, hk]
  have hlen : ((data.drop cnt).take k).length = k := by
    rw [List.length_take, List.length_drop]
    omega
  rw [writeLoop, if_pos hcnt, FatM.bind_ok (fatReadCluster_run hg d hc.clusNormal)]
  dsimp only
  rw [htmp, if_neg (by omega), FatM.bind_ok (fatWriteCluster_run hg d _ hc.clusNormal), setCluster,
    clusterBlock, setBlock_patch d (by omega), u32_of_lt ho]
  split <;> rfl

/-- The whole loop: the chain grows as far as the position behind the last byte, and the bytes
from `o` on are those of the buffer. -/
theorem writeLoop_run {data : List UInt8} {n o cnt : Nat} (h : IsChain v d s l)
    (hcur : l[o / v.clusterBytes]? = some c) (hcnt : cnt ≤ data.length)
    (hrem : data.length - cnt < 2 ^ 31) (ho : o + (data.length - cnt) < 2 ^ 32)
    (hfree : (o + (data.length - cnt)) / v.clusterBytes + 1 ≤ l.length + (freeClusters v d).card)
    (hn : data.length - cnt < n) :
    ∃ c' l' d', writeLoop v data n c o cnt d = (.ok (c', o + (data.length - cnt)), d') ∧
      Extends v s l l' d d' ∧ l'[(o + (data.length - cnt)) / v.clusterBytes]? = some c' ∧
      l'.length = max l.length ((o + (data.length - cnt)) / v.clusterBytes + 1) ∧
      ∀ p < l'.length * v.clusterBytes, fileByte v d' l' p =
        if o ≤ p ∧ p < o + (data.length - cnt) then data.getD (cnt + (p - o)) 0
        else fileByte v d l' p := by
  induction n generalizing c o cnt d l with
  | zero => omega
  | succ n ih =>
      rcases Nat.eq_or_lt_of_le hcnt with rfl | hlt
      · simp only [Nat.sub_self, Nat.add_zero]
        rw [writeLoop, if_neg (Nat.lt_irrefl _)]
        have hlen := (List.getElem?_eq_some_iff.mp hcur).1
        refine ⟨c, l, d, rfl, Extends.refl h, hcur, by omega, fun p _ => ?_⟩
        rw [if_neg (by omega)]
      · have hpos := hg.clusterBytes_pos
        have hmod := Nat.mod_lt o hpos
        obtain ⟨k, hk⟩ : ∃ k, k = min (v.clusterBytes - o % v.clusterBytes) (data.length - cnt) :=
          ⟨_, rfl⟩
        have hc : InRange v c := h.inRange c (List.mem_of_getElem? hcur)
        have hpiece : ((data.drop cnt).take k).length = k := by
          rw [List.length_take, List.length_drop]
          omega
        have hrest : o + k + (data.length - (cnt + k)) = o + (data.length - cnt) := by omega
        obtain ⟨d₁, hd₁⟩ : ∃ d₁, d₁ = patch d (clusterAddr v c + o % v.clusterBytes)
            ((data.drop cnt).take k) := ⟨_, rfl⟩
        have hpatch : Extends v s l l d d₁ := by
          rw [hd₁]
          exact Extends.patch hg h (List.mem_of_getElem? hcur) (by omega)
        have hcard₁ := hpatch.card_free hg h
        have hmono : (o + k) / v.clusterBytes ≤ (o + (data.length - cnt)) / v.clusterBytes :=
          Nat.div_le_div_right (by omega)
        obtain ⟨c₂, l₂, d₂, hrun₂, hext₂, hcur₂, hlen₂, hdata₂⟩ :=
          advance_run (k := k) hg hpatch.chain hcur (by omega) (by omega) (by omega)
        have hcard₂ := hext₂.card_free hg hpatch.chain
        obtain ⟨c', l', d', hrun, hext, hcur', hlen', hbytes⟩ :=
          @ih d₂ l₂ c₂ (o + k) (cnt + k) hext₂.chain hcur₂ (by omega) (by omega) (by omega)
            (by rw [hrest]; omega) (by omega)
        rw [hrest] at hrun hcur' hlen' hbytes
        have hall := (hpatch.trans hg hext₂).trans hg hext
        refine ⟨c', l', d', ?_, hall, hcur', by omega, ?_⟩
        · rw [writeLoop_pass hg hc hk hlt hrem (by omega), ← hd₁, FatM.bind_ok hrun₂, hrun]
        · intro p hp
          have hsame : fileByte v d₂ l' p = fileByte v d₁ l' p :=
            fileByte_congr hg hp fun x _ i _ =>
              hdata₂ _ ((hg.root_le_clusterAddr x).trans (Nat.le_add_right _ _))
          have hi' : l'[o / v.clusterBytes]? = some c := by
            obtain ⟨t, rfl⟩ := hall.grows
            rw [List.getElem?_append_left (List.getElem?_eq_some_iff.mp hcur).1, hcur]
          rw [hbytes p hp, hsame, hd₁, fileByte_patch hg hext.chain.inRange hext.chain.nodup hi'
            (by omega) hp, hpiece, Nat.div_add_mod']
          by_cases hfirst : o ≤ p ∧ p < o + k
          · have hget : ((data.drop cnt).take k).getD (p - o) 0 = data.getD (cnt + (p - o)) 0 := by
              rw [List.getD_eq_getElem?_getD, List.getElem?_take_of_lt (by omega),
                List.getElem?_drop, ← List.getD_eq_getElem?_getD]
            rw [if_neg (by omega), if_pos hfirst, if_pos (by omega), hget]
          · rw [if_neg hfirst]
            by_cases hlater : o ≤ p ∧ p < o + (data.length - cnt)
            · have hindex : cnt + k + (p - (o + k)) = cnt + (p - o) := by omega
              rw [if_pos hlater, if_pos (by omega), hindex]
            · rw [if_neg hlater, if_neg (by omega)]

end Steps

/-! ## The entry of the file -/

variable (v) in
/-- The entry of the handle is in the root directory, or in a cluster in use that the chain `l`
does not have. -/
structure EntryApart (d : Disk) (file : Fat16File) (l : List Nat) : Prop where
  root : file.direntCluster = clusRoot → file.direntSector < v.rootDirStart + v.rootSectors
  cluster : file.direntCluster ≠ clusRoot → InRange v file.direntCluster ∧
    fatEntry v d file.direntCluster ≠ 0 ∧ file.direntCluster ∉ l

variable {file : Fat16File} {d' : Disk} {l' : List Nat} {e : DirEnt}

/-- An entry is found at the same place after it has been replaced under its name. -/
theorem searchNameInBlock_writeEnt {a n bsize : Nat} {name : Mem}
    (h : searchNameInBlock (block d a n) bsize name = some i) (hfits : direntSize * i + direntSize ≤ n)
    (hstart : e.startCluster ≠ 0) (hname : ∀ k < 8, e k = name k)
    (htrim : ∀ k, direntSize ≤ k → e k = 0) :
    searchNameInBlock (block (writeEnt d (a + direntSize * i) e) a n) bsize name = some i := by
  obtain ⟨-, hlt, -⟩ := firstIndex_spec h
  refine firstIndex_eq_some (Nat.zero_le _) hlt ?_ fun j _ hj => ?_
  · rw [readEnt_block _ hfits, readEnt_writeEnt_eq htrim, Bool.and_eq_true, fatFilenameMatch_iff,
      Bool.not_eq_true', ← Bool.not_eq_true, clusFree_iff]
    exact ⟨hstart, hname⟩
  · have hj' : direntSize * j + direntSize ≤ direntSize * i := by
      unfold direntSize
      omega
    have hsame : readEnt (block (writeEnt d (a + direntSize * i) e) a n) (direntSize * j) =
        readEnt (block d a n) (direntSize * j) := by
      rw [readEnt_block _ (by omega), readEnt_block _ (by omega),
        readEnt_writeEnt_of_apart (Or.inl (by omega))]
    rw [hsame]
    exact firstIndex_least h (Nat.zero_le _) hj

theorem Located.write (h : Located v d file i) (hstart : e.startCluster ≠ 0)
    (hname : ∀ k < 8, e k = file.dirent k) (htrim : ∀ k, direntSize ≤ k → e k = 0) :
    Located v (writeEnt d (direntAddr v file + direntSize * i) e) { file with dirent := e } i := by
  refine ⟨?_, h.fits, readEnt_writeEnt_eq htrim, h.root, h.cluster⟩
  have hfound := searchNameInBlock_writeEnt h.found h.fits hstart hname htrim
  rw [← searchNameInBlock_congr hname] at hfound
  exact hfound

section Entry

variable (hg : Geometry v)
include hg

theorem EntryApart.sector_le (ha : EntryApart v d file l) (hroot : file.direntCluster = clusRoot) :
    sectorSize * file.direntSector + sectorSize ≤ sectorSize * v.dataStart := by
  rw [← Nat.mul_succ]
  refine Nat.mul_le_mul_left _ ?_
  have := ha.root hroot
  have := hg.root_le_data
  omega

/-- Growing the chain of the file leaves its entry alone. -/
theorem EntryApart.block_eq (ha : EntryApart v d file l) (h : Located v d file i)
    (hext : Extends v s l l' d d') :
    block d' (direntAddr v file) (direntLen v file) = block d (direntAddr v file) (direntLen v file) := by
  refine block_congr fun x hx hx' => ?_
  unfold direntAddr at hx hx'
  unfold direntLen at hx'
  by_cases hroot : file.direntCluster = clusRoot
  · rw [if_pos hroot] at hx hx'
    rw [if_pos hroot] at hx'
    have hle := Nat.mul_le_mul_left sectorSize (h.root hroot)
    have hlt := ha.sector_le hg hroot
    exact hext.frame.root_eq hg hext.chain.inRange (by omega) (by omega)
  · rw [if_neg hroot] at hx hx'
    rw [if_neg hroot] at hx'
    obtain ⟨hr, hused, hmem⟩ := ha.cluster hroot
    have hmem' : file.direntCluster ∉ l' := fun hin =>
      hused (mem_freeClusters.mp (hext.fresh _ hin hmem)).2
    have heq := hext.frame.cluster_eq hg hext.chain.inRange (i := x - clusterAddr v file.direntCluster)
      (by have := hr.1; omega) hmem' (by omega)
    rwa [Nat.add_sub_cancel' hx] at heq

theorem Located.extends (h : Located v d file i) (ha : EntryApart v d file l)
    (hext : Extends v s l l' d d') : Located v d' file i := by
  have hblock := ha.block_eq hg h hext
  refine ⟨hblock ▸ h.found, h.fits, ?_, h.root, h.cluster⟩
  rw [← readEnt_block _ h.fits, hblock, readEnt_block _ h.fits]
  exact h.entry

theorem EntryApart.extends (ha : EntryApart v d file l) (hext : Extends v s l l' d d') :
    EntryApart v d' file l' := by
  refine ⟨ha.root, fun hroot => ?_⟩
  obtain ⟨hr, hused, hmem⟩ := ha.cluster hroot
  have hmem' : file.direntCluster ∉ l' := fun hin =>
    hused (mem_freeClusters.mp (hext.fresh _ hin hmem)).2
  rw [hext.frame.fatEntry_eq hg hr.2.2 hmem']
  exact ⟨hr, hused, hmem'⟩

/-- Replacing the entry leaves the clusters of the file alone. -/
theorem EntryApart.cluster_eq (ha : EntryApart v d file l) (h : Located v d file i) {x k : Nat}
    (hx : x ∈ l) (hxr : InRange v x) (hk : k < v.clusterBytes) :
    writeEnt d (direntAddr v file + direntSize * i) e (clusterAddr v x + k) = d (clusterAddr v x + k) := by
  refine writeEnt_of_outside d ?_
  have hfits := h.fits
  unfold direntLen at hfits
  unfold direntAddr
  by_cases hroot : file.direntCluster = clusRoot
  · rw [if_pos hroot] at hfits
    rw [if_pos hroot]
    have hdata := le_clusterAddr (v := v) x
    have hlt := ha.sector_le hg hroot
    omega
  · rw [if_neg hroot] at hfits
    rw [if_neg hroot]
    obtain ⟨hr, -, hmem⟩ := ha.cluster hroot
    have hne : x ≠ file.direntCluster := by
      rintro rfl
      exact hmem hx
    have := hg.clusterAddr_apart (by have := hxr.1; omega) (by have := hr.1; omega) hne
    omega

end Entry

/-! ## Writing a file -/

variable (v) in
/-- The file whose entry is at address `a` has the clusters `l` and the contents `bytes`. -/
structure FileAt (d : Disk) (a : Nat) (l : List Nat) (bytes : List UInt8) : Prop where
  chain : IsChain v d (readEnt d a).startCluster l
  size : (readEnt d a).fileSize = bytes.length
  covers : bytes.length ≤ l.length * v.clusterBytes
  bytes : content v d l bytes.length = bytes

variable {data : List UInt8}

/-- A regular file that is open for writing, at one of its clusters. -/
structure Writable (v : Fat16Volume) (d : Disk) (file : Fat16File) (l : List Nat) (i : Nat) : Prop where
  regular : isDirectory file.dirent = false
  mode : file.flag.write = true
  located : Located v d file i
  apart : EntryApart v d file l
  chain : IsChain v d file.dirent.startCluster l
  current : file.currentCluster ∈ l

/-- The handle after a write. -/
def Fat16File.wrote (file : Fat16File) (n c : Nat) : Fat16File :=
  { file with
    byteOffset := file.byteOffset + n
    dirent := file.dirent.setFileSize (file.byteOffset + n)
    currentCluster := c }

@[simp] theorem Fat16File.wrote_dirent (n c : Nat) :
    (file.wrote n c).dirent = file.dirent.setFileSize (file.byteOffset + n) := rfl

theorem Writable.dirent_of_le (h : Writable v d file l i) {k : Nat} (hk : direntSize ≤ k) :
    file.dirent k = 0 := by
  rw [← h.located.entry]
  exact readEnt_of_le hk

theorem Writable.not_eof (h : Writable v d file l i) : ¬clusEof file.currentCluster = true := by
  rw [clusEof_iff]
  have := (h.chain.inRange _ h.current).2.1
  omega

/-- What `fat_write_file` does after its loop. -/
theorem fatWriteFile_of_loop (hg : Geometry v) (h : Writable v d file l i) {c' o : Nat} {d₁ : Disk}
    (hrun : writeLoop v data (data.length + 1) file.currentCluster file.byteOffset 0 d = (.ok (c', o), d₁))
    (hext : Extends v file.dirent.startCluster l l' d d₁) (hc' : c' ∈ l') :
    fatWriteFile v file data d = (.ok ((data.length : Int),
        { file with byteOffset := o, dirent := file.dirent.setFileSize o, currentCluster := c' }),
      writeEnt d₁ (direntAddr v file + direntSize * i) (file.dirent.setFileSize o)) := by
  have hu16 : u16 c' = c' := Nat.mod_eq_of_lt (by have := (hext.chain.inRange _ hc').2.1; omega)
  have hloc := h.located.extends hg h.apart hext
  have hname : ∀ k < 8, file.dirent.setFileSize o k = file.dirent k := fun k hk =>
    DirEnt.setFileSize_of_ne _ (Or.inl (by omega))
  have hupdate : fatUpdateFileDirent v
      { file with byteOffset := o, dirent := file.dirent.setFileSize o, currentCluster := c' } none d₁ =
        (.ok (), writeEnt d₁ (direntAddr v file + direntSize * i) (file.dirent.setFileSize o)) := by
    refine fatUpdateFileDirent_run hg ?_ hloc.fits hloc.cluster
    rw [searchNameInBlock_congr hname]
    exact hloc.found
  unfold fatWriteFile
  rw [h.regular, h.mode, if_neg Bool.false_ne_true, if_neg (by decide), if_neg h.not_eof,
    FatM.bind_ok hrun]
  dsimp only
  rw [hu16]
  exact FatM.bind_ok hupdate

/-- `fat_write_file` when the volume has the clusters that it takes. -/
theorem fatWriteFile_run (hg : Geometry v) (h : Writable v d file l i)
    (hcur : l[file.byteOffset / v.clusterBytes]? = some file.currentCluster)
    (hlen : data.length < 2 ^ 31) (ho : file.byteOffset + data.length < 2 ^ 32)
    (hfree : (file.byteOffset + data.length) / v.clusterBytes + 1 ≤
      l.length + (freeClusters v d).card) :
    ∃ c' l' d₁, fatWriteFile v file data d = (.ok ((data.length : Int), file.wrote data.length c'),
        writeEnt d₁ (direntAddr v file + direntSize * i) (file.wrote data.length c').dirent) ∧
      Extends v file.dirent.startCluster l l' d d₁ ∧
      l'[(file.byteOffset + data.length) / v.clusterBytes]? = some c' ∧
      l'.length = max l.length ((file.byteOffset + data.length) / v.clusterBytes + 1) ∧
      ∀ p < l'.length * v.clusterBytes, fileByte v d₁ l' p =
        if file.byteOffset ≤ p ∧ p < file.byteOffset + data.length then
          data.getD (p - file.byteOffset) 0
        else fileByte v d l' p := by
  obtain ⟨c', l', d₁, hrun, hext, hcur', hlen', hbytes⟩ :=
    writeLoop_run (n := data.length + 1) hg h.chain hcur (Nat.zero_le _) hlen ho hfree
      (Nat.lt_succ_self _)
  simp only [Nat.sub_zero, Nat.zero_add] at hrun hcur' hlen' hbytes
  exact ⟨c', l', d₁, fatWriteFile_of_loop hg h hrun hext (List.mem_of_getElem? hcur'), hext, hcur',
    hlen', hbytes⟩

/-- The handle can be written to again, and the entry holds the new size. -/
theorem Writable.wrote (hg : Geometry v) (h : Writable v d file l i) {n c' : Nat} {d₁ : Disk}
    (hext : Extends v file.dirent.startCluster l l' d d₁)
    (hcur : c' ∈ l') :
    Writable v (writeEnt d₁ (direntAddr v file + direntSize * i) (file.wrote n c').dirent)
      (file.wrote n c') l' i := by
  have hloc := h.located.extends hg h.apart hext
  have hroot := hloc.le_direntAddr hg
  have hfat : ∀ x < 256 * v.sb.sectorsFat, fatEntry v
      (writeEnt d₁ (direntAddr v file + direntSize * i) (file.wrote n c').dirent) x =
        fatEntry v d₁ x := fun x hx =>
    hg.fatEntry_congr hx fun a ha => writeEnt_of_outside _ (Or.inl (by omega))
  have hapart := h.apart.extends hg hext
  refine ⟨?_, h.mode, ?_, ?_, ?_, hcur⟩
  · exact (DirEnt.isDirectory_setFileSize _).trans h.regular
  · refine (hloc.write ?_ ?_ ?_).moved c' (file.byteOffset + n)
    · rw [Fat16File.wrote_dirent, DirEnt.startCluster_setFileSize]
      exact h.chain.start_ne_zero
    · exact fun k hk => DirEnt.setFileSize_of_ne _ (Or.inl (by omega))
    · intro k hk
      rw [Fat16File.wrote_dirent, DirEnt.setFileSize_of_ne _ (Or.inr hk)]
      exact h.dirent_of_le hk
  · refine ⟨hapart.root, fun hne => ?_⟩
    obtain ⟨hr, hused, hmem⟩ := hapart.cluster hne
    exact ⟨hr, ne_of_eq_of_ne (hfat _ hr.2.2) hused, hmem⟩
  · rw [Fat16File.wrote_dirent, DirEnt.startCluster_setFileSize]
    exact hext.chain.congr fun x hx => hfat x (hext.chain.inRange x hx).2.2

theorem Writable.fileByte_wrote (hg : Geometry v) (h : Writable v d file l i) {n c' p : Nat} {d₁ : Disk}
    (hext : Extends v file.dirent.startCluster l l' d d₁) (hp : p < l'.length * v.clusterBytes) :
    fileByte v (writeEnt d₁ (direntAddr v file + direntSize * i) (file.wrote n c').dirent) l' p =
      fileByte v d₁ l' p := by
  have hloc := h.located.extends hg h.apart hext
  have hapart := h.apart.extends hg hext
  exact fileByte_congr hg hp fun x hx k hk =>
    hapart.cluster_eq hg hloc hx (hext.chain.inRange x hx) hk

theorem content_eq {bytes : List UInt8} (h : ∀ p < bytes.length, fileByte v d l p = bytes.getD p 0) :
    content v d l bytes.length = bytes := by
  unfold content
  refine List.ext_getElem (by simp) fun p hp hp' => ?_
  rw [List.getElem_map, List.getElem_range, h p hp', List.getD_eq_getElem?_getD,
    List.getElem?_eq_getElem hp']
  rfl

theorem FileAt.fileByte_eq {a p : Nat} {bytes : List UInt8} (h : FileAt v d a l bytes)
    (hp : p < bytes.length) : fileByte v d l p = bytes.getD p 0 := by
  have hget : (content v d l bytes.length).getD p 0 = bytes.getD p 0 := by rw [h.bytes]
  rw [← hget, content, List.getD_eq_getElem?_getD, List.getElem?_map, List.getElem?_range hp]
  rfl

/-- After a write the file has the bytes before the position and then the buffer, no more. -/
theorem FileAt.wrote (hg : Geometry v) (h : Writable v d file l i) {bytes : List UInt8} {c' : Nat}
    {d₁ : Disk} (hfile : FileAt v d (direntAddr v file + direntSize * i) l bytes)
    (ho : file.byteOffset ≤ bytes.length) (hmax : file.byteOffset + data.length < 2 ^ 32)
    (hext : Extends v file.dirent.startCluster l l' d d₁)
    (hlen : l'.length = max l.length ((file.byteOffset + data.length) / v.clusterBytes + 1))
    (hcur : c' ∈ l')
    (hbytes : ∀ p < l'.length * v.clusterBytes, fileByte v d₁ l' p =
      if file.byteOffset ≤ p ∧ p < file.byteOffset + data.length then
        data.getD (p - file.byteOffset) 0
      else fileByte v d l' p) :
    FileAt v (writeEnt d₁ (direntAddr v file + direntSize * i) (file.wrote data.length c').dirent)
      (direntAddr v file + direntSize * i) l' (bytes.take file.byteOffset ++ data) := by
  have hw := h.wrote (n := data.length) hg hext hcur
  have hentry : readEnt
      (writeEnt d₁ (direntAddr v file + direntSize * i) (file.wrote data.length c').dirent)
      (direntAddr v file + direntSize * i) = file.dirent.setFileSize (file.byteOffset + data.length) :=
    hw.located.entry
  have htake : (bytes.take file.byteOffset).length = file.byteOffset := by
    rw [List.length_take]
    omega
  have hsize : (bytes.take file.byteOffset ++ data).length = file.byteOffset + data.length := by
    rw [List.length_append, htake]
  have hcovers : file.byteOffset + data.length < l'.length * v.clusterBytes := by
    have hle : (file.byteOffset + data.length) / v.clusterBytes + 1 ≤ l'.length := by omega
    have hmul := Nat.mul_le_mul_right v.clusterBytes hle
    have hlt := Nat.lt_div_mul_add (a := file.byteOffset + data.length) hg.clusterBytes_pos
    rw [Nat.succ_mul] at hmul
    omega
  refine ⟨?_, ?_, by omega, content_eq fun p hp => ?_⟩
  · rw [hentry]
    exact hw.chain
  · rw [hentry, DirEnt.fileSize_setFileSize _ hmax, hsize]
  · rw [hsize] at hp
    rw [h.fileByte_wrote hg hext (by omega), hbytes p (by omega)]
    by_cases hpo : p < file.byteOffset
    · have hold : p < l.length * v.clusterBytes := by
        have := hfile.covers
        omega
      rw [if_neg (by omega), fileByte_of_grows hext.grows hold, hfile.fileByte_eq (by omega),
        List.getD_eq_getElem?_getD, List.getD_eq_getElem?_getD, List.getElem?_append_left (by omega),
        List.getElem?_take_of_lt hpo]
    · rw [if_pos (by omega), List.getD_eq_getElem?_getD, List.getD_eq_getElem?_getD,
        List.getElem?_append_right (by omega), htake]

end TsOs.Fat
