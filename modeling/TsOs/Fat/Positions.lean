import TsOs.Fat.Overwriting
import TsOs.Fat.Reading
import TsOs.Library.Transition

/-!
# The position of a handle

A handle keeps its position twice, as an offset and as a cluster. Writes move both. A
read of a regular file moves the cluster as far as it has copied, and the offset only as
far as the size: when the size is in an earlier cluster, the two part.
-/

namespace TsOs.Fat
open Transition

variable {v : Fat16Volume} {d d' : Disk} {l : List Nat} {i : Nat} {file file' : Fat16File}

/-- A call on a handle. -/
inductive Call
  | read (n : Nat)
  | write (data : List UInt8)

/-- The handle and the disk after a call that returns. -/
def callStep (v : Fat16Volume) (s : Fat16File × Disk) : Call → Option (Fat16File × Disk)
  | .read n =>
      match fatReadFile v s.1 (fun _ => 0) n s.2 with
      | (.ok (_, _, file), d) => some (file, d)
      | (.error _, _) => none
  | .write data =>
      match fatWriteFile v s.1 data s.2 with
      | (.ok (_, file), d) => some (file, d)
      | (.error _, _) => none

/-- The position up to which a read of `n` bytes copies. -/
def copiedTo (v : Fat16Volume) (l : List Nat) (o n : Nat) : Nat :=
  max o (min (u32 (o + n)) (l.length * v.clusterBytes))

/-- A read that does not go on behind the size into another cluster, or a write for which there
are clusters. -/
def CallOk (v : Fat16Volume) (s : Fat16File × Disk) : Call → Prop
  | .read n => n < 2 ^ 32 ∧ ∀ l, IsChain v s.2 s.1.dirent.startCluster l →
      s.1.byteOffset < s.1.dirent.fileSize →
      copiedTo v l s.1.byteOffset n / v.clusterBytes =
          min (copiedTo v l s.1.byteOffset n) s.1.dirent.fileSize / v.clusterBytes ∨
        l.length ≤ s.1.dirent.fileSize / v.clusterBytes
  | .write data => data.length < 2 ^ 32 ∧ ∀ l, IsChain v s.2 s.1.dirent.startCluster l →
      s.1.byteOffset / v.clusterBytes < l.length → Fits v s.2 l s.1.byteOffset data.length

/-- The cluster of the handle is the one of the chain that has its offset, if there is one, and a
write does not report the end of the file there. -/
def Coherent (v : Fat16Volume) (s : Fat16File × Disk) : Prop :=
  ∃ l, IsChain v s.2 s.1.dirent.startCluster l ∧
    ∀ c, l[s.1.byteOffset / v.clusterBytes]? = some c → s.1.currentCluster = c ∧
      ∀ data f, (fatWriteFile v s.1 data s.2).1 ≠ .ok (fatFileEof, f)

/-- A regular file that is open for writing, with its position in the chain. -/
structure Steady (v : Fat16Volume) (d : Disk) (file : Fat16File) (l : List Nat) (i : Nat) : Prop where
  regular : isDirectory file.dirent = false
  mode : file.flag.write = true
  located : Located v d file i
  apart : EntryApart v d file l
  chain : IsChain v d file.dirent.startCluster l
  position : AtCluster v l file.byteOffset file.currentCluster
  covers : file.dirent.fileSize ≤ l.length * v.clusterBytes

/-- The offset may be cut off at the size without leaving the cluster. -/
theorem AtCluster.cut (hg : Geometry v) {e size c : Nat} (hat : AtCluster v l e c)
    (hsize : size ≤ l.length * v.clusterBytes)
    (hsame : e / v.clusterBytes = min e size / v.clusterBytes ∨ l.length ≤ size / v.clusterBytes) :
    AtCluster v l (min e size) c := by
  have hpos := hg.clusterBytes_pos
  have hle := hat.le hg
  rcases hsame with hdiv | hfull
  · rcases hat with hsome | ⟨heq, heof⟩
    · left
      rw [← hdiv]
      exact hsome
    · right
      have hlen : l.length ≤ min e size / v.clusterBytes := by
        rw [← hdiv, heq, Nat.mul_div_cancel _ hpos]
      have hmul := (Nat.le_div_iff_mul_le hpos).mp hlen
      exact ⟨by omega, heof⟩
  · have hmul := (Nat.le_div_iff_mul_le hpos).mp hfull
    rw [Nat.min_eq_left (by omega)]
    exact hat

/-- A write behind the last cluster. -/
theorem fatWriteFile_eof {data : List UInt8} (hreg : isDirectory file.dirent = false)
    (hmode : file.flag.write = true) (heof : clusEof file.currentCluster = true) :
    fatWriteFile v file data d = (.ok (fatFileEof, file), d) := by
  unfold fatWriteFile
  rw [hreg, hmode, if_neg Bool.false_ne_true, if_neg (by decide), if_pos heof]
  rfl

namespace Steady

theorem extent_eq (h : Steady v d file l i) : file.extent v l = file.dirent.fileSize := by
  rw [Fat16File.extent, h.regular, if_neg Bool.false_ne_true]

theorem readable (h : Steady v d file l i) : Readable v d file l := ⟨h.chain, h.position, fun _ => h.covers⟩

theorem writable (h : Steady v d file l i)
    (hcur : l[file.byteOffset / v.clusterBytes]? = some file.currentCluster) :
    Writable v d file l i :=
  ⟨h.regular, h.mode, h.located, h.apart, h.chain, List.mem_of_getElem? hcur⟩

theorem moved (h : Steady v d file l i) {c o : Nat} (hat : AtCluster v l o c) :
    Steady v d (file.atPosition c o) l i :=
  ⟨h.regular, h.mode, h.located.moved c o, ⟨h.apart.root, h.apart.cluster⟩, h.chain, hat, h.covers⟩

variable (hg : Geometry v)
include hg

/-- A read keeps the handle in its chain. -/
theorem read (h : Steady v d file l i) {n : Nat} (hok : CallOk v (file, d) (.read n))
    (hstep : callStep v (file, d) (.read n) = some (file', d')) : Steady v d' file' l i := by
  have hread := h.readable
  have hextent := h.extent_eq
  obtain ⟨hn, hkeep⟩ := hok
  unfold callStep at hstep
  dsimp only at hstep hkeep
  rcases Nat.lt_or_ge file.byteOffset file.dirent.fileSize with ho | ho
  · have ho' : file.byteOffset < file.extent v l := by rw [hextent]; exact ho
    have hsize : file.dirent.fileSize < 2 ^ 32 := ByteMemory.load32_lt _ _
    rcases Nat.lt_or_ge (file.byteOffset + n) (2 ^ 32) with hlast | hlast
    · by_cases hs : ∀ p, file.byteOffset ≤ p →
          p < min (file.byteOffset + n) (l.length * v.clusterBytes) →
            SameSign v (file.byteOffset + n) p
      · obtain ⟨c', hat, hrun⟩ := fatReadFile_run hg hread (fun _ => 0) ho' hlast hs
        rw [hrun] at hstep
        obtain ⟨rfl, rfl⟩ := Prod.mk.inj (Option.some.inj hstep)
        refine h.moved ?_
        have hcovers := h.covers
        have hend : copiedTo v l file.byteOffset n =
            min (file.byteOffset + n) (l.length * v.clusterBytes) := by
          unfold copiedTo
          rw [u32_of_lt hlast]
          omega
        have hcases := hkeep l h.chain ho
        rw [hend] at hcases
        have hcut := hat.cut hg hcovers hcases
        have hmin : min (min (file.byteOffset + n) (l.length * v.clusterBytes)) file.dirent.fileSize =
            min (file.byteOffset + n) file.dirent.fileSize := by omega
        rw [hmin] at hcut
        rw [hextent]
        exact hcut
      · obtain ⟨p, hp⟩ := not_forall.mp hs
        obtain ⟨hle, hrest⟩ := Classical.not_imp.mp hp
        obtain ⟨hlt, hbad⟩ := Classical.not_imp.mp hrest
        rw [fatReadFile_fault hg hread (fun _ => 0) ho' hlast hle hlt hbad] at hstep
        exact absurd hstep (by simp)
    · rw [fatReadFile_wrap hread (fun _ => 0) ho' (by omega) hn hlast] at hstep
      obtain ⟨rfl, rfl⟩ := Prod.mk.inj (Option.some.inj hstep)
      exact h
  · rw [fatReadFile_end hg hread (fun _ => 0) (by rw [hextent]; exact ho)] at hstep
    obtain ⟨rfl, rfl⟩ := Prod.mk.inj (Option.some.inj hstep)
    exact h

/-- A write keeps the handle in its chain, which may have become longer. -/
theorem write (h : Steady v d file l i) {data : List UInt8} (hok : CallOk v (file, d) (.write data))
    (hstep : callStep v (file, d) (.write data) = some (file', d')) : ∃ l', Steady v d' file' l' i := by
  obtain ⟨hdata, hfits⟩ := hok
  unfold callStep at hstep
  dsimp only at hstep hfits
  rcases h.position with hcur | ⟨-, heof⟩
  · have hw := h.writable hcur
    obtain ⟨hmax, hfree⟩ := hfits l h.chain (List.getElem?_eq_some_iff.mp hcur).1
    have hlen : data.length < 2 ^ 31 := by
      by_contra hge
      rw [fatWriteFile_fault hg hw (by omega) hdata] at hstep
      exact absurd hstep (by simp)
    obtain ⟨c', l', d₁, hrun, hext, hcur', -, -⟩ := fatWriteFile_run hg hw hcur hlen hmax hfree
    rw [hrun] at hstep
    obtain ⟨rfl, rfl⟩ := Prod.mk.inj (Option.some.inj hstep)
    have hw' := hw.wrote (n := data.length) hg hext (List.mem_of_getElem? hcur')
    refine ⟨l', hw'.regular, hw'.mode, hw'.located, hw'.apart, hw'.chain, Or.inl hcur', ?_⟩
    rw [Fat16File.wrote_dirent, DirEnt.fileSize_setFileSize _ hmax]
    exact (hg.lt_of_getElem? hcur').1.le
  · rw [fatWriteFile_eof h.regular h.mode heof] at hstep
    obtain ⟨rfl, rfl⟩ := Prod.mk.inj (Option.some.inj hstep)
    exact ⟨l, h⟩

theorem coherent (h : Steady v d file l i) : Coherent v (file, d) := by
  refine ⟨l, h.chain, fun c hc => ?_⟩
  have hlt := (hg.lt_of_getElem? hc).1
  have hcur := h.position.getElem? hlt
  have hw := h.writable hcur
  refine ⟨Option.some.inj (hcur.symm.trans hc), fun data f hrun => ?_⟩
  unfold fatWriteFile at hrun
  rw [h.regular, h.mode, if_neg Bool.false_ne_true, if_neg (by decide), if_neg hw.not_eof] at hrun
  -- The result of a write that returns is the size of the buffer.
  obtain ⟨r, d₁, -, hrest⟩ := FatM.bind_eq_ok (Prod.ext hrun rfl)
  obtain ⟨u, d₂, -, hret⟩ := FatM.bind_eq_ok hrest
  have hcount : (data.length : Int) = fatFileEof :=
    congrArg Prod.fst (FatM.ok_inj hret)
  unfold fatFileEof at hcount
  omega

end Steady

end TsOs.Fat
