import TsOs.Fat.Edits
import TsOs.Fat.Overwriting
import TsOs.Fat.Reading

/-!
# Reading in chunks

A file is read by calls with buffers of any sizes. What the calls should return is the
contents cut at the ends of the buffers, and `FAT_FILE_EOF` behind it.
-/

namespace TsOs.Fat
open ByteMemory LinkPath

variable {v : Fat16Volume} {d : Disk} {l : List Nat} {o : Nat} {file : Fat16File}

/-! ## Calls one after the other -/

/-- The results of calls with buffers of the given sizes, and the bytes they return. -/
def readCalls (v : Fat16Volume) : Fat16File → List Nat → FatM (List (Int × List UInt8))
  | _, [] => return []
  | file, n :: ns => do
      let (cnt, out, file) ← fatReadFile v file (fun _ => 0) n
      let rest ← readCalls v file ns
      return (cnt, out.take cnt.toNat) :: rest

/-- What calls with buffers of the given sizes should return from position `o` on: as many of the
bytes as are left and fit the buffer, and `FAT_FILE_EOF` behind them. -/
def chunks (bytes : List UInt8) : Nat → List Nat → List (Int × List UInt8)
  | _, [] => []
  | o, n :: ns =>
      (if o < bytes.length then ((min n (bytes.length - o) : Nat), (bytes.drop o).take n)
        else (fatFileEof, [])) :: chunks bytes (min (o + n) bytes.length) ns

/-- The condition holds of the position and the size of every call before the end. -/
def EachCall (extent : Nat) (P : Nat → Nat → Prop) : Nat → List Nat → Prop
  | _, [] => True
  | o, n :: ns => (o < extent → P o n) ∧ EachCall extent P (min (o + n) extent) ns

/-- The chunks are the bytes in order. -/
theorem chunks_flatten (bytes : List UInt8) {o : Nat} (ho : o ≤ bytes.length) (ns : List Nat) :
    (chunks bytes o ns).flatMap Prod.snd = (bytes.drop o).take ns.sum := by
  induction ns generalizing o with
  | nil => simp [chunks]
  | cons n ns ih =>
      rw [chunks, List.flatMap_cons, ih (Nat.min_le_right _ _), List.sum_cons, List.take_add,
        List.drop_drop]
      by_cases hlt : o < bytes.length
      · rw [if_pos hlt]
        congr 1
        rcases Nat.le_total (o + n) bytes.length with hle | hle
        · rw [Nat.min_eq_left hle]
        · rw [Nat.min_eq_right hle, List.drop_eq_nil_of_le hle, List.drop_length]
      · have hdrop : bytes.drop (o + n) = [] := List.drop_eq_nil_of_le (by omega)
        have hnil : bytes.drop o = [] := List.drop_eq_nil_of_le (by omega)
        have hend : bytes.drop (min (o + n) bytes.length) = [] := List.drop_eq_nil_of_le (by omega)
        rw [if_neg hlt, hdrop, hnil, hend]
        simp

/-- Calls on the handles in `Inv` return the next chunk of `bytes` when they are good, do not when
they are not, and report the end behind the bytes. -/
structure Serves (v : Fat16Volume) (d : Disk) (bytes : List UInt8) (Inv : Fat16File → Prop)
    (Allowed Good : Nat → Nat → Prop) : Prop where
  atEnd : ∀ f n, Inv f → bytes.length ≤ f.byteOffset →
    fatReadFile v f (fun _ => 0) n d = (.ok (fatFileEof, [], f), d)
  good : ∀ f n, Inv f → f.byteOffset < bytes.length → Allowed f.byteOffset n →
    Good f.byteOffset n → ∃ out f', fatReadFile v f (fun _ => 0) n d =
      (.ok (((min n (bytes.length - f.byteOffset) : Nat) : Int), out, f'), d) ∧
      out.take (min n (bytes.length - f.byteOffset)) = (bytes.drop f.byteOffset).take n ∧
      Inv f' ∧ f'.byteOffset = min (f.byteOffset + n) bytes.length
  bad : ∀ f n, Inv f → f.byteOffset < bytes.length → Allowed f.byteOffset n →
    ¬Good f.byteOffset n → ∀ out f' d', fatReadFile v f (fun _ => 0) n d ≠
      (.ok (((min n (bytes.length - f.byteOffset) : Nat) : Int), out, f'), d')

/-- Calls return the chunks exactly when each one is good. -/
theorem Serves.readCalls_iff {bytes : List UInt8} {Inv : Fat16File → Prop} {Allowed Good : Nat → Nat → Prop}
    (hserves : Serves v d bytes Inv Allowed Good) {f : Fat16File} {ns : List Nat} (hf : Inv f)
    (ho : f.byteOffset ≤ bytes.length) (hallowed : EachCall bytes.length Allowed f.byteOffset ns) :
    readCalls v f ns d = (.ok (chunks bytes f.byteOffset ns), d) ↔
      EachCall bytes.length Good f.byteOffset ns := by
  induction ns generalizing f with
  | nil => exact ⟨fun _ => trivial, fun _ => rfl⟩
  | cons n ns ih =>
      obtain ⟨hallow, hlater⟩ := hallowed
      rw [readCalls, chunks, EachCall]
      by_cases hlt : f.byteOffset < bytes.length
      · rw [if_pos hlt]
        by_cases hok : Good f.byteOffset n
        · obtain ⟨out, f', hrun, hout, hf', hoff⟩ := hserves.good f n hf hlt (hallow hlt) hok
          have hrest := ih hf' (by omega) (by rw [hoff]; exact hlater)
          rw [hoff] at hrest
          rw [FatM.bind_ok hrun, ← hrest]
          dsimp only
          rw [Int.toNat_natCast, hout]
          constructor
          · intro hall
            refine ⟨fun _ => hok, ?_⟩
            obtain ⟨rs, d₁, hrs, hcons⟩ := FatM.bind_eq_ok hall
            obtain rfl : d₁ = d := congrArg Prod.snd hcons
            have hlist := FatM.ok_inj hcons
            rw [hrs, (List.cons.inj hlist).2]
          · rintro ⟨-, hrun'⟩
            exact FatM.bind_ok hrun'
        · refine ⟨fun hall => ?_, fun hall => absurd (hall.1 hlt) hok⟩
          obtain ⟨⟨cnt, out, f'⟩, d₁, hrun, hcons⟩ := FatM.bind_eq_ok hall
          obtain ⟨rs, d₂, -, hlist⟩ := FatM.bind_eq_ok hcons
          have hpair := (List.cons.inj (FatM.ok_inj hlist)).1
          have hcnt : cnt = _ := congrArg Prod.fst hpair
          rw [hcnt] at hrun
          exact absurd hrun (hserves.bad f n hf hlt (hallow hlt) hok out f' d₁)
      · have hsame : min (f.byteOffset + n) bytes.length = f.byteOffset := by omega
        rw [hsame] at hlater ⊢
        rw [if_neg hlt, FatM.bind_ok (hserves.atEnd f n hf (by omega)), ← ih hf ho hlater]
        dsimp only
        constructor
        · intro hall
          refine ⟨fun h => absurd h hlt, ?_⟩
          obtain ⟨rs, d₁, hrs, hcons⟩ := FatM.bind_eq_ok hall
          obtain rfl : d₁ = d := congrArg Prod.snd hcons
          have hlist := FatM.ok_inj hcons
          rw [hrs, (List.cons.inj hlist).2]
        · rintro ⟨-, hrun'⟩
          exact FatM.bind_ok hrun'

theorem EachCall.and {extent : Nat} {P : Nat → Nat → Prop} {Q : Nat → Prop} {ns : List Nat}
    (h : EachCall extent P o ns) (hQ : ∀ n ∈ ns, Q n) :
    EachCall extent (fun o n => P o n ∧ Q n) o ns := by
  induction ns generalizing o with
  | nil => trivial
  | cons n ns ih =>
      obtain ⟨hP, hrest⟩ := h
      exact ⟨fun ho => ⟨hP ho, hQ n List.mem_cons_self⟩,
        ih hrest fun m hm => hQ m (List.mem_cons_of_mem _ hm)⟩

/-- What holds of each call holds of the one behind some others. -/
theorem EachCall.append {extent : Nat} {P : Nat → Nat → Prop} {ns ms : List Nat} {n : Nat}
    (h : EachCall extent P o (ns ++ n :: ms)) (hlt : o + ns.sum < extent) : P (o + ns.sum) n := by
  induction ns generalizing o with
  | nil => exact h.1 hlt
  | cons m ns ih =>
      rw [List.sum_cons, ← Nat.add_assoc] at hlt ⊢
      have hmin : min (o + m) extent = o + m := by omega
      have hrest := h.2
      rw [hmin] at hrest
      exact ih hrest hlt

theorem eachCall_of_forall {extent : Nat} {Q : Nat → Prop} {ns : List Nat} (h : ∀ n ∈ ns, Q n) :
    EachCall extent (fun _ n => Q n) o ns := by
  induction ns generalizing o with
  | nil => trivial
  | cons n ns ih =>
      exact ⟨fun _ => h n List.mem_cons_self, ih fun m hm => h m (List.mem_cons_of_mem _ hm)⟩

theorem eachCall_of_sum_lt {extent bound : Nat} {ns : List Nat} (h : o + ns.sum < bound) :
    EachCall extent (fun o n => o + n < bound) o ns := by
  induction ns generalizing o with
  | nil => trivial
  | cons n ns ih =>
      rw [List.sum_cons] at h
      exact ⟨fun _ => by omega, ih (by omega)⟩

/-! ## A file in chunks -/

/-- A handle on the file that is in its chain, or behind the end of a regular file. -/
structure Reading (v : Fat16Volume) (d : Disk) (l : List Nat) (e : DirEnt) (f : Fat16File) : Prop where
  dirent : f.dirent = e
  position : Readable v d f l ∨ isDirectory e = false ∧ e.fileSize ≤ f.byteOffset

theorem clusterEnd_lt_iff {n : Nat} (hn : 0 < n) (ho : o < l.length * v.clusterBytes)
    (hlast : o + n < 2 ^ 31) :
    clusterEnd v (min (o + n) (l.length * v.clusterBytes) - 1) < 2 ^ 31 ↔
      ∀ p, o ≤ p → p < min (o + n) (l.length * v.clusterBytes) → SameSign v (o + n) p := by
  unfold SameSign
  constructor
  · intro hend p _ hp
    have := clusterEnd_mono (v := v) (show p ≤ min (o + n) (l.length * v.clusterBytes) - 1 by omega)
    exact iff_of_true hlast (by omega)
  · intro hall
    exact (hall (min (o + n) (l.length * v.clusterBytes) - 1) (by omega) (by omega)).mp hlast

section Chunks

variable (hg : Geometry v) {f : Fat16File} {e : DirEnt} {n : Nat}

theorem Reading.extent (h : Reading v d l file.dirent f) : f.extent v l = file.extent v l := by
  unfold Fat16File.extent
  rw [h.dirent]

variable (h : Reading v d l file.dirent f)
include hg h

theorem Reading.fatReadFile_end (hstart : file.dirent.startCluster ≠ 0)
    (ho : file.extent v l ≤ f.byteOffset) (ub : Buf) :
    fatReadFile v f ub n d = (.ok (fatFileEof, [], f), d) := by
  rcases h.position with hread | ⟨hreg, hsize⟩
  · exact TsOs.Fat.fatReadFile_end hg hread ub (by rw [h.extent]; exact ho)
  · rw [← h.dirent] at hstart hreg hsize
    exact fatReadFile_size ub hstart hreg hsize

omit hg in
theorem Reading.readable (ho : f.byteOffset < file.extent v l) : Readable v d f l := by
  rcases h.position with hread | ⟨hreg, hsize⟩
  · exact hread
  · rw [Fat16File.extent, hreg, if_neg Bool.false_ne_true] at ho
    omega

/-- A call before the end moves on to the next chunk. -/
theorem Reading.next (hn : 0 < n) (ho : f.byteOffset < file.extent v l) (hlast : f.byteOffset + n < 2 ^ 32)
    (hs : ∀ p, f.byteOffset ≤ p → p < min (f.byteOffset + n) (l.length * v.clusterBytes) →
      SameSign v (f.byteOffset + n) p) (ub : Buf) :
    ∃ out f', fatReadFile v f ub n d =
        (.ok (((min n (file.extent v l - f.byteOffset) : Nat) : Int), out, f'), d) ∧
      out.take (min n (file.extent v l - f.byteOffset)) =
        ((content v d l (file.extent v l)).drop f.byteOffset).take n ∧
      Reading v d l file.dirent f' ∧ f'.byteOffset = min (f.byteOffset + n) (file.extent v l) := by
  have hread := h.readable ho
  have hle := hread.extent_le
  rw [h.extent] at hle
  obtain ⟨c', hat, hrun⟩ := fatReadFile_run hg hread ub (by rw [h.extent]; exact ho) hlast hs
  rw [h.extent] at hrun
  have hcount : min (f.byteOffset + n) (file.extent v l) - f.byteOffset =
      min n (file.extent v l - f.byteOffset) := by omega
  rw [hcount] at hrun
  refine ⟨_, _, hrun, ?_, ⟨h.dirent, ?_⟩, rfl⟩
  · rw [bytesFrom_take, content_drop_take]
    congr 1
    omega
  · by_cases hsize : f.byteOffset + n < file.extent v l ∨ isDirectory file.dirent = true
    · left
      refine ⟨hread.chain, ?_, hread.covers⟩
      have hsame : min (f.byteOffset + n) (file.extent v l) =
          min (f.byteOffset + n) (l.length * v.clusterBytes) := by
        rcases hsize with hlt | hdir
        · omega
        · rw [Fat16File.extent, if_pos hdir]
      change AtCluster v l (min (f.byteOffset + n) (file.extent v l)) c'
      rw [hsame]
      exact hat
    · obtain ⟨hge, hreg⟩ := not_or.mp hsize
      right
      rw [Bool.not_eq_true] at hreg
      refine ⟨hreg, ?_⟩
      change file.dirent.fileSize ≤ min (f.byteOffset + n) (file.extent v l)
      rw [Fat16File.extent, hreg, if_neg Bool.false_ne_true] at hge ⊢
      omega

/-- A call that copies from clusters on both sides of position `2 ^ 31` leaves its buffers. -/
theorem Reading.fault (ho : f.byteOffset < file.extent v l) (hlast : f.byteOffset + n < 2 ^ 32)
    (hs : ¬∀ p, f.byteOffset ≤ p → p < min (f.byteOffset + n) (l.length * v.clusterBytes) →
      SameSign v (f.byteOffset + n) p) (ub : Buf) :
    fatReadFile v f ub n d = (.error .fault, d) := by
  push Not at hs
  obtain ⟨p, hp, hp', hs⟩ := hs
  exact fatReadFile_fault hg (h.readable ho) ub (by rw [h.extent]; exact ho) hlast hp hp' hs

end Chunks

theorem Readable.serves (hg : Geometry v) (h : Readable v d file l) :
    Serves v d (content v d l (file.extent v l)) (Reading v d l file.dirent)
      (fun o n => o + n < 2 ^ 31 ∧ 0 < n)
      (fun o n => clusterEnd v (min (o + n) (l.length * v.clusterBytes) - 1) < 2 ^ 31) := by
  have hlen : (content v d l (file.extent v l)).length = file.extent v l := by simp [content]
  constructor
  · intro f n hf hend
    rw [hlen] at hend
    exact hf.fatReadFile_end hg h.chain.start_ne_zero hend _
  · intro f n hf hlt hallow hend
    rw [hlen] at hlt ⊢
    have hle := h.extent_le
    refine hf.next hg hallow.2 hlt (by omega) ?_ _
    exact (clusterEnd_lt_iff hallow.2 (by omega) hallow.1).mp hend
  · intro f n hf hlt hallow hend out f' d' hrun
    rw [hlen] at hlt
    have hle := h.extent_le
    have hsign := (clusterEnd_lt_iff (v := v) (l := l) hallow.2 (by omega) hallow.1).not.mp hend
    rw [hf.fault hg hlt (by omega) hsign] at hrun
    exact absurd (congrArg Prod.fst hrun) (by simp)

/-- The calls from a position in the chain on. -/
theorem Readable.readCalls_iff (hg : Geometry v) (h : Readable v d file l) (ns : List Nat)
    (ho : file.byteOffset ≤ file.extent v l) (hpos : ∀ n ∈ ns, 0 < n)
    (hlast : EachCall (file.extent v l) (fun o n => o + n < 2 ^ 31) file.byteOffset ns) :
    readCalls v file ns d =
        (.ok (chunks (content v d l (file.extent v l)) file.byteOffset ns), d) ↔
      EachCall (file.extent v l)
        (fun o n => clusterEnd v (min (o + n) (l.length * v.clusterBytes) - 1) < 2 ^ 31)
        file.byteOffset ns := by
  have hlen : (content v d l (file.extent v l)).length = file.extent v l := by simp [content]
  have hiff := (h.serves hg).readCalls_iff (f := file) ⟨rfl, Or.inl h⟩ (by rw [hlen]; exact ho)
    (by rw [hlen]; exact hlast.and hpos)
  rwa [hlen] at hiff

/-- Reading from a fresh handle returns the file in chunks exactly when no call before the end
takes a byte of a cluster that reaches position `2 ^ 31`. -/
theorem fatReadFile_chunks_iff {fuel : Nat} {path : List UInt8} {flag : Flags} {ns : List Nat}
    (hg : Geometry v) (hopen : (fatOpenExisting v fuel path flag d).1 = .ok (some file))
    (hflag : flag.append = false) (hchain : IsChain v d file.dirent.startCluster l)
    (hcovers : isDirectory file.dirent = false → file.dirent.fileSize ≤ l.length * v.clusterBytes)
    (hpos : ∀ n ∈ ns, 0 < n)
    (hlast : EachCall (file.extent v l) (fun o n => o + n < 2 ^ 31) 0 ns) :
    readCalls v file ns d = (.ok (chunks (content v d l (file.extent v l)) 0 ns), d) ↔
      EachCall (file.extent v l)
        (fun o n => clusterEnd v (min (o + n) (l.length * v.clusterBytes) - 1) < 2 ^ 31) 0 ns := by
  have hopened := fatOpenExisting_opened hg hopen hflag hchain.start_ne_zero
  have hiff := (hopened.readable hchain hcovers).readCalls_iff hg ns
  rw [hopened.offset] at hiff
  exact hiff (Nat.zero_le _) hpos hlast

theorem fatReadFile_chunks_sample : ∃ file,
    (fatOpenExisting smallVolume 2 [47, 70] Flags.none (fileDisk [3] 3 [1, 2, 3])).1 =
      .ok (some file) ∧
    (readCalls smallVolume file [2, 2, 2] (fileDisk [3] 3 [1, 2, 3]) =
        (.ok (chunks (content smallVolume (fileDisk [3] 3 [1, 2, 3]) [3] 3) 0 [2, 2, 2]),
          fileDisk [3] 3 [1, 2, 3]) ↔
      EachCall 3 (fun o n => clusterEnd smallVolume (min (o + n) (1 * smallVolume.clusterBytes) - 1) <
        2 ^ 31) 0 [2, 2, 2]) := by
  obtain ⟨file, hopen, htest⟩ : ∃ file,
      (fatOpenExisting smallVolume 2 [47, 70] Flags.none (fileDisk [3] 3 [1, 2, 3])).1 =
        .ok (some file) ∧ (headsAt false 3 file && file.dirent.fileSize == 3) = true :=
    exists_found (by decide)
  simp only [headsAt, Bool.and_eq_true, beq_iff_eq] at htest
  obtain ⟨⟨hdir, hstart⟩, hsize⟩ := htest
  have hextent : file.extent smallVolume [3] = 3 := by
    rw [Fat16File.extent, hdir, hsize]
    rfl
  have hchain : IsChain smallVolume (fileDisk [3] 3 [1, 2, 3]) file.dirent.startCluster [3] := by
    rw [hstart]
    exact chain_singleton (by decide) (by decide)
  have hlast : EachCall (file.extent smallVolume [3]) (fun o n => o + n < 2 ^ 31) 0 [2, 2, 2] := by
    rw [hextent]
    exact eachCall_of_sum_lt (by decide)
  have hiff := fatReadFile_chunks_iff smallVolume_geometry hopen rfl hchain
    (fun _ => by rw [hsize]; decide) (by decide) hlast
  rw [hextent] at hiff
  exact ⟨file, hopen, hiff⟩

/-- A volume with clusters of 64 KB. -/
def wideVolume : Fat16Volume := fatGetVolume ⟨512, 128, 1, 1, 512, 256, 0⟩

/-- The file `F` of `2 ^ 31` bytes in the root directory, in the clusters from 3 on. -/
def longDisk : Disk :=
  writeEnt (tableDisk wideVolume fun c => if c = 32770 then 0xFFFF else c + 1) (512 * 257)
    (mkEnt [70] 0 3 (2 ^ 31))

theorem wideVolume_geometry : Geometry wideVolume := by
  constructor <;> decide

theorem path_range' {f : Nat → Nat} {a n e : Nat}
    (h : ∀ x, a ≤ x → x < a + n → f x = if x + 1 = a + n then e else x + 1) (hn : 0 < n) :
    Path f a (List.range' a n) e := by
  obtain ⟨n, rfl⟩ : ∃ m, n = m + 1 := ⟨n - 1, by omega⟩
  induction n generalizing a with
  | zero => exact ⟨rfl, by rw [h a (le_refl a) (by omega), if_pos rfl]; rfl⟩
  | succ n ih =>
      rw [List.range'_succ]
      refine ⟨rfl, ?_⟩
      rw [h a (le_refl a) (by omega), if_neg (by omega)]
      refine ih (fun x hx hx' => ?_) (by omega)
      rw [h x (by omega) (by omega)]
      congr 1
      exact propext ⟨fun _ => by omega, fun _ => by omega⟩

theorem longDisk_chain : IsChain wideVolume longDisk 3 (List.range' 3 32768) := by
  refine ⟨fun x hx => ?_, 0xFFFF, rfl, path_range' (fun x hx hx' => ?_) (by decide)⟩
  · have hmem := List.mem_range'_1.mp hx
    refine ⟨by omega, by omega, ?_⟩
    change x < 256 * 256
    omega
  · have hroot : sectorSize * wideVolume.rootDirStart ≤ 512 * 257 := by decide
    have hlt : x < 256 * wideVolume.sb.sectorsFat := by
      change x < 256 * 256
      omega
    have hval : (if x = 32770 then 0xFFFF else x + 1) < 2 ^ 16 := by
      split <;> omega
    rw [longDisk, wideVolume_geometry.fatEntry_writeEnt hlt hroot, fatEntry_tableDisk hlt hval]
    congr 1
    exact propext ⟨fun _ => by omega, fun _ => by omega⟩

/-- The last cluster of a file of `2 ^ 31` bytes cannot be read. -/
theorem fatReadFile_chunks_wide : ∃ file,
    (fatOpenExisting wideVolume 2 [47, 70] Flags.none longDisk).1 = .ok (some file) ∧
    IsChain wideVolume longDisk file.dirent.startCluster (List.range' 3 32768) ∧
    file.extent wideVolume (List.range' 3 32768) = 2 ^ 31 ∧
    EachCall (2 ^ 31) (fun o n => o + n < 2 ^ 31) 0 (List.replicate 32767 65536 ++ [10]) ∧
    readCalls wideVolume file (List.replicate 32767 65536 ++ [10]) longDisk ≠
      (.ok (chunks (content wideVolume longDisk (List.range' 3 32768) (2 ^ 31)) 0
        (List.replicate 32767 65536 ++ [10])), longDisk) := by
  obtain ⟨file, hopen, htest⟩ : ∃ file,
      (fatOpenExisting wideVolume 2 [47, 70] Flags.none longDisk).1 = .ok (some file) ∧
        (headsAt false 3 file && file.dirent.fileSize == 2 ^ 31) = true :=
    exists_found (by decide)
  simp only [headsAt, Bool.and_eq_true, beq_iff_eq] at htest
  obtain ⟨⟨hdir, hstart⟩, hsize⟩ := htest
  have hchain : IsChain wideVolume longDisk file.dirent.startCluster (List.range' 3 32768) := by
    rw [hstart]
    exact longDisk_chain
  have hbytes : (List.range' 3 32768).length * wideVolume.clusterBytes = 2 ^ 31 := by
    rw [List.length_range']
    rfl
  have hextent : file.extent wideVolume (List.range' 3 32768) = 2 ^ 31 := by
    rw [Fat16File.extent, hdir, hsize]
    rfl
  have hsum : (List.replicate 32767 65536).sum = 32767 * 65536 := List.sum_replicate_nat
  have hpos : ∀ n ∈ List.replicate 32767 65536 ++ [10], 0 < n := by
    intro n hn
    rcases List.mem_append.mp hn with hn | hn
    · rw [List.eq_of_mem_replicate hn]
      decide
    · rw [List.mem_singleton.mp hn]
      decide
  have hlast : EachCall (2 ^ 31) (fun o n => o + n < 2 ^ 31) 0
      (List.replicate 32767 65536 ++ [10]) := by
    refine eachCall_of_sum_lt ?_
    rw [List.sum_append, hsum]
    decide
  refine ⟨file, hopen, hchain, hextent, hlast, fun hrun => ?_⟩
  have hopened := fatOpenExisting_opened wideVolume_geometry hopen rfl hchain.start_ne_zero
  have hread := hopened.readable hchain fun _ => by rw [hsize, hbytes]
  have hiff := hread.readCalls_iff wideVolume_geometry (List.replicate 32767 65536 ++ [10])
  rw [hopened.offset, hextent, hbytes] at hiff
  -- The last call takes bytes of the cluster that ends at `2 ^ 31`.
  have hend := ((hiff (Nat.zero_le _) hpos hlast).mp hrun).append (by rw [hsum]; decide)
  rw [hsum] at hend
  exact absurd hend (by decide)

end TsOs.Fat
