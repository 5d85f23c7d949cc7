import TsOs.Fat.Chunks
import TsOs.Fat.Namespace

/-!
# Round trips

A file is made, written to in pieces of any lengths and read back with buffers of any
sizes. The writes append the pieces to the contents and leave the clusters of all other
files alone. What is read back is the concatenation of the pieces as long as no call of
either kind has its counts upset by the comparison of `int` values in `min`.
-/

namespace TsOs.Fat
open ByteMemory LinkPath Transition

variable {v : Fat16Volume} {d d' d'' : Disk} {l : List Nat} {s c o : Nat} {file f f' : Fat16File}

/-! ## Reading what other files have -/

variable (v) in
/-- The clusters `l` have the same bytes on both disks, and the same entries of the FAT. -/
structure SameOn (l : List Nat) (d d' : Disk) : Prop where
  entry : ∀ c ∈ l, fatEntry v d' c = fatEntry v d c
  bytes : ∀ c ∈ l, ∀ i < v.clusterBytes, d' (clusterAddr v c + i) = d (clusterAddr v c + i)

theorem SameOn.trans (h : SameOn v l d d') (h' : SameOn v l d' d'') : SameOn v l d d'' :=
  ⟨fun c hc => (h'.entry c hc).trans (h.entry c hc), fun c hc i hi => (h'.bytes c hc i hi).trans (h.bytes c hc i hi)⟩

theorem SameOn.clusterBlock (h : SameOn v l d d') (hc : c ∈ l) : clusterBlock v d' c = clusterBlock v d c := by
  refine block_congr fun x hx hx' => ?_
  obtain ⟨i, rfl⟩ := Nat.exists_eq_add_of_le hx
  exact h.bytes c hc i (by omega)

/-- The cluster is one of the chain, or a mark at its end. -/
def OnChain (l : List Nat) (c : Nat) : Prop := c ∈ l ∨ clusEof c = true

theorem IsChain.onChain_next (h : IsChain v d s l) (hc : c ∈ l) : OnChain l (fatEntry v d c) := by
  obtain ⟨i, hi⟩ := List.mem_iff_getElem?.mp hc
  have hlt := (List.getElem?_eq_some_iff.mp hi).1
  by_cases hlast : l.length = i + 1
  · exact Or.inr (h.fatEntry_last hi hlast)
  · left
    have hx : l[i + 1]? = some l[i + 1] := List.getElem?_eq_getElem (by omega)
    rw [h.fatEntry_succ hi hx]
    exact List.getElem_mem _

section Frame

variable (hg : Geometry v) (h : IsChain v d s l) (hsame : SameOn v l d d')
include hg h hsame

/-- The loop sees the clusters of its chain only. -/
theorem readLoop_same (n last k o : Nat) (out : List UInt8) (hc : OnChain l c) :
    ∃ r, readLoop v n last k c o out d = (r, d) ∧ readLoop v n last k c o out d' = (r, d') ∧
      ∀ out' c' o', r = .ok (out', c', o') → OnChain l c' := by
  induction k generalizing c o out with
  | zero => exact ⟨.error .hang, rfl, rfl, fun _ _ _ hr => absurd hr (by simp)⟩
  | succ k ih =>
      rw [readLoop]
      by_cases hmore : o < last ∧ (!clusEof c) = true
      · have hmem : c ∈ l := hc.resolve_right (by simpa using hmore.2)
        have hr := h.inRange c hmem
        rw [if_pos hmore, FatM.bind_ok (fatReadCluster_run hg d hr.clusNormal),
          FatM.bind_ok (fatReadCluster_run hg d' hr.clusNormal), hsame.clusterBlock hmem]
        dsimp only
        split
        next => exact ⟨.error .fault, rfl, rfl, fun _ _ _ hr => absurd hr (by simp)⟩
        next =>
          split
          next =>
            rw [FatM.bind_ok (fatGetNextCluster_run hg d hr.2.2), FatM.bind_ok (fatGetNextCluster_run hg d' hr.2.2),
              hsame.entry c hmem]
            exact ih _ _ (h.onChain_next hmem)
          next => exact ih _ _ hc
      · rw [if_neg hmore]
        refine ⟨.ok (out, c, o), rfl, rfl, fun out' c' o' hr => ?_⟩
        obtain rfl : c = c' := congrArg (fun r => r.2.1) (Except.ok.inj hr)
        exact hc

/-- So does a call. -/
theorem fatReadFile_same (hstart : f.dirent.startCluster ≠ 0) (hcur : OnChain l f.currentCluster) (ub : Buf)
    (n : Nat) : ∃ r, fatReadFile v f ub n d = (r, d) ∧ fatReadFile v f ub n d' = (r, d') ∧
      ∀ cnt out g, r = .ok (cnt, out, g) → g.dirent = f.dirent ∧ OnChain l g.currentCluster := by
  have hroot : ¬f.dirent.startCluster = clusRoot := hstart
  unfold fatReadFile
  rw [if_neg hroot]
  split
  next =>
    refine ⟨.ok (fatFileEof, [], f), rfl, rfl, fun cnt out g hr => ?_⟩
    obtain rfl : f = g := congrArg (fun r => r.2.2) (Except.ok.inj hr)
    exact ⟨rfl, hcur⟩
  next =>
    split
    next =>
      refine ⟨.ok (fatFileEof, [], f), rfl, rfl, fun cnt out g hr => ?_⟩
      obtain rfl : f = g := congrArg (fun r => r.2.2) (Except.ok.inj hr)
      exact ⟨rfl, hcur⟩
    next =>
      obtain ⟨r, hrun, hrun', hnext⟩ :=
        readLoop_same hg h hsame n (u32 (f.byteOffset + n)) (n + 1) f.byteOffset [] hcur
      cases r with
      | error e =>
          rw [FatM.bind_error hrun, FatM.bind_error hrun']
          exact ⟨.error e, rfl, rfl, fun _ _ _ hr => absurd hr (by simp)⟩
      | ok r =>
          obtain ⟨out, c', o'⟩ := r
          rw [FatM.bind_ok hrun, FatM.bind_ok hrun']
          refine ⟨_, rfl, rfl, fun cnt out'' g hr => ?_⟩
          obtain rfl := congrArg (fun r => r.2.2) (Except.ok.inj hr)
          refine ⟨rfl, ?_⟩
          have hon := hnext out c' o' rfl
          have hu16 : u16 c' = c' := by
            refine Nat.mod_eq_of_lt ?_
            rcases hon with hmem | heof
            · have := (h.inRange c' hmem).2.1
              omega
            · have := clusEof_iff.mp heof
              omega
          change OnChain l (u16 c')
          rwa [hu16]

/-- So do calls one after the other. -/
theorem readCalls_same (hstart : f.dirent.startCluster ≠ 0) (hcur : OnChain l f.currentCluster) (ns : List Nat) :
    ∃ r, readCalls v f ns d = (r, d) ∧ readCalls v f ns d' = (r, d') := by
  induction ns generalizing f with
  | nil => exact ⟨.ok [], rfl, rfl⟩
  | cons n ns ih =>
      obtain ⟨r, hrun, hrun', hnext⟩ := fatReadFile_same hg h hsame hstart hcur (fun _ => 0) n
      rw [readCalls]
      cases r with
      | error e =>
          rw [FatM.bind_error hrun, FatM.bind_error hrun']
          exact ⟨.error e, rfl, rfl⟩
      | ok r =>
          obtain ⟨cnt, out, g⟩ := r
          obtain ⟨hdirent, hcur'⟩ := hnext cnt out g rfl
          rw [← hdirent] at hstart
          obtain ⟨rs, hrest, hrest'⟩ := ih hstart hcur'
          rw [FatM.bind_ok hrun, FatM.bind_ok hrun']
          dsimp only
          cases rs with
          | error e =>
              rw [FatM.bind_error hrest, FatM.bind_error hrest']
              exact ⟨.error e, rfl, rfl⟩
          | ok rs =>
              rw [FatM.bind_ok hrest, FatM.bind_ok hrest']
              exact ⟨_, rfl, rfl⟩

end Frame

/-! ## Writing in pieces -/

/-- Calls of `fat_write_file` one after the other: their results and the handle behind them. -/
def writeCalls (v : Fat16Volume) : Fat16File → List (List UInt8) → FatM (List Int × Fat16File)
  | file, [] => return ([], file)
  | file, data :: bufs => do
      let (cnt, file) ← fatWriteFile v file data
      let (cnts, file) ← writeCalls v file bufs
      return (cnt :: cnts, file)

variable {t t' t'' : Tree} {P : List (List UInt8)} {n n' : Node} {bytes data : List UInt8} {i : Nat}

variable (v) in
/-- All nodes but `P` are as before, with their entries, and so are the bytes of all other files. -/
structure KeepsOthers (d d' : Disk) (t t' : Tree) (P : List (List UInt8)) : Prop where
  nodes : ∀ ks ≠ P, t' ks = t ks
  entries : ∀ ks ≠ P, ∀ m, t ks = some m → readEnt d' m.addr = readEnt d m.addr
  chains : ∀ ks ≠ P, ∀ m, t ks = some m → m.isDir = false → SameOn v m.chain d d'

theorem KeepsOthers.refl (d : Disk) (t : Tree) (P : List (List UInt8)) : KeepsOthers v d d t t P :=
  ⟨fun _ _ => rfl, fun _ _ _ _ => rfl, fun _ _ _ _ _ => ⟨fun _ _ => rfl, fun _ _ _ _ => rfl⟩⟩

theorem KeepsOthers.trans (h : KeepsOthers v d d' t t' P) (h' : KeepsOthers v d' d'' t' t'' P) :
    KeepsOthers v d d'' t t'' P := by
  refine ⟨fun ks hne => (h'.nodes ks hne).trans (h.nodes ks hne), fun ks hne m hm => ?_,
    fun ks hne m hm hreg => (h.chains ks hne m hm hreg).trans ?_⟩
  · rw [← h.entries ks hne m hm]
    exact h'.entries ks hne m (h.nodes ks hne ▸ hm)
  · exact h'.chains ks hne m (h.nodes ks hne ▸ hm) hreg

theorem KeepsOthers.dirsAlong (h : KeepsOthers v d d' t t' P) (hdirs : t.DirsAlong [] P) : t'.DirsAlong [] P := by
  intro ks₁ ks₂ heq hne₁ hne₂ m hm
  have hne : ks₁ ≠ P := by
    rintro rfl
    exact hne₂ (by simpa using heq)
  rw [List.nil_append, h.nodes ks₁ hne] at hm
  exact hdirs ks₁ ks₂ heq hne₁ hne₂ m hm

variable (v) in
/-- The regular file `P` has the contents `bytes`, its chain ends with the cluster for the next byte, and
the handle is open for writing at that byte. -/
structure Growing (d : Disk) (t : Tree) (P : List (List UInt8)) (n : Node) (f : Fat16File)
    (bytes : List UInt8) : Prop where
  represents : Represents v d t
  node : t P = some n
  regular : n.isDir = false
  handle : ∃ i, Writable v d f n.chain i ∧ direntAddr v f + direntSize * i = n.addr
  file : FileAt v d n.addr n.chain bytes
  current : n.chain[f.byteOffset / v.clusterBytes]? = some f.currentCluster
  offset : f.byteOffset = bytes.length
  length : n.chain.length = bytes.length / v.clusterBytes + 1

section Writes

variable (hg : Geometry v)
include hg

/-- Replacing an entry leaves the free clusters. -/
theorem freeClusters_writeEnt {a : Nat} {e : DirEnt} (ha : sectorSize * v.rootDirStart ≤ a) :
    freeClusters v (writeEnt d a e) = freeClusters v d := by
  ext x
  rw [mem_freeClusters, mem_freeClusters]
  refine and_congr_right fun hx => ?_
  rw [hg.fatEntry_writeEnt hx.2.2 ha]

/-- A call appends its buffer. -/
theorem Growing.fatWriteFile_run (h : Growing v d t P n f bytes) (hlen : data.length < 2 ^ 31)
    (hmax : (bytes ++ data).length < 2 ^ 32)
    (hfree : (bytes ++ data).length / v.clusterBytes + 1 ≤ n.chain.length + (freeClusters v d).card) :
    ∃ f' d' t' n', fatWriteFile v f data d = (.ok ((data.length : Int), f'), d') ∧
      Growing v d' t' P n' f' (bytes ++ data) ∧ KeepsOthers v d d' t t' P ∧
      n'.chain.length + (freeClusters v d').card = n.chain.length + (freeClusters v d).card := by
  obtain ⟨i, hw, haddr⟩ := h.handle
  have hsum : (bytes ++ data).length = f.byteOffset + data.length := by rw [List.length_append, h.offset]
  rw [hsum] at hmax hfree
  obtain ⟨c', l', d₁, hrun, hext, hcur, hlen', hbytes⟩ :=
    TsOs.Fat.fatWriteFile_run hg hw h.current hlen hmax hfree
  have hfile := h.file
  have hwrote := hw.wrote (n := data.length) hg hext (List.mem_of_getElem? hcur)
  rw [← haddr] at hfile
  have hcontents := hfile.wrote hg hw h.offset.le hmax hext hlen' (List.mem_of_getElem? hcur) hbytes
  have hentry : f.dirent = readEnt d n.addr := by
    rw [← haddr]
    exact hw.located.entry.symm
  rw [hentry] at hext
  have htree := h.represents.wrote h.node hg h.regular hext (f.byteOffset + data.length)
  have hall : bytes.take f.byteOffset = bytes := List.take_of_length_le h.offset.ge
  have hroot := (hw.located.le_direntAddr hg).trans (Nat.le_add_right _ (direntSize * i))
  have hcard := hext.card_free hg (hentry ▸ hw.chain)
  have hgrows := hext.grows.length_le
  rw [haddr] at hrun hcontents hwrote hroot
  rw [hall] at hcontents
  rw [← hentry] at htree
  refine ⟨_, _, _, { n with chain := l' }, hrun, ⟨htree.represents, Function.update_self .., h.regular,
    ⟨i, hwrote, haddr⟩, hcontents, ?_, hsum.symm, ?_⟩, ⟨htree.others, htree.kept, ?_⟩, ?_⟩
  · exact hcur
  · rw [hsum]
    have := h.length
    have hle : bytes.length / v.clusterBytes ≤ (f.byteOffset + data.length) / v.clusterBytes :=
      Nat.div_le_div_right (by rw [h.offset]; exact Nat.le_add_right _ _)
    change l'.length = _
    omega
  · intro ks hne m hm hreg
    refine ⟨fun c hc => ?_, fun c hc i hi => htree.clusters ks hne m hm hreg c hc i hi⟩
    have hr := (h.represents.isChain hm).inRange c hc
    have hout : c ∉ l' := fun hmem => h.represents.grow_disjoint h.node hext hm hne hc hmem
    rw [hg.fatEntry_writeEnt hr.2.2 hroot, hext.frame.fatEntry_eq hg hr.2.2 hout]
  · rw [freeClusters_writeEnt hg hroot]
    change l'.length + _ = _
    omega

/-- A buffer from `2 ^ 31` bytes on is not written. -/
theorem Growing.length_lt (h : Growing v d t P n f bytes) {bufs : List (List UInt8)}
    (hmax : (bytes ++ bufs.flatten).length < 2 ^ 32)
    (hfree : (bytes ++ bufs.flatten).length / v.clusterBytes + 1 ≤ n.chain.length + (freeClusters v d).card)
    {r : List Int × Fat16File} (hrun : writeCalls v f bufs d = (.ok r, d')) :
    ∀ data ∈ bufs, data.length < 2 ^ 31 := by
  induction bufs generalizing d d' t n f bytes r with
  | nil => exact fun data hdata => absurd hdata List.not_mem_nil
  | cons data bufs ih =>
      rw [List.flatten_cons, ← List.append_assoc] at hmax hfree
      have hle : (bytes ++ data).length ≤ (bytes ++ data ++ bufs.flatten).length :=
        (List.prefix_append _ _).length_le
      have hdiv := Nat.div_le_div_right (c := v.clusterBytes) hle
      obtain ⟨⟨cnt, f₁⟩, d₁, hwrite, hrest⟩ := FatM.bind_eq_ok hrun
      obtain ⟨⟨cnts, f₂⟩, d₂, hwrites, -⟩ := FatM.bind_eq_ok hrest
      have hdata : data.length < 2 ^ 31 := by
        by_contra hge
        obtain ⟨i, hw, -⟩ := h.handle
        rw [List.length_append] at hle
        rw [fatWriteFile_fault hg hw (by omega) (by omega)] at hwrite
        exact absurd (congrArg Prod.fst hwrite) (by simp)
      obtain ⟨f₁', d₁', t₁, n₁, hrun₁, hgrow, -, hcard⟩ := h.fatWriteFile_run hg hdata (by omega) (by omega)
      have heq := hwrite.symm.trans hrun₁
      obtain rfl : f₁ = f₁' := congrArg Prod.snd (FatM.ok_inj heq)
      obtain rfl : d₁ = d₁' := congrArg Prod.snd heq
      intro b hb
      rcases List.mem_cons.mp hb with rfl | hb
      · exact hdata
      · exact ih hgrow hmax (by omega) hwrites b hb

end Writes

/-! ## Reading back -/

section Reads

variable (hg : Geometry v)
include hg

end Reads

section Reopened

variable {fuel : Nat} {path : List UInt8} (hv : Aligned v) (hfuel : 2 ^ 16 ≤ fuel) (hp : OrdinaryPath path)
include hv hfuel hp

/-- A handle on another file stays good, and reads the same. -/
theorem KeepsOthers.reads (hkeep : KeepsOthers v d d' t t' P) (h : Represents v d t) (h' : Represents v d' t')
    (hn : t P = some n) (hreg : n.isDir = false) (hdirs : t.DirsAlong [] (pathKeys path))
    (hne : pathKeys path ≠ P) (hopen : fatOpen v fuel path Flags.none d = (.ok (some file), d))
    (hfile : isDirectory file.dirent = false) :
    fatOpen v fuel path Flags.none d' = (.ok (some file), d') ∧
      ∀ ns, (readCalls v file ns d').1 = (readCalls v file ns d).1 := by
  have hg := hv.toGeometry
  cases hm : t (pathKeys path) with
  | none =>
      have hnone : fatOpen v fuel path Flags.none d = _ := h.fatOpenExisting_none hv hfuel hdirs Flags.none hp hm
      exact absurd (congrArg Prod.fst (hopen.symm.trans hnone)) (by simp)
  | some m =>
      obtain ⟨g, i, hopen', hnode, hcur, -⟩ := h.fatOpenExisting_some hv hfuel hdirs Flags.none hp hm
      obtain rfl : file = g :=
        Option.some.inj (FatM.ok_inj (hopen.symm.trans hopen'))
      have hkind : m.isDir = false := by rw [← h.kind hm, ← hnode.dirent, hfile]
      have hchain := h.isChain hm
      -- A regular file is not on the way to another path.
      have hway : ∀ ks₁, ks₁ <+: pathKeys path → ks₁ ≠ P := by
        rintro ks₁ ⟨rest, hrest⟩ rfl
        rw [← hrest] at hm
        obtain ⟨n', hn', hdir⟩ := h.exists_above hm (h.path_ne_nil hn)
        obtain rfl := Option.some.inj (hn.symm.trans hn')
        have hrest' : rest ≠ [] := by
          rintro rfl
          exact hne (by rw [← hrest, List.append_nil])
        rw [hdir hrest'] at hreg
        exact absurd hreg (by simp)
      have hsame := h.fatOpen_same hv hfuel h' hp.absolutePath hdirs
        (fun ks₁ _ hpre => by rw [hkeep.nodes ks₁ (hway ks₁ hpre)])
        fun ks₁ m' hpre hm' => hkeep.entries ks₁ (hway ks₁ hpre) m' hm'
      rw [hopen] at hsame
      refine ⟨(fatOpenExisting_quiet v fuel path Flags.none).eq hsame, fun ns => ?_⟩
      have hstart : file.dirent.startCluster ≠ 0 := by
        rw [hnode.dirent]
        exact hchain.start_ne_zero
      obtain ⟨r, hrun, hrun'⟩ :=
        readCalls_same hg hchain (hkeep.chains _ hne m hm hkind) hstart (Or.inl hcur) ns
      rw [hrun, hrun']

end Reopened

/-! ## Round trips -/

/-- `FAT16_CTL_CREATE | FAT16_CTL_WRITE`. -/
def createWriteFlag : Flags := { Flags.none with create := true, write := true }

/-- The result of opening a new file for writing. -/
def created : Option Disk → Option (Fat16File × Disk)
  | none => none
  | some d =>
      match (fatOpen smallVolume (2 ^ 16) [47, 70] Flags.none d).1,
        fatOpen smallVolume (2 ^ 16) [47, 70] createWriteFlag d with
      | .ok none, (.ok (some f), d') => some (f, d')
      | _, _ => none

end TsOs.Fat
