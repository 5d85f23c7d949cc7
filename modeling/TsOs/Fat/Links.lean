import TsOs.Fat.Placement

/-!
# The links of a new directory

A new directory gets the links `.` and `..`. For `..` the driver takes the cluster in
which it has put the new entry: that is the first cluster of the parent only when the
slot was found there.
-/

namespace TsOs.Fat
open ByteMemory

variable {v : Fat16Volume} {d d' : Disk} {f : Fat16File} {name : List UInt8} {l : List Nat}

variable (v) in
/-- Looking up `x` in the parent of the directory at cluster `y`. -/
def searchUp (fuel : Nat) (file : Fat16File) (y : Nat) (x : List UInt8) : FatM (Option Fat16File) := do
  match ← fatSearchFile v fuel file [dot, dot] y with
  | none => return none
  | some up => fatSearchFile v fuel up x up.dirent.startCluster

variable (v) in
/-- The call has made the entry of a directory in slot `a` of the parent, and the first cluster `y` of the
directory has the two links and free slots. From a subdirectory the way through `..` leads to the
parent. -/
structure NewDirectory (fuel : Nat) (d d' : Disk) (f : Fat16File) (name : List UInt8) (l' : List Nat)
    (a y : Nat) : Prop where
  parent : OnDirectory v d' f l'
  slot : a ∈ directorySlots v f l'
  made : readEnt d a ≠ readEnt d' a
  entry : readEnt d' a = newDirent name true y
  free : y ∈ freeClusters v d
  self : readEnt d' (clusterAddr v y) = linkDirent [dot] y
  up : readEnt d' (clusterAddr v y + direntSize) = linkDirent [dot, dot] f.dirent.startCluster
  rest : ∀ i, 2 ≤ i → i < (v.clusterBytes + 31) / direntSize →
    readEnt d' (clusterAddr v y + direntSize * i) = fun _ => 0
  resolves : f.dirent.startCluster ≠ clusRoot → ∀ file x,
    searchUp v fuel file y x d' = fatSearchFile v fuel file x f.dirent.startCluster d'

/-! ## The first cluster -/

theorem DirEnt.startCluster_lt (e : DirEnt) : e.startCluster < 2 ^ 16 := load16_lt e 26

section Block

variable (hg : Geometry v) {a y pc i : Nat}

theorem startCluster_linkDirent {c : Nat} (hc : c < 2 ^ 16) (name : List UInt8) :
    (linkDirent name c).startCluster = c := (load_store_same _ 26 2 c).trans (Nat.mod_eq_of_lt hc)

theorem readEnt_newBlock (y pc i : Nat) : readEnt (newBlock true y pc) (direntSize * i) =
    if i = 1 then linkDirent [dot, dot] pc else if i = 0 then linkDirent [dot] y else fun _ => 0 := by
  have hslot : direntSize ∣ direntSize * i := dvd_mul_right _ _
  have hone : direntSize * i = direntSize ↔ i = 1 := by
    unfold direntSize
    omega
  have hnull : direntSize * i = 0 ↔ i = 0 := by
    unfold direntSize
    omega
  unfold newBlock
  rw [if_pos rfl, readEnt_writeEnt_slot (dvd_refl _) hslot fun j hj =>
      linkDirent_of_le (by decide) (by decide) hj,
    readEnt_writeEnt_slot (dvd_zero _) hslot fun j hj => linkDirent_of_le (by decide) (by decide) hj, readEnt_zero]
  simp only [hone, hnull]

include hg

/-- The slots of the new cluster. -/
theorem readEnt_new (d : Disk) (name : List UInt8) (a y pc : Nat)
    (hi : i < (v.clusterBytes + 31) / direntSize) :
    readEnt (entered v d name true a y pc) (clusterAddr v y + direntSize * i) =
      if i = 1 then linkDirent [dot, dot] pc else if i = 0 then linkDirent [dot] y else fun _ => 0 := by
  rw [entered, readEnt_setCluster (hg.slot_le hi), readEnt_newBlock]

/-- The search for `..` in the new directory. -/
theorem fatSearchFile_new {fuel : Nat} (hfuel : 2 ^ 16 ≤ fuel) (hy : InRange v y)
    (ha : sectorSize * v.rootDirStart ≤ a) (hpc : pc ≠ 0) (hlt : pc < 2 ^ 16) (file : Fat16File) :
    fatSearchFile v fuel file [dot, dot] y (entered v d name true a y pc) =
      (.ok (some { file with
        dirent := linkDirent [dot, dot] pc
        direntCluster := y
        currentCluster := pc }), entered v d name true a y pc) := by
  obtain ⟨m, hm⟩ : ∃ m, (v.clusterBytes + 31) / direntSize = m + 2 := by
    have hpos := hg.sectorsPerCluster_pos
    have hslots := hg.slots_eq
    exact ⟨16 * v.sb.sectorsPerCluster - 2, by omega⟩
  have hdot := readEnt_new hg d name a y pc (i := 0) (by omega)
  have hup := readEnt_new hg d name a y pc (i := 1) (by omega)
  rw [if_neg (by decide), if_pos rfl] at hdot
  rw [if_pos rfl] at hup
  have hchain : IsChain v (entered v d name true a y pc) y [y] := by
    refine chain_singleton hy ?_
    rw [fatEntry_entered hg hy.2.2 ha, if_pos rfl]
  have hfirst : ¬Named (entered v d name true a y pc) (key [dot, dot]) (clusterAddr v y + direntSize * 0) := by
    rintro ⟨-, hkey⟩
    rw [hdot, entKey_linkDirent (by decide) (by decide)] at hkey
    exact absurd hkey (by decide)
  have hsecond : Named (entered v d name true a y pc) (key [dot, dot]) (clusterAddr v y + direntSize * 1) := by
    refine ⟨?_, ?_⟩
    · rwa [hup, startCluster_linkDirent hlt]
    · rw [hup, entKey_linkDirent (by decide) (by decide)]
  have hfind : findSlot (entered v d name true a y pc) (key [dot, dot]) (chainSlots v [y]) =
      some (clusterAddr v y + direntSize * 1) := by
    rw [chainSlots_cons, clusterSlots, hm, List.range_succ_eq_map, List.range_succ_eq_map]
    simp only [findSlot, List.map_cons, List.cons_append, List.find?_cons, Nat.succ_eq_add_one, Nat.zero_add,
      hfirst, hsecond, decide_true, decide_false]
  have hlt' : direntSize * 1 < v.clusterBytes := by
    have := hg.le_clusterBytes
    unfold direntSize
    omega
  rw [fatSearchFile_chain hg hchain hfuel (by decide), hfind, Option.map_some,
    hg.place_cluster _ _ (by have := hy.1; omega) hlt', hup, startCluster_linkDirent hlt]

omit hg in
/-- The search in a subdirectory replaces what the handle knows of an entry. -/
theorem fatSearchFile_handle {fuel c : Nat} (hc : c ≠ clusRoot) (file : Fat16File) (e : DirEnt) (c₁ c₂ : Nat)
    (x : List UInt8) :
    fatSearchFile v fuel { file with dirent := e, direntCluster := c₁, currentCluster := c₂ } x c =
      fatSearchFile v fuel file x c := by
  have hloop : ∀ n c key, searchFileLoop v
      { file with dirent := e, direntCluster := c₁, currentCluster := c₂ } key n c =
        searchFileLoop v file key n c := by
    intro n
    induction n with
    | zero => exact fun _ _ => rfl
    | succ n ih =>
        intro c key
        simp only [searchFileLoop, ih]
  unfold fatSearchFile
  rw [if_neg hc, if_neg hc, hloop]

theorem searchUp_new {fuel : Nat} (hfuel : 2 ^ 16 ≤ fuel) (hy : InRange v y)
    (ha : sectorSize * v.rootDirStart ≤ a) (hpc : pc ≠ 0) (hlt : pc < 2 ^ 16) (file : Fat16File)
    (x : List UInt8) :
    searchUp v fuel file y x (entered v d name true a y pc) =
      fatSearchFile v fuel file x pc (entered v d name true a y pc) := by
  unfold searchUp
  rw [FatM.bind_ok (fatSearchFile_new hg hfuel hy ha hpc hlt file)]
  dsimp only
  rw [startCluster_linkDirent hlt, fatSearchFile_handle hpc]

end Block

/-! ## The call -/

/-- A call that has found no entry and returns has created one. -/
theorem fatOpen_created {fuel : Nat} {path base : List UInt8} {flag : Flags} {dir : Bool} {g : Fat16File}
    (hcreate : flag.create = true) (hflag : flag.dir = dir)
    (hnew : (fatOpenExisting v fuel path { flag with create := false } d).1 = .ok none)
    (hbase : getBasedir path = some base) (hname : getFilename path = some name)
    (hparent : (fatOpenExisting v fuel base Flags.none d).1 = .ok (some f))
    (hrun : fatOpen v fuel path flag d = (.ok (some g), d')) :
    fatCreateFile v fuel f name dir d = (.ok (), d') := by
  rcases fatOpen_absent hcreate hnew hrun with ⟨-, hr, -⟩ | ⟨base', name', f', u, g', hb, hn, hp, hmade, -⟩
  · exact absurd hr (by simp)
  · obtain rfl := Option.some.inj (hbase.symm.trans hb)
    obtain rfl := Option.some.inj (hname.symm.trans hn)
    rw [hp] at hparent
    obtain rfl := Option.some.inj (Except.ok.inj hparent)
    rwa [hflag] at hmade

variable (v) in
/-- The slot that is taken is in the first cluster of the parent. In the root directory it is in the
first block, or the parent's path is `/`. -/
def LinkKept (d : Disk) (base : List UInt8) (f : Fat16File) (l : List Nat) : Prop :=
  if f.dirent.startCluster = clusRoot then
    ∃ a, firstFree d (searchedSlots v f l) = some a ∧
      (a < sectorSize * (v.rootDirStart + v.sb.sectorsPerCluster) ∨ base = [slash])
  else 2 ≤ l.length ∧ firstFree d (clusterSlots v f.dirent.startCluster) ≠ none

theorem clusterOf_slot (hg : Geometry v) {a c : Nat} (hc : InRange v c) (ha : a ∈ clusterSlots v c) :
    clusterOf v a = c := by
  obtain ⟨i, hi, rfl⟩ := mem_clusterSlots.mp ha
  have hslot := hg.slot_le hi
  exact hg.clusterOf_eq (by have := hc.1; omega) (by unfold direntSize at *; omega)

/-- The driver takes the right parent exactly then. -/
theorem linkTarget_eq_iff (hg : Geometry v) {base : List UInt8} {a : Nat} (hdir : OnDirectory v d f l)
    (ha : firstFree d (searchedSlots v f l) = some a) :
    linkTarget v base f a = f.dirent.startCluster ↔ LinkKept v d base f l := by
  unfold linkTarget LinkKept
  by_cases hroot : f.dirent.startCluster = clusRoot
  · rw [if_pos hroot, if_pos hroot, hroot]
    have hexists : (∃ a, firstFree d (searchedSlots v f l) = some a ∧
        (a < sectorSize * (v.rootDirStart + v.sb.sectorsPerCluster) ∨ base = [slash])) ↔
          a < sectorSize * (v.rootDirStart + v.sb.sectorsPerCluster) ∨ base = [slash] := by
      constructor
      · rintro ⟨a', ha', hcond⟩
        obtain rfl := Option.some.inj (ha.symm.trans ha')
        exact hcond
      · exact fun hcond => ⟨a, ha, hcond⟩
    rw [hexists]
    split
    next hcond => exact ⟨fun _ => hcond, fun _ => rfl⟩
    next hcond => exact ⟨fun hff => absurd hff (by decide), fun h => absurd h hcond⟩
  · rw [if_neg hroot, if_neg hroot]
    obtain ⟨-, hchain, hne⟩ := hdir.resolve_left hroot
    rw [searchedSlots, if_neg hroot] at ha
    obtain ⟨c, l, rfl⟩ := List.exists_cons_of_ne_nil hne
    have hc : f.dirent.startCluster = c := hchain.head_eq
    rw [hc] at hchain ⊢
    cases l with
    | nil => exact absurd ha (by simp [chainSlots, firstFree])
    | cons y l =>
        rw [List.dropLast_cons_cons, chainSlots_cons, firstFree_append] at ha
        cases hfirst : firstFree d (clusterSlots v c) with
        | some a' =>
            rw [hfirst, Option.some_or] at ha
            obtain rfl := Option.some.inj ha
            have hof := clusterOf_slot hg (hchain.inRange c List.mem_cons_self) (firstFree_eq_some hfirst).1
            exact ⟨fun _ => ⟨by simp, by simp⟩, fun _ => hof⟩
        | none =>
            rw [hfirst, Option.none_or] at ha
            obtain ⟨z, hz, hmem⟩ := mem_chainSlots.mp (firstFree_eq_some ha).1
            have hz' : z ∈ y :: l := List.dropLast_subset _ hz
            have hof := clusterOf_slot hg (hchain.inRange z (List.mem_cons_of_mem _ hz')) hmem
            constructor
            · intro hzc
              rw [hof] at hzc
              exact absurd (hzc ▸ hz') (List.nodup_cons.mp hchain.nodup).1
            · exact fun hcond => absurd rfl hcond.2

theorem linkTarget_lt (hg : Geometry v) {base : List UInt8} {a : Nat} (hdir : OnDirectory v d f l)
    (ha : a ∈ searchedSlots v f l) : linkTarget v base f a < 2 ^ 16 := by
  unfold linkTarget
  split
  next => split <;> decide
  next hroot =>
    obtain ⟨-, hchain, -⟩ := hdir.resolve_left hroot
    rw [searchedSlots, if_neg hroot] at ha
    obtain ⟨z, hz, hmem⟩ := mem_chainSlots.mp ha
    have hr := hchain.inRange z (List.dropLast_subset _ hz)
    rw [clusterOf_slot hg hr hmem]
    have := hr.2.1
    omega

theorem LinkKept.exists_slot {base : List UInt8} (h : LinkKept v d base f l) (hdir : OnDirectory v d f l) :
    ∃ a, firstFree d (searchedSlots v f l) = some a := by
  unfold LinkKept at h
  by_cases hroot : f.dirent.startCluster = clusRoot
  · rw [if_pos hroot] at h
    obtain ⟨a, ha, -⟩ := h
    exact ⟨a, ha⟩
  · rw [if_neg hroot] at h
    obtain ⟨-, hchain, hne⟩ := hdir.resolve_left hroot
    obtain ⟨c, l, rfl⟩ := List.exists_cons_of_ne_nil hne
    rw [hchain.head_eq] at h
    obtain ⟨y, l, rfl⟩ : ∃ y l', l = y :: l' := by
      refine List.exists_cons_of_ne_nil ?_
      rintro rfl
      exact absurd h.1 (by simp)
    obtain ⟨a, ha⟩ := Option.ne_none_iff_exists'.mp h.2
    refine ⟨a, ?_⟩
    rw [searchedSlots, if_neg hroot, List.dropLast_cons_cons, chainSlots_cons, firstFree_append, ha,
      Option.some_or]

section Call

variable (hg : Geometry v)
include hg

/-- A creation in a free slot with the right parent makes the directory. -/
theorem newDirectory_slot {fuel a y : Nat} (hfuel : 2 ^ 16 ≤ fuel) (hdir : OnDirectory v d f l)
    (ha : firstFree d (searchedSlots v f l) = some a) (hy : y ∈ freeClusters v d) (name : List UInt8) :
    NewDirectory v fuel d (entered v d name true a y f.dirent.startCluster) f name l a y := by
  obtain ⟨hmem, hfree⟩ := firstFree_eq_some ha
  have hslot := searchedSlots_subset f l hmem
  have huse := hdir.inUse hg hslot
  obtain ⟨hyr, hyz⟩ := mem_freeClusters.mp hy
  have hent : readEnt (entered v d name true a y f.dirent.startCluster) a = newDirent name true y := by
    rw [hdir.readEnt_slot hg hslot hy a hslot, if_pos rfl]
  have hslots := hg.slots_eq
  have hpos := hg.sectorsPerCluster_pos
  constructor
  · exact hdir.imp_right fun ⟨hisDir, hchain, hne⟩ => ⟨hisDir, hchain.entered hg hyz huse.root_le, hne⟩
  · exact hslot
  · rw [hent]
    exact (newDirent_ne hfree hyr).symm
  · exact hent
  · exact hy
  · exact readEnt_new hg d name a y _ (i := 0) (by omega)
  · exact readEnt_new hg d name a y _ (i := 1) (by omega)
  · intro i hi hlt
    rw [readEnt_new hg d name a y _ hlt, if_neg (by omega), if_neg (by omega)]
  · intro hne file x
    exact searchUp_new hg hfuel hyr huse.root_le hne f.dirent.startCluster_lt file x

/-- The link in the new cluster is the one to the parent. -/
theorem NewDirectory.up_eq {fuel a a' y pc : Nat} {D : Disk} {l' : List Nat} (hpc : pc < 2 ^ 16)
    (h : NewDirectory v fuel d (entered v D name true a y pc) f name l' a' y) :
    pc = f.dirent.startCluster := by
  have hslots := hg.slots_eq
  have hpos := hg.sectorsPerCluster_pos
  have hup := (readEnt_new hg D name a y pc (i := 1) (by omega)).symm.trans h.up
  have hstart := congrArg DirEnt.startCluster hup
  rwa [if_pos rfl, startCluster_linkDirent hpc, startCluster_linkDirent f.dirent.startCluster_lt] at hstart

/-- The link of a new directory tells where its entry was put. -/
theorem NewDirectory.link_eq {fuel a a' y y' pc : Nat} {l' : List Nat} (hdir : OnDirectory v d f l)
    (ha : a ∈ directorySlots v f l) (hy : y ∈ freeClusters v d) (hpc : pc < 2 ^ 16)
    (h : NewDirectory v fuel d (entered v d name true a y pc) f name l' a' y') :
    pc = f.dirent.startCluster := by
  have huse := hdir.inUse hg ha
  obtain ⟨hyr, hyz⟩ := mem_freeClusters.mp hy
  have hsame : directorySlots v f l' = directorySlots v f l := by
    unfold directorySlots
    by_cases hroot : f.dirent.startCluster = clusRoot
    · rw [if_pos hroot, if_pos hroot]
    · obtain ⟨-, hchain, -⟩ := hdir.resolve_left hroot
      obtain ⟨-, hchain', -⟩ := h.parent.resolve_left hroot
      rw [if_neg hroot, if_neg hroot, (hchain.entered hg hyz huse.root_le).unique hchain']
  have hslot := h.slot
  rw [hsame] at hslot
  have hent : readEnt (entered v d name true a y pc) a' =
      if a' = a then newDirent name true y else readEnt d a' := hdir.readEnt_slot hg ha hy a' hslot
  have haa : a' = a := by
    by_contra hne
    rw [if_neg hne] at hent
    exact h.made hent.symm
  rw [if_pos haa] at hent
  have hyy : y = y' := by
    have hstart := congrArg DirEnt.startCluster (hent.symm.trans h.entry)
    have hy' := (mem_freeClusters.mp h.free).1.2.1
    rw [startCluster_newDirent (by have := hyr.2.1; omega), startCluster_newDirent (by omega)] at hstart
    exact hstart
  subst hyy
  exact h.up_eq hg hpc

/-- A directory whose entry has been put into a new cluster of the parent does not link to the parent. -/
theorem not_newDirectory_grows {fuel last x y a' y' : Nat} {l' : List Nat}
    (hchain : IsChain v d f.dirent.startCluster (l ++ [last])) (hx : x ∈ freeClusters v d)
    (hy : y ∈ freeClusters v d) (hne : y ≠ x) :
    ¬NewDirectory v fuel d (entered v (grown v d last x) name true (clusterAddr v x) y x) f name l' a' y' := by
  intro h
  have hroot : f.dirent.startCluster ≠ clusRoot := hchain.start_ne_zero
  obtain ⟨hxr, hxz⟩ := mem_freeClusters.mp hx
  obtain ⟨hyr, hyz⟩ := mem_freeClusters.mp hy
  have hy' := (mem_freeClusters.mp h.free).1
  obtain ⟨hisDir, hchain', -⟩ := h.parent.resolve_left hroot
  have hgrown : IsChain v (entered v (grown v d last x) name true (clusterAddr v x) y x)
      f.dirent.startCluster (l ++ [last] ++ [x]) := hchain.grown_entered hg hx hy hne
  have hlast := hchain.inRange last (by simp)
  have hslot := h.slot
  rw [directorySlots, if_neg hroot, hchain'.unique hgrown, chainSlots_append, List.mem_append] at hslot
  rcases hslot with hold | hnew
  · -- The old slots are as before.
    have hdir : OnDirectory v d f (l ++ [last]) := Or.inr ⟨hisDir, hchain, by simp⟩
    have hmem : a' ∈ directorySlots v f (l ++ [last]) := by
      rwa [directorySlots, if_neg hroot]
    exact h.made (hdir.readEnt_grows hg hlast.2.2 hx hy a' hmem).symm
  · have hmem : a' ∈ clusterSlots v x := by simpa [chainSlots] using hnew
    obtain ⟨i, hi, rfl⟩ := mem_clusterSlots.mp hmem
    have hslot := hg.slot_le hi
    have hout := hg.clusterAddr_apart (by have := hxr.1; omega) (by have := hyr.1; omega) hne.symm
    have hdvd : direntSize ∣ clusterAddr v x := dvd_mul_of_dvd_left (by decide) _
    have hent := h.entry
    rw [readEnt_entered hg hdvd (dvd_add hdvd (dvd_mul_right _ _))
      ((hg.root_le_clusterAddr x).trans (Nat.le_add_right _ _)) hyr (by omega)] at hent
    have hstart := congrArg DirEnt.startCluster hent
    rw [startCluster_newDirent (by have := hy'.2.1; omega)] at hstart
    by_cases hi0 : clusterAddr v x + direntSize * i = clusterAddr v x
    · rw [if_pos hi0, startCluster_newDirent (by have := hyr.2.1; omega)] at hstart
      subst hstart
      have hlink := h.up_eq hg (by have := hxr.2.1; omega)
      refine hchain.fatEntry_ne_zero (hchain.mem_head ?_) ?_
      · rw [← hlink]
        exact hxr.clusNormal
      · rw [← hlink]
        exact hxz
    · have hzero : readEnt (grown v d last x) (clusterAddr v x + direntSize * i) = fun _ => 0 := by
        funext j
        unfold readEnt
        split
        next hj => rw [grown, setCluster, setBlock, if_pos (by omega)]
        next => rfl
      rw [if_neg hi0, hzero] at hstart
      have hnull : DirEnt.startCluster (fun _ => 0) = 0 := rfl
      rw [hnull] at hstart
      have := hy'.1
      omega

end Call

/-- A call that creates a directory links it to its parent when the slot that it takes is in the first
cluster of the parent; in a subdirectory, and in a root directory that consists of full blocks, only
then. -/
theorem fatOpen_links_iff (hg : Geometry v) (hspc : v.sb.sectorsPerCluster ≤ 128) {fuel : Nat}
    (hfuel : 2 ^ 16 ≤ fuel) {path base : List UInt8} {flag : Flags} {g : Fat16File}
    (hcreate : flag.create = true) (hflag : flag.dir = true)
    (hnew : (fatOpenExisting v fuel path { flag with create := false } d).1 = .ok none)
    (hbase : getBasedir path = some base) (hname : getFilename path = some name)
    (hparent : (fatOpenExisting v fuel base Flags.none d).1 = .ok (some f))
    (hrun : fatOpen v fuel path flag d = (.ok (some g), d'))
    (hdir : OnDirectory v d f l) (hroom : HasRoom v d f l) :
    (LinkKept v d base f l → ∃ l' a y, NewDirectory v fuel d d' f name l' a y) ∧
    ((f.dirent.startCluster = clusRoot → 0 < v.rootSectors ∧ v.sb.sectorsPerCluster ∣ v.rootSectors) →
      (∃ l' a y, NewDirectory v fuel d d' f name l' a y) → LinkKept v d base f l) := by
  have hmade := fatOpen_created hcreate hflag hnew hbase hname hparent hrun
  cases ha : firstFree d (searchedSlots v f l) with
  | some a =>
      obtain ⟨y, hy, hslot⟩ := fatCreateFile_slot hg hspc hfuel hparent hdir hroom ha name true
      obtain rfl : entered v d name true a y (linkTarget v base f a) = d' :=
        congrArg Prod.snd (hslot.symm.trans hmade)
      have htarget : linkTarget v base f a = f.dirent.startCluster ↔ LinkKept v d base f l :=
        linkTarget_eq_iff hg hdir ha
      constructor
      · intro hkept
        rw [htarget.mpr hkept]
        exact ⟨l, a, y, newDirectory_slot hg hfuel hdir ha hy name⟩
      · rintro - ⟨l', a', y', hnewDir⟩
        have hmem := (firstFree_eq_some ha).1
        exact htarget.mp (hnewDir.link_eq hg hdir (searchedSlots_subset f l hmem) hy
          (linkTarget_lt hg hdir hmem))
  | none =>
      refine ⟨fun hkept => ?_, ?_⟩
      · obtain ⟨a, ha'⟩ := hkept.exists_slot hdir
        exact absurd (ha.symm.trans ha') (by simp)
      · rintro hfull ⟨l', a', y', hnewDir⟩
        by_cases hroot : f.dirent.startCluster = clusRoot
        · obtain ⟨hpos, hdvd⟩ := hfull hroot
          rw [searchedSlots, if_pos hroot, Nat.mul_div_cancel' hdvd] at ha
          rw [fatCreateFile_hang hg hparent hroot (Nat.le_of_dvd hpos hdvd) ha] at hmade
          exact absurd (congrArg Prod.fst hmade) (by simp)
        · obtain ⟨l₀, last, rfl, x, hx, y, hy, hne, hgrows⟩ :=
            fatCreateFile_grows hg hspc hfuel hparent hdir hroom hroot ha name true
          obtain rfl : entered v (grown v d last x) name true (clusterAddr v x) y x = d' :=
            congrArg Prod.snd (hgrows.symm.trans hmade)
          obtain ⟨-, hchain, -⟩ := hdir.resolve_left hroot
          exact absurd hnewDir (not_newDirectory_grows hg hchain hx hy hne)

/-- `FAT16_CTL_CREATE | FAT16_CTL_DIR`. -/
def dirFlag : Flags := { Flags.none with dir := true, create := true }

theorem fatOpen_links_sample : ∃ f g d',
    (fatOpenExisting smallVolume (2 ^ 16) [47, 80, 47] Flags.none (dirDisk [3, 4])).1 = .ok (some f) ∧
    fatOpen smallVolume (2 ^ 16) [47, 80, 47, 81] dirFlag (dirDisk [3, 4]) = (.ok (some g), d') ∧
    ∃ l' a y, NewDirectory smallVolume (2 ^ 16) (dirDisk [3, 4]) d' f [81] l' a y := by
  have hnew := eq_of_notFound (x := (fatOpenExisting smallVolume (2 ^ 16) [47, 80, 47, 81]
    { dirFlag with create := false } (dirDisk [3, 4])).1) (by decide)
  obtain ⟨f, hparent, htest⟩ : ∃ f, (fatOpenExisting smallVolume (2 ^ 16) [47, 80, 47] Flags.none
      (dirDisk [3, 4])).1 = .ok (some f) ∧ headsAt true 3 f = true := exists_found (by decide)
  obtain ⟨g, d', hrun⟩ := exists_run (x := fatOpen smallVolume (2 ^ 16) [47, 80, 47, 81] dirFlag
    (dirDisk [3, 4])) (by decide +kernel)
  rw [headsAt, Bool.and_eq_true, beq_iff_eq, beq_iff_eq] at htest
  have hchain : IsChain smallVolume (dirDisk [3, 4]) f.dirent.startCluster [3, 4] := by
    rw [htest.2]
    exact dirDisk_pair_chain
  have hroom := dirDisk_room (l := [3, 4]) (by decide) (by decide) f
  have hkept : LinkKept smallVolume (dirDisk [3, 4]) [47, 80, 47] f [3, 4] := by
    rw [LinkKept, if_neg (show f.dirent.startCluster ≠ clusRoot from hchain.start_ne_zero), htest.2]
    exact ⟨by decide, by decide⟩
  refine ⟨f, g, d', hparent, hrun, ?_⟩
  exact (fatOpen_links_iff smallVolume_geometry (by decide) (le_refl _) rfl rfl hnew (by decide) (by decide)
    hparent hrun (Or.inr ⟨htest.1, hchain, by simp⟩) hroom).1 hkept

/-- The parent has one cluster and gets a second one for the entry: the new directory links to the
second. -/
theorem fatOpen_links_lost : ∃ f g d',
    (fatOpenExisting smallVolume (2 ^ 16) [47, 80, 47, 81] { dirFlag with create := false } (dirDisk [3])).1 =
      .ok none ∧
    (fatOpenExisting smallVolume (2 ^ 16) [47, 80, 47] Flags.none (dirDisk [3])).1 = .ok (some f) ∧
    fatOpen smallVolume (2 ^ 16) [47, 80, 47, 81] dirFlag (dirDisk [3]) = (.ok (some g), d') ∧
    OnDirectory smallVolume (dirDisk [3]) f [3] ∧ HasRoom smallVolume (dirDisk [3]) f [3] ∧
    ¬∃ l' a y, NewDirectory smallVolume (2 ^ 16) (dirDisk [3]) d' f [81] l' a y := by
  have hnew := eq_of_notFound (x := (fatOpenExisting smallVolume (2 ^ 16) [47, 80, 47, 81]
    { dirFlag with create := false } (dirDisk [3])).1) (by decide)
  obtain ⟨f, hparent, htest⟩ : ∃ f, (fatOpenExisting smallVolume (2 ^ 16) [47, 80, 47] Flags.none
      (dirDisk [3])).1 = .ok (some f) ∧ headsAt true 3 f = true := exists_found (by decide)
  obtain ⟨g, d', hrun⟩ := exists_run (x := fatOpen smallVolume (2 ^ 16) [47, 80, 47, 81] dirFlag
    (dirDisk [3])) (by decide)
  rw [headsAt, Bool.and_eq_true, beq_iff_eq, beq_iff_eq] at htest
  have hchain : IsChain smallVolume (dirDisk [3]) f.dirent.startCluster ([] ++ [3]) := by
    rw [htest.2]
    exact chain_singleton (by decide) (by decide)
  have hsub : f.dirent.startCluster ≠ clusRoot := hchain.start_ne_zero
  have hdir : OnDirectory smallVolume (dirDisk [3]) f [3] := Or.inr ⟨htest.1, hchain, by simp⟩
  have hroom := dirDisk_room (l := [3]) (by decide) (by decide) f
  have hnone : firstFree (dirDisk [3]) (searchedSlots smallVolume f [3]) = none := by
    rw [searchedSlots, if_neg hsub]
    rfl
  have hmade := fatOpen_created rfl rfl hnew (show getBasedir _ = some [47, 80, 47] by decide)
    (show getFilename _ = some [81] by decide) hparent hrun
  obtain ⟨l₀, last, hl, x, hx, y, hy, hne, hgrows⟩ := fatCreateFile_grows smallVolume_geometry (by decide)
    (le_refl _) hparent hdir hroom hsub hnone [81] true
  obtain rfl := congrArg Prod.snd (hgrows.symm.trans hmade)
  refine ⟨f, g, _, hnew, hparent, hrun, hdir, hroom, ?_⟩
  rintro ⟨l', a, y', hmadeDir⟩
  obtain ⟨rfl, rfl⟩ := eq_nil_of_concat hl
  exact not_newDirectory_grows smallVolume_geometry hchain hx hy hne hmadeDir

end TsOs.Fat
