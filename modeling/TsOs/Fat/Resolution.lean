import TsOs.Fat.Histories
import TsOs.Fat.Termination

/-!
# Path resolution

`fat16_find` searches for one component after the other, each in the clusters of the entry
that the last search has found. It does not look at the attribute of that entry, so the
contents of a regular file are searched like those of a directory. What a path names is
stated here on the disk alone, as the first slots with the keys of its components; the
lookup agrees with it as long as no regular file is on the way.
-/

namespace TsOs.Fat
open ByteMemory LinkPath

variable {v : Fat16Volume} {d : Disk} {t : Tree} {fuel s s' a a' c : Nat} {file f : Fat16File}
  {name path k : List UInt8} {ok : DirEnt → Prop} {cs pre : List (List UInt8)} {n : Node}

/-! ## What a path names -/

variable (v) in
/-- `a` is the first slot of a live entry with the key in the directory with the first cluster `s`. -/
def FirstNamed (d : Disk) (s : Nat) (k : List UInt8) (a : Nat) : Prop :=
  if s = clusRoot then findSlot d k (rootSlots v) = some a
  else ∃ l e, Path (nextCluster v d) s l e ∧ (∀ x ∈ l, clusNormal x = true) ∧
    findSlot d k (chainSlots v l) = some a

variable (v) in
/-- From the directory `s` on, each component names an entry of the directory reached so far, and
those before the last one name entries with `ok`. -/
def Resolves (ok : DirEnt → Prop) (d : Disk) : Nat → List (List UInt8) → Prop
  | _, [] => True
  | s, c :: cs => ∃ a, FirstNamed v d s (key c) a ∧ (cs ≠ [] → ok (readEnt d a)) ∧
      Resolves ok d (readEnt d a).startCluster cs

variable (v) in
/-- A component before the last one names a regular file of a directory reached through directories,
and the contents of that file resolve the rest. -/
def Strays (d : Disk) : Nat → List (List UInt8) → Prop
  | _, [] => False
  | s, c :: cs => ∃ a, FirstNamed v d s (key c) a ∧ cs ≠ [] ∧
      if isDirectory (readEnt d a) then Strays d (readEnt d a).startCluster cs
      else Resolves v (fun _ => True) d (readEnt d a).startCluster cs

theorem FirstNamed.unique (h : FirstNamed v d s k a) (h' : FirstNamed v d s k a') : a = a' := by
  unfold FirstNamed at h h'
  by_cases hs : s = clusRoot
  · rw [if_pos hs] at h h'
    exact Option.some.inj (h.symm.trans h')
  · rw [if_neg hs] at h h'
    obtain ⟨l, e, hpath, -, hfind⟩ := h
    obtain ⟨l', e', hpath', -, hfind'⟩ := h'
    rcases hpath.prefix_or_prefix hpath' with ⟨r, rfl⟩ | ⟨r, rfl⟩
    · rw [chainSlots_append, findSlot_append, hfind, Option.some_or] at hfind'
      exact Option.some.inj hfind'
    · rw [chainSlots_append, findSlot_append, hfind', Option.some_or] at hfind
      exact (Option.some.inj hfind).symm

theorem Strays.resolves (h : Strays v d s cs) : Resolves v (fun _ => True) d s cs := by
  induction cs generalizing s with
  | nil => exact h.elim
  | cons c cs ih =>
      obtain ⟨a, ha, -, hrest⟩ := h
      refine ⟨a, ha, fun _ => trivial, ?_⟩
      split at hrest
      next => exact ih hrest
      next => exact hrest

section Searches

variable (hg : Geometry v) (hnul : 0 ∉ name)
include hg hnul

theorem findSlot_cluster (d : Disk) (c : Nat) : findSlot d (key name) (clusterSlots v c) =
    (searchNameInBlock (clusterBlock v d c) v.clusterBytes (fat16FilenameFmt (fun _ => 0) (cstr name))).map
      fun i => clusterAddr v c + direntSize * i := by
  refine searchNameInBlock_eq hnul ?_
  rw [hg.slots_eq, hg.clusterBytes]
  unfold sectorSize direntSize
  omega

theorem endsSearch_iff : EndsSearch v d (fat16FilenameFmt (fun _ => 0) (cstr name)) c ↔
    (clusNormal c = true → ∃ a, findSlot d (key name) (clusterSlots v c) = some a) := by
  unfold EndsSearch
  rw [findSlot_cluster hg hnul, ← Option.isSome_iff_exists, Option.isSome_map]

theorem searchResult_eq (hc : clusNormal c = true) :
    searchResult v d file (fat16FilenameFmt (fun _ => 0) (cstr name)) c =
      (findSlot d (key name) (clusterSlots v c)).map (file.place v d) := by
  unfold searchResult
  rw [if_pos hc, findSlot_cluster hg hnul, Option.map_map]
  cases hi : searchNameInBlock (clusterBlock v d c) v.clusterBytes
      (fat16FilenameFmt (fun _ => 0) (cstr name)) with
  | none => rfl
  | some i =>
      have hslot := hg.slot_le (searchNameInBlock_spec hi).1
      have hle := (clusNormal_iff.mp hc).1
      rw [Option.map_some, Option.map_some, Function.comp_apply,
        hg.place_cluster d file (by omega) (by unfold direntSize at *; omega)]
      unfold clusterBlock
      rw [readEnt_block d hslot]

/-- The search along the FAT arrives at the first slot with the key. -/
theorem arrives_iff (hs : s ≠ clusRoot) :
    (∃ e, Arrives (nextCluster v d) (EndsSearch v d (fat16FilenameFmt (fun _ => 0) (cstr name))) s e ∧
        searchResult v d file (fat16FilenameFmt (fun _ => 0) (cstr name)) e = some f) ↔
      ∃ a, FirstNamed v d s (key name) a ∧ f = file.place v d a := by
  simp only [FirstNamed, if_neg hs]
  constructor
  · rintro ⟨e, ⟨l, hpath, hl, he⟩, hresult⟩
    have hnormal : clusNormal e = true := by
      by_contra hnot
      rw [searchResult_eq_none (Bool.not_eq_true _ ▸ hnot)] at hresult
      exact absurd hresult (by simp)
    rw [searchResult_eq hg hnul hnormal] at hresult
    obtain ⟨a, ha, rfl⟩ := Option.map_eq_some_iff.mp hresult
    have hpass : ∀ x ∈ l, clusNormal x = true ∧ findSlot d (key name) (clusterSlots v x) = none := by
      intro x hx
      have hnot := hl x hx
      rw [endsSearch_iff hg hnul] at hnot
      obtain ⟨hx, hnone⟩ := Classical.not_imp.mp hnot
      exact ⟨hx, Option.eq_none_iff_forall_ne_some.mpr (not_exists.mp hnone)⟩
    have hnone : findSlot d (key name) (chainSlots v l) = none := by
      rw [findSlot_eq_none]
      intro b hb
      obtain ⟨x, hx, hmem⟩ := mem_chainSlots.mp hb
      exact findSlot_eq_none.mp (hpass x hx).2 b hmem
    refine ⟨a, ⟨l ++ [e], nextCluster v d e, path_append_cons.mpr ⟨hpath, rfl⟩, ?_, ?_⟩, rfl⟩
    · intro x hx
      rcases List.mem_append.mp hx with hx | hx
      · exact (hpass x hx).1
      · rwa [List.mem_singleton.mp hx]
    · rw [chainSlots_append, findSlot_append, hnone, Option.none_or, chainSlots_cons, findSlot_append, ha,
        Option.some_or]
  · rintro ⟨a, ⟨l, e, hpath, hl, hfind⟩, rfl⟩
    clear hs
    induction l generalizing s with
    | nil => exact absurd hfind (by simp [chainSlots, findSlot])
    | cons x l ih =>
        obtain ⟨rfl, htail⟩ := hpath
        have hx := hl s List.mem_cons_self
        rw [chainSlots_cons, findSlot_append] at hfind
        cases hhead : findSlot d (key name) (clusterSlots v s) with
        | some b =>
            rw [hhead, Option.some_or] at hfind
            obtain rfl := Option.some.inj hfind
            refine ⟨s, Arrives.of_stop ((endsSearch_iff hg hnul).mpr fun _ => ⟨b, hhead⟩), ?_⟩
            rw [searchResult_eq hg hnul hx, hhead]
            rfl
        | none =>
            rw [hhead, Option.none_or] at hfind
            obtain ⟨e', harrives, hresult⟩ := ih htail (fun y hy => hl y (List.mem_cons_of_mem _ hy)) hfind
            refine ⟨e', harrives.step fun hends => ?_, hresult⟩
            obtain ⟨b, hb⟩ := (endsSearch_iff hg hnul).mp hends hx
            exact absurd (hhead.symm.trans hb) (by simp)

end Searches

section Lookups

variable (hv : Aligned v) (hfuel : 2 ^ 16 ≤ fuel)
include hv

include hfuel in
/-- `fat_search_file` finds the first slot with the key of the name. -/
theorem fatSearchFile_iff (hnul : 0 ∉ name) : fatSearchFile v fuel file name s d = (.ok (some f), d) ↔
    ∃ a, FirstNamed v d s (key name) a ∧ f = file.place v d a := by
  by_cases hs : s = clusRoot
  · subst hs
    rw [fatSearchFile_root hv hnul]
    simp [FirstNamed, eq_comm]
  · rw [← arrives_iff hv.toGeometry hnul hs]
    unfold fatSearchFile
    rw [if_neg hs]
    constructor
    · intro hrun
      by_cases hends : ∃ e,
          Arrives (nextCluster v d) (EndsSearch v d (fat16FilenameFmt (fun _ => 0) (cstr name))) s e
      · obtain ⟨e, he⟩ := hends
        rw [searchFileLoop_arrives hv.toGeometry he hfuel] at hrun
        exact ⟨e, he, FatM.ok_inj hrun⟩
      · rw [searchFileLoop_hang hv.toGeometry (not_exists.mp hends)] at hrun
        exact absurd (congrArg Prod.fst hrun) (by simp)
    · rintro ⟨e, he, hresult⟩
      rw [searchFileLoop_arrives hv.toGeometry he hfuel, hresult]

/-- In a directory with a chain, the first slot is that of the chain. -/
theorem IsChain.firstNamed_iff {l : List Nat} (h : IsChain v d c l) (hnul : 0 ∉ name) :
    FirstNamed v d c (key name) a ↔ findSlot d (key name) (chainSlots v l) = some a := by
  have hof : ∀ {b}, findSlot d (key name) (chainSlots v l) = some b → FirstNamed v d c (key name) b := by
    intro b hb
    obtain ⟨e, -, hpath⟩ := h.path
    unfold FirstNamed
    rw [if_neg (show c ≠ clusRoot from h.start_ne_zero)]
    exact ⟨l, e, hpath.congr fun x hx => nextCluster_eq hv.toGeometry (h.inRange x hx).2.2,
      fun x hx => (h.inRange x hx).clusNormal, hb⟩
  refine ⟨fun ha => ?_, hof⟩
  have hfound : fatSearchFile v (2 ^ 16) (newFat16File Flags.none) name c d =
      (.ok (some ((newFat16File Flags.none).place v d a)), d) :=
    (fatSearchFile_iff hv (le_refl _) hnul).mpr ⟨a, ha, rfl⟩
  have hchain : fatSearchFile v (2 ^ 16) (newFat16File Flags.none) name c d = _ :=
    fatSearchFile_chain hv.toGeometry h (le_refl _) hnul
  obtain ⟨b, hb, -⟩ := Option.map_eq_some_iff.mp
    (FatM.ok_inj (hchain.symm.trans hfound))
  rw [hb, (hof hb).unique ha]

/-- In a directory of the tree, a name is found when the tree has a node for it. -/
theorem Represents.firstNamed_iff (h : Represents v d t) (hs : t.StartsAt d pre s) (hname : Ordinary name) :
    FirstNamed v d s (key name) a ↔ ∃ n, t (pre ++ [key name]) = some n ∧ n.addr = a := by
  rcases hs with ⟨rfl, rfl⟩ | ⟨n, hn, hdir, rfl⟩
  · unfold FirstNamed
    rw [if_pos rfl, h.findSlot_eq Tree.Slots.root hname.ne_dot hname.ne_dotDot, Option.map_eq_some_iff]
  · rw [(h.isChain hn).firstNamed_iff hv hname.nul_not_mem,
      h.findSlot_eq (Tree.Slots.dir hn hdir) hname.ne_dot hname.ne_dotDot, Option.map_eq_some_iff]

/-- On a volume that holds a tree, the paths that resolve through directories are those of the nodes. -/
theorem Represents.resolves_iff (h : Represents v d t) (hs : t.StartsAt d pre s)
    (hcs : ∀ c ∈ cs, Ordinary c) (hne : cs ≠ []) :
    Resolves v (isDirectory ·) d s cs ↔ (t (pre ++ cs.map key)).isSome := by
  induction cs generalizing pre s with
  | nil => exact absurd rfl hne
  | cons c cs ih =>
      have hc := hcs c List.mem_cons_self
      have hstep : ∀ {n}, t (pre ++ [key c]) = some n → n.isDir = true → cs ≠ [] →
          (Resolves v (isDirectory ·) d (readEnt d n.addr).startCluster cs ↔
            (t (pre ++ (c :: cs).map key)).isSome) := by
        intro n hn hdir hcs'
        rw [List.map_cons, List.append_cons]
        exact ih (Or.inr ⟨n, hn, hdir, rfl⟩) (fun x hx => hcs x (List.mem_cons_of_mem _ hx)) hcs'
      constructor
      · rintro ⟨a, ha, hdir, hrest⟩
        obtain ⟨n, hn, rfl⟩ := (h.firstNamed_iff hv hs hc).mp ha
        by_cases hnil : cs = []
        · subst hnil
          exact Option.isSome_iff_exists.mpr ⟨n, hn⟩
        · have hkind : n.isDir = true := (h.kind hn).symm.trans (hdir hnil)
          exact (hstep hn hkind hnil).mp hrest
      · intro hsome
        obtain ⟨m, hm⟩ := Option.isSome_iff_exists.mp hsome
        rw [List.map_cons, List.append_cons] at hm
        obtain ⟨n, hn, habove⟩ := h.exists_above hm (by simp)
        refine ⟨n.addr, (h.firstNamed_iff hv hs hc).mpr ⟨n, hn, rfl⟩, fun hnil => ?_, ?_⟩
        · exact (h.kind hn).trans (habove (by simpa using hnil))
        · by_cases hnil : cs = []
          · subst hnil
            trivial
          · exact (hstep hn (habove (by simpa using hnil)) hnil).mpr hsome

end Lookups

/-! ## A file that looks like a directory -/

end TsOs.Fat
