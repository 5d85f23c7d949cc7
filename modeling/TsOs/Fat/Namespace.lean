import TsOs.Fat.Handles
import TsOs.Fat.Histories

/-!
# The namespace of a volume

What the paths of a volume name is a map from the keys of a path to a kind, file or
directory. On every volume that a history makes out of an empty one, opening a path shows
this map, a creation adds one path to it, and a deletion takes away a path and all paths
below it. Every other path is opened with the same handle as before.
-/

namespace TsOs.Fat
open ByteMemory Transition

/-- What the paths name: `true` stands for a directory. -/
abbrev Names := List (List UInt8) → Option Bool

/-- The names without a path and the paths below it. -/
def Names.without (N : Names) (P : List (List UInt8)) : Names := fun ks => if P <+: ks then none else N ks

/-- The kinds of the nodes of a tree. -/
def Tree.names (t : Tree) : Names := fun ks => (t ks).map Node.isDir

/-- A path from the root, with ordinary names. -/
structure AbsolutePath (path : List UInt8) : Prop where
  absolute : path.head? = some slash
  ordinary : ∀ c ∈ components path, Ordinary c

variable (v : Fat16Volume) (fuel : Nat)

/-- Opening a path other than that of the root returns a handle of the kind that the names have for it. -/
def Shows (d : Disk) (N : Names) : Prop :=
  ∀ q, AbsolutePath q → components q ≠ [] → DirsOn v fuel d q →
    ∃ r, fatOpen v fuel q Flags.none d = (.ok r, d) ∧ r.map (fun f => isDirectory f.dirent) = N (pathKeys q)

/-- The path `P` is an empty file or directory of `d'`, and other paths are opened as in `d`. -/
structure Adds (d d' : Disk) (P : List UInt8) (dir : Bool) : Prop where
  opens : ∀ q, AbsolutePath q → pathKeys q = pathKeys P → ∃ g, fatOpen v fuel q Flags.none d' = (.ok (some g), d') ∧
    isDirectory g.dirent = dir ∧ g.dirent.fileSize = 0
  below : ∀ q, AbsolutePath q → pathKeys P <+: pathKeys q → pathKeys q ≠ pathKeys P →
    fatOpen v fuel q Flags.none d' = (.ok none, d')
  others : ∀ q, AbsolutePath q → DirsOn v fuel d q → pathKeys q ≠ pathKeys P →
    (fatOpen v fuel q Flags.none d').1 = (fatOpen v fuel q Flags.none d).1

/-- The path `P` and those below it are not in `d'`, and other paths are opened as in `d`. -/
structure Removes (d d' : Disk) (P : List UInt8) : Prop where
  gone : ∀ q, AbsolutePath q → pathKeys P <+: pathKeys q → fatOpen v fuel q Flags.none d' = (.ok none, d')
  others : ∀ q, AbsolutePath q → DirsOn v fuel d q → ¬pathKeys P <+: pathKeys q →
    (fatOpen v fuel q Flags.none d').1 = (fatOpen v fuel q Flags.none d).1

/-- The volume shows `N`, a creation adds its path to `N`, and a deletion takes its path and those below it from `N`. -/
structure KeepsNames (d : Disk) (N : Names) : Prop where
  shows : Shows v fuel d N
  creates : ∀ P flag f d', OrdinaryPath P → DirsOn v fuel d P → flag.create = true → N (pathKeys P) = none →
    fatOpen v fuel P flag d = (.ok (some f), d') → RoomLeft v d' →
    Adds v fuel d d' P flag.dir ∧ Shows v fuel d' (Function.update N (pathKeys P) (some flag.dir))
  deletes : ∀ P d', OrdinaryPath P → DirsOn v fuel d P → fatDeleteFile v fuel P d = (.ok 1, d') →
    Removes v fuel d d' P ∧ Shows v fuel d' (N.without (pathKeys P))

variable {v fuel} {d d' : Disk} {t t' : Tree} {file f : Fat16File} {pre ks P : List (List UInt8)}
  {path q : List UInt8} {flag : Flags} {n : Node} {cs cs' : List (List UInt8)}

/-! ## Walks on two volumes -/

theorem Fat16File.place_congr {a : Nat} (h : readEnt d' a = readEnt d a) : file.place v d' a = file.place v d a := by
  unfold Fat16File.place
  rw [h]

/-- A walk depends on the places of the nodes that it meets, and on their entries. -/
theorem walk_congr (hplace : ∀ ks₁ ≠ [], ks₁ <+: ks → (t' (pre ++ ks₁)).map Node.addr = (t (pre ++ ks₁)).map Node.addr)
    (hent : ∀ ks₁ n, ks₁ <+: ks → t (pre ++ ks₁) = some n → readEnt d' n.addr = readEnt d n.addr) :
    walk v d' t' pre file ks = walk v d t pre file ks := by
  induction ks generalizing pre file with
  | nil => rfl
  | cons k ks ih =>
      have hhead := hplace [k] (List.cons_ne_nil _ _) (List.cons_prefix_cons.mpr ⟨rfl, List.nil_prefix⟩)
      rw [walk, walk]
      cases hn : t (pre ++ [k]) with
      | none =>
          rw [hn, Option.map_none, Option.map_eq_none_iff] at hhead
          rw [hhead]
          rfl
      | some n =>
          rw [hn, Option.map_some, Option.map_eq_some_iff] at hhead
          obtain ⟨n', hn', haddr⟩ := hhead
          have hentry := hent [k] n (List.cons_prefix_cons.mpr ⟨rfl, List.nil_prefix⟩) hn
          rw [hn', Option.bind_some, Option.bind_some, haddr, Fat16File.place_congr hentry]
          refine ih (fun ks₁ hne hpre => ?_) fun ks₁ m hpre hm => ?_
          · rw [List.append_assoc]
            exact hplace _ (List.cons_ne_nil _ _) (List.cons_prefix_cons.mpr ⟨rfl, hpre⟩)
          · rw [List.append_assoc] at hm
            exact hent _ m (List.cons_prefix_cons.mpr ⟨rfl, hpre⟩) hm

/-- A lookup goes on from the handle that the first components lead to. -/
theorem findComponents_append (h : findComponents v fuel file cs d = (.ok (some f), d)) :
    findComponents v fuel file (cs ++ cs') d = findComponents v fuel f cs' d := by
  induction cs generalizing file with
  | nil =>
      obtain rfl : file = f := Option.some.inj (FatM.ok_inj h)
      rfl
  | cons c cs ih =>
      rw [List.cons_append, findComponents]
      rw [findComponents] at h
      split at h
      next => exact absurd (congrArg Prod.fst h) (by simp [FatM.stop])
      next hlen =>
        obtain ⟨r, d₁, hsearch, hrest⟩ := FatM.bind_eq_ok h
        obtain rfl := (fatSearchFile_quiet v fuel _ _ _).same hsearch
        rw [if_neg hlen, FatM.bind_ok hsearch]
        cases r with
        | none => exact absurd (congrArg Prod.fst hrest) (by simp)
        | some g => exact ih hrest

/-! ## Opening -/

theorem AbsolutePath.ordinaryPath (h : AbsolutePath path) (hne : components path ≠ []) : OrdinaryPath path :=
  ⟨h.absolute, hne, h.ordinary⟩

theorem OrdinaryPath.absolutePath (h : OrdinaryPath path) : AbsolutePath path := ⟨h.absolute, h.ordinary⟩

/-- The paths of the root are opened without a look at the disk. -/
theorem fatOpen_root_same (hroot : components path = []) (d d' : Disk) :
    (fatOpen v fuel path Flags.none d').1 = (fatOpen v fuel path Flags.none d).1 := by
  have hopen : ∀ d, fatOpen v fuel path Flags.none d =
      (.ok (some (rootFound path (newFat16File Flags.none))), d) := by
    intro d
    change fatOpenExisting v fuel path Flags.none d = _
    unfold fatOpenExisting
    rw [FatM.bind_ok (fat16Find_root hroot)]
    rfl
  rw [hopen, hopen]

section Opening

variable (hv : Aligned v) (hfuel : 2 ^ 16 ≤ fuel)
include hv hfuel

/-- The names of the tree are shown. -/
theorem Represents.shows (h : Represents v d t) : Shows v fuel d t.names := by
  intro q hq hne hon
  have hp := hq.ordinaryPath hne
  have hdirs := h.dirsAlong hv hfuel hp hon
  unfold Tree.names
  cases hn : t (pathKeys q) with
  | none => exact ⟨none, h.fatOpenExisting_none hv hfuel hdirs Flags.none hp hn, rfl⟩
  | some n =>
      obtain ⟨f, i, hopen, hf, -⟩ := h.fatOpenExisting_some hv hfuel hdirs Flags.none hp hn
      refine ⟨some f, hopen, ?_⟩
      rw [Option.map_some, Option.map_some, hf.dirent, h.kind hn]

theorem Represents.dirsAlong_absolute (h : Represents v d t) (hq : AbsolutePath q) (hon : DirsOn v fuel d q) :
    t.DirsAlong [] (pathKeys q) := by
  by_cases hroot : components q = []
  · rw [pathKeys_eq_nil.mpr hroot]
    intro ks₁ ks₂ heq hne₁
    exact absurd (List.append_eq_nil_iff.mp heq.symm).1 hne₁
  · exact h.dirsAlong hv hfuel (hq.ordinaryPath hroot) hon

/-- Two volumes on which a path meets the same nodes open it with the same handle. -/
theorem Represents.fatOpen_same (h : Represents v d t) (h' : Represents v d' t') (hq : AbsolutePath q)
    (hdirs : t.DirsAlong [] (pathKeys q))
    (hplace : ∀ ks₁ ≠ [], ks₁ <+: pathKeys q → (t' ks₁).map Node.place = (t ks₁).map Node.place)
    (hent : ∀ ks₁ n, ks₁ <+: pathKeys q → t ks₁ = some n → readEnt d' n.addr = readEnt d n.addr) :
    (fatOpen v fuel q Flags.none d').1 = (fatOpen v fuel q Flags.none d).1 := by
  by_cases hroot : components q = []
  · exact fatOpen_root_same hroot d d'
  · have hp := hq.ordinaryPath hroot
    have hdirs' : t'.DirsAlong [] (pathKeys q) := by
      intro ks₁ ks₂ heq hne₁ hne₂ n' hn'
      rw [List.nil_append] at hn'
      have hp := hplace ks₁ hne₁ (heq ▸ List.prefix_append _ _)
      rw [hn', Option.map_some, eq_comm, Option.map_eq_some_iff] at hp
      obtain ⟨n, hn, hsame⟩ := hp
      have hkind : n.isDir = n'.isDir := congrArg Prod.snd hsame
      rw [← hkind]
      exact hdirs ks₁ ks₂ heq hne₁ hne₂ n hn
    have hrun : fatOpen v fuel q Flags.none d = _ := h.fatOpenExisting_run hv hfuel hdirs Flags.none hp rfl
    have hrun' : fatOpen v fuel q Flags.none d' = _ := h'.fatOpenExisting_run hv hfuel hdirs' Flags.none hp rfl
    rw [hrun, hrun']
    refine congrArg Except.ok (walk_congr (fun ks₁ hne hpre => ?_) fun ks₁ n hpre hn => hent ks₁ n hpre hn)
    have hp := congrArg (Option.map Prod.fst) (hplace ks₁ hne hpre)
    rwa [Option.map_map, Option.map_map] at hp

/-- Below a node without entries, no path is found. -/
theorem Represents.fatOpen_below (h : Represents v d t) (hn : t P = some n) (hdirs : t.DirsAlong [] P)
    (hblank : ∀ a ∈ chainSlots v n.chain, (readEnt d a).startCluster = 0 ∨ IsLink (readEnt d a))
    (hq : AbsolutePath q) (hpre : P <+: pathKeys q) (hne : pathKeys q ≠ P) :
    fatOpen v fuel q Flags.none d = (.ok none, d) := by
  obtain ⟨rest, hrest⟩ := hpre
  obtain ⟨cs₁, cs₂, hcs, rfl, rfl⟩ := List.map_eq_append_iff.mp (show pathKeys q = P ++ rest from hrest.symm)
  have hord₁ : ∀ c ∈ cs₁, Ordinary c := fun c hc => hq.ordinary c (hcs ▸ List.mem_append_left _ hc)
  have hks := h.path_ne_nil hn
  have hne₂ : cs₂ ≠ [] := by
    rintro rfl
    exact hne (by rw [pathKeys, hcs, List.append_nil])
  obtain ⟨c, cs₂, rfl⟩ := List.exists_cons_of_ne_nil hne₂
  have hc : Ordinary c := hq.ordinary c (hcs ▸ List.mem_append_right _ List.mem_cons_self)
  have hpath : q ≠ [slash] := by
    rintro rfl
    exact absurd hcs (by simp [show components [slash] = [] from rfl])
  -- The handle on the node itself.
  have hsome : (walk v d t [] (rootHandle Flags.none) (cs₁.map key)).isSome := walk_isSome h hn
  obtain ⟨f, hw⟩ := Option.isSome_iff_exists.mp hsome
  obtain ⟨m, g, hm, rfl, -, -⟩ := walk_eq_some hks hw
  obtain rfl := Option.some.inj (hn.symm.trans hm)
  have hfirst : findComponents v fuel (rootHandle Flags.none) cs₁ d = _ :=
    h.findComponents_run hv hfuel hord₁ (fun _ => Or.inl ⟨rfl, rfl⟩) hdirs
  rw [hw] at hfirst
  have hnone : findSlot d (key c) (chainSlots v n.chain) = none := by
    refine findSlot_eq_none.mpr fun a ha => ?_
    rintro ⟨hstart, hkey⟩
    rcases isLink_iff.mp ((hblank a ha).resolve_left hstart) with hdot | hdot
    · exact hc.ne_dot (hkey.symm.trans hdot)
    · exact hc.ne_dotDot (hkey.symm.trans hdot)
  have hsearch : fatSearchFile v fuel (g.place v d n.addr) c (g.place v d n.addr).dirent.startCluster d =
      (.ok none, d) := by
    rw [Fat16File.place_dirent, fatSearchFile_chain hv.toGeometry (h.isChain hn) hfuel hc.nul_not_mem, hnone]
    rfl
  have hlen := hc.length_le
  change fatOpenExisting v fuel q Flags.none d = _
  unfold fatOpenExisting fat16Find
  rw [if_neg hpath, findLoop_eq v fuel (Nat.lt_succ_self _), hcs]
  have hfind : findComponents v fuel { newFat16File Flags.none with dirent := rootEnt } (cs₁ ++ c :: cs₂) d =
      (.ok none, d) := by
    refine (findComponents_append hfirst).trans ?_
    rw [findComponents, if_neg (by omega), FatM.bind_ok hsearch]
    rfl
  rw [FatM.bind_ok hfind]
  rfl

end Opening

/-! ## Creating and deleting -/

theorem Created.names {dir : Bool} (hmade : Created v d d' t t' P dir) :
    t'.names = Function.update t.names P (some dir) := by
  funext ks
  by_cases hks : ks = P
  · subst hks
    obtain ⟨n, hn, hdir, -⟩ := hmade.node
    rw [Function.update_self, Tree.names, hn, Option.map_some, hdir]
  · rw [Function.update_of_ne hks]
    have hplace := congrArg (Option.map Prod.snd) (hmade.others ks hks)
    rwa [Option.map_map, Option.map_map] at hplace

/-- The nodes before the last component are those of the old tree. -/
theorem Created.dirsAlong {dir : Bool} (hmade : Created v d d' t t' P dir) (hdirs : t.DirsAlong [] P) :
    t'.DirsAlong [] P := by
  intro ks₁ ks₂ heq hne₁ hne₂ m hm
  have hne : ks₁ ≠ P := by
    rintro rfl
    exact hne₂ (by simpa using heq)
  have hplace := hmade.others ks₁ hne
  rw [List.nil_append] at hm
  rw [hm, Option.map_some, eq_comm, Option.map_eq_some_iff] at hplace
  obtain ⟨m', hm', hsame⟩ := hplace
  have hkind : m'.isDir = m.isDir := congrArg Prod.snd hsame
  rw [← hkind]
  exact hdirs ks₁ ks₂ heq hne₁ hne₂ m' hm'

section Edits

variable (hv : Aligned v) (hfuel : 2 ^ 16 ≤ fuel) (h : Represents v d t) (hp : OrdinaryPath path)
  (hdirs : t.DirsAlong [] (pathKeys path))
include hv hfuel hp

include h hdirs

/-- A creation adds its path. -/
theorem Created.adds {dir : Bool} (hnone : t (pathKeys path) = none)
    (hmade : Created v d d' t t' (pathKeys path) dir) : Adds v fuel d d' path dir := by
  obtain ⟨n, hn, hdir, -, hsize, hblank⟩ := hmade.node
  have h' := hmade.represents
  have hdirs' := hmade.dirsAlong hdirs
  refine ⟨fun q hq hks => ?_, fun q hq hpre hne => ?_, fun q hq hon hne => ?_⟩
  · have hq' : OrdinaryPath q := by
      refine hq.ordinaryPath fun hnil => hp.ne_nil ?_
      rw [← pathKeys_eq_nil, ← hks, pathKeys_eq_nil, hnil]
    rw [← hks] at hn hdirs'
    obtain ⟨g, i, hopen, hg, -⟩ := h'.fatOpenExisting_some hv hfuel hdirs' Flags.none hq' hn
    refine ⟨g, hopen, ?_, ?_⟩
    · rw [hg.dirent, h'.kind hn, hdir]
    · rw [hg.dirent, hsize]
  · exact h'.fatOpen_below hv hfuel hn hdirs' hblank hq hpre hne
  · have hqdirs := h.dirsAlong_absolute hv hfuel hq hon
    by_cases hpre : pathKeys path <+: pathKeys q
    · have hqne : components q ≠ [] := by
        intro hroot
        rw [pathKeys_eq_nil.mpr hroot] at hpre
        exact hp.pathKeys_ne_nil (List.prefix_nil.mp hpre)
      have hqnone : t (pathKeys q) = none := by
        obtain ⟨rest, hrest⟩ := hpre
        by_contra hsome
        obtain ⟨m, hm⟩ := Option.ne_none_iff_exists'.mp hsome
        rw [← hrest] at hm
        obtain ⟨m', hm', -⟩ := h.exists_above hm hp.pathKeys_ne_nil
        exact absurd (hnone.symm.trans hm') (by simp)
      have hbefore : fatOpen v fuel q Flags.none d = (.ok none, d) :=
        h.fatOpenExisting_none hv hfuel hqdirs Flags.none (hq.ordinaryPath hqne) hqnone
      rw [hbefore, h'.fatOpen_below hv hfuel hn hdirs' hblank hq hpre hne]
    · refine h.fatOpen_same hv hfuel h' hq hqdirs (fun ks₁ _ hks₁ => hmade.others ks₁ ?_) fun ks₁ m _ hm =>
        hmade.kept ks₁ m hm
      rintro rfl
      exact hpre hks₁

/-- A deletion removes its path and the paths below it. -/
theorem Represents.removes (hpruned : Represents v d' (t.prune (pathKeys path)))
    (hkept : ∀ ks m, t ks = some m → ks ≠ pathKeys path → readEnt d' m.addr = readEnt d m.addr) :
    Removes v fuel d d' path := by
  have hne := hp.pathKeys_ne_nil
  refine ⟨fun q hq hpre => ?_, fun q hq hon hpre => ?_⟩
  · have hqne : components q ≠ [] := by
      intro hroot
      rw [pathKeys_eq_nil.mpr hroot] at hpre
      exact hne (List.prefix_nil.mp hpre)
    have hqdirs : (t.prune (pathKeys path)).DirsAlong [] (pathKeys q) := by
      intro ks₁ ks₂ heq hne₁ _ m hm
      obtain ⟨hnot, hm⟩ := Tree.prune_eq_some.mp hm
      -- What is left of the way to `q` is a part of the way to the deleted path.
      have hks₁ : ks₁ <+: pathKeys path := by
        rcases List.prefix_or_prefix_of_prefix (heq ▸ List.prefix_append ks₁ ks₂) hpre with hshort | hlong
        · exact hshort
        · exact absurd hlong hnot
      obtain ⟨rest, hrest⟩ := hks₁
      refine hdirs ks₁ rest hrest.symm hne₁ ?_ m hm
      rintro rfl
      rw [List.append_nil] at hrest
      exact hnot (hrest ▸ List.prefix_refl _)
    exact hpruned.fatOpenExisting_none hv hfuel hqdirs Flags.none (hq.ordinaryPath hqne) (if_pos hpre)
  · have hqdirs := h.dirsAlong_absolute hv hfuel hq hon
    have hnot : ∀ ks₁, ks₁ <+: pathKeys q → ¬pathKeys path <+: ks₁ := fun ks₁ hks₁ hlong =>
      hpre (hlong.trans hks₁)
    refine h.fatOpen_same hv hfuel hpruned hq hqdirs (fun ks₁ _ hks₁ => ?_) fun ks₁ m hks₁ hm => hkept ks₁ m hm ?_
    · rw [Tree.prune, if_neg (hnot ks₁ hks₁)]
    · rintro rfl
      exact hnot _ hks₁ (List.prefix_refl _)

end Edits

theorem Tree.names_prune (t : Tree) (P : List (List UInt8)) : (t.prune P).names = t.names.without P := by
  funext ks
  unfold Tree.names Tree.prune Names.without
  split <;> rfl

/-- On every volume of a history there are names that opening a path shows, that a creation adds to and
that a deletion takes from. -/
theorem opStep_names (hv : Aligned v) (hpos : 0 < v.rootSectors) (hfuel : 2 ^ 16 ≤ fuel) {d₀ : Disk}
    {ops : List Op} (hd : Formatted v d₀) (hlegal : Guarded (opStep v fuel) (Legal v fuel) d₀ ops)
    (hrun : run (opStep v fuel) d₀ ops = some d) :
    ∃ N, KeepsNames v fuel d N := by
  obtain ⟨t, h⟩ := exists_represents hv hpos hfuel hd hlegal hrun
  refine ⟨t.names, h.shows hv hfuel, ?_, ?_⟩
  · intro P flag f d' hp hon hcreate hnone hopen hroom
    have hdirs := h.dirsAlong hv hfuel hp hon
    have hnone : t (pathKeys P) = none := Option.map_eq_none_iff.mp hnone
    rcases h.fatOpen_ok hv hfuel hpos hp hdirs hcreate hopen hroom with ⟨-, hfail⟩ | ⟨-, t', hmade⟩
    · exact absurd (hfail hnone) (by simp)
    · refine ⟨hmade.adds hv hfuel h hp hdirs hnone, ?_⟩
      rw [← hmade.names]
      exact hmade.represents.shows hv hfuel
  · intro P d' hp hon hdelete
    have hdirs := h.dirsAlong hv hfuel hp hon
    rcases h.fatDeleteFile_ok hv hfuel hp hdirs hdelete with ⟨-, hfail⟩ | ⟨hpruned, hkept⟩
    · exact absurd hfail (by decide)
    · refine ⟨h.removes hv hfuel hp hdirs hpruned hkept, ?_⟩
      rw [← Tree.names_prune]
      exact hpruned.shows hv hfuel

theorem opStep_names_sample : ∃ d N, run (opStep smallVolume (2 ^ 16)) (fun _ => 0) sampleOps = some d ∧
    KeepsNames smallVolume (2 ^ 16) d N := by
  obtain ⟨d, hrun⟩ := Option.isSome_iff_exists.mp sampleOps_runs
  have hlegal : Guarded (opStep smallVolume (2 ^ 16)) (Legal smallVolume (2 ^ 16)) (fun _ => 0) sampleOps :=
    guarded_of_forall fun _ hop d => sampleOps_legal d hop
  obtain ⟨N, hkeeps⟩ := opStep_names smallVolume_aligned (by decide) (le_refl _) formatted_zero hlegal hrun
  exact ⟨d, N, hrun, hkeeps⟩

end TsOs.Fat
