import TsOs.Fat.Edits

/-!
# Subtrees on the disk

Deleting a directory walks through the directories on the disk. On a disk that holds a
tree this walk meets the nodes below the path, each of them once, and no deleted slot
with a cluster. Deleting a path removes it and everything below it from the tree.
-/

namespace TsOs.Fat
open ByteMemory

variable {v : Fat16Volume} {d : Disk} {t : Tree} {ks P : List (List UInt8)} {n : Node}

theorem clusterSlots_disjoint (hg : Geometry v) {c c' : Nat} (hc : 2 ≤ c) (hc' : 2 ≤ c') (hne : c ≠ c') :
    (clusterSlots v c).Disjoint (clusterSlots v c') := by
  intro a ha ha'
  obtain ⟨i, hi, rfl⟩ := mem_clusterSlots.mp ha
  obtain ⟨j, hj, heq⟩ := mem_clusterSlots.mp ha'
  have hslot := hg.slot_le hi
  have hslot' := hg.slot_le hj
  have hapart := hg.clusterAddr_apart hc hc' hne
  unfold direntSize at *
  omega

theorem chainSlots_nodup (hg : Geometry v) {l : List Nat} (hl : ∀ x ∈ l, InRange v x)
    (hnodup : l.Nodup) : (chainSlots v l).Nodup := by
  refine List.nodup_flatMap.mpr ⟨fun c _ => ?_, ?_⟩
  · refine List.Nodup.map ?_ List.nodup_range
    intro i j hij
    unfold direntSize at hij
    dsimp only at hij
    omega
  · refine hnodup.pairwise_of_forall_ne fun c hc c' hc' hne => ?_
    have hr := hl c hc
    have hr' := hl c' hc'
    exact clusterSlots_disjoint hg (by have := hr.1; omega) (by have := hr'.1; omega) hne

section Walk

variable (hg : Geometry v) (h : Represents v d t)
include h

/-- A path is no longer than there are clusters, since every node on it has one. -/
theorem Represents.length_lt (hn : t ks = some n) : ks.length < 2 ^ 16 := by
  have hnode : ∀ i ∈ Finset.range ks.length, ∃ m, t (ks.take (i + 1)) = some m := by
    intro i hi
    have hsplit : t (ks.take (i + 1) ++ ks.drop (i + 1)) = some n := by
      rw [List.take_append_drop]
      exact hn
    have hne : ks.take (i + 1) ≠ [] := by
      have := Finset.mem_range.mp hi
      exact List.ne_nil_of_length_pos (by rw [List.length_take]; omega)
    obtain ⟨m, hm, -⟩ := h.exists_above hsplit hne
    exact ⟨m, hm⟩
  have : Nonempty Node := ⟨n⟩
  choose! node hnode using hnode
  have hcard : (Finset.range ks.length).card ≤ (Finset.Icc 3 0xFFEF).card := by
    refine Finset.card_le_card_of_injOn (fun i => (readEnt d (node i).addr).startCluster) ?_ ?_
    · intro i hi
      have hmem := h.start_mem (hnode i hi)
      have hr := (h.isChain (hnode i hi)).inRange _ hmem
      exact Finset.mem_coe.mpr (Finset.mem_Icc.mpr ⟨hr.1, hr.2.1⟩)
    · intro i hi j hj hij
      have hmem := h.start_mem (hnode i hi)
      have hmem' := h.start_mem (hnode j hj)
      dsimp only at hij
      rw [← hij] at hmem'
      have heq := congrArg List.length (h.path_eq_of_mem (hnode i hi) (hnode j hj) hmem hmem')
      have hi' := Finset.mem_range.mp hi
      have hj' := Finset.mem_range.mp hj
      rw [List.length_take, List.length_take] at heq
      omega
  rw [Finset.card_range, Nat.card_Icc] at hcard
  omega

/-- The node of a live slot. -/
theorem Represents.exists_child {A : List Nat} {a : Nat} (hA : t.Slots v ks A) (ha : a ∈ A)
    (hcl : HasCluster (readEnt d a)) :
    ∃ m, t (ks ++ [entKey (readEnt d a)]) = some m ∧ m.addr = a := by
  refine h.complete _ _ hA a ha ?_ hcl.2
  have := clusNormal_iff.mp hcl.1
  omega

/-- No slot of the tree is deleted and has a cluster. -/
theorem Represents.not_stale (hn : t ks = some n) {e : DirEnt} {isDir : Bool} {c : Nat}
    (hdir : isDir = n.isDir) (hc : c = (readEnt d n.addr).startCluster)
    (he : SlotBelow v d isDir c e) : ¬Stale e := by
  induction he generalizing ks n with
  | @here c l e hchain hmem =>
      rintro ⟨hcl, hmark⟩
      subst hc
      rw [hchain.unique (h.isChain hn), dirSlots_eq] at hmem
      obtain ⟨a, ha, rfl⟩ := List.mem_map.mp hmem
      obtain ⟨m, hm, rfl⟩ := h.exists_child (Tree.Slots.dir hn hdir.symm) ha hcl
      exact (h.live hm).2 hmark
  | @deeper c l e' e hchain hmem hlive _ ih =>
      subst hc
      rw [hchain.unique (h.isChain hn), dirSlots_eq] at hmem
      obtain ⟨a, ha, rfl⟩ := List.mem_map.mp hmem
      obtain ⟨m, hm, rfl⟩ := h.exists_child (Tree.Slots.dir hn hdir.symm) ha hlive.1
      exact ih hm (h.kind hm) rfl

/-- The live slots among some slots of a directory, when each has its subtree. -/
theorem Represents.exists_below {A : List Nat} (hA : t.Slots v ks A) {B : List Nat} (hB : B ⊆ A)
    (hnodup : B.Nodup)
    (hsub : ∀ k m, t (ks ++ [k]) = some m → ∃ S,
      Subtree v d m.isDir (readEnt d m.addr).startCluster S ∧ S.Nodup ∧
        ∀ c, c ∈ S ↔ t.Under (ks ++ [k]) c) :
    ∃ S, Below v d (B.map (readEnt d)) S ∧ S.Nodup ∧
      ∀ c, c ∈ S ↔ ∃ k m, t (ks ++ [k]) = some m ∧ m.addr ∈ B ∧ t.Under (ks ++ [k]) c := by
  induction B with
  | nil => exact ⟨[], Below.nil, List.nodup_nil, by simp⟩
  | cons a B ih =>
      obtain ⟨haB, hnodup⟩ := List.nodup_cons.mp hnodup
      obtain ⟨S, hbelow, hSnodup, hS⟩ := ih (fun x hx => hB (List.mem_cons_of_mem _ hx)) hnodup
      by_cases hlive : Live (readEnt d a)
      · obtain ⟨m, hm, rfl⟩ := h.exists_child hA (hB List.mem_cons_self) hlive.1
        obtain ⟨T, hT, hTnodup, hTmem⟩ := hsub _ m hm
        rw [← h.kind hm] at hT
        refine ⟨T ++ S, Below.live hlive hT hbelow, List.nodup_append'.mpr ⟨hTnodup, hSnodup, ?_⟩, ?_⟩
        · -- A cluster in both would belong to one node below two children.
          intro c hc hc'
          obtain ⟨ks₁, m₁, hpre₁, hm₁, hc₁⟩ := (hTmem c).mp hc
          obtain ⟨k, m', hm', hB', ks₂, m₂, hpre₂, hm₂, hc₂⟩ := (hS c).mp hc'
          rw [h.path_eq_of_mem hm₁ hm₂ hc₁ hc₂] at hpre₁
          have heq := List.prefix_of_prefix_length_le hpre₁ hpre₂ (by simp)
          have hpath := heq.eq_of_length (by simp)
          rw [hpath, hm'] at hm
          rw [← Option.some.inj hm] at haB
          exact haB hB'
        · intro c
          rw [List.mem_append, hTmem, hS]
          constructor
          · rintro (hunder | ⟨k, m', hm', hB', hunder⟩)
            · exact ⟨_, m, hm, List.mem_cons_self, hunder⟩
            · exact ⟨k, m', hm', List.mem_cons_of_mem _ hB', hunder⟩
          · rintro ⟨k, m', hm', hB', hunder⟩
            rcases List.mem_cons.mp hB' with haddr | hB'
            · left
              have hpath := h.path_eq_of_addr hm' hm haddr
              rwa [hpath] at hunder
            · exact Or.inr ⟨k, m', hm', hB', hunder⟩
      · refine ⟨S, Below.skip hlive hbelow, hSnodup, fun c => ?_⟩
        rw [hS]
        constructor
        · rintro ⟨k, m, hm, hB', hunder⟩
          exact ⟨k, m, hm, List.mem_cons_of_mem _ hB', hunder⟩
        · rintro ⟨k, m, hm, hB', hunder⟩
          rcases List.mem_cons.mp hB' with rfl | hB'
          · exact absurd (h.live hm) hlive
          · exact ⟨k, m, hm, hB', hunder⟩

include hg

/-- The walk from a node meets the clusters of the nodes below it. -/
theorem Represents.exists_subtree (hn : t ks = some n) :
    ∃ S, Subtree v d n.isDir (readEnt d n.addr).startCluster S ∧ S.Nodup ∧
      ∀ c, c ∈ S ↔ t.Under ks c := by
  -- The induction is on the length that is left, since paths have a bounded one.
  generalize hr : 2 ^ 16 - ks.length = r
  induction r generalizing ks n with
  | zero =>
      have := h.length_lt hn
      omega
  | succ r ih =>
      have hchain := h.isChain hn
      have hks := h.path_ne_nil hn
      have hself : ∀ c ∈ n.chain, t.Under ks c := fun c hc => ⟨ks, n, List.prefix_refl ks, hn, hc⟩
      cases hdir : n.isDir with
      | false =>
          refine ⟨n.chain, Subtree.file hchain, hchain.nodup, fun c => ⟨hself c, ?_⟩⟩
          rintro ⟨-, m, ⟨rest, rfl⟩, hm, hc⟩
          cases rest with
          | nil =>
              rw [List.append_nil, hn] at hm
              rwa [Option.some.inj hm]
          | cons k rest =>
              obtain ⟨p, hp, hpdir⟩ := h.exists_above hm hks
              rw [← Option.some.inj (hn.symm.trans hp), hdir] at hpdir
              exact absurd (hpdir (List.cons_ne_nil _ _)) (by decide)
      | true =>
          have hA : t.Slots v ks (chainSlots v n.chain) := Tree.Slots.dir hn hdir
          have hsub := fun k m (hm : t (ks ++ [k]) = some m) =>
            ih hm (by rw [List.length_append, List.length_singleton]; omega)
          obtain ⟨S, hbelow, hnodup, hS⟩ := h.exists_below hA (List.Subset.refl _)
            (chainSlots_nodup hg hchain.inRange hchain.nodup) hsub
          rw [← dirSlots_eq] at hbelow
          refine ⟨n.chain ++ S, Subtree.dir hchain hbelow,
            List.nodup_append'.mpr ⟨hchain.nodup, hnodup, ?_⟩, fun c => ?_⟩
          · intro c hc hc'
            obtain ⟨k, -, -, -, ks', m, hpre, hm, hcm⟩ := (hS c).mp hc'
            have hlen := hpre.length_le
            rw [← h.path_eq_of_mem hn hm hc hcm, List.length_append, List.length_singleton] at hlen
            omega
          · rw [List.mem_append, hS]
            constructor
            · rintro (hc | ⟨k, -, -, -, ks', m, hpre, hm, hcm⟩)
              · exact hself c hc
              · exact ⟨ks', m, (List.prefix_append _ _).trans hpre, hm, hcm⟩
            · rintro ⟨-, m, ⟨rest, rfl⟩, hm, hc⟩
              cases rest with
              | nil =>
                  rw [List.append_nil, hn] at hm
                  rw [Option.some.inj hm]
                  exact Or.inl hc
              | cons k rest =>
                  right
                  rw [List.append_cons] at hm
                  obtain ⟨p, hp, -⟩ := h.exists_above hm (by simp)
                  obtain ⟨A', hA', hmem⟩ := h.placed _ _ _ hp
                  rw [h.slots_unique hA' hA] at hmem
                  exact ⟨k, p, hp, hmem, _, m, List.prefix_append _ _, hm, hc⟩

end Walk

/-! ## Deleting a path -/

theorem deletedEnt_startCluster (e : DirEnt) : (deletedEnt e).startCluster = 0 :=
  load_store_same _ 26 2 0

theorem deletedEnt_of_le {e : DirEnt} (h : ∀ i, direntSize ≤ i → e i = 0) {i : Nat}
    (hi : direntSize ≤ i) : deletedEnt e i = 0 := by
  unfold direntSize at *
  have hstart : deletedEnt e i = (DirEnt.setFileSize (store8 e 0 0xE5) 0) i :=
    store_of_outside _ _ _ (by omega)
  rw [hstart, DirEnt.setFileSize_of_ne _ (by omega), store8_of_ne _ _ _ (by omega), h i hi]

/-- `fat_delete_file` removes a path and everything below it from the tree. -/
theorem Represents.fatDeleteFile_prune (hv : Aligned v) (h : Represents v d t) {fuel : Nat}
    (hfuel : 2 ^ 16 ≤ fuel) {path : List UInt8} (hp : OrdinaryPath path)
    (hdirs : t.DirsAlong [] (pathKeys path)) (hn : t (pathKeys path) = some n) :
    ∃ d', fatDeleteFile v fuel path d = (.ok 1, d') ∧ Represents v d' (t.prune (pathKeys path)) ∧
      ∀ ks m, t ks = some m → ks ≠ pathKeys path → readEnt d' m.addr = readEnt d m.addr := by
  obtain ⟨f, i, hopen, hf, -⟩ := h.fatOpenExisting_some hv hfuel hdirs Flags.none hp hn
  obtain ⟨S, htree, hnodup, hS⟩ := h.exists_subtree hv.toGeometry hn
  have hkind : isDirectory f.dirent = n.isDir := by rw [hf.dirent, h.kind hn]
  rw [← hkind, ← hf.dirent] at htree
  have hclean : ∀ e, SlotBelow v d (isDirectory f.dirent) f.dirent.startCluster e → Stale e →
      Spent v d 0 (isDirectory e) e.startCluster := by
    intro e he hstale
    rw [hf.dirent] at he
    exact absurd hstale (h.not_stale hn (h.kind hn) rfl he)
  obtain ⟨j, hj, hrun⟩ := fatDeleteFile_run hv.toGeometry hfuel (congrArg Prod.fst hopen) htree hnodup
    hclean hfuel
  obtain rfl : i = j := Option.some.inj (hf.located.found.symm.trans hj.found)
  rw [hf.addr_eq] at hrun
  have htrim : ∀ x, direntSize ≤ x → deletedEnt f.dirent x = 0 := fun x hx => by
    refine deletedEnt_of_le (fun y hy => ?_) hx
    rw [hf.dirent]
    exact readEnt_of_le hy
  refine ⟨_, hrun, h.prune hv.toGeometry hn htrim hS (deletedEnt_startCluster _), ?_⟩
  intro ks m hm hne
  obtain ⟨ks', A, hA, hmem⟩ := h.placed_of hm
  rw [h.readEnt_prune hv.toGeometry hn htrim (fun x hx => h.under_inRange ((hS x).mp hx)) hA hmem,
    if_neg]
  exact fun heq => hne (h.path_eq_of_addr hm hn heq)

end TsOs.Fat
