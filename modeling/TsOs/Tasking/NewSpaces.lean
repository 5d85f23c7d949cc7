import TsOs.Paging.EarlyMap
import TsOs.Tasking.Isolation
import TsOs.Tasking.LoadedImage

/-!
# New address spaces

`load_task` hands `create_task_address_space` a directory without tables below the kernel. The tables of
the kernel's slots are those of `pg_dir0`; the stack's table, the system table and the reverse table
are frames of user memory with different tags.
-/

namespace TsOs.Tasking
open Paging

variable {k k' : Kernel} {ρ ρ' : Nat → Tag} {s s' : Machine} {D R F i retSyscall : Nat} {d : NewDir} {img : Image}

/-- The slots of `pg_dir0` from the kernel's up to that of the stack: the first one has a table, and tables
are those that the early initialisation puts there. -/
structure KernelTables (s : Machine) : Prop where
  first : entrySet (word s pgDir0 userSlots) = true
  slots : ∀ i, userSlots ≤ i → i < 1021 → entrySet (word s pgDir0 i) = true → tableOf s pgDir0 i = dir0Pt i

/-- A directory that has only the kernel's slots, the stack's and the two system slots. -/
structure NewDirectory (ρ : Nat → Tag) (s : Machine) (D R F : Nat) : Prop where
  tagged : Tagged ρ s
  dirTag : ρ D = .task D .dir
  revTag : ρ R = .task D .rev
  stackTag : ρ F = .stackTable
  sysTag : ρ (tableOf s D 1022) = .task D .sys
  blank : ∀ i < userSlots, word s D i = 0
  revBlank : ∀ i < 1022, word s R i = 0
  first : entrySet (word s D userSlots) = true
  kernel : ∀ i, userSlots ≤ i → i < 1021 → entrySet (word s D i) = true → tableOf s D i = dir0Pt i
  stack : tableOf s D 1021 = F
  rev : tableOf s D 1023 = R
  sysSet : entrySet (word s D 1022) = true
  revSet : entrySet (word s D 1023) = true

/-- The tag of the table in one of the last three slots. -/
def slotTag (D i : Nat) : Tag :=
  if i = 1021 then .stackTable else if i = 1022 then .task D .sys else .task D .rev

namespace NewDirectory

theorem mono (h : NewDirectory ρ s D R F) (hs' : Tagged ρ' s') (htags : ∀ f, ρ f ≠ .free → ρ' f = ρ f)
    (hD : ∀ j < 1024, word s' D j = word s D j) (hR : ∀ j < 1024, word s' R j = word s R j) :
    NewDirectory ρ' s' D R F := by
  have htag : ∀ {f t}, ρ f = t → t ≠ .free → ρ' f = t := by
    rintro f t rfl hne
    exact htags f hne
  have htable : ∀ i < 1024, tableOf s' D i = tableOf s D i := fun i hi => congrArg frameOf (hD i hi)
  have hslots : userSlots < 1024 := by decide
  refine ⟨hs', htag h.dirTag (by simp), htag h.revTag (by simp), htag h.stackTag (by simp), ?_, fun i hi => ?_,
    fun i hi => ?_, ?_, fun i hlow hhigh => ?_, ?_, ?_, ?_, ?_⟩
  · rw [htable _ (by decide)]
    exact htag h.sysTag (by simp)
  · rw [hD i (by omega)]
    exact h.blank i hi
  · rw [hR i (by omega)]
    exact h.revBlank i hi
  · rw [hD _ hslots]
    exact h.first
  · rw [hD i (by omega), htable i (by omega)]
    exact h.kernel i hlow hhigh
  · rw [htable _ (by decide)]
    exact h.stack
  · rw [htable _ (by decide)]
    exact h.rev
  · rw [hD _ (by decide)]
    exact h.sysSet
  · rw [hD _ (by decide)]
    exact h.revSet

variable (h : NewDirectory ρ s D R F)
include h

/-- A table is one of the kernel's or has the tag of its slot. -/
theorem table_cases (hi : i < 1024) (hset : entrySet (word s D i) = true) :
    userSlots ≤ i ∧ i < 1021 ∧ tableOf s D i = dir0Pt i ∨ 1021 ≤ i ∧ ρ (tableOf s D i) = slotTag D i := by
  rcases Nat.lt_or_ge i userSlots with hlow | hlow
  · rw [h.blank i hlow] at hset
    exact absurd hset (by decide)
  rcases Nat.lt_or_ge i 1021 with hhigh | hhigh
  · exact Or.inl ⟨hlow, hhigh, h.kernel i hlow hhigh hset⟩
  · refine Or.inr ⟨hhigh, ?_⟩
    rcases (show i = 1021 ∨ i = 1022 ∨ i = 1023 by omega) with rfl | rfl | rfl
    · rw [h.stack, h.stackTag]
      rfl
    · exact h.sysTag
    · rw [h.rev, h.revTag]
      rfl

omit h in
theorem slotTag_ne_free (D i : Nat) : slotTag D i ≠ .free := by
  unfold slotTag
  split
  · simp
  · split <;> simp

omit h in
theorem slotTag_inj {i j : Nat} (hi : 1021 ≤ i ∧ i < 1024) (hj : 1021 ≤ j ∧ j < 1024)
    (heq : slotTag D i = slotTag D j) : i = j := by
  rcases (show i = 1021 ∨ i = 1022 ∨ i = 1023 by omega) with rfl | rfl | rfl <;>
    rcases (show j = 1021 ∨ j = 1022 ∨ j = 1023 by omega) with rfl | rfl | rfl <;>
    simp [slotTag] at heq ⊢

omit h in
theorem dir0Pt_low (hi : i < 1021) : 0 < dir0Pt i ∧ dir0Pt i < userFrame ∧ dir0Pt i ≠ sysTb := by
  have hsys : sysTb = dir0Pt 1022 := rfl
  have hlow : pgDir0 + 1 + 1024 < userFrame := by decide
  rw [hsys]
  refine ⟨?_, ?_, fun heq => ?_⟩
  · unfold dir0Pt
    omega
  · unfold dir0Pt
    omega
  · have := dir0Pt_inj heq
    omega

/-- The frame of a table with the tag of its slot. -/
theorem user_of_slotTag {f : Nat} (hf : ρ f = slotTag D i) :
    userFrame ≤ f ∧ f < maxFrameNum ∧ frameStatus s.bitmap (f * frameSize) = true :=
  h.tagged.user f (hf ▸ slotTag_ne_free D i)

theorem directory : Directory s D where
  dir_ne := h.tagged.ne_sysTb h.dirTag (by simp)
  dir_busy := by
    rintro ⟨-, -, hidle⟩
    rw [(h.tagged.user D (by simp [h.dirTag])).2.2] at hidle
    exact absurd hidle (by decide)
  ne_zero := by
    intro i hi hset
    rcases h.table_cases hi hset with ⟨-, hlt, heq⟩ | ⟨-, htag⟩
    · rw [heq]
      exact Nat.ne_of_gt (dir0Pt_low hlt).1
    · have hpos : 0 < userFrame := by decide
      have := (h.user_of_slotTag htag).1
      omega
  ne_dir := by
    intro i hi hset
    have hD := (h.tagged.user D (by simp [h.dirTag])).1
    rcases h.table_cases hi hset with ⟨-, hlt, heq⟩ | ⟨-, htag⟩
    · have := (dir0Pt_low hlt).2.1
      omega
    · intro heq
      rw [heq, h.dirTag] at htag
      unfold slotTag at htag
      split at htag
      · exact absurd htag (by simp)
      · split at htag <;> exact absurd htag (by simp)
  ne_sysTb := by
    intro i hi hset
    rcases h.table_cases hi hset with ⟨-, hlt, heq⟩ | ⟨-, htag⟩
    · rw [heq]
      exact (dir0Pt_low hlt).2.2
    · exact user_ne_sysTb (h.user_of_slotTag htag).1
  busy := by
    rintro i hi hset ⟨hlow, -, hidle⟩
    rcases h.table_cases hi hset with ⟨-, hlt, heq⟩ | ⟨-, htag⟩
    · have := (dir0Pt_low hlt).2.1
      omega
    · rw [(h.user_of_slotTag htag).2.2] at hidle
      exact absurd hidle (by decide)
  distinct := by
    intro i hi j hj hset hset' heq
    rcases h.table_cases hi hset with ⟨-, hlt, hT⟩ | ⟨hge, htag⟩
    · rcases h.table_cases hj hset' with ⟨-, hlt', hT'⟩ | ⟨-, htag'⟩
      · rw [hT, hT'] at heq
        exact dir0Pt_inj heq
      · have := (dir0Pt_low hlt).2.1
        have := (h.user_of_slotTag htag').1
        omega
    · rcases h.table_cases hj hset' with ⟨-, hlt', hT'⟩ | ⟨hge', htag'⟩
      · have := (dir0Pt_low hlt').2.1
        have := (h.user_of_slotTag htag).1
        omega
      · rw [heq, htag'] at htag
        exact (slotTag_inj ⟨hge', hj⟩ ⟨hge, hi⟩ htag).symm
  reverse := h.revSet
  mirror := by
    intro i hi hclear
    have hlt : i < 1022 := by
      by_contra hge
      rcases (show i = 1022 ∨ i = 1023 by omega) with rfl | rfl
      · exact absurd (h.sysSet.symm.trans hclear) (by decide)
      · exact absurd (h.revSet.symm.trans hclear) (by decide)
    rw [h.rev, h.revBlank i hlt]
    rfl

end NewDirectory

/-- The early initialisation puts the kernel's tables there. -/
theorem initPgDir0Vmap_kernelTables (h : initPgDir0Vmap s = some s') : KernelTables s' := by
  obtain ⟨s₁, hrun, hs⟩ := initPgDir0Vmap_shows s
  obtain rfl := Option.some.inj (hrun.symm.trans h)
  have hfirst : Used earlyPages userSlots := ⟨0, by decide, by rw [earlyPages_eq]; decide⟩
  refine ⟨?_, fun i hlow hhigh hset => ?_⟩
  · rw [(hs.used userSlots (by decide) hfirst).1]
    exact entrySet_pageEntry (by decide) (by decide)
  · by_cases hused : Used earlyPages i
    · rw [tableOf, (hs.used i (by omega) hused).1]
      exact frameOf_pageEntry (by decide)
    · rw [(hs.unused i (by omega) hused).1] at hset
      exact absurd hset (by decide)

theorem LinkedDir.newDirectory (h : LinkedDir ρ ρ' s s' d R F) (hk : KernelTables s) :
    NewDirectory ρ' s' d.newPgDirPhy R F where
  tagged := h.prepared.tagged
  dirTag := h.prepared.dirTag
  revTag := h.prepared.revTag
  stackTag := h.table
  sysTag := h.prepared.sysTag
  blank := h.prepared.blank
  revBlank := h.prepared.revBlank
  first := by
    rw [h.slots _ (le_refl _) (by decide)]
    exact hk.first
  kernel := by
    intro i hlow hhigh
    have hslot := h.slots i hlow (by omega)
    rw [tableOf, hslot]
    exact hk.slots i hlow hhigh
  stack := h.present.frame
  rev := h.prepared.revEntry
  sysSet := h.prepared.sysEntry
  revSet := h.prepared.revSet

theorem NewDirectory.newSpace {stack St : Nat} (h : NewDirectory ρ s D R F)
    (hstack : tempFrame s stack = some St) (hrecord : word s St (taskWord + 1) = D * frameSize) :
    NewSpace s stack D where
  directory := h.directory
  dir_ne_zero := by
    have hpos : 0 < userFrame := by decide
    have := (h.tagged.user D (by simp [h.dirTag])).1
    omega
  clear := by
    intro i hi
    rw [h.blank i hi]
    rfl
  kernel := h.first
  record := (peek_eq hstack).trans (congrArg some hrecord)

/-- A completed `load_task` has called `create_task_address_space` for a new address space. -/
theorem loadTask_newSpace (hs : Sound ρ F k) (hk : KernelTables k.machine)
    (h : loadTask retSyscall pgDir0 k img = some k') :
    ∃ d s k₁ stack s', prepareDir k.machine = some (d, s) ∧
      allocKstackAndTask { k with
        machine := linkRange s pgDir0 d.newPgDirPhy (1022 - userSlots) userSlots } d.newPgDirPhy =
          some (stack, k₁) ∧
      NewSpace k₁.machine stack d.newPgDirPhy ∧ createTaskAddressSpace k₁.machine stack img = some s' := by
  rw [loadTask_eq (by decide)] at h
  obtain ⟨⟨d, s⟩, hprep, h⟩ := Option.bind_eq_some_iff.mp h
  rw [finishTask] at h
  obtain ⟨⟨stack, k₁⟩, halloc, h⟩ := Option.bind_eq_some_iff.mp h
  obtain ⟨newTid, -, h⟩ := Option.bind_eq_some_iff.mp h
  obtain ⟨s', hspace, -⟩ := Option.bind_eq_some_iff.mp h
  obtain ⟨ρ₁, R, hlink⟩ := hs.linkedDir hprep
  have hnew := hlink.newDirectory hk
  have hR : ∀ g, g = R → Old ρ₁ g ∧ ρ₁ g ≠ .stack ∧ g ≠ sysTb := by
    rintro g rfl
    simp [Old, hnew.revTag, hnew.tagged.ne_sysTb hnew.revTag]
  obtain ⟨ρ₂, F', St, tid, hst, hext⟩ := loadStack_spec (K := (· = R)) hlink.prepared hlink.present hlink.table
    hR halloc
  have hnew' := hnew.mono hst.tagged hext.tags (hext.kept _ (Or.inr rfl)) (hext.kept _ (Or.inl rfl))
  exact ⟨d, s, k₁, stack, s', hprep, halloc, hnew'.newSpace hst.slot hst.record.phyDir, hspace⟩

end TsOs.Tasking
