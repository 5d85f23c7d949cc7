import TsOs.Paging.Access

/-!
# Ownership of frames

Every allocated frame gets a tag that says what it is for: the table and the pages of
the kernel stack, or the directory, a table or a page of one task. `Tagged` says that
directories lead to tables and tables to pages of the same owner. It is kept by every
single write, so it holds in the middle of an operation as well.

`Extends` is what an operation may do to the rest of the machine: tags are only added,
the frames in `K` keep their contents, and mappings to frames in `P` stay.
-/

namespace TsOs.Paging

/-- What a task uses a frame for. -/
inductive Role
  | dir
  | rev
  | sys
  | table
  | page
  deriving DecidableEq

/-- The use of a frame. -/
inductive Tag
  | free
  | stackTable
  | stack
  | task (k : Nat) (r : Role)
  deriving DecidableEq

/-- The tag of the pages that a table with this tag holds. -/
def Tag.pages : Tag → Option Tag
  | .stackTable => some .stack
  | .task k .table => some (.task k .page)
  | _ => none

/-- The number of directory slots below the kernel's. -/
def userSlots : Nat := pageDirIndex kernelVStart

/-- An entry is empty or leads to a frame with the tag. -/
def Leads (ρ : Nat → Tag) (e : Nat) (t : Tag) : Prop :=
  e = 0 ∨ entrySet e = true ∧ ρ (frameOf e) = t

/-- A task is known by the frame of its directory. -/
def Tag.Owned (ρ : Nat → Tag) (t : Tag) : Prop := ∀ k r, t = .task k r → ρ k = .task k .dir

/-- Tagged frames are busy user frames whose entries lead to frames of the same owner. -/
structure Tagged (ρ : Nat → Tag) (s : Machine) : Prop where
  user : ∀ f, ρ f ≠ .free →
    userFrame ≤ f ∧ f < maxFrameNum ∧ frameStatus s.bitmap (f * frameSize) = true
  owner : ∀ f, (ρ f).Owned ρ
  dir : ∀ f k, ρ f = .task k .dir → ∀ i < userSlots, Leads ρ (word s f i) (.task k .table)
  table : ∀ f t, (ρ f).pages = some t → ∀ j < 1024, Leads ρ (word s f j) t

/-- The contents of a frame with the tag are not constrained. -/
def Tag.Plain (t : Tag) : Prop := t.pages = none ∧ ∀ k, t ≠ .task k .dir

/-- Tags grow, contents of `K` and mappings to `P` stay. -/
structure Extends (K P : Nat → Prop) (ρ : Nat → Tag) (s : Machine) (ρ' : Nat → Tag)
    (s' : Machine) : Prop where
  tags : ∀ f, ρ f ≠ .free → ρ' f = ρ f
  kept : ∀ f, K f → ∀ j < 1024, word s' f j = word s f j
  slots : ∀ i g, tempFrame s i = some g → P g → tempFrame s' i = some g

/-- The frame was there before: a kernel frame or a tagged one. -/
def Old (ρ : Nat → Tag) (f : Nat) : Prop := f < userFrame ∨ ρ f ≠ .free

variable {ρ ρ' ρ'' : Nat → Tag} {s s' s'' : Machine} {K P : Nat → Prop} {f g i j v : Nat} {t : Tag}

theorem Tagged.untagged (h : Tagged ρ s) (hf : f < userFrame) : ρ f = .free := by
  by_contra hne
  have := (h.user f hne).1
  omega

theorem Tagged.sysTb_free (h : Tagged ρ s) : ρ sysTb = .free := h.untagged (by decide)

theorem Tagged.ne_sysTb (h : Tagged ρ s) (hf : ρ f = t) (ht : t ≠ .free) : f ≠ sysTb := by
  rintro rfl
  exact ht (hf.symm.trans h.sysTb_free)

theorem Tagged.free_of_idle (h : Tagged ρ s)
    (hidle : frameStatus s.bitmap (f * frameSize) = false) : ρ f = .free := by
  by_contra hne
  rw [(h.user f hne).2.2] at hidle
  exact absurd hidle (by decide)

theorem Tag.Owned.update (h : t.Owned ρ) (hfree : ρ f = .free) (u : Tag) :
    t.Owned (Function.update ρ f u) := by
  intro k r hk
  have hdir := h k r hk
  rw [Function.update_of_ne _ _ _, hdir]
  rintro rfl
  rw [hfree] at hdir
  exact absurd hdir (by simp)

/-- The pages of a table have its owner. -/
theorem Tag.Owned.pages {tp : Tag} (h : t.Owned ρ) (ht : t.pages = some tp) : tp.Owned ρ := by
  cases t with
  | free => exact absurd ht (by simp [Tag.pages])
  | stackTable =>
      obtain rfl := Option.some.inj ht
      exact fun k r hk => absurd hk (by simp)
  | stack => exact absurd ht (by simp [Tag.pages])
  | task k r =>
      cases r <;> simp only [Tag.pages, reduceCtorEq, Option.some.injEq] at ht
      subst ht
      intro k' r' hk
      obtain ⟨rfl, -⟩ := Tag.task.inj hk
      exact h k _ rfl

/-- A write to one frame has to respect only that frame's tag. -/
theorem Tagged.of_only (h : Tagged ρ s) (ho : OnlyFrame f s s')
    (hdir : ∀ k, ρ f = .task k .dir → ∀ i < userSlots, Leads ρ (word s' f i) (.task k .table))
    (htable : ∀ t, (ρ f).pages = some t → ∀ j < 1024, Leads ρ (word s' f j) t) :
    Tagged ρ s' := by
  refine ⟨fun g hg => ?_, h.owner, fun g k hg i hi => ?_, fun g t hg j hj => ?_⟩
  · rw [ho.bitmap]
    exact h.user g hg
  · by_cases hgf : g = f
    · subst hgf
      exact hdir k hg i hi
    · rw [ho.words g hgf i (Nat.lt_trans hi (by decide))]
      exact h.dir g k hg i hi
  · by_cases hgf : g = f
    · subst hgf
      exact htable t hg j hj
    · rw [ho.words g hgf j hj]
      exact h.table g t hg j hj

theorem Tagged.of_plain (h : Tagged ρ s) (ho : OnlyFrame f s s') (hf : (ρ f).Plain) :
    Tagged ρ s' := by
  apply h.of_only ho
  · exact fun k hk => absurd hk (hf.2 k)
  · intro t ht
    rw [hf.1] at ht
    exact absurd ht (by simp)

theorem plain_free : Tag.Plain .free := ⟨rfl, fun _ => by simp⟩

/-- Changes of the temporary mappings concern no tagged frame. -/
theorem Tagged.of_temp (h : Tagged ρ s) (ho : OnlyFrame sysTb s s') : Tagged ρ s' :=
  h.of_plain ho (h.sysTb_free ▸ plain_free)

/-- A zeroed busy frame can take any tag. -/
theorem Tagged.tag (h : Tagged ρ s) (hfree : ρ f = .free) (huser : userFrame ≤ f)
    (hmax : f < maxFrameNum) (hbusy : frameStatus s.bitmap (f * frameSize) = true)
    (hzero : ∀ j < 1024, word s f j = 0) (hown : t.Owned (Function.update ρ f t)) :
    Tagged (Function.update ρ f t) s := by
  have hne : ∀ g, ρ g ≠ .free → Function.update ρ f t g = ρ g := by
    intro g hg
    apply Function.update_of_ne
    rintro rfl
    exact hg hfree
  have hleads : ∀ e u, u ≠ .free → Leads ρ e u → Leads (Function.update ρ f t) e u := by
    intro e u hu hlead
    rcases hlead with hzero | ⟨hset, htag⟩
    · exact Or.inl hzero
    · refine Or.inr ⟨hset, ?_⟩
      rw [hne _ (htag ▸ hu)]
      exact htag
  refine ⟨fun g hg => ?_, fun g k r hg => ?_, fun g k hg i hi => ?_, fun g u hg j hj => ?_⟩
  · by_cases hgf : g = f
    · subst hgf
      exact ⟨huser, hmax, hbusy⟩
    · rw [Function.update_of_ne hgf] at hg
      exact h.user g hg
  · by_cases hgf : g = f
    · subst hgf
      rw [Function.update_self] at hg
      exact hown k r hg
    · rw [Function.update_of_ne hgf] at hg
      have hdir := h.owner g k r hg
      rw [hne k (hdir ▸ by simp)]
      exact hdir
  · by_cases hgf : g = f
    · subst hgf
      exact Or.inl (hzero i (Nat.lt_trans hi (by decide)))
    · rw [Function.update_of_ne hgf] at hg
      exact hleads _ _ (by simp) (h.dir g k hg i hi)
  · by_cases hgf : g = f
    · subst hgf
      exact Or.inl (hzero j hj)
    · rw [Function.update_of_ne hgf] at hg
      have hu : u ≠ .free := by
        cases hρ : ρ g with
        | free => simp [hρ, Tag.pages] at hg
        | stackTable => simp [hρ, Tag.pages] at hg; simp [← hg]
        | stack => simp [hρ, Tag.pages] at hg
        | task k r => cases r <;> simp [hρ, Tag.pages] at hg; simp [← hg]
      exact hleads _ _ hu (h.table g u hg j hj)

namespace Extends

theorem refl (K P : Nat → Prop) (ρ : Nat → Tag) (s : Machine) : Extends K P ρ s ρ s :=
  ⟨fun _ _ => rfl, fun _ _ _ _ => rfl, fun _ _ h _ => h⟩

theorem trans (h : Extends K P ρ s ρ' s') (h' : Extends K P ρ' s' ρ'' s'') :
    Extends K P ρ s ρ'' s'' where
  tags := by
    intro f hf
    have hstep := h.tags f hf
    rw [h'.tags f (hstep ▸ hf), hstep]
  kept := fun f hf j hj => (h'.kept f hf j hj).trans (h.kept f hf j hj)
  slots := fun i g hg hP => h'.slots i g (h.slots i g hg hP) hP

theorem of_only (ho : OnlyFrame f s s') (hf : f ≠ sysTb) (hK : ¬K f) : Extends K P ρ s ρ s' where
  tags := fun _ _ => rfl
  kept := by
    intro g hg j hj
    apply ho.words g _ j hj
    rintro rfl
    exact hK hg
  slots := by
    intro i g hg _
    rw [ho.tempFrame_eq hf]
    exact hg

theorem of_temp (ho : OnlyFrame sysTb s s') (hK : ¬K sysTb)
    (hslots : ∀ i g, tempFrame s i = some g → P g → tempFrame s' i = some g) :
    Extends K P ρ s ρ s' where
  tags := fun _ _ => rfl
  kept := by
    intro g hg j hj
    apply ho.words g _ j hj
    rintro rfl
    exact hK hg
  slots := hslots

theorem of_created (hc : Created s s' i f) (hK : ¬K sysTb) : Extends K P ρ s ρ s' := by
  apply of_temp hc.only hK
  intro k g hg _
  rw [hc.others k, hg]
  rintro rfl
  rw [hc.absent] at hg
  exact absurd hg (by simp)

/-- Frames that were there before keep their tags. -/
theorem tag_eq (h : Extends K P ρ s ρ' s') (hs : Tagged ρ s) (hs' : Tagged ρ' s') (hf : Old ρ f) :
    ρ' f = ρ f := by
  rcases hf with hf | hf
  · rw [hs.untagged hf, hs'.untagged hf]
  · exact h.tags f hf

theorem old (h : Extends K P ρ s ρ' s') (hf : Old ρ f) : Old ρ' f := by
  rcases hf with hf | hf
  · exact Or.inl hf
  · apply Or.inr
    rw [h.tags f hf]
    exact hf

end Extends

/-! ## Allocation -/

/-- A zeroed frame has been taken and mapped. -/
structure Allocated (s s' : Machine) (ptr f : Nat) : Prop where
  user : userFrame ≤ f ∧ f < maxFrameNum
  idle : frameStatus s.bitmap (f * frameSize) = false
  bitmap : s'.bitmap = frameBset s.bitmap (f * frameSize)
  absent : tempFrame s ptr = none
  leads : tempFrame s' ptr = some f
  others : ∀ k, k ≠ ptr → tempFrame s' k = tempFrame s k
  zero : ∀ j < 1024, word s' f j = 0
  words : ∀ g, g ≠ f → g ≠ sysTb → ∀ j < 1024, word s' g j = word s g j

theorem frameNb_mul (f : Nat) : frameNb (f * frameSize) = f := Nat.mul_div_cancel f (by decide)

theorem user_ne_sysTb (hf : userFrame ≤ f) : f ≠ sysTb := by
  have hlow : sysTb < userFrame := by decide
  omega

theorem user_lt (hf : f < maxFrameNum) : f < 2 ^ 20 := by
  have hmax : maxFrameNum < 2 ^ 20 := by decide
  omega

/-- The allocating steps shared by `create_page_table` and `alloc_page`. -/
theorem allocated_of_steps {a ptr : Nat} {bm : Bitmap}
    (halloc : allocFrame s.bitmap userPStart maxMemSize = some (a, bm))
    (hcreate : createTempVa { s with bitmap := bm } (frameNb a) = some (ptr, s'))
    (hzero : memzero s' ptr = some s'') : Allocated s s'' ptr (frameNb a) ∧ a ≠ 0 := by
  obtain ⟨f, rfl, huser, hmax, hidle, rfl, -⟩ := allocFrame_user halloc
  rw [frameNb_mul] at hcreate ⊢
  have hc := createTempVa_spec hcreate (user_lt hmax)
  obtain ⟨g, hg, rfl⟩ := memzero_eq hzero
  obtain rfl : f = g := Option.some.inj (hc.leads.symm.trans hg)
  have hf := user_ne_sysTb huser
  have ho := onlyFrame_setFrame s' f fun _ => 0
  refine ⟨⟨⟨huser, hmax⟩, hidle, ?_, hc.absent, ?_, fun k hk => ?_, fun j hj =>
    word_setFrame_zero _ _ j, fun g hgf hgs j hj => ?_⟩, ?_⟩
  · rw [ho.bitmap, hc.only.bitmap]
  · rw [ho.tempFrame_eq hf]
    exact hc.leads
  · rw [ho.tempFrame_eq hf, hc.others k hk]
    rfl
  · rw [ho.words g hgf j hj, hc.only.words g hgs j hj]
    rfl
  · have hpos : 0 < userFrame := by decide
    exact Nat.mul_ne_zero (by omega) (by decide)

theorem allocPage_spec {ptr : Nat} (h : allocPage s = some (ptr, f, s')) :
    Allocated s s' ptr f := by
  rw [allocPage] at h
  obtain ⟨⟨a, bm⟩, halloc, h⟩ := Option.bind_eq_some_iff.mp h
  obtain ⟨⟨p, s₁⟩, hcreate, h⟩ := Option.bind_eq_some_iff.mp h
  obtain ⟨s₂, hzero, h⟩ := Option.bind_eq_some_iff.mp h
  obtain ⟨hall, hne⟩ := allocated_of_steps halloc hcreate hzero
  dsimp only at h
  rw [if_neg hne] at h
  obtain ⟨rfl, rfl, rfl⟩ : p = ptr ∧ frameNb a = f ∧ s₂ = s' := by simpa using h
  exact hall

theorem Allocated.slot_kept {ptr : Nat} (h : Allocated s s' ptr f) (hg : tempFrame s i = some g) :
    tempFrame s' i = some g := by
  rw [h.others i, hg]
  rintro rfl
  rw [h.absent] at hg
  exact absurd hg (by simp)

/-- The new frame is tagged, everything else stays. -/
theorem Allocated.tagged {ptr : Nat} (h : Allocated s s' ptr f) (hs : Tagged ρ s)
    (hown : t.Owned (Function.update ρ f t)) :
    ρ f = .free ∧ Tagged (Function.update ρ f t) s' := by
  have hfree := hs.free_of_idle h.idle
  refine ⟨hfree, Tagged.tag ?_ hfree h.user.1 h.user.2 ?_ h.zero hown⟩
  · refine ⟨fun g hg => ?_, hs.owner, fun g k hg i hi => ?_, fun g t hg j hj => ?_⟩
    · obtain ⟨hlow, hhigh, hbusy⟩ := hs.user g hg
      refine ⟨hlow, hhigh, ?_⟩
      rw [h.bitmap, frameStatus_frameBset, hbusy, Bool.or_true]
    · have hgf : g ≠ f := by
        rintro rfl
        rw [hfree] at hg
        exact absurd hg (by simp)
      rw [h.words g hgf (user_ne_sysTb (hs.user g (by simp [hg])).1) i
        (Nat.lt_trans hi (by decide))]
      exact hs.dir g k hg i hi
    · have hgne : ρ g ≠ .free := by
        intro heq
        rw [heq] at hg
        exact absurd hg (by simp [Tag.pages])
      have hgf : g ≠ f := by
        rintro rfl
        exact hgne hfree
      rw [h.words g hgf (user_ne_sysTb (hs.user g hgne).1) j hj]
      exact hs.table g t hg j hj
  · rw [h.bitmap, frameStatus_frameBset, decide_eq_true rfl, Bool.true_or]

theorem Allocated.extends {ptr : Nat} (h : Allocated s s' ptr f) (hs : Tagged ρ s)
    (hK : ∀ g, K g → g ≠ sysTb ∧ Old ρ g) (t : Tag) :
    Extends K P ρ s (Function.update ρ f t) s' where
  tags := by
    intro g hg
    apply Function.update_of_ne
    rintro rfl
    exact hg (hs.free_of_idle h.idle)
  kept := by
    intro g hg j hj
    obtain ⟨hsys, hold⟩ := hK g hg
    refine h.words g ?_ hsys j hj
    rintro rfl
    rcases hold with hlow | htag
    · have := h.user.1
      omega
    · exact htag (hs.free_of_idle h.idle)
  slots := fun _ _ hg _ => h.slot_kept hg

end TsOs.Paging
