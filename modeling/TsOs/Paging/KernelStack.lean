import TsOs.Paging.Regions

/-!
# The region of the kernel stack

The stack takes the last page of directory slot 1021. The region that is requested
for it also has the first page of slot 1022, and since that slot is in use, the
second round works on the table of slot 1021 again.
-/

namespace TsOs.Paging

variable {ρ : Nat → Tag} {s s' : Machine} {K P : Nat → Prop} {D R T dir revTb flag : Nat}

/-- The last page of the region that is requested for the stack. -/
def kstackEnd : Nat := kstackFrame + frameSize

theorem mapRegionLoop_kstack {newPt : Option Nat}
    (h : mapRegionLoop dir revTb (pageAddr (u32 (kstackFrame + frameSize))) flag pageFuel s none none
      pageFlgKernel (pageAddr kstackFrame) = some (newPt, s')) :
    ∃ new₁ pt₁ s₁ s₂ pt₂ s₃,
      selectTable s dir revTb none kstackFrame pageFlgKernel = some (new₁, pt₁, s₁) ∧
      fillEntry s₁ pt₁ kstackFrame flag = some s₂ ∧
      selectTable s₂ dir revTb (some pt₁) kstackEnd pageFlgKernel = some (newPt, pt₂, s₃) ∧
      fillEntry s₃ pt₂ kstackEnd flag = some s' := by
  have hfuel : pageFuel = 1048574 + 1 + 1 + 1 := rfl
  have hend : pageAddr (u32 (kstackFrame + frameSize)) = kstackEnd := by decide
  have hstart : pageAddr kstackFrame = kstackFrame := by decide
  have hnext : u32 (kstackFrame + frameSize) = kstackEnd := by decide
  rw [hfuel, hend, hstart, mapRegionLoop, if_pos (by decide), if_neg (by decide)] at h
  obtain ⟨⟨new₁, pt₁, s₁⟩, hsel₁, h⟩ := Option.bind_eq_some_iff.mp h
  obtain ⟨s₂, hfill₁, h⟩ := Option.bind_eq_some_iff.mp h
  rw [hnext, mapRegionLoop, if_pos (by decide), if_neg (by decide)] at h
  obtain ⟨⟨new₂, pt₂, s₃⟩, hsel₂, h⟩ := Option.bind_eq_some_iff.mp h
  obtain ⟨s₄, hfill₂, h⟩ := Option.bind_eq_some_iff.mp h
  rw [mapRegionLoop, if_neg (by decide)] at h
  obtain ⟨rfl, rfl⟩ : new₂ = newPt ∧ s₄ = s' := by simpa using h
  exact ⟨new₁, pt₁, s₁, s₂, pt₂, s₃, hsel₁, hfill₁, hsel₂, hfill₂⟩

/-- Slot 1021 holds a table in which both pages of the region are present. -/
structure KstackPresent (s : Machine) (D T : Nat) : Prop where
  table : entrySet (word s D 1021) = true
  frame : frameOf (word s D 1021) = T
  page : entrySet (word s T 1023) = true
  stale : entrySet (word s T 0) = true

/-- The frame that the stack's page leads to has the stack's tag. -/
theorem KstackPresent.stack_tag (h : KstackPresent s D T) (hs : Tagged ρ s)
    (hT : ρ T = .stackTable) : ρ (frameOf (word s T 1023)) = .stack := by
  rcases hs.table T .stack (by rw [hT]; rfl) 1023 (by decide) with hzero | ⟨-, htag⟩
  · have hset := h.page
    rw [hzero] at hset
    exact absurd hset (by decide)
  · exact htag

theorem KstackPresent.congr (h : KstackPresent s D T)
    (hD : ∀ j < 1024, word s' D j = word s D j) (hT : ∀ j < 1024, word s' T j = word s T j) :
    KstackPresent s' D T where
  table := (hD 1021 (by decide)).symm ▸ h.table
  frame := (hD 1021 (by decide)).symm ▸ h.frame
  page := (hT 1023 (by decide)).symm ▸ h.page
  stale := (hT 0 (by decide)).symm ▸ h.stale

/-- In a directory that has the stack already, the request only changes temporary mappings. -/
theorem requestRegionVmap_kstack_present (hdir : tempFrame s dir = some D) (hD : D ≠ sysTb)
    (hT : T ≠ sysTb) (hp : KstackPresent s D T) (hsys : entrySet (word s D 1022) = true)
    (h : requestRegionVmap s dir kstackFrame frameSize flag = some s') :
    OnlyFrame sysTb s s' ∧ ∀ k g, tempFrame s k = some g → tempFrame s' k = some g := by
  obtain ⟨revTb, s₁, fresh, newPt, s₂, hget, hloop, hs'⟩ := requestRegionVmap_cases h
  have hrev := getRevTable_spec hdir hget
  obtain ⟨new₁, pt₁, t₁, t₂, pt₂, t₃, hsel₁, hfill₁, hsel₂, hfill₂⟩ := mapRegionLoop_kstack hloop
  have hdir₁ := hrev.slots _ _ hdir
  have hset₁ : entrySet (word s₁ D 1021) = true := by
    rw [hrev.only.words D hD _ (by decide)]
    exact hp.table
  -- the first round takes the table that slot 1021 names
  obtain ⟨rfl, hget⟩ : none = new₁ ∧ getTempVa s₁ T = some (pt₁, t₁) := by
    rcases selectTable_cases hdir₁ hrev.leads (by decide) hD hsel₁ with
      ⟨-, hnow, -, -⟩ | ⟨-, -, hnew, hget⟩ | ⟨hclear, -, -⟩
    · exact absurd hnow (by simp)
    · refine ⟨hnew.symm, ?_⟩
      rw [← hp.frame, ← hrev.only.words D hD 1021 (by decide)]
      exact hget
    · exact absurd (hset₁.symm.trans hclear) (by decide)
  have hTlt : T < 2 ^ 20 := hp.frame ▸ frameOf_word_lt s D 1021
  obtain ⟨honly₁, hleads₁, hslots₁⟩ := getTempVa_spec hget hTlt
  have honly := hrev.only.trans honly₁
  have hentry : ∀ j < 1024, word t₁ T j = word s T j := fun j hj => honly.words T hT j hj
  obtain rfl : t₂ = t₁ := by
    rcases fillEntry_cases hleads₁ hfill₁ with ⟨-, heq⟩ | ⟨hclear, -⟩
    · exact heq
    · rw [hentry _ (pageTableIndex_lt _)] at hclear
      exact absurd (hp.page.symm.trans hclear) (by decide)
  have hdir₂ := hslots₁ _ _ hdir₁
  -- slot 1022 is in use, so the second round keeps the table
  obtain ⟨rfl, rfl, rfl⟩ : pt₁ = pt₂ ∧ newPt = none ∧ t₃ = t₂ := by
    rcases selectTable_cases hdir₂ (hslots₁ _ _ hrev.leads) (by decide) hD hsel₂ with
      ⟨-, hnow, hnew, heq⟩ | ⟨-, hnow, -, -⟩ | ⟨hclear, -, -⟩
    · exact ⟨Option.some.inj hnow, hnew, heq⟩
    · exact absurd hnow (by simp)
    · rw [honly.words D hD _ (by decide)] at hclear
      exact absurd (hsys.symm.trans hclear) (by decide)
  obtain rfl : s₂ = t₃ := by
    rcases fillEntry_cases hleads₁ hfill₂ with ⟨-, heq⟩ | ⟨hclear, -⟩
    · exact heq
    · rw [hentry _ (pageTableIndex_lt _)] at hclear
      exact absurd (hp.stale.symm.trans hclear) (by decide)
  have hslots : ∀ k g, tempFrame s k = some g → tempFrame s₂ k = some g :=
    fun k g hg => hslots₁ k g (hrev.slots k g hg)
  cases fresh with
  | false =>
      obtain rfl : s' = s₂ := hs'
      exact ⟨honly, hslots⟩
  | true =>
      obtain rfl : s' = deleteTempVa s₂ revTb := hs'
      obtain ⟨honlyD, hother⟩ := deleteTempVa_spec s₂ _
      refine ⟨honly.trans honlyD, fun k g hg => ?_⟩
      rw [hother k]
      · exact hslots k g hg
      · rintro rfl
        rw [hrev.absent rfl] at hg
        exact absurd hg (by simp)

/-- In a directory without slot 1021, the request makes a table with both pages, and changes no other slot. -/
theorem requestRegionVmap_kstack_absent (hs : Tagged ρ s) (hdir : tempFrame s dir = some D)
    (ho : Owner ρ D (frameOf (word s D 1023)) .stackTable)
    (hk : Spares K P ρ D (frameOf (word s D 1023)) .stackTable)
    (habsent : entrySet (word s D 1021) = false) (hsys : entrySet (word s D 1022) = true)
    (hflag : flag < frameSize ∧ flag % 2 = 1)
    (h : requestRegionVmap s dir kstackFrame frameSize flag = some s') :
    ∃ ρ' T, Tagged ρ' s' ∧ Extends K P ρ s ρ' s' ∧ KstackPresent s' D T ∧ ρ' T = .stackTable ∧
      ∀ i < 1024, i ≠ 1021 → word s' D i = word s D i := by
  have hsysK : ¬K sysTb := fun hK => (hk.kept sysTb hK).1 rfl
  have hDold := (hk.mapped D hk.dir).1
  obtain ⟨revTb, s₁, fresh, newPt, s₂, hget, hloop, hs'⟩ := requestRegionVmap_cases h
  have hrev := getRevTable_spec hdir hget
  obtain ⟨new₁, pt₁, t₁, t₂, pt₂, t₃, hsel₁, hfill₁, hsel₂, hfill₂⟩ := mapRegionLoop_kstack hloop
  have hed : Editing ρ s₁ dir revTb D (frameOf (word s D 1023)) .stackTable :=
    ⟨ho, hs.of_temp hrev.only, hrev.slots _ _ hdir, hrev.leads⟩
  have hclear₁ : entrySet (word s₁ D (pageDirIndex kstackFrame)) = false := by
    rw [hrev.only.words D ho.dir_ne _ (by decide)]
    exact habsent
  obtain ⟨ρ₁, f, htag₁, hext₁, hpt₁, hf₁, hfsys, hDf, hlink, hsame⟩ :=
    selectTable_new hed hk (by decide) (by decide) (by decide) hclear₁ hsel₁
  have hsys₁ : word t₁ D 1022 = word s D 1022 :=
    (hsame 1022 (by decide) (by decide)).trans (hrev.only.words D ho.dir_ne _ (by decide))
  have hk₁ := hk.mono hext₁ hed.tagged htag₁
  have hed₁ := hed.mono hk hext₁ htag₁
  have hfold : Old ρ₁ f := Or.inr (by rw [hf₁]; decide)
  obtain ⟨ρ₂, htag₂, hext₂, hpt₂, hf₂, hpage, hwords₂⟩ :=
    fillEntry_spec hed₁ hk₁ hflag.1 hflag.2 rfl hpt₁ hf₁ hfill₁
  have hk₂ := hk₁.mono hext₂ htag₁ htag₂
  have hed₂ := hed₁.mono hk₁ hext₂ htag₂
  have hDold₁ := hext₁.old hDold
  have hDwords₂ : ∀ j < 1024, word t₂ D j = word t₁ D j :=
    fun j hj => hwords₂ D ho.dir_ne hDold₁ j hj (Or.inl hDf)
  -- slot 1022 is in use, so the second round keeps the table
  obtain ⟨rfl, rfl, rfl⟩ : pt₁ = pt₂ ∧ newPt = none ∧ t₃ = t₂ := by
    rcases selectTable_cases hed₂.dirSlot hed₂.revSlot (by decide) ho.dir_ne hsel₂ with
      ⟨-, hnow, hnew, heq⟩ | ⟨-, hnow, -, -⟩ | ⟨hclear, -, -⟩
    · exact ⟨Option.some.inj hnow, hnew, heq⟩
    · exact absurd hnow (by simp)
    · have hset : entrySet (word t₂ D 1022) = true := by
        rw [hDwords₂ _ (by decide), hsys₁]
        exact hsys
      exact absurd (hset.symm.trans hclear) (by decide)
  obtain ⟨ρ₃, htag₃, hext₃, -, hf₃, hstale, hwords₃⟩ :=
    fillEntry_spec hed₂ hk₂ hflag.1 hflag.2 rfl hpt₂ hf₂ hfill₂
  have hlast : OnlyFrame sysTb s₂ s' := hrev.only_last hs'
  obtain ⟨htag', hext'⟩ := hrev.extends htag₃ ((hext₁.trans hext₂).trans hext₃) hsysK hs'
  have hDwords : ∀ i < 1024, word s' D i = word t₁ D i := by
    intro i hi
    rw [hlast.words D ho.dir_ne i hi, hwords₃ D ho.dir_ne (hext₂.old hDold₁) i hi (Or.inl hDf), hDwords₂ i hi]
  have hentry : word s' D 1021 = pageEntry f pageFlgKernel := (hDwords 1021 (by decide)).trans hlink
  refine ⟨ρ₃, f, htag', hext', ⟨?_, ?_, ?_, ?_⟩, hf₃, fun i hi hne => ?_⟩
  · rw [hentry]
    exact entrySet_pageEntry (by decide) (by decide)
  · rw [hentry]
    exact frameOf_pageEntry (by decide)
  · rw [hlast.words f hfsys _ (by decide),
      hwords₃ f hfsys (hext₂.old hfold) _ (by decide) (Or.inr (by decide))]
    exact hpage
  · rw [hlast.words f hfsys _ (by decide)]
    exact hstale
  · rw [hDwords i hi, hsame i hi hne, hrev.only.words D ho.dir_ne i hi]

/-- A walk through a directory reads the table that it names and only changes temporary
mappings to that table. -/
theorem getPhyFromDir_spec {va f : Nat} (hdir : tempFrame s dir = some D)
    (hT : entrySet (word s D (pageDirIndex va)) = true →
      frameOf (word s D (pageDirIndex va)) ≠ sysTb)
    (h : getPhyFromDir s dir va = some (f, s')) :
    entrySet (word s D (pageDirIndex va)) = true ∧
      f = frameOf (word s (frameOf (word s D (pageDirIndex va))) (pageTableIndex va)) ∧
      OnlyFrame sysTb s s' ∧
      ∀ k g, tempFrame s k = some g → g ≠ frameOf (word s D (pageDirIndex va)) →
        tempFrame s' k = some g := by
  rw [getPhyFromDir] at h
  obtain ⟨phyTb, hphy, hwalk⟩ := Option.bind_eq_some_iff.mp h
  obtain ⟨⟨tb, s₁⟩, hget, hread⟩ := Option.bind_eq_some_iff.mp hwalk
  obtain ⟨e, hpeek, hret⟩ := Option.bind_eq_some_iff.mp hread
  obtain ⟨hset, rfl⟩ := ptPhyFromDir_eq hdir hphy
  obtain ⟨honly, hleads, hslots⟩ := getTempVa_spec hget (frameOf_word_lt _ _ _)
  obtain ⟨rfl, rfl⟩ : frameOf e = f ∧ deleteTempVa s₁ tb = s' := by simpa using hret
  obtain ⟨honlyD, hother⟩ := deleteTempVa_spec s₁ _
  refine ⟨hset, ?_, honly.trans honlyD, fun k g hg hne => ?_⟩
  · rw [peek_eq hleads, honly.words _ (hT hset) _ (pageTableIndex_lt va)] at hpeek
    rw [Option.some.inj hpeek]
  · rw [hother k]
    · exact hslots k g hg
    · rintro rfl
      exact hne (Option.some.inj ((hslots _ g hg).symm.trans hleads))

end TsOs.Paging
