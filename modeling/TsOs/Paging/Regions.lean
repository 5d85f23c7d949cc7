import TsOs.Paging.Ownership

/-!
# Mapping a region

`request_region_vmap` works on one directory `D` with its reverse table `R`. Each
round chooses a page table and gives one page a frame. All tables it touches have
the same tag `t`, so the pages it adds belong to the owner of the directory.
-/

namespace TsOs.Paging

variable {ρ ρ' : Nat → Tag} {s s' s₁ : Machine} {K P : Nat → Prop} {t tp : Tag}
  {D R T dir revTb va flag di f pt : Nat} {newPt ptNow : Option Nat}

/-! ## What one round can do -/

theorem pageDirIndex_lt (hva : va < 2 ^ 32) : pageDirIndex va < 1024 := by
  unfold pageDirIndex
  omega

theorem pageTableIndex_lt (va : Nat) : pageTableIndex va < 1024 := Nat.mod_lt _ (by decide)

/-- The state after the entry of a new table has been written. -/
def linkTable (s : Machine) (D R di f flag : Nat) : Machine :=
  setWord (setWord s D di (pageEntry f flag)) R di (pageEntry f pageP)

theorem createPageTable_cases (hdir : tempFrame s dir = some D) (hrev : tempFrame s revTb = some R)
    (hva : va < 2 ^ 32) (hD : D ≠ sysTb)
    (h : createPageTable s dir revTb va flag = some (newPt, s')) :
    (entrySet (word s D (pageDirIndex va)) = true ∧ newPt = none ∧ s' = s) ∨
    (entrySet (word s D (pageDirIndex va)) = false ∧
      ∃ pt f s₁, newPt = some pt ∧ Allocated s s₁ pt f ∧
        s' = linkTable s₁ D R (pageDirIndex va) f flag) := by
  have hdi := pageDirIndex_lt hva
  rw [createPageTable, peek_eq hdir, Option.bind_eq_bind, Option.bind_some] at h
  split at h
  next hset =>
    obtain ⟨rfl, rfl⟩ : none = newPt ∧ s = s' := by simpa using h
    exact Or.inl ⟨hset, rfl, rfl⟩
  next hclear =>
    obtain ⟨⟨a, bm⟩, halloc, h⟩ := Option.bind_eq_some_iff.mp h
    obtain ⟨⟨pt, s₀⟩, hcreate, h⟩ := Option.bind_eq_some_iff.mp h
    dsimp only at h
    split at h
    next hzero =>
      obtain ⟨f, ha, huser, -⟩ := allocFrame_user halloc
      have hpos : 0 < userFrame := by decide
      have hne : f * frameSize ≠ 0 := Nat.mul_ne_zero (by omega) (by decide)
      exact absurd (ha.symm.trans hzero) hne
    next =>
      obtain ⟨s₁, hmemzero, h⟩ := Option.bind_eq_some_iff.mp h
      obtain ⟨s₂, hpoke, h⟩ := Option.bind_eq_some_iff.mp h
      obtain ⟨s₃, hpoke', h⟩ := Option.bind_eq_some_iff.mp h
      obtain ⟨rfl, rfl⟩ : some pt = newPt ∧ s₃ = s' := by simpa using h
      obtain ⟨hall, -⟩ := allocated_of_steps halloc hcreate hmemzero
      obtain ⟨D', hD', rfl⟩ := poke_eq hpoke
      obtain rfl : D = D' := Option.some.inj ((hall.slot_kept hdir).symm.trans hD')
      obtain ⟨R', hR', rfl⟩ := poke_eq hpoke'
      rw [(onlyFrame_setWord s₁ D _ _).tempFrame_eq hD] at hR'
      obtain rfl : R = R' := Option.some.inj ((hall.slot_kept hrev).symm.trans hR')
      exact Or.inr ⟨by simpa using hclear, pt, frameNb a, s₁, rfl, hall, rfl⟩

/-- The table of a round is the one of the round before, the one that the directory
names, or a new one. -/
theorem selectTable_cases (hdir : tempFrame s dir = some D) (hrev : tempFrame s revTb = some R)
    (hva : va < 2 ^ 32) (hD : D ≠ sysTb)
    (h : selectTable s dir revTb ptNow va flag = some (newPt, pt, s')) :
    (entrySet (word s D (pageDirIndex va)) = true ∧ ptNow = some pt ∧ newPt = none ∧ s' = s) ∨
    (entrySet (word s D (pageDirIndex va)) = true ∧ ptNow = none ∧ newPt = none ∧
      getTempVa s (frameOf (word s D (pageDirIndex va))) = some (pt, s')) ∨
    (entrySet (word s D (pageDirIndex va)) = false ∧ newPt = some pt ∧
      ∃ f s₁, Allocated s s₁ pt f ∧
        ((ptNow = none ∧ s' = linkTable s₁ D R (pageDirIndex va) f flag) ∨
          ∃ old, ptNow = some old ∧
            s' = deleteTempVa (linkTable s₁ D R (pageDirIndex va) f flag) old)) := by
  rw [selectTable] at h
  obtain ⟨⟨created, s₂⟩, hcreate, hmatch⟩ := Option.bind_eq_some_iff.mp h
  clear h
  rcases createPageTable_cases hdir hrev hva hD hcreate with
    ⟨hset, rfl, rfl⟩ | ⟨hclear, p, f, s₁, rfl, hall, rfl⟩
  · cases ptNow with
    | some old =>
        obtain ⟨rfl, rfl, rfl⟩ : none = newPt ∧ old = pt ∧ s₂ = s' := by simpa using hmatch
        exact Or.inl ⟨hset, rfl, rfl, rfl⟩
    | none =>
        obtain ⟨⟨p, s₃⟩, hpt, hret⟩ := Option.bind_eq_some_iff.mp hmatch
        obtain ⟨rfl, rfl, rfl⟩ : none = newPt ∧ p = pt ∧ s₃ = s' := by simpa using hret
        rw [getPtVa] at hpt
        obtain ⟨g, hphy, hpt⟩ := Option.bind_eq_some_iff.mp hpt
        obtain ⟨-, rfl⟩ := ptPhyFromDir_eq hdir hphy
        split at hpt
        next => exact absurd hpt (by simp)
        next => exact Or.inr (Or.inl ⟨hset, rfl, rfl, hpt⟩)
  · refine Or.inr (Or.inr ?_)
    cases ptNow with
    | some old =>
        obtain ⟨rfl, rfl, rfl⟩ : some p = newPt ∧ p = pt ∧ _ = s' := by simpa using hmatch
        exact ⟨hclear, rfl, f, s₁, hall, Or.inr ⟨old, rfl, rfl⟩⟩
    | none =>
        obtain ⟨rfl, rfl, rfl⟩ : some p = newPt ∧ p = pt ∧ _ = s' := by simpa using hmatch
        exact ⟨hclear, rfl, f, s₁, hall, Or.inl ⟨rfl, rfl⟩⟩

/-- A page that is present stays; otherwise a new frame is entered for it. -/
theorem fillEntry_cases (hpt : tempFrame s pt = some T)
    (h : fillEntry s pt va flag = some s') :
    (entrySet (word s T (pageTableIndex va)) = true ∧ s' = s) ∨
    (entrySet (word s T (pageTableIndex va)) = false ∧ ∃ page f s₁, Allocated s s₁ page f ∧
      s' = deleteTempVa (setWord s₁ T (pageTableIndex va) (pageEntry f flag)) page) := by
  rw [fillEntry, peek_eq hpt, Option.bind_eq_bind, Option.bind_some] at h
  split at h
  next hset =>
    obtain rfl : s = s' := by simpa using h
    exact Or.inl ⟨hset, rfl⟩
  next hclear =>
    obtain ⟨⟨page, f, s₁⟩, halloc, h⟩ := Option.bind_eq_some_iff.mp h
    obtain ⟨s₂, hpoke, h⟩ := Option.bind_eq_some_iff.mp h
    obtain rfl : deleteTempVa s₂ page = s' := by simpa using h
    have hall := allocPage_spec halloc
    obtain ⟨T', hT', rfl⟩ := poke_eq hpoke
    obtain rfl : T = T' := Option.some.inj ((hall.slot_kept hpt).symm.trans hT')
    exact Or.inr ⟨by simpa using hclear, page, f, s₁, hall, rfl⟩

/-! ## Rounds respect the tags -/

/-- The frames that the rounds spare: those in `K` are not written, and mappings to those in
`P` are not deleted. -/
structure Spares (K P : Nat → Prop) (ρ : Nat → Tag) (D R : Nat) (t : Tag) : Prop where
  kept : ∀ g, K g → g ≠ sysTb ∧ Old ρ g ∧ g ≠ D ∧ g ≠ R ∧ ρ g ≠ t
  mapped : ∀ g, P g → Old ρ g ∧ ρ g ≠ t ∧ t.pages ≠ some (ρ g)
  dir : P D
  rev : P R

/-- New tables of the directory may get the tag. -/
structure Owner (ρ : Nat → Tag) (D R : Nat) (t : Tag) : Prop where
  owned : t.Owned ρ
  dirPages : (ρ D).pages = none
  dirOwner : ∀ k, ρ D = .task k .dir → t = .task k .table
  revPlain : (ρ R).Plain
  dir_ne : D ≠ sysTb
  rev_ne : R ≠ sysTb
  ne : D ≠ R

/-- The directory and its reverse table are mapped. -/
structure Editing (ρ : Nat → Tag) (s : Machine) (dir revTb D R : Nat) (t : Tag) : Prop
    extends Owner ρ D R t where
  tagged : Tagged ρ s
  dirSlot : tempFrame s dir = some D
  revSlot : tempFrame s revTb = some R

theorem Spares.mono (h : Spares K P ρ D R t) (hext : Extends K P ρ s ρ' s') (hs : Tagged ρ s)
    (hs' : Tagged ρ' s') : Spares K P ρ' D R t where
  kept := by
    intro g hg
    obtain ⟨hsys, hold, hD, hR, htag⟩ := h.kept g hg
    refine ⟨hsys, hext.old hold, hD, hR, ?_⟩
    rw [hext.tag_eq hs hs' hold]
    exact htag
  mapped := by
    intro g hg
    obtain ⟨hold, htag, hpage⟩ := h.mapped g hg
    rw [hext.tag_eq hs hs' hold]
    exact ⟨hext.old hold, htag, hpage⟩
  dir := h.dir
  rev := h.rev

theorem Owner.mono (h : Owner ρ D R t) (hk : Spares K P ρ D R t)
    (hext : Extends K P ρ s ρ' s') (hs : Tagged ρ s) (hs' : Tagged ρ' s') : Owner ρ' D R t := by
  have hD := hext.tag_eq hs hs' (hk.mapped D hk.dir).1
  have hR := hext.tag_eq hs hs' (hk.mapped R hk.rev).1
  refine ⟨fun k r hk' => ?_, ?_, ?_, ?_, h.dir_ne, h.rev_ne, h.ne⟩
  · have hdir := h.owned k r hk'
    rw [hext.tags k (hdir ▸ by simp), hdir]
  · rw [hD]
    exact h.dirPages
  · rw [hD]
    exact h.dirOwner
  · rw [hR]
    exact h.revPlain

theorem Editing.mono (h : Editing ρ s dir revTb D R t) (hk : Spares K P ρ D R t)
    (hext : Extends K P ρ s ρ' s') (hs' : Tagged ρ' s') : Editing ρ' s' dir revTb D R t where
  toOwner := h.toOwner.mono hk hext h.tagged hs'
  tagged := hs'
  dirSlot := hext.slots _ _ h.dirSlot hk.dir
  revSlot := hext.slots _ _ h.revSlot hk.rev

/-- Deleting a mapping to a frame outside of `P`. -/
theorem Extends.delete (hs : Tagged ρ s) (hi : tempFrame s di = some f) (hP : ¬P f)
    (hK : ¬K sysTb) :
    Tagged ρ (deleteTempVa s di) ∧ Extends K P ρ s ρ (deleteTempVa s di) := by
  obtain ⟨honly, hother⟩ := deleteTempVa_spec s _
  refine ⟨hs.of_temp honly, Extends.of_temp honly hK fun k g hg hPg => ?_⟩
  rw [hother k, hg]
  rintro rfl
  obtain rfl : f = g := Option.some.inj (hi.symm.trans hg)
  exact hP hPg

/-- Deleting a mapping that was made on the way. -/
theorem Extends.delete_new (hext : Extends K P ρ s ρ' s') (hs' : Tagged ρ' s')
    (habsent : tempFrame s di = none) (hK : ¬K sysTb) :
    Tagged ρ' (deleteTempVa s' di) ∧ Extends K P ρ s ρ' (deleteTempVa s' di) := by
  obtain ⟨honly, hother⟩ := deleteTempVa_spec s' di
  refine ⟨hs'.of_temp honly, hext.tags, fun f hf j hj => ?_, fun i g hg hP => ?_⟩
  · rw [honly.words f (fun heq => hK (heq ▸ hf)) j hj]
    exact hext.kept f hf j hj
  · rw [hother i]
    · exact hext.slots i g hg hP
    · rintro rfl
      rw [habsent] at hg
      exact absurd hg (by simp)

theorem Allocated.ne_of_old {ptr g : Nat} (h : Allocated s s' ptr f) (hs : Tagged ρ s)
    (hg : Old ρ g) : g ≠ f := by
  rintro rfl
  rcases hg with hlow | htag
  · have := h.user.1
    omega
  · exact htag (hs.free_of_idle h.idle)

theorem linkTable_tempFrame (hD : D ≠ sysTb) (hR : R ≠ sysTb) (i : Nat) :
    tempFrame (linkTable s D R di f flag) i = tempFrame s i := by
  rw [linkTable, (onlyFrame_setWord _ R _ _).tempFrame_eq hR,
    (onlyFrame_setWord s D _ _).tempFrame_eq hD]

theorem linkTable_word_self (hDR : D ≠ R) (hlt : pageEntry f flag < 2 ^ 32) :
    word (linkTable s D R di f flag) D di = pageEntry f flag := by
  rw [linkTable, word_setWord_ne _ _ (Or.inl hDR), word_setWord_same s D _ hlt]

theorem linkTable_word_ne {g i : Nat} (hne : i ≠ di) :
    word (linkTable s D R di f flag) g i = word s g i := by
  rw [linkTable, word_setWord_ne _ _ (Or.inr hne), word_setWord_ne _ _ (Or.inr hne)]

/-- Entries in the kernel's slots of a directory are free of constraints. -/
theorem Tagged.linkTable (h : Tagged ρ s) (hD : (ρ D).pages = none) (hR : (ρ R).Plain)
    (hdi : userSlots ≤ di) : Tagged ρ (Paging.linkTable s D R di f flag) := by
  have hdir : Tagged ρ (setWord s D di (pageEntry f flag)) := by
    apply h.of_only (onlyFrame_setWord s D di (pageEntry f flag))
    · intro n hn i hi
      rw [word_setWord_ne s _ (Or.inr (by omega))]
      exact h.dir D n hn i hi
    · intro t ht
      rw [hD] at ht
      exact absurd ht (by simp)
  exact hdir.of_plain (onlyFrame_setWord _ R di _) hR

theorem Extends.linkTable (hD : D ≠ sysTb) (hR : R ≠ sysTb) (hKD : ¬K D) (hKR : ¬K R) :
    Extends K P ρ s ρ (Paging.linkTable s D R di f flag) :=
  (Extends.of_only (onlyFrame_setWord s D di _) hD hKD).trans
    (Extends.of_only (onlyFrame_setWord _ R di _) hR hKR)

/-- A new table is entered in the directory. -/
theorem Editing.linkTable (h : Editing ρ s dir revTb D R t) (hk : Spares K P ρ D R t)
    (hall : Allocated s s₁ pt f) (hdi : di < 1024) (hflag : flag < frameSize)
    (hodd : flag % 2 = 1) :
    Tagged (Function.update ρ f t) (Paging.linkTable s₁ D R di f flag) ∧
      Extends K P ρ s (Function.update ρ f t) (Paging.linkTable s₁ D R di f flag) := by
  have hfree := h.tagged.free_of_idle hall.idle
  obtain ⟨-, htagged⟩ := hall.tagged h.tagged (h.owned.update hfree t)
  have hDf := hall.ne_of_old h.tagged (hk.mapped D hk.dir).1
  have hRf := hall.ne_of_old h.tagged (hk.mapped R hk.rev).1
  have hρD : Function.update ρ f t D = ρ D := Function.update_of_ne hDf _ _
  have hρR : Function.update ρ f t R = ρ R := Function.update_of_ne hRf _ _
  have hoD := onlyFrame_setWord s₁ D di (pageEntry f flag)
  have hoR := onlyFrame_setWord (setWord s₁ D di (pageEntry f flag)) R di (pageEntry f pageP)
  have hdirTagged : Tagged (Function.update ρ f t) (setWord s₁ D di (pageEntry f flag)) := by
    apply htagged.of_only hoD
    · intro k hk' i hi
      have hi4 : i < 1024 := Nat.lt_trans hi (by decide)
      by_cases hid : i = di
      · subst hid
        have hlt := pageEntry_lt (user_lt hall.user.2) hflag
        rw [word_setWord_same s₁ D i hlt]
        refine Or.inr ⟨entrySet_pageEntry hflag hodd, ?_⟩
        rw [frameOf_pageEntry hflag, Function.update_self]
        exact h.dirOwner k (hρD ▸ hk')
      · rw [word_setWord_ne s₁ _ (Or.inr hid)]
        exact htagged.dir D k hk' i hi
    · intro u hu
      rw [hρD, h.dirPages] at hu
      exact absurd hu (by simp)
  refine ⟨hdirTagged.of_plain hoR (hρR ▸ h.revPlain), ?_⟩
  have hK : ∀ g, K g → g ≠ sysTb ∧ Old ρ g := fun g hg => ⟨(hk.kept g hg).1, (hk.kept g hg).2.1⟩
  apply (hall.extends h.tagged hK t).trans
  apply Extends.trans (Extends.of_only hoD h.dir_ne fun hKD => (hk.kept D hKD).2.2.1 rfl)
  exact Extends.of_only hoR h.rev_ne fun hKR => (hk.kept R hKR).2.2.2.1 rfl

theorem Editing.linkTable_word_ne (h : Editing ρ s dir revTb D R t) (hk : Spares K P ρ D R t)
    (hall : Allocated s s₁ pt f) (flag di : Nat) :
    ∀ i < 1024, i ≠ di → word (Paging.linkTable s₁ D R di f flag) D i = word s D i := by
  intro i hi hne
  rw [Paging.linkTable_word_ne hne]
  exact hall.words D (hall.ne_of_old h.tagged (hk.mapped D hk.dir).1) h.dir_ne i hi

/-- The table that a round uses has the tag. For the first round the directory must not
name a foreign table. -/
theorem selectTable_spec (h : Editing ρ s dir revTb D R t) (hk : Spares K P ρ D R t)
    (hva : va < 2 ^ 32) (hflag : flag < frameSize) (hodd : flag % 2 = 1)
    (hnow : ∀ p, ptNow = some p → ∃ T, tempFrame s p = some T ∧ ρ T = t)
    (hfirst : ptNow = none → entrySet (word s D (pageDirIndex va)) = true →
      ρ (frameOf (word s D (pageDirIndex va))) = t)
    (hsel : selectTable s dir revTb ptNow va flag = some (newPt, pt, s')) :
    ∃ ρ' T, Tagged ρ' s' ∧ Extends K P ρ s ρ' s' ∧ tempFrame s' pt = some T ∧ ρ' T = t ∧
      (newPt = none ∨ newPt = some pt) ∧
      ∀ i < 1024, i ≠ pageDirIndex va → word s' D i = word s D i := by
  have hsysK : ¬K sysTb := fun hK => (hk.kept sysTb hK).1 rfl
  have hdi := pageDirIndex_lt hva
  rcases selectTable_cases h.dirSlot h.revSlot hva h.dir_ne hsel with
    ⟨-, hpt, hnew, rfl⟩ | ⟨hset, hpt, hnew, hget⟩ | ⟨-, hnew, f, s₁, hall, hlink⟩
  · obtain ⟨T, hT, htag⟩ := hnow pt hpt
    exact ⟨ρ, T, h.tagged, Extends.refl K P ρ s', hT, htag, Or.inl hnew, fun _ _ _ => rfl⟩
  · obtain ⟨honly, hleads, hslots⟩ := getTempVa_spec hget (frameOf_word_lt _ _ _)
    refine ⟨ρ, _, h.tagged.of_temp honly, ?_, hleads, hfirst hpt hset, Or.inl hnew,
      fun i hi _ => honly.words D h.dir_ne i hi⟩
    exact Extends.of_temp honly hsysK fun i g hg _ => hslots i g hg
  · obtain ⟨htagged, hext⟩ := h.linkTable hk hall hdi hflag hodd
    have hslot : ∀ i, tempFrame (linkTable s₁ D R (pageDirIndex va) f flag) i = tempFrame s₁ i :=
      linkTable_tempFrame h.dir_ne h.rev_ne
    have hleads := (hslot pt).trans hall.leads
    have hsame := h.linkTable_word_ne hk hall flag (pageDirIndex va)
    rcases hlink with ⟨-, rfl⟩ | ⟨old, hold, rfl⟩
    · exact ⟨_, f, htagged, hext, hleads, Function.update_self f t ρ, Or.inr hnew, hsame⟩
    · obtain ⟨T, hT, htag⟩ := hnow old hold
      have hTslot := (hslot old).trans (hall.slot_kept hT)
      have hPT : ¬P T := fun hPT => (hk.mapped T hPT).2.1 htag
      obtain ⟨htagged', hext'⟩ := Extends.delete htagged hTslot hPT hsysK
      have hne : pt ≠ old := by
        rintro rfl
        rw [hall.absent] at hT
        exact absurd hT (by simp)
      obtain ⟨honly, hother⟩ := deleteTempVa_spec
        (linkTable s₁ D R (pageDirIndex va) f flag) old
      refine ⟨_, f, htagged', hext.trans hext', ?_, Function.update_self f t ρ, Or.inr hnew,
        fun i hi hne => ?_⟩
      · rw [hother pt hne]
        exact hleads
      · rw [honly.words D h.dir_ne i hi]
        exact hsame i hi hne

/-- The first round in a slot that is not in use makes its table. -/
theorem selectTable_new (h : Editing ρ s dir revTb D R t) (hk : Spares K P ρ D R t)
    (hva : va < 2 ^ 32) (hflag : flag < frameSize) (hodd : flag % 2 = 1)
    (hclear : entrySet (word s D (pageDirIndex va)) = false)
    (hsel : selectTable s dir revTb none va flag = some (newPt, pt, s')) :
    ∃ ρ' f, Tagged ρ' s' ∧ Extends K P ρ s ρ' s' ∧ tempFrame s' pt = some f ∧ ρ' f = t ∧
      f ≠ sysTb ∧ D ≠ f ∧ word s' D (pageDirIndex va) = pageEntry f flag ∧
      ∀ i < 1024, i ≠ pageDirIndex va → word s' D i = word s D i := by
  have hdi := pageDirIndex_lt hva
  rcases selectTable_cases h.dirSlot h.revSlot hva h.dir_ne hsel with
    ⟨hset, -⟩ | ⟨hset, -⟩ | ⟨-, -, f, s₁, hall, ⟨-, rfl⟩ | ⟨old, hnow, -⟩⟩
  · exact absurd (hset.symm.trans hclear) (by decide)
  · exact absurd (hset.symm.trans hclear) (by decide)
  · obtain ⟨htagged, hext⟩ := h.linkTable hk hall hdi hflag hodd
    have hDf := hall.ne_of_old h.tagged (hk.mapped D hk.dir).1
    have hlt := pageEntry_lt (user_lt hall.user.2) hflag
    refine ⟨_, f, htagged, hext, ?_, Function.update_self f t ρ, user_ne_sysTb hall.user.1, hDf, ?_,
      h.linkTable_word_ne hk hall flag (pageDirIndex va)⟩
    · rw [linkTable_tempFrame h.dir_ne h.rev_ne]
      exact hall.leads
    · exact linkTable_word_self h.ne hlt
  · exact absurd hnow (by simp)

/-- The page entered in a table belongs to its owner. -/
theorem fillEntry_spec (h : Editing ρ s dir revTb D R t) (hk : Spares K P ρ D R t)
    (hflag : flag < frameSize) (hodd : flag % 2 = 1) (ht : t.pages = some tp)
    (hT : tempFrame s pt = some T) (htag : ρ T = t)
    (hfill : fillEntry s pt va flag = some s') :
    ∃ ρ', Tagged ρ' s' ∧ Extends K P ρ s ρ' s' ∧ tempFrame s' pt = some T ∧ ρ' T = t ∧
      entrySet (word s' T (pageTableIndex va)) = true ∧
      (∀ g, g ≠ sysTb → Old ρ g → ∀ j < 1024, g ≠ T ∨ j ≠ pageTableIndex va →
        word s' g j = word s g j) := by
  have hsysK : ¬K sysTb := fun hK => (hk.kept sysTb hK).1 rfl
  have hti := pageTableIndex_lt va
  rcases fillEntry_cases hT hfill with ⟨hset, rfl⟩ | ⟨-, page, f, s₁, hall, rfl⟩
  · exact ⟨ρ, h.tagged, Extends.refl K P ρ s', hT, htag, hset, fun _ _ _ _ _ _ => rfl⟩
  · have htne : t ≠ .free := by
      rintro rfl
      exact absurd ht (by simp [Tag.pages])
    have hTold : Old ρ T := Or.inr (htag ▸ htne)
    have hTsys : T ≠ sysTb := by
      rintro rfl
      exact htne (htag.symm.trans h.tagged.sysTb_free)
    have hTf := hall.ne_of_old h.tagged hTold
    have hfree := h.tagged.free_of_idle hall.idle
    obtain ⟨-, htagged⟩ := hall.tagged h.tagged ((h.owned.pages ht).update hfree tp)
    have hρT : Function.update ρ f tp T = t := (Function.update_of_ne hTf _ _).trans htag
    have hlt := pageEntry_lt (user_lt hall.user.2) hflag
    have ho := onlyFrame_setWord s₁ T (pageTableIndex va) (pageEntry f flag)
    have htableTagged :
        Tagged (Function.update ρ f tp) (setWord s₁ T (pageTableIndex va) (pageEntry f flag)) := by
      apply htagged.of_only ho
      · intro k hdir
        rw [hρT] at hdir
        rw [hdir] at ht
        exact absurd ht (by simp [Tag.pages])
      · intro u hu j hj
        rw [hρT, ht] at hu
        obtain rfl := Option.some.inj hu
        by_cases hji : j = pageTableIndex va
        · subst hji
          rw [word_setWord_same s₁ T _ hlt]
          refine Or.inr ⟨entrySet_pageEntry hflag hodd, ?_⟩
          rw [frameOf_pageEntry hflag, Function.update_self]
        · rw [word_setWord_ne s₁ _ (Or.inr hji)]
          exact htagged.table T tp (hρT ▸ ht) j hj
    have hslot : ∀ i, tempFrame (setWord s₁ T (pageTableIndex va) (pageEntry f flag)) i =
        tempFrame s₁ i := ho.tempFrame_eq hTsys
    have hpage := (hslot page).trans hall.leads
    have hPf : ¬P f := fun hPf => hall.ne_of_old h.tagged (hk.mapped f hPf).1 rfl
    obtain ⟨htagged', hext'⟩ := Extends.delete htableTagged hpage hPf hsysK
    obtain ⟨honly, hother⟩ := deleteTempVa_spec
      (setWord s₁ T (pageTableIndex va) (pageEntry f flag)) page
    have hne : pt ≠ page := by
      rintro rfl
      rw [hall.absent] at hT
      exact absurd hT (by simp)
    refine ⟨_, htagged', ?_, ?_, hρT, ?_, ?_⟩
    · have hK : ∀ g, K g → g ≠ sysTb ∧ Old ρ g :=
        fun g hg => ⟨(hk.kept g hg).1, (hk.kept g hg).2.1⟩
      apply (hall.extends h.tagged hK tp).trans
      apply Extends.trans (Extends.of_only ho hTsys fun hKT => (hk.kept T hKT).2.2.2.2 htag)
      exact hext'
    · rw [hother pt hne, hslot]
      exact hall.slot_kept hT
    · rw [honly.words T hTsys _ hti, word_setWord_same s₁ T _ hlt]
      exact entrySet_pageEntry hflag hodd
    · intro g hgs hgold j hj hgT
      rw [honly.words g hgs j hj, word_setWord_ne s₁ _ hgT]
      exact hall.words g (hall.ne_of_old h.tagged hgold) hgs j hj

/-- The mapping leads to a table with the tag. -/
def LeadsTo (ρ : Nat → Tag) (s : Machine) (t : Tag) (p : Nat) : Prop :=
  ∃ T, tempFrame s p = some T ∧ ρ T = t

theorem pageFlgUsr_or_kernel {c : Prop} [Decidable c] {fl : Nat}
    (hfl : fl < frameSize ∧ fl % 2 = 1) :
    (if c then pageFlgUsr else fl) < frameSize ∧ (if c then pageFlgUsr else fl) % 2 = 1 := by
  split
  · decide
  · exact hfl

theorem pageDirIndex_user {va : Nat} (h : va < kernelVStart) : pageDirIndex va < userSlots := by
  unfold userSlots pageDirIndex
  unfold kernelVStart at *
  omega

/-- The table and the frame of a page below the kernel. -/
theorem Tagged.walk {va : Nat} (hs : Tagged ρ s) (hD : ρ D = .task D .dir) (hva : va < kernelVStart)
    (hset : entrySet (word s D (pageDirIndex va)) = true) :
    ρ (frameOf (word s D (pageDirIndex va))) = .task D .table ∧
      (frameOf (word s (frameOf (word s D (pageDirIndex va))) (pageTableIndex va)) = 0 ∨
        ρ (frameOf (word s (frameOf (word s D (pageDirIndex va))) (pageTableIndex va))) =
          .task D .page) := by
  have htable : ρ (frameOf (word s D (pageDirIndex va))) = .task D .table := by
    rcases hs.dir D D hD _ (pageDirIndex_user hva) with hzero | ⟨-, htag⟩
    · rw [hzero] at hset
      exact absurd hset (by decide)
    · exact htag
  refine ⟨htable, ?_⟩
  have hpages : (ρ (frameOf (word s D (pageDirIndex va)))).pages = some (.task D .page) := by
    rw [htable]
    rfl
  rcases hs.table _ _ hpages _ (pageTableIndex_lt va) with hzero | ⟨-, htag⟩
  · rw [hzero]
    exact Or.inl rfl
  · exact Or.inr htag

/-! ## The whole region -/

/-- Induction on the rounds: the tags and mappings that the next round needs are those that
the last one leaves. -/
theorem mapRegionLoop_spec {vaEnd n dirFlg : Nat} {last : Option Nat}
    (hflag : flag < frameSize ∧ flag % 2 = 1) (ht : t.pages = some tp)
    (h : Editing ρ s dir revTb D R t) (hk : Spares K P ρ D R t)
    (hdirFlg : dirFlg < frameSize ∧ dirFlg % 2 = 1) (hva : va < 2 ^ 32)
    (hnow : ∀ p, ptNow = some p → LeadsTo ρ s t p)
    (hnew : ∀ p, newPt = some p → LeadsTo ρ s t p)
    (hfirst : ptNow = none → entrySet (word s D (pageDirIndex va)) = true →
      ρ (frameOf (word s D (pageDirIndex va))) = t)
    (hrun : mapRegionLoop dir revTb vaEnd flag n s newPt ptNow dirFlg va = some (last, s')) :
    ∃ ρ', Tagged ρ' s' ∧ Extends K P ρ s ρ' s' ∧ (∀ p, last = some p → LeadsTo ρ' s' t p) ∧
      ∀ i < 1024, pageDirIndex vaEnd < i → word s' D i = word s D i := by
  induction n generalizing ρ s newPt ptNow dirFlg va with
  | zero => exact absurd hrun (by simp [mapRegionLoop])
  | succ n ih =>
      rw [mapRegionLoop] at hrun
      split at hrun
      next hle =>
        obtain ⟨⟨new, pt, s₁⟩, hsel, hrun⟩ := Option.bind_eq_some_iff.mp hrun
        obtain ⟨s₂, hfill, hrun⟩ := Option.bind_eq_some_iff.mp hrun
        have hfl := pageFlgUsr_or_kernel (c := va < kernelVStart) hdirFlg
        obtain ⟨ρ₁, T, htag₁, hext₁, hpt₁, hT₁, hnew₁, hsame₁⟩ :=
          selectTable_spec h hk hva hfl.1 hfl.2 hnow hfirst hsel
        have hk₁ := hk.mono hext₁ h.tagged htag₁
        have hed₁ := h.mono hk hext₁ htag₁
        obtain ⟨ρ₂, htag₂, hext₂, hpt₂, hT₂, -, hsame₂⟩ :=
          fillEntry_spec hed₁ hk₁ hflag.1 hflag.2 ht hpt₁ hT₁ hfill
        have hleads : LeadsTo ρ₂ s₂ t pt := ⟨T, hpt₂, hT₂⟩
        have hDT : D ≠ T := by
          rintro rfl
          have hnone := hed₁.dirPages
          rw [hT₁, ht] at hnone
          exact absurd hnone (by simp)
        obtain ⟨ρ', htag', hext', hlast, hsame'⟩ := ih (hed₁.mono hk₁ hext₂ htag₂)
          (hk₁.mono hext₂ htag₁ htag₂) hfl (u32_lt _)
          (fun p hp => Option.some.inj hp ▸ hleads)
          (fun p hp => by
            rcases hnew₁ with hnone | hsome
            · exact absurd (hnone.symm.trans hp) (by simp)
            · exact Option.some.inj (hsome.symm.trans hp) ▸ hleads)
          (fun hnone => absurd hnone (by simp)) hrun
        refine ⟨ρ', htag', (hext₁.trans hext₂).trans hext', hlast, fun i hi hend => ?_⟩
        have hdi : pageDirIndex va ≤ pageDirIndex vaEnd := Nat.div_le_div_right hle
        rw [hsame' i hi hend, hsame₂ D h.dir_ne (hk₁.mapped D hk.dir).1 i hi (Or.inl hDT),
          hsame₁ i hi (by omega)]
      next =>
        obtain ⟨rfl, rfl⟩ : newPt = last ∧ s = s' := by simpa using hrun
        exact ⟨ρ, h.tagged, Extends.refl K P ρ s, hnew, fun _ _ _ => rfl⟩

/-- The mapping of the reverse table that an operation finds or makes. It is deleted at the end
only if it was not there before. -/
structure RevMapped (s s₁ : Machine) (R revTb : Nat) (fresh : Bool) : Prop where
  only : OnlyFrame sysTb s s₁
  leads : tempFrame s₁ revTb = some R
  slots : ∀ k g, tempFrame s k = some g → tempFrame s₁ k = some g
  absent : fresh = true → tempFrame s revTb = none

/-- The mapping of the reverse table is found, or made and marked as new. -/
theorem getRevTable_cases {fresh : Bool} (hdir : tempFrame s dir = some D)
    (h : getRevTable s dir = some (revTb, fresh, s₁)) :
    (fresh = false ∧ s₁ = s ∧ tempFrame s revTb = some (frameOf (word s D 1023))) ∨
      (fresh = true ∧ Created s s₁ revTb (frameOf (word s D 1023))) := by
  rw [getRevTable] at h
  obtain ⟨found, hfound, hrev⟩ := Option.bind_eq_some_iff.mp h
  rw [lookupPtTempVa] at hfound
  obtain ⟨g, hphy, hfound⟩ := Option.bind_eq_some_iff.mp hfound
  obtain ⟨-, rfl⟩ := ptPhyFromDir_eq hdir hphy
  split at hfound
  next => exact absurd hfound (by simp)
  next hne =>
    obtain rfl := Option.some.inj hfound
    cases hlook : lookupTempVa s (frameOf (word s D 1023)) with
    | some i =>
        rw [hlook] at hrev
        obtain ⟨rfl, rfl, rfl⟩ : i = revTb ∧ false = fresh ∧ s = s₁ := by simpa using hrev
        exact Or.inl ⟨rfl, rfl, lookupTempVa_spec hlook⟩
    | none =>
        rw [hlook] at hrev
        obtain ⟨⟨i, s₂⟩, hget, hret⟩ := Option.map_eq_some_iff.mp hrev
        obtain ⟨rfl, rfl, rfl⟩ : i = revTb ∧ true = fresh ∧ s₂ = s₁ := by simpa using hret
        have hcreate : createTempVa s (frameOf (word s D 1023)) = some (i, s₂) := by
          have htemp : getTempVa s (frameOf (word s D 1023)) = some (i, s₂) := by
            simpa [getPtVa, hphy, hne] using hget
          rw [getTempVa, hlook] at htemp
          exact htemp
        exact Or.inr ⟨rfl, createTempVa_spec hcreate (frameOf_word_lt _ _ _)⟩

theorem getRevTable_spec {fresh : Bool} (hdir : tempFrame s dir = some D)
    (h : getRevTable s dir = some (revTb, fresh, s₁)) :
    RevMapped s s₁ (frameOf (word s D 1023)) revTb fresh := by
  rcases getRevTable_cases hdir h with ⟨rfl, rfl, hleads⟩ | ⟨rfl, hc⟩
  · exact ⟨OnlyFrame.refl _ _, hleads, fun _ _ hg => hg, by simp⟩
  · exact ⟨hc.only, hc.leads, fun k g hg => hc.slot_kept hg, fun _ => hc.absent⟩

theorem requestRegionVmap_cases {vaStart size : Nat}
    (h : requestRegionVmap s dir vaStart size flag = some s') :
    ∃ revTb s₁ fresh newPt s₂, getRevTable s dir = some (revTb, fresh, s₁) ∧
      mapRegionLoop dir revTb (pageAddr (u32 (vaStart + size))) flag pageFuel s₁ none none
        pageFlgKernel (pageAddr vaStart) = some (newPt, s₂) ∧
      s' = if fresh then deleteTempVa (newPt.elim s₂ (deleteTempVa s₂)) revTb
        else newPt.elim s₂ (deleteTempVa s₂) := by
  rw [requestRegionVmap] at h
  obtain ⟨⟨revTb, fresh, s₁⟩, hrev, h⟩ := Option.bind_eq_some_iff.mp h
  obtain ⟨⟨newPt, s₂⟩, hloop, h⟩ := Option.bind_eq_some_iff.mp h
  obtain rfl := Option.some.inj h
  refine ⟨revTb, s₁, fresh, newPt, s₂, hrev, hloop, ?_⟩
  cases newPt <;> rfl

theorem RevMapped.only_last {fresh : Bool} {s₂ : Machine} (h : RevMapped s s₁ R revTb fresh)
    (hs' : s' = if fresh then deleteTempVa s₂ revTb else s₂) : OnlyFrame sysTb s₂ s' := by
  subst hs'
  cases fresh with
  | false => exact OnlyFrame.refl _ _
  | true => exact (deleteTempVa_spec s₂ _).1

/-- Deleting the new mapping of the reverse table leaves what was there before the region. -/
theorem RevMapped.extends {fresh : Bool} {s₂ : Machine}
    (h : RevMapped s s₁ R revTb fresh) (hs₂ : Tagged ρ' s₂)
    (hext : Extends K P ρ s₁ ρ' s₂) (hK : ¬K sysTb)
    (hs' : s' = if fresh then deleteTempVa s₂ revTb else s₂) :
    Tagged ρ' s' ∧ Extends K P ρ s ρ' s' := by
  have hfirst : Extends K P ρ s ρ s₁ := Extends.of_temp h.only hK fun i g hg _ => h.slots i g hg
  have hboth := hfirst.trans hext
  cases fresh with
  | false =>
      obtain rfl : s' = s₂ := hs'
      exact ⟨hs₂, hboth⟩
  | true =>
      obtain rfl : s' = deleteTempVa s₂ revTb := hs'
      exact hboth.delete_new hs₂ (h.absent rfl) hK

/-- A region whose first page lies in a slot of the owner adds tables and pages of the owner. -/
theorem requestRegionVmap_spec {vaStart size : Nat} (hs : Tagged ρ s)
    (hdir : tempFrame s dir = some D) (ho : Owner ρ D (frameOf (word s D 1023)) t)
    (hk : Spares K P ρ D (frameOf (word s D 1023)) t) (ht : t.pages = some tp)
    (hflag : flag < frameSize ∧ flag % 2 = 1) (hva : vaStart < 2 ^ 32)
    (hfirst : entrySet (word s D (pageDirIndex (pageAddr vaStart))) = true →
      ρ (frameOf (word s D (pageDirIndex (pageAddr vaStart)))) = t)
    (h : requestRegionVmap s dir vaStart size flag = some s') :
    ∃ ρ', Tagged ρ' s' ∧ Extends K P ρ s ρ' s' ∧
      ∀ i < 1024, pageDirIndex (pageAddr (u32 (vaStart + size))) < i →
        word s' D i = word s D i := by
  have hsysK : ¬K sysTb := fun hK => (hk.kept sysTb hK).1 rfl
  have hpage : pageAddr vaStart < 2 ^ 32 :=
    Nat.lt_of_le_of_lt (Nat.div_mul_le_self vaStart frameSize) hva
  obtain ⟨revTb, s₁, fresh, newPt, s₂, hget, hloop, hs'⟩ := requestRegionVmap_cases h
  have hrev := getRevTable_spec hdir hget
  have hed : Editing ρ s₁ dir revTb D (frameOf (word s D 1023)) t :=
    ⟨ho, hs.of_temp hrev.only, hrev.slots _ _ hdir, hrev.leads⟩
  have hword := hrev.only.words D ho.dir_ne _ (pageDirIndex_lt hpage)
  obtain ⟨ρ', htag, hext, hlast, hsame⟩ := mapRegionLoop_spec hflag ht hed hk (by decide) hpage
    (fun p hp => absurd hp (by simp)) (fun p hp => absurd hp (by simp))
    (fun _ => hword ▸ hfirst) hloop
  have honly := hrev.only_last hs'
  have hdirWord : ∀ i < 1024, pageDirIndex (pageAddr (u32 (vaStart + size))) < i →
      word (newPt.elim s₂ (deleteTempVa s₂)) D i = word s₂ D i → word s' D i = word s D i := by
    intro i hi hend heq
    rw [honly.words D ho.dir_ne i hi, heq, hsame i hi hend, hrev.only.words D ho.dir_ne i hi]
  refine ⟨ρ', ?_⟩
  cases newPt with
  | none =>
      obtain ⟨htag', hext'⟩ := hrev.extends htag hext hsysK hs'
      exact ⟨htag', hext', fun i hi hend => hdirWord i hi hend rfl⟩
  | some p =>
      obtain ⟨T, hT, hρT⟩ := hlast p rfl
      have hk' := hk.mono hext hed.tagged htag
      have hPT : ¬P T := fun hPT => (hk'.mapped T hPT).2.1 hρT
      obtain ⟨htag₂, hext₂⟩ := Extends.delete htag hT hPT hsysK
      obtain ⟨htag', hext'⟩ := hrev.extends htag₂ (hext.trans hext₂) hsysK hs'
      exact ⟨htag', hext', fun i hi hend =>
        hdirWord i hi hend ((deleteTempVa_spec s₂ p).1.words D ho.dir_ne i hi)⟩

end TsOs.Paging
