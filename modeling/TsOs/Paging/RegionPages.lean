import TsOs.Paging.Landing

/-!
# Regions that hit their own tables

After `request_region_vmap` every page of the region has a frame, the pages that had one keep
it, and no other entry has changed, exactly when each page whose slot keeps the table of an
earlier slot has a frame already, and nothing is entered in its place.
-/

namespace TsOs.Paging

variable {s s' s₁ : Machine} {D R T d i j f g p q a b u k flag fl dir revTb pt va vaStart size : Nat}
  {newPt ptNow : Option Nat} {κ : Nat → Use}

/-- The slot has got a table. -/
def NewTable (s s' : Machine) (D d : Nat) : Prop :=
  entrySet (word s D d) = false ∧ entrySet (word s' D d) = true

/-- The pages from `a` to `b` are present in their own tables: those that were not have new frames of
zeros, and the others are as before. Entries of other pages are as before, but for the entries
of the reverse table that name the new tables. -/
structure Mapped (s s' : Machine) (D a b flag : Nat) : Prop where
  present : ∀ p, a ≤ p → p ≤ b → entrySet (pageWord s' D p) = true
  kept : ∀ p, a ≤ p → p ≤ b → entrySet (pageWord s D p) = true → pageWord s' D p = pageWord s D p
  fresh : ∀ p, a ≤ p → p ≤ b → entrySet (pageWord s D p) = false →
    ∃ f, Idle s f ∧ pageWord s' D p = pageEntry f flag ∧ ∀ j < 1024, word s' f j = 0
  tables : ∀ d < 1024, NewTable s s' D d → Idle s (tableOf s' D d)
  distinct : ∀ p q, a ≤ p → p ≤ b → a ≤ q → q ≤ b → entrySet (pageWord s D p) = false →
    entrySet (pageWord s D q) = false → p ≠ q → frameOf (pageWord s' D p) ≠ frameOf (pageWord s' D q)
  apart : ∀ p d, a ≤ p → p ≤ b → entrySet (pageWord s D p) = false → d < 1024 → NewTable s s' D d →
    frameOf (pageWord s' D p) ≠ tableOf s' D d
  outside : ∀ p < 2 ^ 20, ¬(a ≤ p ∧ p ≤ b) → ¬(p / 1024 = 1023 ∧ NewTable s s' D (p % 1024)) →
    pageWord s' D p = pageWord s D p

/-- A page whose slot keeps the table of an earlier slot is present, and so is the page that is
visited in its place, unless that one is a page of the region too. -/
def Lands (s : Machine) (D a b : Nat) : Prop :=
  ∀ p, a ≤ p → p ≤ b → tableSlot s D a p ≠ p / 1024 → entrySet (pageWord s D p) = true ∧
    (entrySet (pageWord s D (tableSlot s D a p * 1024 + p % 1024)) = true ∨
      a ≤ tableSlot s D a p * 1024 + p % 1024)

/-- There are frames for the pages and for the tables, and entries for four temporary mappings. -/
structure Available (s : Machine) (a b : Nat) : Prop where
  frames : IdleFrames s (b - a + 1 + (b / 1024 - a / 1024 + 1))
  temps : FreeTemps s 4

/-! ## The whole call -/

section Call

variable (hd : Directory s D) (hdir : tempFrame s dir = some D) (hflag : flag < frameSize ∧ flag % 2 = 1)
  (hsize : vaStart + size < 2 ^ 32)
include hd hdir hsize

omit hd hdir in
theorem region_bounds : vaStart / frameSize ≤ (vaStart + size) / frameSize ∧
    (vaStart + size) / frameSize < 2 ^ 20 ∧
    pageAddr (u32 (vaStart + size)) = (vaStart + size) / frameSize * frameSize := by
  refine ⟨Nat.div_le_div_right (Nat.le_add_right _ _), ?_, ?_⟩
  · unfold frameSize
    omega
  · rw [u32_of_lt hsize]
    rfl

omit hsize in
/-- In front of the first page nothing has been done but to map the reverse table. -/
theorem RevMapped.start {fresh : Bool} (hrev : RevMapped s s₁ (tableOf s D 1023) revTb fresh) (a flag : Nat) :
    Filled (fun _ => .none) s s₁ D (tableOf s D 1023) flag (Made s D a a) (Visited s D a a) ∧
      Ready s s₁ D a a dir revTb none := by
  refine ⟨((Filled.refl s D (tableOf s D 1023) flag).of_temp hd hrev.only).congr ?_ ?_,
    hrev.slots _ _ hdir, hrev.leads, Or.inl ⟨rfl, rfl⟩⟩
  · rintro d
    exact iff_of_false (fun ⟨_, q, haq, hqa, _⟩ => by omega) id
  · rintro d i
    exact iff_of_false (fun ⟨q, haq, hqa, _⟩ => by omega) id

include hflag in
/-- What a completed call has done: it has filled in the pages, it keeps the mapping of the directory,
and it writes no bystander. -/
theorem requestRegionVmap_kept (h : requestRegionVmap s dir vaStart size flag = some s') :
    (vaStart + size) / frameSize + 1 < 2 ^ 20 ∧
      (∃ κ, Filled κ s s' D (tableOf s D 1023) flag
        (Made s D (vaStart / frameSize) ((vaStart + size) / frameSize + 1))
        (Visited s D (vaStart / frameSize) ((vaStart + size) / frameSize + 1))) ∧
      tempFrame s' dir = some D ∧ ∀ g, Bystander s D g → ∀ j < 1024, word s' g j = word s g j := by
  obtain ⟨hab, hbmax, hend⟩ := region_bounds hsize
  obtain ⟨revTb, s₁, fresh, newPt, s₂, hget, hloop, hs'⟩ := requestRegionVmap_cases h
  have hrev := getRevTable_spec hdir hget
  have hstart : pageAddr vaStart = vaStart / frameSize * frameSize := rfl
  rw [hend, hstart] at hloop
  have hb : (vaStart + size) / frameSize + 1 < 2 ^ 20 := by
    by_contra hlast
    have hlast : (vaStart + size) / frameSize = 2 ^ 20 - 1 := by omega
    rw [hlast] at hloop
    exact mapRegionLoop_last (by omega) _ hloop
  obtain ⟨hfirst, hr⟩ := hrev.start hd hdir (vaStart / frameSize) flag
  obtain ⟨κ, now, hlast, hready, hnew, hwords⟩ :=
    mapRegionLoop_filled hd hflag hb (le_refl _) (by omega) hfirst hr (Or.inl rfl) (by decide) hloop
  have hdelete : OnlyFrame sysTb s₂ (newPt.elim s₂ (deleteTempVa s₂)) := by
    cases newPt with
    | none => exact OnlyFrame.refl _ _
    | some pt => exact (deleteTempVa_spec s₂ pt).1
  have honly := hdelete.trans (hrev.only_last hs')
  refine ⟨hb, ⟨κ, hlast.of_temp hd honly⟩, ?_, fun g hg j hj => ?_⟩
  · -- The mappings that are deleted lead to tables.
    have hne : dir ≠ revTb := by
      rintro rfl
      exact hd.ne_dir 1023 (by decide) hd.reverse (Option.some.inj (hready.rev.symm.trans hready.dir))
    have hleads : tempFrame (newPt.elim s₂ (deleteTempVa s₂)) dir = some D := by
      cases newPt with
      | none => exact hready.dir
      | some pt =>
          refine ((deleteTempVa_spec s₂ pt).2 dir ?_).trans hready.dir
          rintro rfl
          obtain rfl := hnew.resolve_left (by simp)
          rcases hready.inUse with ⟨-, hnone⟩ | ⟨hlt, old, hold, htable⟩
          · exact absurd hnone (by simp)
          · obtain rfl := Option.some.inj hold
            have hslot : tableSlot s D (vaStart / frameSize) ((vaStart + size) / frameSize) < 1024 := by
              have := (tableSlot_le (s := s) (D := D) hab).2
              omega
            refine (hlast.tables hd).ne_dir _ hslot ?_ (Option.some.inj (htable.symm.trans hready.dir))
            exact hlast.visited _ hslot _ ⟨_, hab, Nat.lt_succ_self _, rfl, rfl⟩
    rw [hs']
    cases fresh with
    | false => exact hleads
    | true => exact ((deleteTempVa_spec _ revTb).2 dir hne).trans hleads
  · rw [honly.words g hg.ne_sysTb j hj, hwords g hg j hj]
    exact hrev.only.words g hg.ne_sysTb j hj

include hflag in
theorem requestRegionVmap_filled (h : requestRegionVmap s dir vaStart size flag = some s') :
    (vaStart + size) / frameSize + 1 < 2 ^ 20 ∧
      ∃ κ, Filled κ s s' D (tableOf s D 1023) flag (Made s D (vaStart / frameSize) ((vaStart + size) / frameSize + 1))
        (Visited s D (vaStart / frameSize) ((vaStart + size) / frameSize + 1)) := by
  obtain ⟨hb, hfilled, -, -⟩ := requestRegionVmap_kept hd hdir hflag hsize h
  exact ⟨hb, hfilled⟩

omit hsize in
theorem getRevTable_returns (hm : FreeTemps s 4) :
    ∃ revTb fresh s₁, getRevTable s dir = some (revTb, fresh, s₁) ∧ FreeTemps s₁ 3 := by
  have hphy : ptPhyFromDir s dir 1023 = some (frameOf (word s D 1023)) := by
    rw [ptPhyFromDir, peek_eq hdir, Option.bind_eq_bind, Option.bind_some, if_pos hd.reverse]
  have hne : frameOf (word s D 1023) ≠ 0 := hd.ne_zero 1023 (by decide) hd.reverse
  have hlook : lookupPtTempVa s dir 1023 = some (lookupTempVa s (frameOf (word s D 1023))) := by
    rw [lookupPtTempVa, hphy, Option.bind_eq_bind, Option.bind_some, if_neg hne]
  rw [getRevTable, hlook, Option.bind_some]
  cases hfound : lookupTempVa s (frameOf (word s D 1023)) with
  | some i => exact ⟨i, false, s, rfl, hm.mono (by decide)⟩
  | none =>
      obtain ⟨i, s₁, hcreate⟩ := createTempVa_returns hm (frameOf (word s D 1023))
      have hc := createTempVa_spec hcreate (frameOf_word_lt _ _ _)
      have hget : getPtVa s dir 1023 = some (i, s₁) := by
        rw [getPtVa, hphy, Option.bind_eq_bind, Option.bind_some, if_neg hne, getTempVa, hfound]
        exact hcreate
      refine ⟨i, true, s₁, ?_, FreeTemps.take hm hc.others⟩
      dsimp only
      rw [hget]
      rfl

include hflag in
theorem requestRegionVmap_returns (hb : (vaStart + size) / frameSize + 1 < 2 ^ 20)
    (hav : Available s (vaStart / frameSize) ((vaStart + size) / frameSize)) :
    ∃ s', requestRegionVmap s dir vaStart size flag = some s' := by
  obtain ⟨hab, -, hend⟩ := region_bounds hsize
  obtain ⟨revTb, fresh, s₁, hget, hm⟩ := getRevTable_returns hd hdir hav.temps
  have hrev := getRevTable_spec hdir hget
  obtain ⟨hfirst, hr⟩ := hrev.start hd hdir (vaStart / frameSize) flag
  have hfuel : pageFuel = 2 ^ 20 + 1 := rfl
  obtain ⟨last, s₂, hloop⟩ := mapRegionLoop_returns hd hflag hb pageFuel none (le_refl _)
    (by omega) (Nat.le_add_right_of_le (by omega)) hfirst hr
    (show pageFlgKernel < frameSize ∧ _ from by decide)
    (fun _ => (hav.frames.congr hrev.only.bitmap).mono (by split <;> omega)) hm
  have hstart : pageAddr vaStart = vaStart / frameSize * frameSize := rfl
  rw [← hend, ← hstart] at hloop
  rw [requestRegionVmap]
  simp only [Option.bind_eq_bind, hget, Option.bind_some, hloop]
  exact ⟨_, rfl⟩

end Call

/-! ## The pages of the region -/

theorem pageWord_at (hi : i < 1024) : pageWord s D (u * 1024 + i) = tableEntry s D u i := by
  have hdiv : (u * 1024 + i) / 1024 = u := by omega
  have hmod : (u * 1024 + i) % 1024 = i := by omega
  rw [pageWord, hdiv, hmod]

section Pages

variable (hd : Directory s D) (hflag : flag < frameSize ∧ flag % 2 = 1) (hb : b + 1 < 2 ^ 20)
  (h : Filled κ s s' D (tableOf s D 1023) flag (Made s D a (b + 1)) (Visited s D a (b + 1)))
include h

/-- The slots that have got a table are those of the pages. -/
theorem Filled.newTable_iff (hdlt : d < 1024) : NewTable s s' D d ↔ Made s D a (b + 1) d := by
  constructor
  · rintro ⟨hclear, hset⟩
    refine ((h.set_iff hdlt).mp hset).resolve_right ?_
    rw [hclear]
    exact Bool.false_ne_true
  · intro hmade
    exact ⟨hmade.1, (h.set_iff hdlt).mpr (Or.inl hmade)⟩

include hd in
/-- An entry that was there is as before: a slot of the reverse table only has one if there was a table. -/
theorem Filled.pageWord_kept (hp : p < 2 ^ 20) (hset : entrySet (pageWord s D p) = true) :
    pageWord s' D p = pageWord s D p := by
  refine h.same _ (by omega) _ (Nat.mod_lt _ (by decide)) ?_ fun _ => hset
  rintro ⟨hlast, hmade⟩
  rw [pageWord, hlast, tableEntry_of_set hd.reverse,
    hd.mirror _ (Nat.mod_lt _ (by decide)) hmade.1] at hset
  exact absurd hset (by decide)

include hb in
/-- A page in its own table that was not there has a new frame. -/
theorem Filled.pageWord_new (hap : a ≤ p) (hpb : p ≤ b) (hown : tableSlot s D a p = p / 1024)
    (hclear : entrySet (pageWord s D p) = false) :
    ∃ f, pageWord s' D p = pageEntry f flag ∧ κ f = .page (p / 1024) (p % 1024) ∧ ∀ j < 1024, word s' f j = 0 :=
  h.filled _ (by omega) _ (Nat.mod_lt _ (by decide)) ⟨p, hap, by omega, hown, rfl⟩ hclear

include hd hflag hb

/-- When the pages land in their tables, the region is mapped. -/
theorem Filled.mapped (hlands : Lands s D a b) : Mapped s s' D a b flag := by
  have hown : ∀ p, a ≤ p → p ≤ b → entrySet (pageWord s D p) = false → tableSlot s D a p = p / 1024 := by
    intro p hap hpb hclear
    by_contra hne
    rw [(hlands p hap hpb hne).1] at hclear
    exact absurd hclear (by decide)
  have hframe : ∀ f, frameOf (pageEntry f flag) = f := fun f => frameOf_pageEntry hflag.1
  have htable : ∀ d < 1024, NewTable s s' D d → κ (tableOf s' D d) = .table d := fun d hdlt hnew =>
    (h.created d hdlt ((h.newTable_iff hdlt).mp hnew)).2
  constructor
  case present =>
    intro p hap hpb
    cases hset : entrySet (pageWord s D p) with
    | true => rw [h.pageWord_kept hd (by omega) hset, hset]
    | false =>
        obtain ⟨f, hf, -, -⟩ := h.pageWord_new hb hap hpb (hown p hap hpb hset) hset
        rw [hf]
        exact entrySet_pageEntry hflag.1 hflag.2
  case kept => exact fun p hap hpb hset => h.pageWord_kept hd (by omega) hset
  case fresh =>
    intro p hap hpb hclear
    obtain ⟨f, hf, huse, hzero⟩ := h.pageWord_new hb hap hpb (hown p hap hpb hclear) hclear
    exact ⟨f, (h.used f (by rw [huse]; simp)).1, hf, hzero⟩
  case tables =>
    intro d hdlt hnew
    exact (h.used _ (by rw [htable d hdlt hnew]; simp)).1
  case distinct =>
    intro p q hap hpb haq hqb hp hq hne heq
    obtain ⟨f, hf, huse, -⟩ := h.pageWord_new hb hap hpb (hown p hap hpb hp) hp
    obtain ⟨g, hg, huse', -⟩ := h.pageWord_new hb haq hqb (hown q haq hqb hq) hq
    rw [hf, hg, hframe, hframe] at heq
    rw [heq, huse'] at huse
    obtain ⟨hslot, hidx⟩ := Use.page.inj huse
    omega
  case apart =>
    intro p d hap hpb hclear hdlt hnew heq
    obtain ⟨f, hf, huse, -⟩ := h.pageWord_new hb hap hpb (hown p hap hpb hclear) hclear
    rw [hf, hframe] at heq
    rw [heq, htable d hdlt hnew] at huse
    exact absurd huse (by simp)
  case outside =>
    intro p hp hout hrev
    refine h.same _ (by omega) _ (Nat.mod_lt _ (by decide)) (fun hboth => hrev ?_) ?_
    · exact ⟨hboth.1, (h.newTable_iff (Nat.mod_lt _ (by decide))).mpr hboth.2⟩
    · -- The page is visited in the place of a page of the region.
      rintro ⟨q, haq, hqb, hslot, hidx⟩
      have hne : tableSlot s D a q ≠ q / 1024 := by
        intro heq
        have hqp : q = p := by omega
        subst hqp
        exact hout ⟨haq, by omega⟩
      have hplace : tableSlot s D a q * 1024 + q % 1024 = p := by omega
      have hle := (tableSlot_le (s := s) (D := D) haq).2
      have hlands' := (hlands q haq (by omega) hne).2
      rw [hplace] at hlands'
      exact hlands'.resolve_right fun hap => hout ⟨hap, by omega⟩

/-- A mapped region has landed in its own tables. -/
theorem Filled.lands (hmap : Mapped s s' D a b flag) : Lands s D a b := by
  intro p hap hpb hne
  obtain ⟨hset, hlt⟩ := set_of_misplaced hap hne
  have hle := (tableSlot_le (s := s) (D := D) hap)
  have hi : p % 1024 < 1024 := Nat.mod_lt _ (by decide)
  constructor
  · -- Nobody visits the entry of the page, so it is there now only if it was.
    by_contra hclear
    rw [Bool.not_eq_true] at hclear
    have hunvisited : ¬Visited s D a (b + 1) (p / 1024) (p % 1024) := by
      rintro ⟨q, haq, hqb, hslot, -⟩
      rcases usedSlot_cases s D (a / 1024) (q / 1024 - a / 1024) with hfirst | hunset
      · have hfirst : tableSlot s D a q = a / 1024 := hfirst
        omega
      · have hunset : entrySet (word s D (tableSlot s D a q)) = false := hunset
        rw [hslot, hset] at hunset
        exact absurd hunset (by decide)
    by_cases hrev : p / 1024 = 1023 ∧ Made s D a (b + 1) (p % 1024)
    · -- The entry of the reverse table names the new table, which is not empty.
      obtain ⟨hlast, hmade⟩ := hrev
      obtain ⟨f, -, hf, hzero⟩ := hmap.fresh p hap hpb hclear
      obtain ⟨hunset, q, haq, hqb, hq⟩ := hmade
      have hnew := h.reverse _ hi ⟨hunset, q, haq, hqb, hq⟩
      have hword : pageWord s' D p = word s' (tableOf s D 1023) (p % 1024) := by
        rw [pageWord, hlast, tableEntry_of_set (h.tables hd).reverse, (h.reverse_eq hd).2]
      have hframe : tableOf s' D (p % 1024) = f := by
        have heq := congrArg frameOf (hnew.symm.trans (hword.symm.trans hf))
        rwa [frameOf_pageEntry (by decide), frameOf_pageEntry hflag.1] at heq
      have hpresent := hmap.present q haq (by omega)
      have hqset : entrySet (word s' D (q / 1024)) = true :=
        (h.set_iff (by omega)).mpr (Or.inl ⟨hq ▸ hunset, q, haq, hqb, rfl⟩)
      rw [pageWord, tableEntry_of_set hqset, hq, hframe, hzero _ (Nat.mod_lt _ (by decide))] at hpresent
      exact absurd hpresent (by decide)
    · have hsame := h.same _ (by omega) _ hi hrev fun hvisited => absurd hvisited hunvisited
      have hpresent := hmap.present p hap hpb
      rw [pageWord, hsame] at hpresent
      exact absurd (hpresent.symm.trans hclear) (by decide)
  · -- The entry visited instead is there now, so it was if it belongs to no page of the region.
    by_contra hboth
    obtain ⟨hclear, hout⟩ := not_or.mp hboth
    rw [Bool.not_eq_true] at hclear
    have hplace : pageWord s D (tableSlot s D a p * 1024 + p % 1024) =
        tableEntry s D (tableSlot s D a p) (p % 1024) := pageWord_at hi
    have hplace' : pageWord s' D (tableSlot s D a p * 1024 + p % 1024) =
        tableEntry s' D (tableSlot s D a p) (p % 1024) := pageWord_at hi
    have hsame := hmap.outside (tableSlot s D a p * 1024 + p % 1024) (by omega) (fun hin => hout hin.1)
      fun hrev => by omega
    rw [hplace] at hclear
    obtain ⟨f, hf, -⟩ := h.filled _ (by omega) _ hi ⟨p, hap, by omega, rfl, rfl⟩ hclear
    rw [hplace, hplace', hf] at hsame
    rw [← hsame, entrySet_pageEntry hflag.1 hflag.2] at hclear
    exact absurd hclear (by decide)

end Pages

/-- With frames and temporary mappings for it, the call maps the region exactly when the region does not
reach the last page of the address space and the pages land in their own tables. -/
theorem requestRegionVmap_iff (hd : Directory s D) (hdir : tempFrame s dir = some D)
    (hflag : flag < frameSize ∧ flag % 2 = 1) (hsize : vaStart + size < 2 ^ 32)
    (hav : Available s (vaStart / frameSize) ((vaStart + size) / frameSize)) :
    (∃ s', requestRegionVmap s dir vaStart size flag = some s' ∧
      Mapped s s' D (vaStart / frameSize) ((vaStart + size) / frameSize) flag) ↔
    (vaStart + size) / frameSize + 1 < 2 ^ 20 ∧
      Lands s D (vaStart / frameSize) ((vaStart + size) / frameSize) := by
  constructor
  · rintro ⟨s', hrun, hmap⟩
    obtain ⟨hb, κ, hfilled⟩ := requestRegionVmap_filled hd hdir hflag hsize hrun
    exact ⟨hb, hfilled.lands hd hflag hb hmap⟩
  · rintro ⟨hb, hlands⟩
    obtain ⟨s', hrun⟩ := requestRegionVmap_returns hd hdir hflag hsize hb hav
    obtain ⟨-, κ, hfilled⟩ := requestRegionVmap_filled hd hdir hflag hsize hrun
    exact ⟨s', hrun, hfilled.mapped hd hflag hb hlands⟩

/-- A machine with one directory, in frame 4200, whose slots from 768 on have the four tables of the early
initialisation; the stack of the user is not mapped yet. -/
def stackMachine : Machine where
  mem := fun f i =>
    if f = sysTb ∧ i = 0 then BitVec.ofNat 32 (pageEntry 4200 pageFlgKernel)
    else if f = 4200 ∧ 768 ≤ i ∧ i < 772 then BitVec.ofNat 32 (pageEntry (dir0Pt i) pageFlgKernel)
    else if f = 4200 ∧ i = 1023 then BitVec.ofNat 32 (pageEntry 4201 pageP)
    else if dir0Pt 768 ≤ f ∧ f < dir0Pt 772 then
      BitVec.ofNat 32 (pageEntry ((f - dir0Pt 768) * 1024 + i) pageP)
    else 0
  bitmap := frameBset (frameBset (fun _ => 0#8) (4200 * frameSize)) (4201 * frameSize)

instance (s : Machine) (f : Nat) : Decidable (Idle s f) := inferInstanceAs (Decidable (_ ∧ _))

/-- The slots of the directory with their tables. -/
theorem stackMachine_slot : ∀ d < 1024, entrySet (word stackMachine 4200 d) = true →
    (768 ≤ d ∧ d < 772) ∧ tableOf stackMachine 4200 d = 257 + d ∨
      d = 1023 ∧ tableOf stackMachine 4200 d = 4201 := by
  decide +kernel

theorem stackMachine_directory : Directory stackMachine 4200 where
  dir_ne := by decide
  dir_busy := by decide
  ne_zero := by
    intro d hd hset
    rcases stackMachine_slot d hd hset with ⟨-, htable⟩ | ⟨-, htable⟩ <;> omega
  ne_dir := by
    intro d hd hset
    rcases stackMachine_slot d hd hset with ⟨-, htable⟩ | ⟨-, htable⟩ <;> omega
  ne_sysTb := by
    intro d hd hset
    have hsys : sysTb = 1279 := rfl
    rcases stackMachine_slot d hd hset with ⟨hd', htable⟩ | ⟨-, htable⟩ <;> omega
  busy := by
    intro d hd hset
    rcases stackMachine_slot d hd hset with ⟨hd, htable⟩ | ⟨-, htable⟩
    · have huser : userFrame = 4096 := rfl
      rintro ⟨hlow, -⟩
      omega
    · rw [htable]
      decide
  distinct := by
    intro d hd d' hd' hset hset' heq
    rcases stackMachine_slot d hd hset with ⟨hd, htable⟩ | ⟨rfl, htable⟩
    · rcases stackMachine_slot d' hd' hset' with ⟨hd', htable'⟩ | ⟨rfl, htable'⟩ <;> omega
    · rcases stackMachine_slot d' hd' hset' with ⟨hd', htable'⟩ | ⟨rfl, htable'⟩ <;> omega
  reverse := by decide
  mirror := by decide +kernel

theorem stackMachine_available {a b : Nat} (hab : b - a + (b / 1024 - a / 1024) ≤ 8) : Available stackMachine a b where
  frames := by
    have hidle : ∀ f ∈ Finset.Ico 5000 5010, Idle stackMachine f := by decide
    exact ⟨Finset.Ico 5000 5010, hidle, by rw [Nat.card_Ico]; omega⟩
  temps := by
    have hfree : ∀ i ∈ Finset.Ico 1 5, i < 1024 ∧ tempFrame stackMachine i = none := by decide
    exact ⟨Finset.Ico 1 5, hfree, by rw [Nat.card_Ico]⟩

theorem requestRegionVmap_sample :
    (∃ s', requestRegionVmap stackMachine 0 (2 ^ 22) 5000 pageFlgUsr = some s' ∧
      Mapped stackMachine s' 4200 (2 ^ 22 / frameSize) ((2 ^ 22 + 5000) / frameSize) pageFlgUsr) ↔
    (2 ^ 22 + 5000) / frameSize + 1 < 2 ^ 20 ∧
      Lands stackMachine 4200 (2 ^ 22 / frameSize) ((2 ^ 22 + 5000) / frameSize) :=
  requestRegionVmap_iff stackMachine_directory (by decide) (by decide) (by decide)
    (stackMachine_available (by decide))

/-- The stack of a task is mapped up to the first page of the kernel, and gets a second page in its place,
the first one in the table of the stack. -/
theorem requestRegionVmap_stack :
    (∃ s', requestRegionVmap stackMachine 0 ustackFrame frameSize pageFlgUsr = some s') ∧
      ¬∃ s', requestRegionVmap stackMachine 0 ustackFrame frameSize pageFlgUsr = some s' ∧
        Mapped stackMachine s' 4200 (ustackFrame / frameSize) ((ustackFrame + frameSize) / frameSize)
          pageFlgUsr := by
  have hdir : tempFrame stackMachine 0 = some 4200 := by decide
  have hsize : ustackFrame + frameSize < 2 ^ 32 := by decide
  have hflag : pageFlgUsr < frameSize ∧ pageFlgUsr % 2 = 1 := by decide
  refine ⟨requestRegionVmap_returns stackMachine_directory hdir hflag hsize (by decide)
    (stackMachine_available (by decide)), ?_⟩
  rintro ⟨s', hrun, hmap⟩
  obtain ⟨hb, κ, hfilled⟩ := requestRegionVmap_filled stackMachine_directory hdir hflag hsize hrun
  have hkernel := (hfilled.lands stackMachine_directory hflag hb hmap (kernelVStart / frameSize) (by decide)
    (by decide) (by decide)).2
  exact absurd hkernel (by decide)

end TsOs.Paging
