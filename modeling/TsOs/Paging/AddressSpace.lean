import TsOs.Paging.RegionPages

/-!
# Address spaces

The pages of user memory in one directory: a page is absent and its entry is zero, or it has a
frame of its own. `request_region_vmap` keeps the pages that are present with what is on them,
and a page that gets a frame holds zeros. A write to the frame of a page changes that page only.
-/

namespace TsOs.Paging

variable {s s' s₁ : Machine} {D R a b d f g i j p q dir flag vaStart size : Nat} {κ : Nat → Use}

/-- The number of pages of user memory. -/
def userPages : Nat := kernelVStart / frameSize

/-- The page has a frame. -/
def PagePresent (s : Machine) (D p : Nat) : Prop := entrySet (pageWord s D p) = true

instance (s : Machine) (D p : Nat) : Decidable (PagePresent s D p) := inferInstanceAs (Decidable (_ = _))

/-- The frame of a page. -/
def pageFrame (s : Machine) (D p : Nat) : Nat := frameOf (pageWord s D p)

/-- Word `j` of a page. -/
def pageData (s : Machine) (D p j : Nat) : Nat := word s (pageFrame s D p) j

/-- The pages of user memory are absent or have frames of their own, which are in use and are neither
tables nor frame 0. -/
structure AddressSpace (s : Machine) (D : Nat) : Prop extends Directory s D where
  dir_ne_zero : D ≠ 0
  zero : ∀ p < userPages, ¬PagePresent s D p → pageWord s D p = 0
  bystander : ∀ p < userPages, PagePresent s D p → Bystander s D (pageFrame s D p)
  frame_ne_zero : ∀ p < userPages, PagePresent s D p → pageFrame s D p ≠ 0
  own : ∀ p < userPages, ∀ q < userPages, PagePresent s D p → PagePresent s D q →
    pageFrame s D p = pageFrame s D q → p = q

theorem userPages_slot (hp : p < userPages) : p / 1024 < 768 := by
  have hpages : userPages = 768 * 1024 := by decide
  omega

theorem userPages_lt (hp : p < userPages) : p < 2 ^ 20 := Nat.lt_trans hp (by decide)

/-- A directory without tables in user memory. -/
theorem Directory.space (hd : Directory s D) (hD : D ≠ 0)
    (hclear : ∀ d < 768, entrySet (word s D d) = false) : AddressSpace s D := by
  have hzero : ∀ p < userPages, pageWord s D p = 0 :=
    fun p hp => tableEntry_of_clear (hclear _ (userPages_slot hp))
  have habsent : ∀ p < userPages, ¬PagePresent s D p := by
    intro p hp hpresent
    rw [PagePresent, hzero p hp] at hpresent
    exact absurd hpresent (by decide)
  exact ⟨hd, hD, fun p hp _ => hzero p hp, fun p hp h => absurd h (habsent p hp),
    fun p hp h => absurd h (habsent p hp), fun p hp _ _ h => absurd h (habsent p hp)⟩

/-! ## Writes elsewhere -/

/-- The directory and its tables are as before, and the same frames are idle. -/
structure SameTables (s s' : Machine) (D : Nat) : Prop where
  slots : ∀ d < 1024, word s' D d = word s D d
  entries : ∀ d < 1024, entrySet (word s D d) = true → ∀ i < 1024,
    word s' (tableOf s D d) i = word s (tableOf s D d) i
  idle : ∀ f, Idle s' f ↔ Idle s f

theorem OnlyFrame.sameTables (h : OnlyFrame f s s') (hD : f ≠ D)
    (hT : ∀ d < 1024, entrySet (word s D d) = true → f ≠ tableOf s D d) : SameTables s s' D where
  slots := h.words D hD.symm
  entries := fun d hd hset => h.words _ (hT d hd hset).symm
  idle := by
    intro g
    unfold Idle
    rw [h.bitmap]

/-- Changes of the temporary mappings. -/
theorem Tables.sameTables (hd : Tables s D) (h : OnlyFrame sysTb s s') : SameTables s s' D :=
  h.sameTables hd.dir_ne.symm fun d hdlt hset => (hd.ne_sysTb d hdlt hset).symm

theorem Bystander.sameTables (hg : Bystander s D f) (h : OnlyFrame f s s') : SameTables s s' D :=
  h.sameTables hg.ne_dir hg.ne_table

namespace SameTables

variable (h : SameTables s s' D)
include h

theorem tableOf_eq (hd : d < 1024) : tableOf s' D d = tableOf s D d := congrArg frameOf (h.slots d hd)

theorem tableEntry_eq (hd : d < 1024) (hi : i < 1024) : tableEntry s' D d i = tableEntry s D d i := by
  unfold tableEntry
  rw [h.slots d hd, h.tableOf_eq hd]
  split
  next hset => exact h.entries d hd hset i hi
  next => rfl

theorem pageWord_eq (hp : p < 2 ^ 20) : pageWord s' D p = pageWord s D p :=
  h.tableEntry_eq (by omega) (Nat.mod_lt _ (by decide))

theorem present_iff (hp : p < 2 ^ 20) : PagePresent s' D p ↔ PagePresent s D p := by
  rw [PagePresent, PagePresent, h.pageWord_eq hp]

theorem pageFrame_eq (hp : p < 2 ^ 20) : pageFrame s' D p = pageFrame s D p :=
  congrArg frameOf (h.pageWord_eq hp)

theorem trans {s'' : Machine} (h' : SameTables s' s'' D) : SameTables s s'' D where
  slots := fun d hd => (h'.slots d hd).trans (h.slots d hd)
  entries := by
    intro d hd hset i hi
    rw [← h.entries d hd hset i hi, ← h.tableOf_eq hd]
    exact h'.entries d hd (by rw [h.slots d hd, hset]) i hi
  idle := fun f => (h'.idle f).trans (h.idle f)

theorem tables (hd : Tables s D) : Tables s' D where
  dir_ne := hd.dir_ne
  dir_busy := by
    rw [h.idle]
    exact hd.dir_busy
  ne_zero := by
    intro d hdlt
    rw [h.slots d hdlt, h.tableOf_eq hdlt]
    exact hd.ne_zero d hdlt
  ne_dir := by
    intro d hdlt
    rw [h.slots d hdlt, h.tableOf_eq hdlt]
    exact hd.ne_dir d hdlt
  ne_sysTb := by
    intro d hdlt
    rw [h.slots d hdlt, h.tableOf_eq hdlt]
    exact hd.ne_sysTb d hdlt
  busy := by
    intro d hdlt
    rw [h.slots d hdlt, h.tableOf_eq hdlt, h.idle]
    exact hd.busy d hdlt
  distinct := by
    intro d hdlt d' hdlt'
    rw [h.slots d hdlt, h.slots d' hdlt', h.tableOf_eq hdlt, h.tableOf_eq hdlt']
    exact hd.distinct d hdlt d' hdlt'
  reverse := by
    rw [h.slots 1023 (by decide)]
    exact hd.reverse

theorem directory (hd : Directory s D) : Directory s' D where
  toTables := h.tables hd.toTables
  mirror := by
    intro d hdlt
    rw [h.slots d hdlt, h.tableOf_eq (by decide), h.entries 1023 (by decide) hd.reverse d hdlt]
    exact hd.mirror d hdlt

theorem bystander_iff : Bystander s' D f ↔ Bystander s D f := by
  have htable : (∀ d < 1024, entrySet (word s' D d) = true → f ≠ tableOf s' D d) ↔
      ∀ d < 1024, entrySet (word s D d) = true → f ≠ tableOf s D d := by
    refine forall_congr' fun d => imp_congr_right fun hd => ?_
    rw [h.slots d hd, h.tableOf_eq hd]
  constructor
  · rintro ⟨hbusy, hsys, hdir, hne⟩
    exact ⟨mt (h.idle f).mpr hbusy, hsys, hdir, htable.mp hne⟩
  · rintro ⟨hbusy, hsys, hdir, hne⟩
    exact ⟨mt (h.idle f).mp hbusy, hsys, hdir, htable.mpr hne⟩

theorem space (hs : AddressSpace s D) : AddressSpace s' D where
  toDirectory := h.directory hs.toDirectory
  dir_ne_zero := hs.dir_ne_zero
  zero := by
    intro p hp
    have hlt : p < 2 ^ 20 := userPages_lt hp
    rw [h.present_iff hlt, h.pageWord_eq hlt]
    exact hs.zero p hp
  bystander := by
    intro p hp
    have hlt : p < 2 ^ 20 := userPages_lt hp
    rw [h.present_iff hlt, h.pageFrame_eq hlt, h.bystander_iff]
    exact hs.bystander p hp
  frame_ne_zero := by
    intro p hp
    have hlt : p < 2 ^ 20 := userPages_lt hp
    rw [h.present_iff hlt, h.pageFrame_eq hlt]
    exact hs.frame_ne_zero p hp
  own := by
    intro p hp q hq
    have hltp : p < 2 ^ 20 := userPages_lt hp
    have hltq : q < 2 ^ 20 := userPages_lt hq
    rw [h.present_iff hltp, h.present_iff hltq, h.pageFrame_eq hltp, h.pageFrame_eq hltq]
    exact hs.own p hp q hq

end SameTables

/-- A further busy frame. -/
theorem Directory.setBusy (h : Directory s D) (f : Nat) :
    Directory { s with bitmap := frameBset s.bitmap (f * frameSize) } D := by
  have hidle : ∀ g, Idle { s with bitmap := frameBset s.bitmap (f * frameSize) } g → Idle s g := by
    rintro g ⟨hlow, hhigh, hfree⟩
    rw [frameStatus_frameBset, Bool.or_eq_false_iff] at hfree
    exact ⟨hlow, hhigh, hfree.2⟩
  exact { h with
    dir_busy := fun hbusy => h.dir_busy (hidle D hbusy)
    busy := fun d hd hset hbusy => h.busy d hd hset (hidle _ hbusy) }

/-- Changes of the temporary mappings concern no page. -/
theorem AddressSpace.pageData_temp (hs : AddressSpace s D) (ho : OnlyFrame sysTb s s') (hp : p < userPages)
    (hpresent : PagePresent s D p) (hj : j < 1024) : pageData s' D p j = pageData s D p j := by
  rw [pageData, (hs.sameTables ho).pageFrame_eq (userPages_lt hp)]
  exact ho.words _ (hs.bystander p hp hpresent).ne_sysTb j hj

/-! ## Requests -/

section Request

variable (hs : AddressSpace s D) (hflag : flag < frameSize ∧ flag % 2 = 1) (hab : a ≤ b) (hb : b ≤ userPages)
  (h : Filled κ s s' D (tableOf s D 1023) flag (Made s D a (b + 1)) (Visited s D a (b + 1)))
include h

/-- A page is as before, or it was absent and has got a new frame of zeros. -/
theorem Filled.page_cases (hp : p < userPages) :
    (pageWord s' D p = pageWord s D p ∧ (Visited s D a (b + 1) (p / 1024) (p % 1024) → PagePresent s D p)) ∨
      (¬PagePresent s D p ∧ Visited s D a (b + 1) (p / 1024) (p % 1024) ∧
        ∃ f, pageWord s' D p = pageEntry f flag ∧ κ f = .page (p / 1024) (p % 1024) ∧
          ∀ j < 1024, word s' f j = 0) := by
  have hslot := userPages_slot hp
  have hi : p % 1024 < 1024 := Nat.mod_lt _ (by decide)
  by_cases hnew : ¬PagePresent s D p ∧ Visited s D a (b + 1) (p / 1024) (p % 1024)
  · have hclear : entrySet (pageWord s D p) = false := by simpa [PagePresent] using hnew.1
    exact Or.inr ⟨hnew.1, hnew.2, h.filled _ (by omega) _ hi hnew.2 hclear⟩
  · have hvisited : Visited s D a (b + 1) (p / 1024) (p % 1024) → PagePresent s D p := by
      intro hvisited
      by_contra habsent
      exact hnew ⟨habsent, hvisited⟩
    exact Or.inl ⟨h.same _ (by omega) _ hi (fun hlast => by omega) hvisited, hvisited⟩

include hab in
/-- The slots of the pages have tables now. -/
theorem Filled.slot_iff (hd : d < 1024) : entrySet (word s' D d) = true ↔
    entrySet (word s D d) = true ∨ a / 1024 ≤ d ∧ d ≤ b / 1024 := by
  rw [h.set_iff hd]
  constructor
  · rintro (⟨-, q, haq, hqb, rfl⟩ | hset)
    · exact Or.inr ⟨Nat.div_le_div_right haq, Nat.div_le_div_right (by omega)⟩
    · exact Or.inl hset
  · rintro (hset | ⟨hlow, hhigh⟩)
    · exact Or.inr hset
    · cases hset : entrySet (word s D d) with
      | true => exact Or.inr rfl
      | false => exact Or.inl ⟨hset, max a (d * 1024), by omega, by omega, by omega⟩

include hflag

theorem Filled.present_iff (hp : p < userPages) :
    PagePresent s' D p ↔ PagePresent s D p ∨ Visited s D a (b + 1) (p / 1024) (p % 1024) := by
  rcases h.page_cases hp with ⟨hword, hvisited⟩ | ⟨habsent, hvisited, f, hf, -⟩
  · rw [PagePresent, hword]
    exact ⟨Or.inl, fun hor => hor.elim id hvisited⟩
  · rw [PagePresent, hf, entrySet_pageEntry hflag.1 hflag.2]
    exact iff_of_true rfl (Or.inr hvisited)

/-- A page that has got a frame holds zeros. -/
theorem Filled.pageData_new (hp : p < userPages) (habsent : ¬PagePresent s D p) (hpresent : PagePresent s' D p)
    (hj : j < 1024) : pageData s' D p j = 0 := by
  rcases h.page_cases hp with ⟨hword, -⟩ | ⟨-, -, f, hf, -, hzero⟩
  · rw [PagePresent, hword] at hpresent
    exact absurd hpresent habsent
  · rw [pageData, pageFrame, hf, frameOf_pageEntry hflag.1]
    exact hzero j hj

omit hflag in
theorem Filled.pageWord_present (hp : p < userPages) (hpresent : PagePresent s D p) :
    pageWord s' D p = pageWord s D p := by
  rcases h.page_cases hp with ⟨hword, -⟩ | ⟨habsent, -⟩
  · exact hword
  · exact absurd hpresent habsent

include hs

/-- A present page has the frame that it had, or a new one whose use is this page. -/
theorem Filled.frame_cases (hp : p < userPages) (hpresent : PagePresent s' D p) :
    (PagePresent s D p ∧ pageFrame s' D p = pageFrame s D p ∧ ¬Idle s (pageFrame s D p)) ∨
      (κ (pageFrame s' D p) = .page (p / 1024) (p % 1024) ∧ Idle s (pageFrame s' D p) ∧
        ¬Idle s' (pageFrame s' D p)) := by
  rcases h.page_cases hp with ⟨hword, -⟩ | ⟨-, -, f, hf, huse, -⟩
  · have hold : PagePresent s D p := by
      rw [PagePresent, ← hword]
      exact hpresent
    exact Or.inl ⟨hold, congrArg frameOf hword, (hs.bystander p hp hold).busy⟩
  · rw [pageFrame, hf, frameOf_pageEntry hflag.1]
    exact Or.inr ⟨huse, h.used f (by rw [huse]; simp)⟩

theorem Filled.bystander (hp : p < userPages) (hpresent : PagePresent s' D p) :
    Bystander s' D (pageFrame s' D p) := by
  rcases h.frame_cases hs hflag hp hpresent with ⟨hold, hframe, -⟩ | ⟨huse, hidle, hbusy⟩
  · have hby := hs.bystander p hp hold
    rw [hframe]
    exact ⟨fun hidle => hby.busy (h.idle _ hidle), hby.ne_sysTb, hby.ne_dir, fun d hd => h.ne_table hby hd⟩
  · refine ⟨hbusy, hidle.ne_sysTb, ?_, fun d hd hset heq => ?_⟩
    · intro heq
      exact hs.dir_busy (heq ▸ hidle)
    · rcases h.table_cases hd hset with ⟨-, htable, -⟩ | ⟨-, hold, htable⟩
      · rw [heq, htable] at huse
        exact absurd huse (by simp)
      · rw [heq, htable] at hidle
        exact hs.busy d hd hold hidle

include hb in
/-- A request leaves an address space. -/
theorem Filled.space : AddressSpace s' D where
  toTables := h.tables hs.toDirectory
  mirror := by
    intro d hd hclear
    obtain ⟨-, hrev⟩ := h.reverse_eq hs.toDirectory
    have hold : entrySet (word s D d) = false := by
      cases hset : entrySet (word s D d) with
      | false => rfl
      | true =>
          rw [(h.set_iff hd).mpr (Or.inr hset)] at hclear
          exact absurd hclear (by decide)
    have hunvisited : ¬Visited s D a (b + 1) 1023 d := by
      rintro ⟨q, haq, hqb, hslot, -⟩
      have hle := (tableSlot_le (s := s) (D := D) haq).2
      have hpages : userPages = 768 * 1024 := by decide
      omega
    have hsame := h.same 1023 (by decide) d hd
      (fun hlast => by rw [(h.created d hd hlast.2).1] at hclear; exact absurd hclear (by decide))
      fun hvisited => absurd hvisited hunvisited
    rw [tableEntry_of_set ((h.tables hs.toDirectory).reverse), tableEntry_of_set hs.reverse] at hsame
    rw [hsame]
    exact hs.mirror d hd hold
  dir_ne_zero := hs.dir_ne_zero
  zero := by
    intro p hp habsent
    rcases h.page_cases hp with ⟨hword, -⟩ | ⟨-, hvisited, -⟩
    · rw [hword]
      refine hs.zero p hp fun hpresent => habsent ?_
      rw [PagePresent, hword]
      exact hpresent
    · exact absurd ((h.present_iff hflag hp).mpr (Or.inr hvisited)) habsent
  bystander := fun p hp hpresent => h.bystander hs hflag hp hpresent
  frame_ne_zero := by
    intro p hp hpresent
    rcases h.frame_cases hs hflag hp hpresent with ⟨hold, hframe, -⟩ | ⟨-, hidle, -⟩
    · rw [hframe]
      exact hs.frame_ne_zero p hp hold
    · have hpos : 0 < userFrame := by decide
      have := hidle.1
      omega
  own := by
    intro p hp q hq hpresent hpresent' heq
    rcases h.frame_cases hs hflag hp hpresent with ⟨hold, hframe, hbusy⟩ | ⟨huse, hidle, -⟩
    · rcases h.frame_cases hs hflag hq hpresent' with ⟨hold', hframe', -⟩ | ⟨-, hidle', -⟩
      · exact hs.own p hp q hq hold hold' (hframe.symm.trans (heq.trans hframe'))
      · rw [← heq, hframe] at hidle'
        exact absurd hidle' hbusy
    · rcases h.frame_cases hs hflag hq hpresent' with ⟨-, hframe', hbusy'⟩ | ⟨huse', -⟩
      · rw [heq, hframe'] at hidle
        exact absurd hidle hbusy'
      · rw [heq, huse'] at huse
        obtain ⟨hslot, hidx⟩ := Use.page.inj huse
        omega

end Request

/-- What a request for the pages from `a` to `b` does to the pages of user memory. -/
structure Requested (s s' : Machine) (D a b : Nat) : Prop where
  slots : ∀ d < 1024, entrySet (word s' D d) = true ↔
    entrySet (word s D d) = true ∨ a / 1024 ≤ d ∧ d ≤ b / 1024
  present_iff : ∀ p < userPages, PagePresent s' D p ↔
    PagePresent s D p ∨ Visited s D a (b + 1) (p / 1024) (p % 1024)
  kept : ∀ p < userPages, PagePresent s D p → ∀ j < 1024, pageData s' D p j = pageData s D p j
  zero : ∀ p < userPages, ¬PagePresent s D p → PagePresent s' D p → ∀ j < 1024, pageData s' D p j = 0

theorem AddressSpace.request (hs : AddressSpace s D) (hdir : tempFrame s dir = some D)
    (hflag : flag < frameSize ∧ flag % 2 = 1) (hb : (vaStart + size) / frameSize ≤ userPages)
    (h : requestRegionVmap s dir vaStart size flag = some s') :
    AddressSpace s' D ∧ tempFrame s' dir = some D ∧
      Requested s s' D (vaStart / frameSize) ((vaStart + size) / frameSize) := by
  have hsize : vaStart + size < 2 ^ 32 := by
    have hpages : userPages < 2 ^ 20 := by decide
    unfold frameSize at hb
    omega
  have hab : vaStart / frameSize ≤ (vaStart + size) / frameSize := (region_bounds hsize).1
  obtain ⟨-, ⟨κ, hfilled⟩, hkept, hwords⟩ := requestRegionVmap_kept hs.toDirectory hdir hflag hsize h
  refine ⟨hfilled.space hs hflag hb, hkept, fun d hd => hfilled.slot_iff hab hd,
    fun p hp => hfilled.present_iff hflag hp, fun p hp hpresent j hj => ?_,
    fun p hp habsent hpresent j hj => hfilled.pageData_new hflag hp habsent hpresent hj⟩
  rw [pageData, pageFrame, hfilled.pageWord_present hp hpresent]
  exact hwords _ (hs.bystander p hp hpresent) j hj

/-! ## The pages that a request enters -/

/-- A page of the region is entered in its own table if that is the first one or a new one. -/
theorem visited_own_iff (hap : a ≤ p) (hpb : p ≤ b) : Visited s D a (b + 1) (p / 1024) (p % 1024) ↔
    p / 1024 = a / 1024 ∨ entrySet (word s D (p / 1024)) = false := by
  constructor
  · rintro ⟨q, haq, -, hslot, -⟩
    rcases usedSlot_cases s D (a / 1024) (q / 1024 - a / 1024) with hfirst | hunset
    · exact Or.inl (hslot.symm.trans hfirst)
    · have hunset : entrySet (word s D (tableSlot s D a q)) = false := hunset
      exact Or.inr (hslot ▸ hunset)
  · intro hor
    refine ⟨p, hap, Nat.lt_succ_of_le hpb, ?_, rfl⟩
    by_contra hne
    obtain ⟨hset, hlt⟩ := set_of_misplaced hap hne
    rcases hor with hfirst | hunset
    · omega
    · exact absurd (hset.symm.trans hunset) (by decide)

/-- Where there are no tables, the pages of the region are entered and no others. -/
theorem visited_clear_iff (hclear : ∀ d < 768, entrySet (word s D d) = false) (hend : b < userPages ∨ a = b)
    (hp : p < userPages) : Visited s D a (b + 1) (p / 1024) (p % 1024) ↔ a ≤ p ∧ p ≤ b := by
  have hslot := userPages_slot hp
  constructor
  · rintro ⟨q, haq, hqb, hq, hi⟩
    have hown : tableSlot s D a q = q / 1024 := by
      by_contra hne
      obtain ⟨hset, hlt⟩ := set_of_misplaced haq hne
      have hqp : q < userPages := by omega
      rw [hclear _ (userPages_slot hqp)] at hset
      exact absurd hset (by decide)
    omega
  · rintro ⟨hap, hpb⟩
    exact (visited_own_iff hap hpb).mpr (Or.inr (hclear _ hslot))

/-- The first page in the slot of the user stack. -/
def ustackSlotPage : Nat := pageDirIndex ustackFrame * 1024

/-- The request for the user stack has one page behind it, which is entered in the table of the stack when
the kernel's slot has a table. -/
theorem visited_ustack_iff (hkernel : entrySet (word s D 768) = true) (hp : p < userPages) :
    Visited s D (userPages - 1) (userPages + 1) (p / 1024) (p % 1024) ↔
      p = userPages - 1 ∨ p = ustackSlotPage := by
  have hpages : userPages = 786432 := by decide
  have hpage : ustackSlotPage = 785408 := by decide
  have hfirst : tableSlot s D (userPages - 1) (userPages - 1) = 767 := tableSlot_self
  have hsecond : tableSlot s D (userPages - 1) userPages = 767 := by
    rw [← hfirst]
    have henter := tableSlot_enter (s := s) (D := D) (le_refl (userPages - 1)) (by decide)
    have hslot : (userPages - 1 + 1) / 1024 = 768 := by decide
    rw [hslot, if_pos hkernel] at henter
    exact henter
  constructor
  · rintro ⟨q, haq, hqb, hq, hi⟩
    rcases (show q = userPages - 1 ∨ q = userPages by omega) with rfl | rfl
    · rw [hfirst] at hq
      omega
    · rw [hsecond] at hq
      omega
  · rintro (rfl | rfl)
    · exact ⟨userPages - 1, le_refl _, by decide, hfirst, rfl⟩
    · exact ⟨userPages, by decide, by decide, hsecond, rfl⟩

end TsOs.Paging
