import TsOs.Paging.Regions

/-!
# The pages of a region

What `request_region_vmap` does to the page tables of a directory. A frame that it takes from
the idle ones gets a use: the table of a slot, or the page of an entry. The rounds keep that
the tables and pages of the directory are the old ones where nothing was entered, and frames
with the right use elsewhere.

The entry of a page is the word for it in the table that the directory's own slot names. The
rounds enter pages in the table of an earlier slot when the slot of the page has a table
already, so the pages land in their own tables only under a condition on the directory.
-/

namespace TsOs.Paging

variable {s s' s₀ s₁ : Machine} {D R T d i j f g p q a b u flag fl dir revTb pt va : Nat}
  {newPt ptNow : Option Nat}

/-! ## Directories -/

/-- The frame belongs to user memory and is not busy. -/
def Idle (s : Machine) (f : Nat) : Prop :=
  userFrame ≤ f ∧ f < maxFrameNum ∧ frameStatus s.bitmap (f * frameSize) = false

/-- The frame of the table in a slot. -/
def tableOf (s : Machine) (D d : Nat) : Nat := frameOf (word s D d)

/-- Entry `i` of the table in slot `d`, or zero if there is no table. -/
def tableEntry (s : Machine) (D d i : Nat) : Nat :=
  if entrySet (word s D d) then word s (tableOf s D d) i else 0

/-- The entry of a page. -/
def pageWord (s : Machine) (D p : Nat) : Nat := tableEntry s D (p / 1024) (p % 1024)

/-- The tables of a directory are frames of their own, and the last slot has one. -/
structure Tables (s : Machine) (D : Nat) : Prop where
  dir_ne : D ≠ sysTb
  dir_busy : ¬Idle s D
  ne_zero : ∀ d < 1024, entrySet (word s D d) = true → tableOf s D d ≠ 0
  ne_dir : ∀ d < 1024, entrySet (word s D d) = true → tableOf s D d ≠ D
  ne_sysTb : ∀ d < 1024, entrySet (word s D d) = true → tableOf s D d ≠ sysTb
  busy : ∀ d < 1024, entrySet (word s D d) = true → ¬Idle s (tableOf s D d)
  distinct : ∀ d < 1024, ∀ d' < 1024, entrySet (word s D d) = true → entrySet (word s D d') = true →
    tableOf s D d = tableOf s D d' → d = d'
  reverse : entrySet (word s D 1023) = true

/-- The table in the last slot is the reverse table: a slot without a table has no entry in it. -/
structure Directory (s : Machine) (D : Nat) : Prop extends Tables s D where
  mirror : ∀ d < 1024, entrySet (word s D d) = false → entrySet (word s (tableOf s D 1023) d) = false

theorem tableEntry_of_set (h : entrySet (word s D d) = true) :
    tableEntry s D d i = word s (tableOf s D d) i := if_pos h

theorem tableEntry_of_clear (h : entrySet (word s D d) = false) : tableEntry s D d i = 0 :=
  if_neg (by rw [h]; exact Bool.false_ne_true)

theorem Idle.ne_sysTb (h : Idle s f) : f ≠ sysTb := user_ne_sysTb h.1

theorem Allocated.isIdle {ptr : Nat} (h : Allocated s s' ptr f) : Idle s f := ⟨h.user.1, h.user.2, h.idle⟩

/-- One frame is idle no longer. -/
theorem Allocated.idle_iff {ptr : Nat} (h : Allocated s s' ptr f) : Idle s' g ↔ Idle s g ∧ g ≠ f := by
  unfold Idle
  rw [h.bitmap, frameStatus_frameBset, Bool.or_eq_false_iff, decide_eq_false_iff_not]
  constructor
  · rintro ⟨hlow, hhigh, hne, hfree⟩
    exact ⟨⟨hlow, hhigh, hfree⟩, hne⟩
  · rintro ⟨⟨hlow, hhigh, hfree⟩, hne⟩
    exact ⟨hlow, hhigh, hne, hfree⟩

/-! ## The writes of a round -/

/-- The words after the new frame `f` has been entered as the table of slot `d`. -/
structure Linked (s s' : Machine) (D R d f fl : Nat) : Prop where
  fresh : Idle s f
  idle : ∀ g, Idle s' g ↔ Idle s g ∧ g ≠ f
  slot : word s' D d = pageEntry f fl
  slots : ∀ x < 1024, x ≠ d → word s' D x = word s D x
  reverse : word s' R d = pageEntry f pageP
  words : ∀ g, g ≠ D → g ≠ sysTb → g ≠ f → ∀ j < 1024, g ≠ R ∨ j ≠ d → word s' g j = word s g j
  zero : ∀ j < 1024, word s' f j = 0

theorem Allocated.linked (hall : Allocated s s₁ pt f) (hD : D ≠ sysTb) (hDR : D ≠ R) (hDf : D ≠ f)
    (hRf : R ≠ f) (hfl : fl < frameSize) : Linked s (linkTable s₁ D R d f fl) D R d f fl where
  fresh := hall.isIdle
  idle := fun _ => hall.idle_iff
  slot := linkTable_word_self hDR (pageEntry_lt (user_lt hall.user.2) hfl)
  slots := by
    intro x hx hne
    rw [linkTable_word_ne hne]
    exact hall.words D hDf hD x hx
  reverse := word_setWord_same _ _ _ (pageEntry_lt (user_lt hall.user.2) (by decide))
  words := by
    intro g hgD hgs hgf j hj hgR
    rw [linkTable, word_setWord_ne _ _ hgR, word_setWord_ne _ _ (Or.inl hgD)]
    exact hall.words g hgf hgs j hj
  zero := by
    intro j hj
    rw [linkTable, word_setWord_ne _ _ (Or.inl hRf.symm), word_setWord_ne _ _ (Or.inl hDf.symm)]
    exact hall.zero j hj

/-- The words after the new frame `f` has been entered at `i` in the table `T`. -/
structure Entered (s s' : Machine) (T i f flag : Nat) : Prop where
  fresh : Idle s f
  idle : ∀ g, Idle s' g ↔ Idle s g ∧ g ≠ f
  entry : word s' T i = pageEntry f flag
  words : ∀ g, g ≠ sysTb → g ≠ f → ∀ j < 1024, g ≠ T ∨ j ≠ i → word s' g j = word s g j
  zero : ∀ j < 1024, word s' f j = 0

theorem Allocated.entered {page : Nat} (hall : Allocated s s₁ page f) (hT : T ≠ sysTb) (hTf : T ≠ f)
    (hi : i < 1024) (hflag : flag < frameSize) :
    Entered s (deleteTempVa (setWord s₁ T i (pageEntry f flag)) page) T i f flag := by
  obtain ⟨honly, -⟩ := deleteTempVa_spec (setWord s₁ T i (pageEntry f flag)) page
  refine ⟨hall.isIdle, fun g => ?_, ?_, fun g hgs hgf j hj hgT => ?_, fun j hj => ?_⟩
  · rw [← hall.idle_iff]
    rfl
  · rw [honly.words T hT i hi]
    exact word_setWord_same _ _ _ (pageEntry_lt (user_lt hall.user.2) hflag)
  · rw [honly.words g hgs j hj, word_setWord_ne _ _ hgT]
    exact hall.words g hgf hgs j hj
  · rw [honly.words f hall.isIdle.ne_sysTb j hj, word_setWord_ne _ _ (Or.inl hTf.symm)]
    exact hall.zero j hj

/-! ## Uses of new frames -/

/-- What a new frame is used for. -/
inductive Use
  | none
  | table (d : Nat)
  | page (d i : Nat)
  deriving DecidableEq

/-- Between `s₀` and `s`, tables have been created in the slots `C`, and the entries `W` of the
tables have been visited. -/
structure Filled (κ : Nat → Use) (s₀ s : Machine) (D R flag : Nat) (C : Nat → Prop)
    (W : Nat → Nat → Prop) : Prop where
  idle : ∀ f, Idle s f → Idle s₀ f
  used : ∀ f, κ f ≠ .none → Idle s₀ f ∧ ¬Idle s f
  kept : ∀ d < 1024, ¬C d → word s D d = word s₀ D d
  clear : ∀ d < 1024, C d → entrySet (word s₀ D d) = false
  created : ∀ d < 1024, C d → entrySet (word s D d) = true ∧ κ (tableOf s D d) = .table d
  reverse : ∀ d < 1024, C d → word s R d = pageEntry (tableOf s D d) pageP
  visited : ∀ d < 1024, ∀ i, W d i → entrySet (word s D d) = true
  same : ∀ d < 1024, ∀ i < 1024, ¬(d = 1023 ∧ C i) →
    (W d i → entrySet (tableEntry s₀ D d i) = true) → tableEntry s D d i = tableEntry s₀ D d i
  filled : ∀ d < 1024, ∀ i < 1024, W d i → entrySet (tableEntry s₀ D d i) = false →
    ∃ f, tableEntry s D d i = pageEntry f flag ∧ κ f = .page d i ∧ ∀ j < 1024, word s f j = 0

variable {κ : Nat → Use} {C C' : Nat → Prop} {W W' : Nat → Nat → Prop}

theorem Filled.refl (s : Machine) (D R flag : Nat) :
    Filled (fun _ => .none) s s D R flag (fun _ => False) (fun _ _ => False) where
  idle := fun _ h => h
  used := fun _ h => absurd rfl h
  kept := fun _ _ _ => rfl
  clear := fun _ _ h => h.elim
  created := fun _ _ h => h.elim
  reverse := fun _ _ h => h.elim
  visited := fun _ _ _ h => h.elim
  same := fun _ _ _ _ _ _ => rfl
  filled := fun _ _ _ _ h => h.elim

theorem Filled.congr (h : Filled κ s₀ s D R flag C W) (hC : ∀ d, C' d ↔ C d) (hW : ∀ d i, W' d i ↔ W d i) :
    Filled κ s₀ s D R flag C' W' := by
  obtain rfl : C' = C := funext fun d => propext (hC d)
  obtain rfl : W' = W := funext fun d => funext fun i => propext (hW d i)
  exact h

section Steps

variable (hd : Directory s₀ D) (h : Filled κ s₀ s D (tableOf s₀ D 1023) flag C W)
include h

theorem Filled.set_iff (hdlt : d < 1024) :
    entrySet (word s D d) = true ↔ C d ∨ entrySet (word s₀ D d) = true := by
  by_cases hC : C d
  · exact iff_of_true (h.created d hdlt hC).1 (Or.inl hC)
  · rw [h.kept d hdlt hC]
    exact ⟨Or.inr, fun hor => hor.resolve_left hC⟩

/-- A table is a new frame with this use, or an old table. -/
theorem Filled.table_cases (hdlt : d < 1024) (hset : entrySet (word s D d) = true) :
    (C d ∧ κ (tableOf s D d) = .table d ∧ Idle s₀ (tableOf s D d)) ∨
      (¬C d ∧ entrySet (word s₀ D d) = true ∧ tableOf s D d = tableOf s₀ D d) := by
  by_cases hC : C d
  · have huse := (h.created d hdlt hC).2
    exact Or.inl ⟨hC, huse, (h.used _ (by rw [huse]; simp)).1⟩
  · have hword := h.kept d hdlt hC
    exact Or.inr ⟨hC, hword ▸ hset, congrArg frameOf hword⟩

theorem Filled.unused (hidle : Idle s f) : κ f = .none := by
  by_contra huse
  exact (h.used f huse).2 hidle

/-- The uses so far stay when an idle frame gets one. -/
theorem Filled.use_kept (hidle : Idle s f) (u : Use) (hg : κ g ≠ .none) :
    Function.update κ f u g = κ g := by
  refine Function.update_of_ne ?_ _ _
  rintro rfl
  exact (h.used g hg).2 hidle

theorem Filled.used_update (hidle : Idle s f) (hstatus : ∀ g, Idle s' g ↔ Idle s g ∧ g ≠ f) (u : Use) :
    ∀ g, Function.update κ f u g ≠ .none → Idle s₀ g ∧ ¬Idle s' g := by
  intro g hg
  rw [hstatus]
  by_cases hgf : g = f
  · subst hgf
    exact ⟨h.idle g hidle, fun hboth => hboth.2 rfl⟩
  · rw [Function.update_of_ne hgf] at hg
    exact ⟨(h.used g hg).1, fun hboth => (h.used g hg).2 hboth.1⟩

/-- A visit of an entry that is there. -/
theorem Filled.visit (hu : u < 1024) (hset : entrySet (word s D u) = true) (hi : i < 1024)
    (hpage : entrySet (tableEntry s D u i) = true) (hlast : u = 1023 → ∀ x, ¬C x)
    (hW' : ∀ x j, W' x j ↔ W x j ∨ x = u ∧ j = i) :
    Filled κ s₀ s D (tableOf s₀ D 1023) flag C W' where
  idle := h.idle
  used := h.used
  kept := h.kept
  clear := h.clear
  created := h.created
  reverse := h.reverse
  visited := by
    intro x hx j hW
    rcases (hW' x j).mp hW with hW | ⟨rfl, -⟩
    · exact h.visited x hx j hW
    · exact hset
  same := fun x hx j hj hex hW => h.same x hx j hj hex fun hold => hW ((hW' x j).mpr (Or.inl hold))
  filled := by
    intro x hx j hj hW hunset
    rcases (hW' x j).mp hW with hW | ⟨rfl, rfl⟩
    · exact h.filled x hx j hj hW hunset
    · by_cases hW : W x j
      · exact h.filled x hx j hj hW hunset
      · have hsame := h.same x hx j hj (fun hboth => hlast hboth.1 j hboth.2) fun hW' => absurd hW' hW
        rw [hsame, hunset] at hpage
        exact absurd hpage (by decide)

include hd

theorem Filled.reverse_eq : ¬C 1023 ∧ tableOf s D 1023 = tableOf s₀ D 1023 := by
  have hC : ¬C 1023 := by
    intro hC
    have hclear := h.clear 1023 (by decide) hC
    rw [hd.reverse] at hclear
    exact absurd hclear (by decide)
  exact ⟨hC, congrArg frameOf (h.kept 1023 (by decide) hC)⟩

/-- The tables stay frames of their own. -/
theorem Filled.tables : Tables s D where
  dir_ne := hd.dir_ne
  dir_busy := fun hidle => hd.dir_busy (h.idle D hidle)
  ne_zero := by
    intro d hdlt hset
    rcases h.table_cases hdlt hset with ⟨-, -, hidle⟩ | ⟨-, hold, heq⟩
    · have hpos : 0 < userFrame := by decide
      have := hidle.1
      omega
    · rw [heq]
      exact hd.ne_zero d hdlt hold
  ne_dir := by
    intro d hdlt hset
    rcases h.table_cases hdlt hset with ⟨-, -, hidle⟩ | ⟨-, hold, heq⟩
    · intro hD
      exact hd.dir_busy (hD ▸ hidle)
    · rw [heq]
      exact hd.ne_dir d hdlt hold
  ne_sysTb := by
    intro d hdlt hset
    rcases h.table_cases hdlt hset with ⟨-, -, hidle⟩ | ⟨-, hold, heq⟩
    · exact hidle.ne_sysTb
    · rw [heq]
      exact hd.ne_sysTb d hdlt hold
  busy := by
    intro d hdlt hset
    rcases h.table_cases hdlt hset with ⟨-, huse, -⟩ | ⟨-, hold, heq⟩
    · exact (h.used _ (by rw [huse]; simp)).2
    · rw [heq]
      exact fun hidle => hd.busy d hdlt hold (h.idle _ hidle)
  distinct := by
    intro d hdlt d' hdlt' hset hset' heq
    rcases h.table_cases hdlt hset with ⟨-, huse, hidle⟩ | ⟨-, hold, hT⟩
    · rcases h.table_cases hdlt' hset' with ⟨-, huse', -⟩ | ⟨-, hold', hT'⟩
      · rw [heq, huse'] at huse
        exact (Use.table.inj huse).symm
      · rw [heq, hT'] at hidle
        exact absurd hidle (hd.busy d' hdlt' hold')
    · rcases h.table_cases hdlt' hset' with ⟨-, -, hidle'⟩ | ⟨-, hold', hT'⟩
      · rw [← heq, hT] at hidle'
        exact absurd hidle' (hd.busy d hdlt hold)
      · rw [hT, hT'] at heq
        exact hd.distinct d hdlt d' hdlt' hold hold' heq
  reverse := (h.set_iff (by decide)).mpr (Or.inr hd.reverse)

/-- Changes of the temporary mappings concern no table and no page. -/
theorem Filled.of_temp (ho : OnlyFrame sysTb s s') : Filled κ s₀ s' D (tableOf s₀ D 1023) flag C W := by
  have ht := h.tables hd
  have hdir : ∀ d < 1024, word s' D d = word s D d := fun d hdlt => ho.words D hd.dir_ne d hdlt
  have htable : ∀ d < 1024, tableOf s' D d = tableOf s D d := fun d hdlt => congrArg frameOf (hdir d hdlt)
  have hentry : ∀ d < 1024, ∀ i < 1024, tableEntry s' D d i = tableEntry s D d i := by
    intro d hdlt i hi
    unfold tableEntry
    rw [hdir d hdlt, htable d hdlt]
    split
    next hset => exact ho.words _ (ht.ne_sysTb d hdlt hset) i hi
    next => rfl
  have hidle : ∀ f, Idle s' f ↔ Idle s f := by
    intro f
    unfold Idle
    rw [ho.bitmap]
  refine ⟨fun f hf => h.idle f ((hidle f).mp hf), fun f hf => ?_, fun d hdlt hC => ?_, h.clear, fun d hdlt hC => ?_,
    fun d hdlt hC => ?_, fun d hdlt i hW => ?_, fun d hdlt i hi hex hW => ?_, fun d hdlt i hi hW hclear => ?_⟩
  · rw [hidle]
    exact h.used f hf
  · rw [hdir d hdlt]
    exact h.kept d hdlt hC
  · rw [hdir d hdlt, htable d hdlt]
    exact h.created d hdlt hC
  · rw [ho.words _ (hd.ne_sysTb 1023 (by decide) hd.reverse) d hdlt, htable d hdlt]
    exact h.reverse d hdlt hC
  · rw [hdir d hdlt]
    exact h.visited d hdlt i hW
  · rw [hentry d hdlt i hi]
    exact h.same d hdlt i hi hex hW
  · obtain ⟨f, hf, huse, hzero⟩ := h.filled d hdlt i hi hW hclear
    refine ⟨f, (hentry d hdlt i hi).trans hf, huse, fun j hj => ?_⟩
    rw [ho.words f (h.used f (by rw [huse]; simp)).1.ne_sysTb j hj]
    exact hzero j hj

/-- A frame with a use is none of the old frames. -/
theorem Filled.ne_of_use (huse : κ f ≠ .none) : f ≠ D ∧ f ≠ tableOf s₀ D 1023 ∧ f ≠ sysTb := by
  have hidle := (h.used f huse).1
  refine ⟨?_, ?_, hidle.ne_sysTb⟩
  · rintro rfl
    exact hd.dir_busy hidle
  · rintro rfl
    exact hd.busy 1023 (by decide) hd.reverse hidle

/-- A new table in slot `d` changes its entries, and entry `d` of the reverse table. -/
theorem Filled.tableEntry_linked (hl : Linked s s' D (tableOf s₀ D 1023) d f fl) {x : Nat} (hx : x < 1024)
    (hne : x ≠ d) (hi : i < 1024) (hex : ¬(x = 1023 ∧ i = d)) : tableEntry s' D x i = tableEntry s D x i := by
  have ht := h.tables hd
  obtain ⟨-, hrev⟩ := h.reverse_eq hd
  unfold tableEntry tableOf
  rw [hl.slots x hx hne]
  split
  next hset =>
    refine hl.words _ (ht.ne_dir x hx hset) (ht.ne_sysTb x hx hset) ?_ i hi ?_
    · intro heq
      exact ht.busy x hx hset (show Idle s (tableOf s D x) from heq ▸ hl.fresh)
    · by_cases heq : tableOf s D x = tableOf s₀ D 1023
      · right
        rintro rfl
        exact hex ⟨ht.distinct x hx 1023 (by decide) hset ht.reverse (heq.trans hrev.symm), rfl⟩
      · exact Or.inl heq
  next => rfl

/-- A new table in a slot that has none. -/
theorem Filled.link (hl : Linked s s' D (tableOf s₀ D 1023) d f fl) (hdlt : d < 1024)
    (hclear : entrySet (word s D d) = false) (hfl : fl < frameSize ∧ fl % 2 = 1)
    (hlast : ∀ i, ¬W 1023 i) (hC' : ∀ x, C' x ↔ C x ∨ x = d) :
    Filled (Function.update κ f (.table d)) s₀ s' D (tableOf s₀ D 1023) flag C' W := by
  have hold : ∀ x, C' x → x ≠ d → C x := fun x hC hne => ((hC' x).mp hC).resolve_right hne
  have hnot : ¬C d := fun hC => absurd ((h.created d hdlt hC).1.symm.trans hclear) (by decide)
  have hset : entrySet (word s' D d) = true := by
    rw [hl.slot]
    exact entrySet_pageEntry hfl.1 hfl.2
  have htable : tableOf s' D d = f := by rw [tableOf, hl.slot, frameOf_pageEntry hfl.1]
  have htables : ∀ x < 1024, x ≠ d → tableOf s' D x = tableOf s D x :=
    fun x hx hne => congrArg frameOf (hl.slots x hx hne)
  refine ⟨fun g hg => h.idle g ((hl.idle g).mp hg).1, h.used_update hl.fresh hl.idle _, fun x hx hC => ?_,
    fun x hx hC => ?_, fun x hx hC => ?_, fun x hx hC => ?_, fun x hx i hW => ?_, fun x hx i hi hex hW => ?_,
    fun x hx i hi hW hunset => ?_⟩
  · obtain ⟨hC, hne⟩ := not_or.mp (fun hor => hC ((hC' x).mpr hor))
    rw [hl.slots x hx hne]
    exact h.kept x hx hC
  · by_cases hne : x = d
    · rw [hne, ← h.kept d hdlt hnot]
      exact hclear
    · exact h.clear x hx (hold x hC hne)
  · by_cases hne : x = d
    · rw [hne, htable, Function.update_self]
      exact ⟨hset, rfl⟩
    · obtain ⟨hset, huse⟩ := h.created x hx (hold x hC hne)
      rw [hl.slots x hx hne, htables x hx hne, h.use_kept hl.fresh _ (by rw [huse]; simp)]
      exact ⟨hset, huse⟩
  · by_cases hne : x = d
    · rw [hne, htable]
      exact hl.reverse
    · have hR := hd.ne_dir 1023 (by decide) hd.reverse
      have hRf : tableOf s₀ D 1023 ≠ f := fun heq =>
        hd.busy 1023 (by decide) hd.reverse (heq ▸ h.idle f hl.fresh)
      rw [hl.words _ hR (hd.ne_sysTb 1023 (by decide) hd.reverse) hRf x hx (Or.inr hne), htables x hx hne]
      exact h.reverse x hx (hold x hC hne)
  · by_cases hne : x = d
    · rw [hne]
      exact hset
    · rw [hl.slots x hx hne]
      exact h.visited x hx i hW
  · by_cases hne : x = d
    · subst hne
      rw [tableEntry_of_set hset, htable, hl.zero i hi, tableEntry_of_clear]
      rw [← h.kept x hx hnot]
      exact hclear
    · rw [h.tableEntry_linked hd hl hx hne hi fun hboth => hex ⟨hboth.1, (hC' i).mpr (Or.inr hboth.2)⟩]
      exact h.same x hx i hi (fun hboth => hex ⟨hboth.1, (hC' i).mpr (Or.inl hboth.2)⟩) hW
  · have hne : x ≠ d := by
      rintro rfl
      exact absurd ((h.visited x hx i hW).symm.trans hclear) (by decide)
    have hx1023 : x ≠ 1023 := fun heq => hlast i (heq ▸ hW)
    obtain ⟨g, hg, huse, hzeros⟩ := h.filled x hx i hi hW hunset
    have hguse : κ g ≠ .none := by rw [huse]; simp
    obtain ⟨hgD, hgR, hgs⟩ := h.ne_of_use hd hguse
    have hgf : g ≠ f := fun heq => hguse (heq ▸ h.unused hl.fresh)
    refine ⟨g, ?_, (h.use_kept hl.fresh _ hguse).trans huse, fun j hj => ?_⟩
    · rw [h.tableEntry_linked hd hl hx hne hi fun hboth => hx1023 hboth.1]
      exact hg
    · rw [hl.words g hgD hgs hgf j hj (Or.inl hgR)]
      exact hzeros j hj

/-- A new page changes one entry. -/
theorem Filled.tableEntry_entered (he : Entered s s' (tableOf s D u) i f flag) (hu : u < 1024)
    (hset : entrySet (word s D u) = true) {x : Nat} (hx : x < 1024) (hj : j < 1024) (hne : x ≠ u ∨ j ≠ i) :
    tableEntry s' D x j = tableEntry s D x j := by
  have ht := h.tables hd
  have hDf : D ≠ f := fun heq => ht.dir_busy (heq ▸ he.fresh)
  have hslot : word s' D x = word s D x :=
    he.words D hd.dir_ne hDf x hx (Or.inl (ht.ne_dir u hu hset).symm)
  unfold tableEntry tableOf
  rw [hslot]
  split
  next hsetx =>
    refine he.words _ (ht.ne_sysTb x hx hsetx) ?_ j hj ?_
    · intro heq
      exact ht.busy x hx hsetx (show Idle s (tableOf s D x) from heq ▸ he.fresh)
    · refine hne.imp (fun hxu heq => ?_) id
      exact hxu (ht.distinct x hx u hu hsetx hset heq)
  next => rfl

/-- A new page for an entry that is not there. -/
theorem Filled.enter (he : Entered s s' (tableOf s D u) i f flag) (hu : u < 1024)
    (hset : entrySet (word s D u) = true) (hi : i < 1024) (hpage : entrySet (tableEntry s D u i) = false)
    (hlast : u = 1023 → ∀ x, ¬C x) (hW' : ∀ x j, W' x j ↔ W x j ∨ x = u ∧ j = i) :
    Filled (Function.update κ f (.page u i)) s₀ s' D (tableOf s₀ D 1023) flag C W' := by
  have ht := h.tables hd
  obtain ⟨hC1023, hrev⟩ := h.reverse_eq hd
  have hDf : D ≠ f := fun heq => ht.dir_busy (heq ▸ he.fresh)
  have hslots : ∀ x < 1024, word s' D x = word s D x := fun x hx =>
    he.words D hd.dir_ne hDf x hx (Or.inl (ht.ne_dir u hu hset).symm)
  have htables : ∀ x < 1024, tableOf s' D x = tableOf s D x := fun x hx => congrArg frameOf (hslots x hx)
  refine ⟨fun g hg => h.idle g ((he.idle g).mp hg).1, h.used_update he.fresh he.idle _, fun x hx hC => ?_,
    h.clear, fun x hx hC => ?_, fun x hx hC => ?_, fun x hx j hW => ?_, fun x hx j hj hex hW => ?_,
    fun x hx j hj hW hunset => ?_⟩
  · rw [hslots x hx]
    exact h.kept x hx hC
  · obtain ⟨hsetx, huse⟩ := h.created x hx hC
    rw [hslots x hx, htables x hx, h.use_kept he.fresh _ (by rw [huse]; simp)]
    exact ⟨hsetx, huse⟩
  · have hRf : tableOf s₀ D 1023 ≠ f := fun heq =>
      hd.busy 1023 (by decide) hd.reverse (heq ▸ h.idle f he.fresh)
    have hRT : tableOf s₀ D 1023 ≠ tableOf s D u := by
      intro heq
      have hlast' := ht.distinct u hu 1023 (by decide) hset ht.reverse (heq.symm.trans hrev.symm)
      exact hlast hlast' x hC
    rw [he.words _ (hd.ne_sysTb 1023 (by decide) hd.reverse) hRf x hx (Or.inl hRT), htables x hx]
    exact h.reverse x hx hC
  · rw [hslots x hx]
    rcases (hW' x j).mp hW with hW | ⟨rfl, -⟩
    · exact h.visited x hx j hW
    · exact hset
  · have hold := h.same x hx j hj hex fun hWold => hW ((hW' x j).mpr (Or.inl hWold))
    by_cases hxj : x = u ∧ j = i
    · obtain ⟨rfl, rfl⟩ := hxj
      rw [← hold, hpage] at hW
      exact absurd (hW ((hW' x j).mpr (Or.inr ⟨rfl, rfl⟩))) (by decide)
    · rw [h.tableEntry_entered hd he hu hset hx hj (not_and_or.mp hxj)]
      exact hold
  · by_cases hxj : x = u ∧ j = i
    · obtain ⟨rfl, rfl⟩ := hxj
      refine ⟨f, ?_, Function.update_self _ _ _, he.zero⟩
      rw [tableEntry_of_set (hslots x hx ▸ hset), htables x hx]
      exact he.entry
    · have hWold : W x j := ((hW' x j).mp hW).resolve_right hxj
      obtain ⟨g, hg, huse, hzeros⟩ := h.filled x hx j hj hWold hunset
      have hguse : κ g ≠ .none := by rw [huse]; simp
      have hgf : g ≠ f := fun heq => hguse (heq ▸ h.unused he.fresh)
      have hgT : g ≠ tableOf s D u := by
        rintro rfl
        rcases h.table_cases hu hset with ⟨-, htable, -⟩ | ⟨-, hold, heq⟩
        · rw [huse] at htable
          exact absurd htable (by simp)
        · exact hd.busy u hu hold (heq ▸ (h.used _ hguse).1)
      refine ⟨g, ?_, (h.use_kept he.fresh _ hguse).trans huse, fun k hk => ?_⟩
      · rw [h.tableEntry_entered hd he hu hset hx hj (not_and_or.mp hxj)]
        exact hg
      · rw [he.words g (h.ne_of_use hd hguse).2.2 hgf k hk (Or.inl hgT)]
        exact hzeros k hk

end Steps

end TsOs.Paging
