import TsOs.Paging.Supply

/-!
# Where the pages of a region land

The loop of `request_region_vmap` goes through the pages from `a` to `b`. The table it uses
for a page is that of the last slot on the way that is the first one or had no table before.
When that is not the page's own slot, the page is not entered in its own table, and a page
of another slot is.
-/

namespace TsOs.Paging

variable {s s' s₀ s₁ : Machine} {D R T d i j f g p q a b u k flag fl dir revTb pt va : Nat}
  {newPt ptNow : Option Nat} {κ : Nat → Use}

/-! ## The table in use -/

/-- The slot whose table is in use `k` slots behind the first one. -/
def usedSlot (s : Machine) (D first : Nat) : Nat → Nat
  | 0 => first
  | k + 1 => if entrySet (word s D (first + (k + 1))) then usedSlot s D first k else first + (k + 1)

/-- The slot whose table is in use for page `p` of a region from page `a` on. -/
def tableSlot (s : Machine) (D a p : Nat) : Nat := usedSlot s D (a / 1024) (p / 1024 - a / 1024)

theorem usedSlot_le (s : Machine) (D first k : Nat) :
    first ≤ usedSlot s D first k ∧ usedSlot s D first k ≤ first + k := by
  induction k with
  | zero => exact ⟨le_refl _, le_refl _⟩
  | succ k ih =>
      rw [usedSlot]
      split
      next => exact ⟨ih.1, by omega⟩
      next => exact ⟨by omega, le_refl _⟩

/-- The slot in use is the first one or had no table. -/
theorem usedSlot_cases (s : Machine) (D first k : Nat) :
    usedSlot s D first k = first ∨ entrySet (word s D (usedSlot s D first k)) = false := by
  induction k with
  | zero => exact Or.inl rfl
  | succ k ih =>
      rw [usedSlot]
      split
      next => exact ih
      next hclear => exact Or.inr (by simpa using hclear)

section TableSlot

variable (hap : a ≤ p)
include hap

theorem tableSlot_le : a / 1024 ≤ tableSlot s D a p ∧ tableSlot s D a p ≤ p / 1024 := by
  have hdiv : a / 1024 ≤ p / 1024 := Nat.div_le_div_right hap
  obtain ⟨hlow, hhigh⟩ := usedSlot_le s D (a / 1024) (p / 1024 - a / 1024)
  unfold tableSlot
  omega

omit hap in
theorem tableSlot_self : tableSlot s D a a = a / 1024 := by
  unfold tableSlot
  rw [Nat.sub_self]
  rfl

/-- A slot that is entered with a table keeps the table in use, and one without gets its own. -/
theorem tableSlot_enter (hslot : (p + 1) / 1024 = p / 1024 + 1) :
    tableSlot s D a (p + 1) =
      if entrySet (word s D ((p + 1) / 1024)) then tableSlot s D a p else (p + 1) / 1024 := by
  have hdiv : a / 1024 ≤ p / 1024 := Nat.div_le_div_right hap
  have hsucc : (p + 1) / 1024 - a / 1024 = p / 1024 - a / 1024 + 1 := by omega
  have hback : a / 1024 + (p / 1024 - a / 1024 + 1) = (p + 1) / 1024 := by omega
  unfold tableSlot
  rw [hsucc, usedSlot, hback]

omit hap in
theorem tableSlot_stay (hslot : (p + 1) / 1024 = p / 1024) : tableSlot s D a (p + 1) = tableSlot s D a p := by
  unfold tableSlot
  rw [hslot]

/-- The slot of a page that is not in its own table had one. -/
theorem set_of_misplaced (h : tableSlot s D a p ≠ p / 1024) :
    entrySet (word s D (p / 1024)) = true ∧ a / 1024 < p / 1024 := by
  have hdiv : a / 1024 ≤ p / 1024 := Nat.div_le_div_right hap
  obtain ⟨k, hk⟩ := Nat.exists_eq_add_of_le hdiv
  have hsub : p / 1024 - a / 1024 = k := by omega
  unfold tableSlot at h
  rw [hsub, hk] at h
  rw [hk]
  cases k with
  | zero => exact absurd rfl h
  | succ k =>
      rw [usedSlot] at h
      split at h
      next hset => exact ⟨hset, by omega⟩
      next => exact absurd rfl h

end TableSlot

/-! ## The rounds -/

/-- The slots that have got a table before page `p`. -/
def Made (s : Machine) (D a p d : Nat) : Prop :=
  entrySet (word s D d) = false ∧ ∃ q, a ≤ q ∧ q < p ∧ q / 1024 = d

/-- The entries of tables that have been visited before page `p`. -/
def Visited (s : Machine) (D a p d i : Nat) : Prop :=
  ∃ q, a ≤ q ∧ q < p ∧ tableSlot s D a q = d ∧ q % 1024 = i

theorem made_succ (hap : a ≤ p) :
    Made s D a (p + 1) d ↔ Made s D a p d ∨ entrySet (word s D d) = false ∧ d = p / 1024 := by
  constructor
  · rintro ⟨hclear, q, haq, hqp, hq⟩
    rcases Nat.lt_succ_iff_lt_or_eq.mp hqp with hlt | rfl
    · exact Or.inl ⟨hclear, q, haq, hlt, hq⟩
    · exact Or.inr ⟨hclear, hq.symm⟩
  · rintro (⟨hclear, q, haq, hqp, hq⟩ | ⟨hclear, rfl⟩)
    · exact ⟨hclear, q, haq, Nat.lt_succ_of_lt hqp, hq⟩
    · exact ⟨hclear, p, hap, Nat.lt_succ_self p, rfl⟩

theorem visited_succ (hap : a ≤ p) : Visited s D a (p + 1) d i ↔
    Visited s D a p d i ∨ d = tableSlot s D a p ∧ i = p % 1024 := by
  constructor
  · rintro ⟨q, haq, hqp, hq, hi⟩
    rcases Nat.lt_succ_iff_lt_or_eq.mp hqp with hlt | rfl
    · exact Or.inl ⟨q, haq, hlt, hq, hi⟩
    · exact Or.inr ⟨hq.symm, hi.symm⟩
  · rintro (⟨q, haq, hqp, hq, hi⟩ | ⟨rfl, rfl⟩)
    · exact ⟨q, haq, Nat.lt_succ_of_lt hqp, hq, hi⟩
    · exact ⟨p, hap, Nat.lt_succ_self p, rfl, rfl⟩

theorem pageDirIndex_mul (p : Nat) : pageDirIndex (p * frameSize) = p / 1024 := by
  unfold pageDirIndex frameSize
  omega

theorem pageTableIndex_mul (p : Nat) : pageTableIndex (p * frameSize) = p % 1024 := by
  unfold pageTableIndex frameSize
  omega

/-- The table that the rounds have in use in front of page `p`. -/
def InUse (s₀ s : Machine) (D a p : Nat) (ptNow : Option Nat) : Prop :=
  p = a ∧ ptNow = none ∨
    a < p ∧ ∃ pt, ptNow = some pt ∧ tempFrame s pt = some (tableOf s D (tableSlot s₀ D a (p - 1)))

/-- The directory, its reverse table and the table in use are mapped in front of a round. -/
structure Ready (s₀ s : Machine) (D a p dir revTb : Nat) (ptNow : Option Nat) : Prop where
  dir : tempFrame s dir = some D
  rev : tempFrame s revTb = some (tableOf s₀ D 1023)
  inUse : InUse s₀ s D a p ptNow

/-- The slots up to that of page `p` are taken care of, and `pt` leads to the table in use. -/
structure Chosen (κ : Nat → Use) (s₀ s : Machine) (D a p dir revTb pt flag : Nat) : Prop where
  filled : Filled κ s₀ s D (tableOf s₀ D 1023) flag (Made s₀ D a (p + 1)) (Visited s₀ D a p)
  dir : tempFrame s dir = some D
  rev : tempFrame s revTb = some (tableOf s₀ D 1023)
  leads : tempFrame s pt = some (tableOf s D (tableSlot s₀ D a p))
  isSet : entrySet (word s D (tableSlot s₀ D a p)) = true

section Rounds

variable (hd : Directory s₀ D) (hap : a ≤ p) (hp : p < 2 ^ 20)

include hd hp in
/-- Only a region in the last slot uses its table, and creates none. -/
theorem not_made_of_last (hlast : tableSlot s₀ D a p = 1023) (x : Nat) : ¬Made s₀ D a (p + 1) x := by
  rintro ⟨hclear, q, haq, hqp, rfl⟩
  have hfirst : a / 1024 = 1023 := by
    rcases usedSlot_cases s₀ D (a / 1024) (p / 1024 - a / 1024) with hfirst | hunset
    · exact (hfirst.symm.trans hlast)
    · have hunset : entrySet (word s₀ D (tableSlot s₀ D a p)) = false := hunset
      rw [hlast, hd.reverse] at hunset
      exact absurd hunset (by decide)
  have hq : q / 1024 = 1023 := by omega
  rw [hq, hd.reverse] at hclear
  exact absurd hclear (by decide)

variable (h : Filled κ s₀ s D (tableOf s₀ D 1023) flag (Made s₀ D a p) (Visited s₀ D a p))
include h hap hp

omit hap in
/-- In front of page `p`, its slot has no table when it had none and is entered now. -/
theorem Filled.slot_clear (hclear : entrySet (word s D (p / 1024)) = false) :
    entrySet (word s₀ D (p / 1024)) = false ∧ (a < p → p / 1024 = (p - 1) / 1024 + 1) := by
  have hslot : p / 1024 < 1024 := by omega
  have hnot := mt (h.set_iff hslot).mpr (by rw [hclear]; exact Bool.false_ne_true)
  obtain ⟨hmade, hold⟩ := not_or.mp hnot
  rw [Bool.not_eq_true] at hold
  refine ⟨hold, fun hlt => ?_⟩
  by_contra hne
  exact hmade ⟨hold, p - 1, by omega, by omega, by omega⟩

/-- A slot that is without a table gets the new one in use. -/
theorem Filled.tableSlot_clear (hclear : entrySet (word s D (p / 1024)) = false) :
    tableSlot s₀ D a p = p / 1024 := by
  obtain ⟨hold, henter⟩ := h.slot_clear hp hclear
  rcases Nat.eq_or_lt_of_le hap with rfl | hlt
  · exact tableSlot_self
  · obtain ⟨q, rfl⟩ : ∃ q, p = q + 1 := ⟨p - 1, by omega⟩
    rw [tableSlot_enter (by omega) (henter hlt), if_neg (by rw [hold]; exact Bool.false_ne_true)]

/-- A slot that has a table keeps the one in use. -/
theorem Filled.tableSlot_set (hlt : a < p) (hset : entrySet (word s D (p / 1024)) = true) :
    tableSlot s₀ D a p = tableSlot s₀ D a (p - 1) := by
  obtain ⟨q, rfl⟩ : ∃ q, p = q + 1 := ⟨p - 1, by omega⟩
  rw [Nat.add_sub_cancel]
  by_cases hstay : (q + 1) / 1024 = q / 1024
  · exact tableSlot_stay hstay
  · have hold : entrySet (word s₀ D ((q + 1) / 1024)) = true := by
      refine ((h.set_iff (by omega)).mp hset).resolve_left ?_
      rintro ⟨-, r, -, hr, heq⟩
      omega
    rw [tableSlot_enter (by omega) (by omega), if_pos hold]

theorem Filled.made_set (hset : entrySet (word s D (p / 1024)) = true) (x : Nat) :
    Made s₀ D a (p + 1) x ↔ Made s₀ D a p x := by
  rw [made_succ hap]
  refine ⟨fun hor => hor.elim id ?_, Or.inl⟩
  rintro ⟨hclear, rfl⟩
  refine ((h.set_iff (by omega)).mp hset).resolve_right ?_
  rw [hclear]
  exact Bool.false_ne_true

/-- The slot has a table, and the one of the round before stays in use. -/
theorem Filled.chosen_kept (hr : Ready s₀ s D a p dir revTb ptNow)
    (hset : entrySet (word s D (p / 1024)) = true) (hnow : ptNow = some pt) :
    Chosen κ s₀ s D a p dir revTb pt flag := by
  rcases hr.inUse with ⟨-, hnone⟩ | ⟨hlt, old, hold, hleads⟩
  · exact absurd (hnone.symm.trans hnow) (by simp)
  · obtain rfl := Option.some.inj (hold.symm.trans hnow)
    have hkeep := h.tableSlot_set hap hp hlt hset
    have hprev : a ≤ p - 1 := by omega
    refine ⟨h.congr (h.made_set hap hp hset) fun _ _ => Iff.rfl, hr.dir, hr.rev, ?_, ?_⟩
    · rw [hkeep]
      exact hleads
    · rw [hkeep]
      exact h.visited _ (by have := (tableSlot_le (s := s₀) (D := D) hprev).2; omega) ((p - 1) % 1024)
        ⟨p - 1, hprev, by omega, rfl, rfl⟩

include hd

/-- The first slot has a table, which is mapped now. -/
theorem Filled.chosen_mapped (hr : Ready s₀ s D a p dir revTb none)
    (hset : entrySet (word s D (p / 1024)) = true)
    (hget : getTempVa s (frameOf (word s D (p / 1024))) = some (pt, s')) :
    Chosen κ s₀ s' D a p dir revTb pt flag := by
  have hslot : p / 1024 < 1024 := by omega
  obtain ⟨honly, hleads, hslots⟩ := getTempVa_spec hget (frameOf_word_lt _ _ _)
  have hfirst : p = a := by
    rcases hr.inUse with ⟨heq, -⟩ | ⟨-, old, hold, -⟩
    · exact heq
    · exact absurd hold (by simp)
  subst hfirst
  have hword : ∀ x < 1024, word s' D x = word s D x := honly.words D hd.dir_ne
  have hfilled := (h.of_temp hd honly).congr (h.made_set hap hp hset) fun _ _ => Iff.rfl
  refine ⟨hfilled, hslots _ _ hr.dir, hslots _ _ hr.rev, ?_, ?_⟩
  · rw [tableSlot_self, tableOf, hword _ hslot]
    exact hleads
  · rw [tableSlot_self, hword _ hslot]
    exact hset

/-- A slot without a table is not the last one, and no page has been entered there. -/
theorem Filled.not_visited_last (hclear : entrySet (word s D (p / 1024)) = false) (i : Nat) :
    ¬Visited s₀ D a p 1023 i := by
  have ht := h.tables hd
  rintro ⟨q, haq, hqp, hq, -⟩
  have hle := (tableSlot_le (s := s₀) (D := D) haq).2
  have hslot : p / 1024 = 1023 := by omega
  rw [hslot, ht.reverse] at hclear
  exact absurd hclear (by decide)

/-- The slot gets a table. -/
theorem Filled.chosen_linked (hr : Ready s₀ s D a p dir revTb ptNow) (hfl : fl < frameSize ∧ fl % 2 = 1)
    (hclear : entrySet (word s D (p / 1024)) = false) (hall : Allocated s s₁ pt f) :
    ∃ κ', Chosen κ' s₀ (linkTable s₁ D (tableOf s₀ D 1023) (p / 1024) f fl) D a p dir revTb pt flag := by
  have hslot : p / 1024 < 1024 := by omega
  have ht := h.tables hd
  obtain ⟨-, hrev⟩ := h.reverse_eq hd
  obtain ⟨hunset, -⟩ := h.slot_clear hp hclear
  have hDf : D ≠ f := fun heq => ht.dir_busy (heq ▸ hall.isIdle)
  have hRf : tableOf s₀ D 1023 ≠ f := fun heq =>
    ht.busy 1023 (by decide) ht.reverse (hrev ▸ heq ▸ hall.isIdle)
  have hlinked : Linked s (linkTable s₁ D (tableOf s₀ D 1023) (p / 1024) f fl) D (tableOf s₀ D 1023)
      (p / 1024) f fl :=
    hall.linked hd.dir_ne (hd.ne_dir 1023 (by decide) hd.reverse).symm hDf hRf hfl.1
  have hmade : ∀ x, Made s₀ D a (p + 1) x ↔ Made s₀ D a p x ∨ x = p / 1024 := by
    intro x
    rw [made_succ hap]
    refine or_congr_right ⟨And.right, ?_⟩
    rintro rfl
    exact ⟨hunset, rfl⟩
  have hmap : ∀ x, tempFrame (linkTable s₁ D (tableOf s₀ D 1023) (p / 1024) f fl) x = tempFrame s₁ x :=
    linkTable_tempFrame hd.dir_ne (hd.ne_sysTb 1023 (by decide) hd.reverse)
  have htable : tableOf (linkTable s₁ D (tableOf s₀ D 1023) (p / 1024) f fl) D (p / 1024) = f := by
    rw [tableOf, hlinked.slot, frameOf_pageEntry hfl.1]
  refine ⟨_, h.link hd hlinked hslot hclear hfl (h.not_visited_last hd hap hp hclear) hmade, ?_, ?_, ?_, ?_⟩
  · rw [hmap]
    exact hall.slot_kept hr.dir
  · rw [hmap]
    exact hall.slot_kept hr.rev
  · rw [h.tableSlot_clear hap hp hclear, hmap, htable]
    exact hall.leads
  · rw [h.tableSlot_clear hap hp hclear, hlinked.slot]
    exact entrySet_pageEntry hfl.1 hfl.2

/-- The mapping of the table of the round before is none of those that stay. -/
theorem Filled.old_apart (hr : Ready s₀ s D a p dir revTb (some q))
    (hclear : entrySet (word s D (p / 1024)) = false) (hall : Allocated s s₁ pt f) :
    dir ≠ q ∧ revTb ≠ q ∧ pt ≠ q := by
  have ht := h.tables hd
  obtain ⟨-, hrev⟩ := h.reverse_eq hd
  obtain ⟨hlt, hleads⟩ : a < p ∧ tempFrame s q = some (tableOf s D (tableSlot s₀ D a (p - 1))) := by
    rcases hr.inUse with ⟨-, hnone⟩ | ⟨hlt, old, hold, hleads⟩
    · exact absurd hnone (by simp)
    · obtain rfl := Option.some.inj hold
      exact ⟨hlt, hleads⟩
  have hprev : a ≤ p - 1 := by omega
  have hvisited : Visited s₀ D a p (tableSlot s₀ D a (p - 1)) ((p - 1) % 1024) :=
    ⟨p - 1, hprev, by omega, rfl, rfl⟩
  have hprevSlot : tableSlot s₀ D a (p - 1) < 1024 := by
    have := (tableSlot_le (s := s₀) (D := D) hprev).2
    omega
  have hprevSet := h.visited _ hprevSlot _ hvisited
  refine ⟨?_, ?_, ?_⟩
  · rintro rfl
    exact ht.ne_dir _ hprevSlot hprevSet (Option.some.inj (hleads.symm.trans hr.dir))
  · rintro rfl
    have heq := Option.some.inj (hleads.symm.trans hr.rev)
    have hslot := ht.distinct _ hprevSlot 1023 (by decide) hprevSet ht.reverse (heq.trans hrev.symm)
    exact h.not_visited_last hd hap hp hclear _ (hslot ▸ hvisited)
  · rintro rfl
    rw [hall.absent] at hleads
    exact absurd hleads (by simp)

omit hap hp h in
/-- Deleting another mapping changes nothing of this. -/
theorem Chosen.deleted (hc : Chosen κ s₀ s D a p dir revTb pt flag) (hslot : tableSlot s₀ D a p < 1024)
    (hdir : dir ≠ q) (hrev : revTb ≠ q) (hpt : pt ≠ q) :
    Chosen κ s₀ (deleteTempVa s q) D a p dir revTb pt flag := by
  obtain ⟨honly, hother⟩ := deleteTempVa_spec s q
  have hword : ∀ x < 1024, word (deleteTempVa s q) D x = word s D x := honly.words D hd.dir_ne
  refine ⟨hc.filled.of_temp hd honly, ?_, ?_, ?_, ?_⟩
  · rw [hother dir hdir]
    exact hc.dir
  · rw [hother revTb hrev]
    exact hc.rev
  · rw [hother pt hpt, tableOf, hword _ hslot]
    exact hc.leads
  · rw [hword _ hslot]
    exact hc.isSet

/-- The first half of a round: the table in use is that of the slot in use. -/
theorem Filled.select (hr : Ready s₀ s D a p dir revTb ptNow) (hfl : fl < frameSize ∧ fl % 2 = 1)
    (hsel : selectTable s dir revTb ptNow (p * frameSize) fl = some (newPt, pt, s')) :
    ∃ κ', Chosen κ' s₀ s' D a p dir revTb pt flag := by
  have hva : p * frameSize < 2 ^ 32 := by
    unfold frameSize
    omega
  have hcases := selectTable_cases hr.dir hr.rev hva hd.dir_ne hsel
  rw [pageDirIndex_mul] at hcases
  rcases hcases with ⟨hset, hnow, -, rfl⟩ | ⟨hset, rfl, -, hget⟩ | ⟨hclear, -, f, s₁, hall, hlink⟩
  · exact ⟨κ, h.chosen_kept hap hp hr hset hnow⟩
  · exact ⟨κ, h.chosen_mapped hd hap hp hr hset hget⟩
  · obtain ⟨κ', hchosen⟩ := h.chosen_linked hd hap hp hr hfl hclear hall
    rcases hlink with ⟨-, rfl⟩ | ⟨old, rfl, rfl⟩
    · exact ⟨κ', hchosen⟩
    · obtain ⟨hdir, hrev, hpt⟩ := h.old_apart hd hap hp hr hclear hall
      have hle := (tableSlot_le (s := s₀) (D := D) hap).2
      exact ⟨κ', hchosen.deleted hd (by omega) hdir hrev hpt⟩

end Rounds

/-- A frame in use that is neither the directory nor one of its tables. -/
structure Bystander (s : Machine) (D g : Nat) : Prop where
  busy : ¬Idle s g
  ne_sysTb : g ≠ sysTb
  ne_dir : g ≠ D
  ne_table : ∀ d < 1024, entrySet (word s D d) = true → g ≠ tableOf s D d

section Loop

variable {C : Nat → Prop} {W : Nat → Nat → Prop}
  (hd : Directory s₀ D) (hflag : flag < frameSize ∧ flag % 2 = 1)
include hd hflag

/-- The second half of a round: the entry of the page is visited in the table in use. -/
theorem Filled.fill (hap : a ≤ p) (hp : p < 2 ^ 20)
    (h : Filled κ s₀ s D (tableOf s₀ D 1023) flag (Made s₀ D a (p + 1)) (Visited s₀ D a p))
    (hset : entrySet (word s D (tableSlot s₀ D a p)) = true)
    (hpt : tempFrame s pt = some (tableOf s D (tableSlot s₀ D a p)))
    (hfill : fillEntry s pt (p * frameSize) flag = some s') :
    ∃ κ', Filled κ' s₀ s' D (tableOf s₀ D 1023) flag (Made s₀ D a (p + 1)) (Visited s₀ D a (p + 1)) ∧
      (∀ k g, tempFrame s k = some g → tempFrame s' k = some g) ∧
      tableOf s' D (tableSlot s₀ D a p) = tableOf s D (tableSlot s₀ D a p) := by
  have ht := h.tables hd
  have hslot : tableSlot s₀ D a p < 1024 := by
    have := (tableSlot_le (s := s₀) (D := D) hap).2
    omega
  have hi : p % 1024 < 1024 := Nat.mod_lt _ (by decide)
  have hlast : tableSlot s₀ D a p = 1023 → ∀ x, ¬Made s₀ D a (p + 1) x := not_made_of_last hd hp
  have hentry : tableEntry s D (tableSlot s₀ D a p) (p % 1024) =
      word s (tableOf s D (tableSlot s₀ D a p)) (p % 1024) := tableEntry_of_set hset
  have hcases := fillEntry_cases hpt hfill
  rw [pageTableIndex_mul, ← hentry] at hcases
  rcases hcases with ⟨hpage, rfl⟩ | ⟨hpage, page, f, s₁, hall, rfl⟩
  · exact ⟨κ, h.visit hslot hset hi hpage hlast fun x j => visited_succ hap, fun _ _ hg => hg, rfl⟩
  · have hT := ht.ne_sysTb _ hslot hset
    have hTf : tableOf s D (tableSlot s₀ D a p) ≠ f := fun heq => ht.busy _ hslot hset (heq ▸ hall.isIdle)
    have he := hall.entered hT hTf hi hflag.1
    refine ⟨_, h.enter hd he hslot hset hi hpage hlast fun x j => visited_succ hap, fun k g hg => ?_, ?_⟩
    · obtain ⟨-, hother⟩ := deleteTempVa_spec (setWord s₁ (tableOf s D (tableSlot s₀ D a p)) (p % 1024)
        (pageEntry f flag)) page
      rw [hother k, (onlyFrame_setWord s₁ _ _ _).tempFrame_eq hT]
      · exact hall.slot_kept hg
      · rintro rfl
        rw [hall.absent] at hg
        exact absurd hg (by simp)
    · have hDf : D ≠ f := fun heq => ht.dir_busy (heq ▸ hall.isIdle)
      exact congrArg frameOf (he.words D hd.dir_ne hDf _ hslot (Or.inl (ht.ne_dir _ hslot hset).symm))

/-- One round. -/
theorem Filled.round (hap : a ≤ p) (hp : p < 2 ^ 20)
    (h : Filled κ s₀ s D (tableOf s₀ D 1023) flag (Made s₀ D a p) (Visited s₀ D a p))
    (hr : Ready s₀ s D a p dir revTb ptNow) (hfl : fl < frameSize ∧ fl % 2 = 1)
    (hsel : selectTable s dir revTb ptNow (p * frameSize) fl = some (newPt, pt, s₁))
    (hfill : fillEntry s₁ pt (p * frameSize) flag = some s') :
    ∃ κ', Filled κ' s₀ s' D (tableOf s₀ D 1023) flag (Made s₀ D a (p + 1)) (Visited s₀ D a (p + 1)) ∧
      Ready s₀ s' D a (p + 1) dir revTb (some pt) := by
  obtain ⟨κ₁, h₁, hdir, hrev, hpt, hset⟩ := h.select hd hap hp hr hfl hsel
  obtain ⟨κ₂, h₂, hslots, htable⟩ := h₁.fill hd hflag hap hp hset hpt hfill
  refine ⟨κ₂, h₂, hslots _ _ hdir, hslots _ _ hrev, Or.inr ⟨Nat.lt_succ_of_le hap, pt, rfl, ?_⟩⟩
  rw [Nat.add_sub_cancel, htable]
  exact hslots _ _ hpt

omit hd hflag in
/-- The tables of a bystander's directory stay other frames. -/
theorem Filled.ne_table (h : Filled κ s₀ s D (tableOf s₀ D 1023) flag C W) (hg : Bystander s₀ D g) (hdlt : d < 1024)
    (hset : entrySet (word s D d) = true) : g ≠ tableOf s D d := by
  rcases h.table_cases hdlt hset with ⟨-, -, hidle⟩ | ⟨-, hold, heq⟩
  · rintro rfl
    exact hg.busy hidle
  · rw [heq]
    exact hg.ne_table d hdlt hold

omit hflag in
/-- A round does not write a bystander. -/
theorem Filled.round_words (hap : a ≤ p) (hp : p < 2 ^ 20)
    (h : Filled κ s₀ s D (tableOf s₀ D 1023) flag (Made s₀ D a p) (Visited s₀ D a p))
    (hr : Ready s₀ s D a p dir revTb ptNow) (hfl : fl < frameSize ∧ fl % 2 = 1)
    (hsel : selectTable s dir revTb ptNow (p * frameSize) fl = some (newPt, pt, s₁))
    (hfill : fillEntry s₁ pt (p * frameSize) flag = some s') (hg : Bystander s₀ D g) :
    ∀ j < 1024, word s' g j = word s g j := by
  intro j hj
  have hva : p * frameSize < 2 ^ 32 := by
    unfold frameSize
    omega
  have hslot : tableSlot s₀ D a p < 1024 := by
    have := (tableSlot_le (s := s₀) (D := D) hap).2
    omega
  have hnew : ∀ {f}, Idle s f → g ≠ f := by
    rintro f hidle rfl
    exact hg.busy (h.idle g hidle)
  have hfirst : word s₁ g j = word s g j := by
    have hlink : ∀ {t : Machine} {f}, Allocated s t pt f →
        word (linkTable t D (tableOf s₀ D 1023) (pageDirIndex (p * frameSize)) f fl) g j = word s g j := by
      intro t f hall
      rw [linkTable, word_setWord_ne _ _ (Or.inl (hg.ne_table 1023 (by decide) hd.reverse)),
        word_setWord_ne _ _ (Or.inl hg.ne_dir)]
      exact hall.words g (hnew hall.isIdle) hg.ne_sysTb j hj
    rcases selectTable_cases hr.dir hr.rev hva hd.dir_ne hsel with
      ⟨-, -, -, rfl⟩ | ⟨-, -, -, hget⟩ | ⟨-, -, f, t, hall, ⟨-, rfl⟩ | ⟨old, -, rfl⟩⟩
    · rfl
    · exact (getTempVa_spec hget (frameOf_word_lt _ _ _)).1.words g hg.ne_sysTb j hj
    · exact hlink hall
    · rw [(deleteTempVa_spec _ old).1.words g hg.ne_sysTb j hj]
      exact hlink hall
  obtain ⟨κ₁, h₁, -, -, hpt, hset⟩ := h.select hd hap hp hr hfl hsel
  rw [← hfirst]
  rcases fillEntry_cases hpt hfill with ⟨-, rfl⟩ | ⟨-, page, f, t, hall, rfl⟩
  · rfl
  · have hgf : g ≠ f := by
      rintro rfl
      exact hg.busy (h₁.idle g hall.isIdle)
    rw [(deleteTempVa_spec _ page).1.words g hg.ne_sysTb j hj,
      word_setWord_ne _ _ (Or.inl (h₁.ne_table hg hslot hset))]
    exact hall.words g hgf hg.ne_sysTb j hj

omit hd hflag in
theorem u32_page (hp : p + 1 < 2 ^ 20) : u32 (p * frameSize + frameSize) = (p + 1) * frameSize := by
  rw [← Nat.succ_mul]
  refine u32_of_lt ?_
  unfold frameSize
  omega

/-- Induction on the rounds. At the end the table of `new_pt` is the one in use, if there is one, and no
bystander has been written. -/
theorem mapRegionLoop_filled (hb : b + 1 < 2 ^ 20) {n : Nat} {last : Option Nat} (hap : a ≤ p) (hpb : p ≤ b + 1)
    (h : Filled κ s₀ s D (tableOf s₀ D 1023) flag (Made s₀ D a p) (Visited s₀ D a p))
    (hr : Ready s₀ s D a p dir revTb ptNow) (hnew : newPt = none ∨ newPt = ptNow)
    (hfl : fl < frameSize ∧ fl % 2 = 1)
    (hrun : mapRegionLoop dir revTb (b * frameSize) flag n s newPt ptNow fl (p * frameSize) = some (last, s')) :
    ∃ κ' now, Filled κ' s₀ s' D (tableOf s₀ D 1023) flag (Made s₀ D a (b + 1)) (Visited s₀ D a (b + 1)) ∧
      Ready s₀ s' D a (b + 1) dir revTb now ∧ (last = none ∨ last = now) ∧
      ∀ g, Bystander s₀ D g → ∀ j < 1024, word s' g j = word s g j := by
  induction n generalizing κ s newPt ptNow fl p with
  | zero => exact absurd hrun (by simp [mapRegionLoop])
  | succ n ih =>
      rw [mapRegionLoop] at hrun
      split at hrun
      next hle =>
        have hle : p ≤ b := Nat.le_of_mul_le_mul_right hle (by decide)
        have hfl' := pageFlgUsr_or_kernel (c := p * frameSize < kernelVStart) hfl
        obtain ⟨⟨new, pt, s₁⟩, hsel, hrun⟩ := Option.bind_eq_some_iff.mp hrun
        obtain ⟨s₂, hfill, hrun⟩ := Option.bind_eq_some_iff.mp hrun
        obtain ⟨κ', h', hr'⟩ := h.round hd hflag hap (by omega) hr hfl' hsel hfill
        have hva : p * frameSize < 2 ^ 32 := by
          unfold frameSize
          omega
        have hnew' : new = none ∨ new = some pt := by
          rcases selectTable_cases hr.dir hr.rev hva hd.dir_ne hsel with
            ⟨-, -, hnone, -⟩ | ⟨-, -, hnone, -⟩ | ⟨-, hsome, -⟩
          · exact Or.inl hnone
          · exact Or.inl hnone
          · exact Or.inr hsome
        rw [u32_page (by omega)] at hrun
        obtain ⟨κ'', now, hfilled, hready, hlast, hwords⟩ := ih (by omega) (by omega) h' hr' hnew' hfl' hrun
        refine ⟨κ'', now, hfilled, hready, hlast, fun g hg j hj => ?_⟩
        rw [hwords g hg j hj]
        exact h.round_words hd hap (by omega) hr hfl' hsel hfill hg j hj
      next hgt =>
        obtain ⟨rfl, rfl⟩ : newPt = last ∧ s = s' := by simpa using hrun
        have hlt : b < p := Nat.lt_of_mul_lt_mul_right (Nat.not_le.mp hgt)
        obtain rfl : p = b + 1 := by omega
        exact ⟨κ, ptNow, h, hr, hnew, fun _ _ _ _ => rfl⟩

/-- The rounds return while there are frames for the pages and tables that are left. -/
theorem mapRegionLoop_returns (hb : b + 1 < 2 ^ 20) (n : Nat) (newPt : Option Nat) (hap : a ≤ p) (hpb : p ≤ b + 1)
    (hn : b + 2 ≤ n + p)
    (h : Filled κ s₀ s D (tableOf s₀ D 1023) flag (Made s₀ D a p) (Visited s₀ D a p))
    (hr : Ready s₀ s D a p dir revTb ptNow) (hfl : fl < frameSize ∧ fl % 2 = 1)
    (hk : p ≤ b → IdleFrames s (b - p + (b / 1024 - p / 1024) + 1 +
      if entrySet (word s D (p / 1024)) then 0 else 1))
    (hm : FreeTemps s (2 + if ptNow = none then 1 else 0)) :
    ∃ last s', mapRegionLoop dir revTb (b * frameSize) flag n s newPt ptNow fl (p * frameSize) =
      some (last, s') := by
  induction n generalizing κ s newPt ptNow fl p with
  | zero => omega
  | succ n ih =>
      rw [mapRegionLoop]
      by_cases hle : p ≤ b
      · have hva : p * frameSize < 2 ^ 32 := by
          unfold frameSize
          omega
        have ht := h.tables hd
        have hfl' := pageFlgUsr_or_kernel (c := p * frameSize < kernelVStart) hfl
        have hidx := pageDirIndex_mul p
        have hnow : ∀ q, ptNow = some q → ∃ T, tempFrame s q = some T := by
          intro q hq
          rcases hr.inUse with ⟨-, hnone⟩ | ⟨-, old, hold, hleads⟩
          · exact absurd (hnone.symm.trans hq) (by simp)
          · exact ⟨_, Option.some.inj (hold.symm.trans hq) ▸ hleads⟩
        obtain ⟨new, pt, s₁, hsel, hk₁, hm₁⟩ := selectTable_returns (m := 1)
          (if p * frameSize < kernelVStart then pageFlgUsr else fl) hr.dir hr.rev hd.dir_ne
          (hd.ne_sysTb 1023 (by decide) hd.reverse) hva
          (by rw [hidx]; exact ht.ne_zero _ (by omega)) hnow (by rw [hidx]; exact hk hle) hm
        obtain ⟨κ₁, h₁, -, -, hpt, hset⟩ := h.select hd hap (by omega) hr hfl' hsel
        have hslot : tableSlot s₀ D a p < 1024 := by
          have := (tableSlot_le (s := s₀) (D := D) hap).2
          omega
        obtain ⟨s₂, hfill, hk₂, hm₂⟩ := fillEntry_returns (p * frameSize) flag hpt
          ((h₁.tables hd).ne_sysTb _ hslot hset) hk₁ hm₁
        obtain ⟨κ₂, h₂, hr₂⟩ := h.round hd hflag hap (by omega) hr hfl' hsel hfill
        have hown : entrySet (word s₂ D (p / 1024)) = true := by
          refine (h₂.set_iff (by omega)).mpr ?_
          by_cases hold : entrySet (word s₀ D (p / 1024)) = true
          · exact Or.inr hold
          · exact Or.inl ⟨by simpa using hold, p, hap, Nat.lt_succ_self p, rfl⟩
        rw [if_pos (Nat.mul_le_mul_right _ hle)]
        simp only [Option.bind_eq_bind, hsel, Option.bind_some, hfill]
        rw [u32_page (by omega)]
        refine ih _ (by omega) (by omega) (by omega) h₂ hr₂ hfl' (fun hle' => hk₂.mono ?_) hm₂
        by_cases hstay : (p + 1) / 1024 = p / 1024
        · rw [hstay, if_pos hown]
          omega
        · split <;> omega
      · have hgt : ¬p * frameSize ≤ b * frameSize := fun hmul => hle (Nat.le_of_mul_le_mul_right hmul (by decide))
        rw [if_neg hgt]
        exact ⟨newPt, s, rfl⟩

end Loop

/-- A region up to the last page of the address space does not come to an end. -/
theorem mapRegionLoop_last {n fl : Nat} (hp : p < 2 ^ 20) (r : Option Nat × Machine) :
    mapRegionLoop dir revTb ((2 ^ 20 - 1) * frameSize) flag n s newPt ptNow fl (p * frameSize) ≠ some r := by
  induction n generalizing s newPt ptNow fl p with
  | zero => simp [mapRegionLoop]
  | succ n ih =>
      intro hrun
      rw [mapRegionLoop, if_pos (Nat.mul_le_mul_right _ (by omega))] at hrun
      obtain ⟨⟨new, pt, s₁⟩, -, hrun⟩ := Option.bind_eq_some_iff.mp hrun
      obtain ⟨s₂, -, hrun⟩ := Option.bind_eq_some_iff.mp hrun
      rcases Nat.lt_or_ge (p + 1) (2 ^ 20) with hlt | hge
      · rw [u32_page hlt] at hrun
        exact ih hlt hrun
      · obtain rfl : p = 2 ^ 20 - 1 := by omega
        have hwrap : u32 ((2 ^ 20 - 1) * frameSize + frameSize) = 0 * frameSize := by decide
        rw [hwrap] at hrun
        exact ih (by decide) hrun

end TsOs.Paging
