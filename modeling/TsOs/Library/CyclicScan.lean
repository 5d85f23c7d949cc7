import Mathlib.Tactic

/-!
# Scanning a ring of slots

A ring has `n` slots, of which some are live. A scan from a slot takes the first live
slot behind it and may come back to where it started. When scans follow each other
and one slot stays live, the scans between two visits of it pass every other slot
that stays live exactly once.
-/

namespace CyclicScan

variable {n a b c d p q : Nat} {live : Nat → Prop}

/-- The slot `p` places behind `a`. -/
def place (n a p : Nat) : Nat := (a + p) % n

theorem place_lt (hn : 0 < n) : place n a p < n := Nat.mod_lt _ hn

theorem place_place : place n (place n a p) q = place n a (p + q) := by
  rw [place, place, place, Nat.mod_add_mod, Nat.add_assoc]

theorem place_full (ha : a < n) : place n a n = a := by
  rw [place, Nat.add_mod_right, Nat.mod_eq_of_lt ha]

theorem place_zero (ha : a < n) : place n a 0 = a := Nat.mod_eq_of_lt ha

/-- Places of one turn are different. -/
theorem place_inj (hp : p < n) (hq : q < n) (h : place n a p = place n a q) : p = q := by
  have hmod : p ≡ q [MOD n] := Nat.ModEq.add_left_cancel' a h
  exact Nat.ModEq.eq_of_lt_of_lt hmod hp hq

/-- Every slot has a place in the turn that starts behind `a`. -/
theorem exists_place (ha : a < n) (hb : b < n) : ∃ p < n, place n a p = b := by
  rcases Nat.lt_or_ge b a with hlt | hle
  · refine ⟨b + n - a, by omega, ?_⟩
    rw [place, show a + (b + n - a) = b + n by omega, Nat.add_mod_right, Nat.mod_eq_of_lt hb]
  · refine ⟨b - a, by omega, ?_⟩
    rw [place, show a + (b - a) = b by omega, Nat.mod_eq_of_lt hb]

/-- The slot `d` is the first live one behind `c`. -/
def IsNext (live : Nat → Prop) (n c d : Nat) : Prop :=
  ∃ k, 0 < k ∧ k ≤ n ∧ place n c k = d ∧ live d ∧ ∀ j, 0 < j → j < k → ¬live (place n c j)

/-- Scans one after the other. A pair has the live slots of a scan and the slot it takes. -/
def Rotation (n : Nat) : Nat → List ((Nat → Prop) × Nat) → Nat → Prop
  | c, [], e => c = e
  | c, (live, d) :: rest, e => IsNext live n c d ∧ Rotation n d rest e

/-- From the place `p` of the turn that starts at a live slot, a scan that does not come back to
that slot moves on inside the turn, and does not pass a live place. -/
theorem IsNext.forward (h : IsNext live n (place n a p) d) (ha : a < n) (hp : p < n) (hlive : live a)
    (hne : d ≠ a) :
    ∃ r, p < r ∧ r < n ∧ place n a r = d ∧ ∀ q, p < q → q < n → live (place n a q) → r ≤ q := by
  obtain ⟨k, hk0, hkn, hkd, -, hdead⟩ := h
  rw [place_place] at hkd
  have hwrap : place n (place n a p) (n - p) = a := by
    rw [place_place, show p + (n - p) = n by omega, place_full ha]
  have hkp : k < n - p := by
    by_contra hge
    rcases Nat.eq_or_lt_of_le (Nat.le_of_not_lt hge) with heq | hlt
    · rw [place_place, heq] at hwrap
      exact hne (hkd.symm.trans hwrap)
    · exact hdead (n - p) (by omega) hlt (hwrap.symm ▸ hlive)
  refine ⟨p + k, by omega, by omega, hkd, fun q hpq hqn hq => ?_⟩
  by_contra hlt
  apply hdead (q - p) (by omega) (by omega)
  rw [place_place, show p + (q - p) = q by omega]
  exact hq

/-- A scan that comes back to the start of the turn has passed no live place behind it. -/
theorem IsNext.wrap (h : IsNext live n (place n a p) a) (ha : a < n) (hq : q < n)
    (hlive : live (place n a q)) : q ≤ p := by
  obtain ⟨k, hk0, hkn, hka, -, hdead⟩ := h
  rw [place_place] at hka
  by_contra hlt
  apply hdead (q - p) (by omega) _ (by rwa [place_place, show p + (q - p) = q by omega])
  by_contra hge
  have hinside : p + k < n := by omega
  have := place_inj hinside (by omega) (hka.trans (place_zero ha).symm)
  omega

/-- How often `b` has been taken shows whether its place lies behind the scan. -/
theorem Rotation.count {steps : List ((Nat → Prop) × Nat)} {e : Nat} (ha : a < n) (hp : p < n)
    (hq : q < n) (h : Rotation n (place n a p) steps e) (hne : ∀ x ∈ steps, x.2 ≠ a)
    (hlive : ∀ x ∈ steps, x.1 a ∧ x.1 (place n a q)) :
    ∃ r < n, p ≤ r ∧ place n a r = e ∧
      (steps.map Prod.snd).count (place n a q) = if p < q ∧ q ≤ r then 1 else 0 := by
  induction steps generalizing p with
  | nil => exact ⟨p, hp, le_refl p, h, by rw [if_neg (by omega)]; rfl⟩
  | cons x rest ih =>
      obtain ⟨live, d⟩ := x
      obtain ⟨hnext, hrest⟩ := h
      obtain ⟨hla, hlb⟩ := hlive _ List.mem_cons_self
      obtain ⟨r, hpr, hrn, rfl, hfirst⟩ := hnext.forward ha hp hla (hne _ List.mem_cons_self)
      obtain ⟨r', hr'n, hrr', he, hcount⟩ := ih hrn hrest
        (fun y hy => hne y (List.mem_cons_of_mem _ hy)) fun y hy => hlive y (List.mem_cons_of_mem _ hy)
      refine ⟨r', hr'n, by omega, he, ?_⟩
      rw [List.map_cons, List.count_cons, hcount]
      -- the scan stops at `b`, before it or behind it
      have hskip : p < q → r ≤ q := fun hpq => hfirst q hpq hq hlb
      by_cases hrq : r = q
      · subst hrq
        simp [hpr, hrr']
      · have hother : place n a r ≠ place n a q := fun heq => hrq (place_inj hrn hq heq)
        simp only [beq_iff_eq, if_neg hother]
        by_cases hpq : p < q
        · have := hskip hpq
          simp [hpq, show r < q by omega]
        · simp [hpq, show ¬r < q by omega]

/-- Between two visits of `a` every other slot that stays live is taken exactly once. The slot may
go only when the last scan starts from it. -/
theorem Rotation.count_eq_one {steps : List ((Nat → Prop) × Nat)} {e : Nat} (ha : a < n) (hb : b < n)
    (hab : b ≠ a) (h : Rotation n a steps e) (hne : ∀ x ∈ steps, x.2 ≠ a)
    (hsteps : ∀ x ∈ steps, x.1 a ∧ x.1 b) (hback : IsNext live n e a) (hlast : live b ∨ e = b) :
    (steps.map Prod.snd).count b = 1 := by
  obtain ⟨q, hq, rfl⟩ := exists_place ha hb
  have hq0 : 0 < q := by
    apply Nat.pos_of_ne_zero
    rintro rfl
    exact hab (place_zero ha)
  have hstart : Rotation n (place n a 0) steps e := by rwa [place_zero ha]
  obtain ⟨r, hr, -, rfl, hcount⟩ := hstart.count ha (by omega) hq hne hsteps
  have hpassed : q ≤ r := by
    rcases hlast with hlive | heq
    · exact hback.wrap ha hq hlive
    · exact (place_inj hr hq heq).ge
  rw [hcount, if_pos ⟨hq0, hpassed⟩]

end CyclicScan
