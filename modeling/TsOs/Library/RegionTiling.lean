import Mathlib.Tactic
import Mathlib.Data.List.Chain

/-!
# Tilings of an interval by headed regions

A region has a header of `hd` bytes followed by `size` bytes, and is free or in
use. A tiling lists the regions of an interval from left to right without gaps.
Freeing marks regions and joins neighbouring free regions into one. Joining is
confluent: what remains after freeing several regions depends on the set of
regions freed and not on the order or on the joins in between.
-/

namespace RegionTiling

/-- One region of a tiling: its header address, payload size and status. -/
structure Region where
  addr : Nat
  size : Nat
  free : Bool
  deriving DecidableEq, Repr

section Tiling

variable (hd : Nat)

/-- The first address after the region. -/
def Region.stop (r : Region) : Nat := r.addr + hd + r.size

/-- The regions follow each other from `a` and end exactly at `b`. -/
def Tiles : Nat → List Region → Nat → Prop
  | a, [], b => a = b
  | a, r :: rs, b => r.addr = a ∧ Tiles (r.stop hd) rs b

/-- No two neighbours are both free. -/
def Separated (rs : List Region) : Prop := rs.IsChain fun r s => ¬(r.free ∧ s.free)

variable {hd} {a b : Nat} {r s : Region} {rs l₁ l₂ : List Region}

theorem tiles_append :
    Tiles hd a (l₁ ++ l₂) b ↔ ∃ c, Tiles hd a l₁ c ∧ Tiles hd c l₂ b := by
  induction l₁ generalizing a with
  | nil => simp [Tiles]
  | cons r l ih => simp [Tiles, ih, and_assoc]

theorem tiles_append_cons :
    Tiles hd a (l₁ ++ r :: l₂) b ↔ Tiles hd a l₁ r.addr ∧ Tiles hd (r.stop hd) l₂ b := by
  rw [tiles_append]
  constructor
  · rintro ⟨c, h₁, rfl, h₂⟩
    exact ⟨h₁, h₂⟩
  · rintro ⟨h₁, h₂⟩
    exact ⟨r.addr, h₁, rfl, h₂⟩

/-- Regions in the middle are replaced by regions of the same extent. -/
theorem Tiles.replace {mid mid' : List Region} (h : Tiles hd a (l₁ ++ mid ++ l₂) b)
    (hmid : ∀ c d, Tiles hd c mid d → Tiles hd c mid' d) : Tiles hd a (l₁ ++ mid' ++ l₂) b := by
  obtain ⟨d, hleft, hright⟩ := tiles_append.mp h
  obtain ⟨c, hfirst, hold⟩ := tiles_append.mp hleft
  exact tiles_append.mpr ⟨d, tiles_append.mpr ⟨c, hfirst, hmid c d hold⟩, hright⟩

theorem Tiles.le (h : Tiles hd a rs b) : a ≤ b := by
  induction rs generalizing a with
  | nil => exact le_of_eq h
  | cons r rs ih =>
      obtain ⟨hr, ht⟩ := h
      have := ih ht
      unfold Region.stop at this
      omega

/-- Every region of a tiling lies inside the tiled interval. -/
theorem Tiles.bounds (h : Tiles hd a rs b) (hr : r ∈ rs) : a ≤ r.addr ∧ r.stop hd ≤ b := by
  obtain ⟨l₁, l₂, rfl⟩ := List.append_of_mem hr
  obtain ⟨h₁, h₂⟩ := tiles_append_cons.mp h
  exact ⟨h₁.le, h₂.le⟩

/-- Regions further right start after the regions further left. -/
theorem Tiles.pairwise (h : Tiles hd a rs b) : rs.Pairwise fun r s => r.stop hd ≤ s.addr := by
  induction rs generalizing a with
  | nil => exact List.Pairwise.nil
  | cons r rs ih => exact List.Pairwise.cons (fun s hs => (h.2.bounds hs).1) (ih h.2)

/-- Two regions of a tiling are the same or do not overlap. -/
theorem Tiles.disjoint (h : Tiles hd a rs b) (hr : r ∈ rs) (hs : s ∈ rs) :
    r = s ∨ r.stop hd ≤ s.addr ∨ s.stop hd ≤ r.addr := by
  by_cases heq : r = s
  · exact Or.inl heq
  · have hsymm : Std.Symm fun r s : Region => r.stop hd ≤ s.addr ∨ s.stop hd ≤ r.addr :=
      ⟨fun _ _ h => h.symm⟩
    have hpair : rs.Pairwise fun r s => r.stop hd ≤ s.addr ∨ s.stop hd ≤ r.addr :=
      h.pairwise.imp Or.inl
    exact Or.inr (hpair.forall hr hs heq)

/-- With a header of positive size a region is known by its address. -/
theorem Tiles.eq_of_addr_eq (h : Tiles hd a rs b) (hd0 : 0 < hd) (hr : r ∈ rs) (hs : s ∈ rs)
    (haddr : r.addr = s.addr) : r = s := by
  rcases h.disjoint hr hs with heq | hlt | hlt
  · exact heq
  · unfold Region.stop at hlt
    omega
  · unfold Region.stop at hlt
    omega

theorem Tiles.length_mul_le (h : Tiles hd a rs b) : a + hd * rs.length ≤ b := by
  induction rs generalizing a with
  | nil => simpa using le_of_eq h
  | cons r rs ih =>
      have hr := h.1
      have := ih h.2
      unfold Region.stop at this
      simp only [List.length_cons, Nat.mul_add, Nat.mul_one]
      omega

/-- The region before a split is at most the split point. -/
theorem Tiles.stop_le_of_mem_left (h : Tiles hd a (l₁ ++ r :: l₂) b) (hs : s ∈ l₁) :
    s.stop hd ≤ r.addr :=
  ((tiles_append_cons.mp h).1.bounds hs).2

theorem Tiles.stop_le_of_mem_right (h : Tiles hd a (l₁ ++ r :: l₂) b) (hs : s ∈ l₂) :
    r.stop hd ≤ s.addr :=
  ((tiles_append_cons.mp h).2.bounds hs).1

end Tiling

section Joining

variable (hd : Nat)

/-- The region that covers two neighbours. -/
def Region.join (r s : Region) : Region := { r with size := r.size + hd + s.size }

/-- Put a region in front of a tiling, joining it with a free first region. -/
def push (r : Region) : List Region → List Region
  | [] => [r]
  | s :: rs => if r.free && s.free then r.join hd s :: rs else r :: s :: rs

/-- Join all neighbouring free regions. -/
def coalesce (rs : List Region) : List Region := rs.foldr (push hd) []

/-- Set the regions at the given addresses free. -/
def mark (freed : List Nat) (rs : List Region) : List Region :=
  rs.map fun r => if r.addr ∈ freed then { r with free := true } else r

/-- The tiling after freeing the regions at the given addresses. -/
def release (freed : List Nat) (rs : List Region) : List Region := coalesce hd (mark freed rs)

variable {hd} {a b : Nat} {r s : Region} {rs l₁ l₂ : List Region} {freed freed' : List Nat}

@[simp] theorem coalesce_nil : coalesce hd [] = [] := rfl

@[simp] theorem coalesce_cons : coalesce hd (r :: rs) = push hd r (coalesce hd rs) := rfl

@[simp] theorem mark_nil : mark freed [] = [] := rfl

@[simp] theorem mark_cons : mark freed (r :: rs) =
    (if r.addr ∈ freed then { r with free := true } else r) :: mark freed rs := rfl

theorem mark_append : mark freed (l₁ ++ l₂) = mark freed l₁ ++ mark freed l₂ :=
  List.map_append

theorem push_of_free (hr : r.free) (hs : s.free) : push hd r (s :: rs) = r.join hd s :: rs := by
  simp [push, hr, hs]

theorem push_of_not_free (h : ¬(r.free ∧ s.free)) : push hd r (s :: rs) = r :: s :: rs := by
  simp only [push, Bool.and_eq_true, h, if_false]

/-- Pushing two free regions is pushing their join. -/
theorem push_push (hr : r.free) (hs : s.free) :
    push hd r (push hd s rs) = push hd (r.join hd s) rs := by
  cases rs with
  | nil => simp [push, hr, hs]
  | cons t rs =>
      by_cases ht : t.free
      · rw [push_of_free hs ht, push_of_free hr (by exact hs), push_of_free (by exact hr) ht]
        simp only [Region.join, Nat.add_assoc]
      · rw [push_of_not_free (by simp [ht]), push_of_free hr hs,
          push_of_not_free (by simp [ht])]

/-- Marking keeps a free region as it is. -/
theorem mark_cons_free (hr : r.free) : mark freed (r :: rs) = r :: mark freed rs := by
  cases r
  simp_all

/-- Joins made before a marking do not change what the joins after it give. -/
theorem coalesce_mark_push :
    coalesce hd (mark freed (push hd r rs)) = coalesce hd (mark freed (r :: rs)) := by
  cases rs with
  | nil => rfl
  | cons s rs =>
      by_cases hboth : r.free ∧ s.free
      · obtain ⟨hr, hs⟩ := hboth
        rw [push_of_free hr hs, mark_cons_free (by exact hr), mark_cons_free hr,
          mark_cons_free hs]
        exact (push_push hr hs).symm
      · rw [push_of_not_free hboth]

theorem coalesce_mark_coalesce :
    coalesce hd (mark freed (coalesce hd rs)) = coalesce hd (mark freed rs) := by
  induction rs with
  | nil => rfl
  | cons r rs ih =>
      rw [coalesce_cons, coalesce_mark_push, mark_cons, mark_cons, coalesce_cons, coalesce_cons,
        ih]

theorem mark_mark : mark freed' (mark freed rs) = mark (freed ++ freed') rs := by
  simp only [mark, List.map_map]
  apply List.map_congr_left
  intro r _
  by_cases h : r.addr ∈ freed <;> by_cases h' : r.addr ∈ freed' <;> simp [h, h']

/-- Marking does not move anything. -/
theorem Tiles.mark (ht : Tiles hd a rs b) : Tiles hd a (mark freed rs) b := by
  induction rs generalizing a with
  | nil => exact ht
  | cons r rs ih =>
      obtain ⟨rfl, htail⟩ := ht
      rw [mark_cons]
      split
      · exact ⟨rfl, ih htail⟩
      · exact ⟨rfl, ih htail⟩

/-- Freeing in two rounds is freeing everything at once. -/
theorem release_release :
    release hd freed' (release hd freed rs) = release hd (freed ++ freed') rs := by
  unfold release
  rw [coalesce_mark_coalesce, mark_mark]

/-- Only the set of freed addresses matters. -/
theorem release_congr (h : ∀ x, x ∈ freed ↔ x ∈ freed') :
    release hd freed rs = release hd freed' rs := by
  simp only [release, mark, h]

/-- A separated tiling has nothing to join. -/
theorem coalesce_of_separated (h : Separated rs) : coalesce hd rs = rs := by
  induction rs with
  | nil => rfl
  | cons r rs ih =>
      have htail : Separated rs := (List.isChain_cons.mp h).2
      rw [coalesce_cons, ih htail]
      cases rs with
      | nil => rfl
      | cons s rs => exact push_of_not_free ((List.isChain_cons.mp h).1 s rfl)

/-- Joins do not reach past a neighbour that is in use. -/
theorem coalesce_append_of_separated (h : Separated l₁)
    (hseam : ∀ r ∈ l₁.getLast?, ∀ s ∈ (coalesce hd l₂).head?, ¬(r.free ∧ s.free)) :
    coalesce hd (l₁ ++ l₂) = l₁ ++ coalesce hd l₂ := by
  induction l₁ with
  | nil => rfl
  | cons r l ih =>
      have htail : Separated l := (List.isChain_cons.mp h).2
      have hrest : coalesce hd (l ++ l₂) = l ++ coalesce hd l₂ := by
        apply ih htail
        intro x hx s hs
        apply hseam x _ s hs
        cases l with
        | nil => simp at hx
        | cons y l => simpa using hx
      rw [List.cons_append, coalesce_cons, hrest, List.cons_append]
      cases l with
      | nil =>
          cases hc : coalesce hd l₂ with
          | nil => rfl
          | cons s rest => exact push_of_not_free (hseam r rfl s (by simp [hc]))
      | cons y l => exact push_of_not_free ((List.isChain_cons.mp h).1 y rfl)

theorem ne_of_free (hr : r.free) (hs : s.free = false) : s ≠ r := by
  rintro rfl
  exact absurd (hr.symm.trans hs) (by decide)

theorem mem_push_of_use (hs : s.free = false) : s ∈ push hd r rs ↔ s ∈ r :: rs := by
  cases rs with
  | nil => rfl
  | cons t rs =>
      by_cases hboth : r.free ∧ t.free
      · rw [push_of_free hboth.1 hboth.2]
        have hjoin : s ≠ r.join hd t := ne_of_free hboth.1 hs
        simp [hjoin, ne_of_free hboth.1 hs, ne_of_free hboth.2 hs]
      · rw [push_of_not_free hboth]

/-- Joining regions leaves those in use as they are. -/
theorem mem_coalesce_of_use (hs : s.free = false) : s ∈ coalesce hd rs ↔ s ∈ rs := by
  induction rs with
  | nil => rfl
  | cons t rs ih => simp only [coalesce_cons, mem_push_of_use hs, List.mem_cons, ih]

/-- The regions still in use after a release are those not released. -/
theorem mem_release_of_use (hs : s.free = false) :
    s ∈ release hd freed rs ↔ s ∈ rs ∧ s.addr ∉ freed := by
  rw [release, mem_coalesce_of_use hs, mark, List.mem_map]
  constructor
  · rintro ⟨t, ht, rfl⟩
    by_cases hmem : t.addr ∈ freed
    · simp [hmem] at hs
    · simp [hmem, ht]
  · rintro ⟨hmem, hnot⟩
    exact ⟨s, hmem, by simp [hnot]⟩

/-- A tiling whose regions are all free becomes one free region. -/
theorem coalesce_of_all_free (ht : Tiles hd a (r :: rs) b) (hfree : ∀ s ∈ r :: rs, s.free) :
    coalesce hd (r :: rs) = [⟨a, b - a - hd, true⟩] := by
  induction rs generalizing a r with
  | nil =>
      obtain ⟨hr, hstop⟩ := ht
      have hrf := hfree r (by simp)
      obtain ⟨addr, size, free⟩ := r
      simp only [Tiles, Region.stop] at hr hstop hrf
      simp only [coalesce_cons, coalesce_nil, push, List.cons.injEq, and_true, Region.mk.injEq]
      exact ⟨hr, by omega, hrf⟩
  | cons s rs ih =>
      obtain ⟨hr, ht'⟩ := ht
      have hrf := hfree r (by simp)
      have hle := ht'.2.le
      rw [coalesce_cons, ih ht' fun x hx => hfree x (by simp [hx]), push_of_free hrf rfl]
      have hsa := ht'.1
      obtain ⟨addr, size, free⟩ := r
      simp only [Region.stop] at hle hsa hr hrf
      simp only [Region.stop, Region.join, List.cons.injEq, and_true, Region.mk.injEq]
      exact ⟨hr, by omega, hrf⟩

end Joining

end RegionTiling
