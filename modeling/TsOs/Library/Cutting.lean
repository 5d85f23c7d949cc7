import Mathlib.Tactic

/-!
# Cutting a list at a pattern

A list is cut at the occurrences of a pattern, from left to right and without overlap.
The first cut is at the leftmost occurrence, and the elements behind that occurrence are
cut on their own.
-/

namespace Cutting

variable {α : Type*} [DecidableEq α]

/-- Cut a list. Elements of the last occurrence that are still ahead are skipped, and the
current piece is kept with its last element first. -/
def cutFrom (del : List α) : Nat → List α → List α → List (List α)
  | _, piece, [] => [piece.reverse]
  | skip + 1, piece, _ :: s => cutFrom del skip piece s
  | 0, piece, x :: s =>
      if del <+: x :: s then piece.reverse :: cutFrom del (del.length - 1) [] s
      else cutFrom del 0 (x :: piece) s

/-- The pieces between the occurrences of a pattern, the empty ones included. -/
def cut (del s : List α) : List (List α) := cutFrom del 0 [] s

/-- The non-empty pieces. -/
def pieces (del s : List α) : List (List α) := (cut del s).filter (· ≠ [])

/-- The pattern occurs at an index, and at none before it. -/
def FirstAt (del s : List α) (i : Nat) : Prop := del <+: s.drop i ∧ ∀ j < i, ¬del <+: s.drop j

variable {del s piece : List α} {i : Nat}

theorem cutFrom_skip {skip : Nat} (h : skip ≤ s.length) :
    cutFrom del skip piece s = cutFrom del 0 piece (s.drop skip) := by
  induction skip generalizing s with
  | zero => rfl
  | succ skip ih =>
      cases s with
      | nil => exact absurd h (Nat.not_succ_le_zero skip)
      | cons x s => exact ih (Nat.le_of_succ_le_succ h)

theorem cutFrom_at (hdel : del ≠ []) (h : FirstAt del s i) :
    cutFrom del 0 piece s = (piece.reverse ++ s.take i) :: cut del (s.drop (i + del.length)) := by
  obtain ⟨hocc, hmin⟩ := h
  induction i generalizing s piece with
  | zero =>
      rw [List.drop_zero] at hocc
      have hlen := List.length_pos_of_ne_nil hdel
      cases s with
      | nil => exact absurd (List.prefix_nil.mp hocc) hdel
      | cons x s =>
          have hle : del.length ≤ s.length + 1 := hocc.length_le
          have hdrop : (x :: s).drop (0 + del.length) = s.drop (del.length - 1) := by
            rw [Nat.zero_add, ← Nat.sub_add_cancel hlen]
            rfl
          rw [cutFrom, if_pos hocc, cutFrom_skip (Nat.sub_le_of_le_add hle), hdrop,
            List.take_zero, List.append_nil, cut]
  | succ i ih =>
      cases s with
      | nil => exact absurd (List.prefix_nil.mp hocc) hdel
      | cons x s =>
          have hhere : ¬del <+: x :: s := hmin 0 (Nat.succ_pos i)
          have hrest : ∀ j < i, ¬del <+: s.drop j := fun j hj => hmin (j + 1) (Nat.succ_lt_succ hj)
          rw [cutFrom, if_neg hhere, ih hocc hrest, List.reverse_cons, List.append_assoc,
            List.singleton_append, List.take_succ_cons, Nat.add_right_comm, List.drop_succ_cons]

/-- The first cut is at the leftmost occurrence. -/
theorem cut_at (hdel : del ≠ []) (h : FirstAt del s i) :
    cut del s = s.take i :: cut del (s.drop (i + del.length)) := cutFrom_at hdel h

theorem cutFrom_none (h : ∀ j < s.length, ¬del <+: s.drop j) :
    cutFrom del 0 piece s = [piece.reverse ++ s] := by
  induction s generalizing piece with
  | nil => rw [cutFrom, List.append_nil]
  | cons x s ih =>
      have hhere : ¬del <+: x :: s := h 0 (Nat.succ_pos s.length)
      rw [cutFrom, if_neg hhere, ih fun j hj => h (j + 1) (Nat.succ_lt_succ hj), List.reverse_cons,
        List.append_assoc, List.singleton_append]

/-- A list without an occurrence is one piece. -/
theorem cut_none (h : ∀ j < s.length, ¬del <+: s.drop j) : cut del s = [s] := cutFrom_none h

/-- With one element as the pattern, the pieces are those of `splitOn`. -/
theorem cut_singleton (a : α) (s : List α) : cut [a] s = s.splitOn a := by
  have hfrom : ∀ piece, cutFrom [a] 0 piece s = List.splitOnPPrepend (· == a) s piece := by
    induction s with
    | nil => exact fun piece => rfl
    | cons x s ih =>
        intro piece
        rw [cutFrom, List.splitOnPPrepend_cons_eq_if]
        by_cases hx : a = x
        · have hocc : [a] <+: x :: s := List.cons_prefix_cons.mpr ⟨hx, List.nil_prefix⟩
          rw [if_pos hocc, if_pos (beq_iff_eq.mpr hx.symm)]
          exact congrArg _ (ih [])
        · have hocc : ¬[a] <+: x :: s := fun h => hx (List.cons_prefix_cons.mp h).1
          rw [if_neg hocc, if_neg fun h => hx (beq_iff_eq.mp h).symm, ih]
  exact hfrom []

/-! ## Pieces that are not empty -/

theorem of_mem_pieces {c : List α} (h : c ∈ pieces del s) : c ≠ [] :=
  of_decide_eq_true (List.mem_filter.mp h).2

/-- An occurrence at the start leaves no piece. -/
theorem pieces_leading (hdel : del ≠ []) (h : del <+: s) :
    pieces del s = pieces del (s.drop del.length) := by
  have hfirst : FirstAt del s 0 := ⟨h, fun j hj => absurd hj (Nat.not_lt_zero j)⟩
  rw [pieces, cut_at hdel hfirst, Nat.zero_add]
  rfl

theorem pieces_at (hdel : del ≠ []) (h : FirstAt del s i) (hpos : 0 < i) (hs : s ≠ []) :
    pieces del s = s.take i :: pieces del (s.drop (i + del.length)) := by
  have htake : s.take i ≠ [] := fun hnil =>
    (List.take_eq_nil_iff.mp hnil).elim (Nat.ne_of_gt hpos) hs
  rw [pieces, cut_at hdel h]
  exact List.filter_cons_of_pos (decide_eq_true htake)

theorem pieces_none (h : ∀ j < s.length, ¬del <+: s.drop j) (hs : s ≠ []) : pieces del s = [s] := by
  rw [pieces, cut_none h]
  exact List.filter_cons_of_pos (decide_eq_true hs)

theorem exists_firstAt (h : ∃ j < s.length, del <+: s.drop j) : ∃ i < s.length, FirstAt del s i := by
  classical
  obtain ⟨hlt, hocc⟩ := Nat.find_spec h
  exact ⟨Nat.find h, hlt, hocc, fun j hj hj' => Nat.find_min h hj ⟨hj.trans hlt, hj'⟩⟩

theorem pieces_ne_nil (hdel : del ≠ []) (hs : s ≠ []) (h : ¬del <+: s) : pieces del s ≠ [] := by
  by_cases hocc : ∃ j < s.length, del <+: s.drop j
  · obtain ⟨i, -, hi⟩ := exists_firstAt hocc
    have hpos : 0 < i := by
      refine Nat.pos_of_ne_zero ?_
      rintro rfl
      exact h hi.1
    rw [pieces_at hdel hi hpos hs]
    exact List.cons_ne_nil _ _
  · rw [pieces_none (fun j hj hj' => hocc ⟨j, hj, hj'⟩) hs]
    exact List.cons_ne_nil _ _

end Cutting
