import Mathlib.Tactic

/-!
# Layout of a text in rows of cells

A text is shown in rows of `w` cells. A row ends after its last cell or at a
newline, which takes a cell of its own; the rest of its row is blank. `cells`
lists the cells of a text whose first character stands in a given column.
-/

namespace TextLayout

variable {α : Type*} [DecidableEq α] (nl blank : α) (w : Nat)

/-- The cells of a text that starts in column `col`. -/
def cells : Nat → List α → List α
  | _, [] => []
  | col, c :: t =>
      if c = nl then List.replicate (w - col) blank ++ cells 0 t
      else c :: cells ((col + 1) % w) t

/-- The number of characters in the first row of a text, with `k` cells left in it. -/
def rowLength : Nat → List α → Nat
  | 0, _ => 0
  | _ + 1, [] => 0
  | k + 1, c :: t => if c = nl then 1 else rowLength k t + 1

variable {nl blank : α} {w col : Nat} {s t : List α} {c : α}

@[simp] theorem cells_nil : cells nl blank w col [] = [] := rfl

theorem cells_newline :
    cells nl blank w col (nl :: t) =
      List.replicate (w - col) blank ++ cells nl blank w 0 t := by
  simp [cells]

theorem cells_cons (hc : c ≠ nl) :
    cells nl blank w col (c :: t) = c :: cells nl blank w ((col + 1) % w) t := by
  simp [cells, hc]

/-- The cells of a concatenation, with the column reached at the seam. -/
theorem cells_append (hcol : col < w) :
    cells nl blank w col (s ++ t) = cells nl blank w col s ++
      cells nl blank w ((col + (cells nl blank w col s).length) % w) t := by
  induction s generalizing col with
  | nil => simp [Nat.mod_eq_of_lt hcol]
  | cons c s ih =>
      have hw : 0 < w := Nat.zero_lt_of_lt hcol
      by_cases hc : c = nl
      · subst hc
        have hseam : col + (w - col + (cells c blank w 0 s).length) =
            w + (0 + (cells c blank w 0 s).length) := by omega
        rw [List.cons_append, cells_newline, cells_newline, ih hw, List.append_assoc,
          List.length_append, List.length_replicate, hseam, Nat.add_mod_left]
      · have hseam : (col + 1) % w + (cells nl blank w ((col + 1) % w) s).length ≡
            col + ((cells nl blank w ((col + 1) % w) s).length + 1) [MOD w] := by
          have hmod := (Nat.mod_modEq (col + 1) w).add_right
            (cells nl blank w ((col + 1) % w) s).length
          rwa [Nat.add_assoc col 1, Nat.add_comm 1] at hmod
        rw [List.cons_append, cells_cons hc, cells_cons hc, ih (Nat.mod_lt _ hw),
          List.cons_append, List.length_cons, hseam]

/-- Every character takes a cell. -/
theorem length_le_cells (hcol : col < w) : t.length ≤ (cells nl blank w col t).length := by
  induction t generalizing col with
  | nil => simp
  | cons c t ih =>
      have hw : 0 < w := Nat.zero_lt_of_lt hcol
      by_cases hc : c = nl
      · subst hc
        have htail := ih hw
        rw [cells_newline, List.length_append, List.length_replicate, List.length_cons]
        omega
      · have htail := ih (Nat.mod_lt (col + 1) hw)
        rw [cells_cons hc, List.length_cons, List.length_cons]
        omega

/-- Dropping the characters of a complete first row drops its cells. -/
theorem cells_drop_row (col : Nat) (hcol : col < w) (hrow : w - col ≤ (cells nl blank w col t).length) :
    cells nl blank w 0 (t.drop (rowLength nl (w - col) t)) =
      (cells nl blank w col t).drop (w - col) := by
  induction t generalizing col with
  | nil =>
      rw [cells_nil, List.length_nil] at hrow
      omega
  | cons c t ih =>
      obtain ⟨k, hk⟩ : ∃ k, w - col = k + 1 := ⟨w - col - 1, by omega⟩
      by_cases hc : c = nl
      · subst hc
        rw [cells_newline, List.drop_left' (by simp), hk]
        simp [rowLength]
      · rw [cells_cons hc] at hrow ⊢
        rw [hk, rowLength, if_neg hc, List.drop_succ_cons, List.drop_succ_cons]
        by_cases hlast : col + 1 = w
        · obtain rfl : k = 0 := by omega
          simp [hlast, rowLength]
        · have hmod : (col + 1) % w = col + 1 := Nat.mod_eq_of_lt (by omega)
          obtain rfl : k = w - (col + 1) := by omega
          rw [hmod] at hrow ⊢
          apply ih (col + 1) (by omega)
          rw [List.length_cons] at hrow
          omega

/-- A row has at most its cells' number of characters. -/
theorem rowLength_le (k : Nat) : rowLength nl k t ≤ t.length := by
  induction t generalizing k with
  | nil => cases k <;> simp [rowLength]
  | cons c t ih =>
      cases k with
      | zero => simp [rowLength]
      | succ k =>
          have htail := ih k
          rw [rowLength, List.length_cons]
          split <;> omega

end TextLayout
