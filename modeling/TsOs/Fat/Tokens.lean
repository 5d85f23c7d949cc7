import TsOs.Library.Cutting
import TsOs.Fat.Names

/-!
# Tokens

`strtok` is called on what it left over until it returns `NULL`. The tokens are the
non-empty pieces of the string between the occurrences of the delimiter. Delimiters at
the start are stripped before a token and after it, so that what is left over has
another piece.
-/

namespace TsOs.Fat
open Cutting

variable {s del : List UInt8} {n i : Nat}

/-- Iterate `strtok` until it returns `NULL`, for at most `n` calls. -/
def tokenize (del : List UInt8) : Nat → List UInt8 → Option (List (List UInt8))
  | 0, _ => none
  | n + 1, s =>
      match strtok s del with
      | (token, none) => some [token]
      | (token, some next) => (tokenize del n next).map (token :: ·)

/-! ## Searching -/

theorem strfd_some (hdel : del ≠ []) (h : strfd s del = some i) : i < s.length ∧ FirstAt del s i := by
  rw [strfd, if_neg hdel] at h
  obtain ⟨-, hlt, hocc⟩ := firstIndex_spec h
  refine ⟨by omega, List.isPrefixOf_iff_prefix.mp hocc, fun j hj hj' => ?_⟩
  have hmiss := firstIndex_least h (Nat.zero_le j) hj
  rw [List.isPrefixOf_iff_prefix.mpr hj'] at hmiss
  exact absurd hmiss (by decide)

theorem strfd_none (hdel : del ≠ []) (h : strfd s del = none) : ∀ j < s.length, ¬del <+: s.drop j := by
  intro j hj hj'
  rw [strfd, if_neg hdel] at h
  have hmiss := firstIndex_none h (Nat.zero_le j) (by omega)
  rw [List.isPrefixOf_iff_prefix.mpr hj'] at hmiss
  exact absurd hmiss (by decide)

/-- The pattern is found at the start exactly if the string starts with it. -/
theorem strfd_eq_zero_iff (hdel : del ≠ []) : strfd s del = some 0 ↔ del <+: s := by
  refine ⟨fun h => (strfd_some hdel h).2.1, fun h => ?_⟩
  rw [strfd, if_neg hdel]
  have hpos : 0 < s.length := (List.length_pos_of_ne_nil hdel).trans_le h.length_le
  exact firstIndex_eq_some (le_refl 0) (by omega) (List.isPrefixOf_iff_prefix.mpr h)
    fun j _ hj => absurd hj (Nat.not_lt_zero j)

/-! ## Stripping delimiters -/

/-- What `noLeading` leaves has the same pieces and does not start with the delimiter. -/
theorem noLeading_spec (hdel : del ≠ []) (h : s.length ≤ n) :
    pieces del (noLeading del n s) = pieces del s ∧ ¬del <+: noLeading del n s ∧
      (noLeading del n s).length ≤ s.length := by
  induction n generalizing s with
  | zero =>
      obtain rfl := List.length_eq_zero_iff.mp (Nat.le_zero.mp h)
      exact ⟨rfl, fun hocc => hdel (List.prefix_nil.mp hocc), le_refl _⟩
  | succ n ih =>
      rw [noLeading]
      split
      next hlead =>
        have hocc := (strfd_eq_zero_iff hdel).mp hlead.2
        have hpos := List.length_pos_of_ne_nil hdel
        have hle := hocc.length_le
        have hdrop := List.length_drop (i := del.length) (l := s)
        obtain ⟨hpieces, hno, hlen⟩ := ih (s := s.drop del.length) (by omega)
        exact ⟨hpieces.trans (pieces_leading hdel hocc).symm, hno, by omega⟩
      next hlead =>
        refine ⟨rfl, fun hocc => hlead ⟨?_, (strfd_eq_zero_iff hdel).mpr hocc⟩, le_refl _⟩
        rintro rfl
        exact hdel (List.prefix_nil.mp hocc)

/-! ## One token after the other -/

/-- `strtok` cuts off the first piece. What it leaves over is shorter, and has the other pieces. -/
theorem strtok_pieces (hdel : del ≠ []) (s : List UInt8) :
    (pieces del s = [] ∧ strtok s del = ([], none)) ∨
      ∃ c rest next, pieces del s = c :: rest ∧ strtok s del = (c, next) ∧
        ((next = none ∧ rest = []) ∨
          ∃ p, next = some p ∧ p.length < s.length ∧ pieces del p = rest ∧ rest ≠ []) := by
  obtain ⟨hsame, hno, hlen⟩ := noLeading_spec hdel (le_refl s.length)
  rw [strtok, ← hsame]
  generalize noLeading del s.length s = t at hno hlen
  dsimp only
  cases hfd : strfd t del with
  | none =>
      by_cases ht : t = []
      · subst ht
        exact Or.inl ⟨rfl, rfl⟩
      · exact Or.inr ⟨t, [], none, pieces_none (strfd_none hdel hfd) ht, rfl, Or.inl ⟨rfl, rfl⟩⟩
  | some i =>
      right
      obtain ⟨hi, hfirst⟩ := strfd_some hdel hfd
      have ht : t ≠ [] := List.length_pos_iff.mp (Nat.zero_lt_of_lt hi)
      have hpos : 0 < i := by
        refine Nat.pos_of_ne_zero ?_
        rintro rfl
        exact hno hfirst.1
      have hdrop := List.length_drop (i := i + del.length) (l := t)
      obtain ⟨hsame', hno', hlen'⟩ :=
        noLeading_spec hdel (le_refl (t.drop (i + del.length)).length)
      dsimp only
      generalize noLeading del (t.drop (i + del.length)).length (t.drop (i + del.length)) = next
        at hsame' hno' hlen'
      refine ⟨t.take i, pieces del next, _, hsame' ▸ pieces_at hdel hfirst hpos ht, rfl, ?_⟩
      by_cases hnext : next = []
      · rw [if_pos hnext, hnext]
        exact Or.inl ⟨rfl, rfl⟩
      · rw [if_neg hnext]
        exact Or.inr ⟨next, rfl, by omega, rfl, pieces_ne_nil hdel hnext hno'⟩

/-- The iteration ends, and its tokens are the non-empty pieces. Where there are none, it
has one empty token. -/
theorem tokenize_eq_pieces (hdel : del ≠ []) (h : s.length < n) :
    tokenize del n s = some (if pieces del s = [] then [[]] else pieces del s) := by
  induction n generalizing s with
  | zero => exact absurd h (Nat.not_lt_zero _)
  | succ n ih =>
      rw [tokenize]
      rcases strtok_pieces hdel s with ⟨hnil, htok⟩ | ⟨c, rest, next, hcons, htok, hnext⟩
      · rw [htok, if_pos hnil]
      · rw [htok, hcons, if_neg (List.cons_ne_nil c rest)]
        rcases hnext with ⟨rfl, rfl⟩ | ⟨p, rfl, hlt, hrest, hne⟩
        · rfl
        · have ih := ih (s := p) (by omega)
          rw [hrest, if_neg hne] at ih
          dsimp only
          rw [ih, Option.map_some]

/-- `aabaabaaacaa` cut at `aa`, which overlaps itself. -/
theorem tokenize_eq_pieces_sample :
    tokenize [97, 97] 20 [97, 97, 98, 97, 97, 98, 97, 97, 97, 99, 97, 97] =
      some [[98], [98], [97, 99]] :=
  tokenize_eq_pieces (n := 20) (s := [97, 97, 98, 97, 97, 98, 97, 97, 97, 99, 97, 97])
    (by decide) (by decide)

end TsOs.Fat
