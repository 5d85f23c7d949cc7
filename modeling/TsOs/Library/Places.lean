import Mathlib.Tactic

/-!
# The places of a number

The digits of a number stand in places, the least significant one first. A numeral has as
many places as the number needs, and at least one; a field has a fixed number of places.
-/

namespace Places

variable {base n w : Nat}

/-- The digits of a numeral. Zero has one place. -/
def places (base n : Nat) : List Nat := if n = 0 then [0] else Nat.digits base n

/-- The digits of a number in a field of `w` places. -/
def field (base w n : Nat) : List Nat := (List.range w).map fun k => n / base ^ k % base

theorem places_of_lt (h : n < base) : places base n = [n] := by
  rw [places]
  split
  next hzero => rw [hzero]
  next hzero => exact Nat.digits_of_lt base n hzero h

/-- The first place holds the remainder, and the others those of the quotient. -/
theorem places_of_le (hbase : 1 < base) (h : base ≤ n) :
    places base n = n % base :: places base (n / base) := by
  have hn : n ≠ 0 := by omega
  have hquot : n / base ≠ 0 := Nat.ne_of_gt (Nat.div_pos h (by omega))
  rw [places, if_neg hn, places, if_neg hquot, Nat.digits_eq_cons_digits_div hbase hn]

theorem places_ne_nil : places base n ≠ [] := by
  rw [places]
  split
  next => exact List.cons_ne_nil 0 []
  next hn => exact Nat.digits_ne_nil_iff_ne_zero.mpr hn

theorem lt_of_mem_places (hbase : 1 < base) {d : Nat} (hd : d ∈ places base n) : d < base := by
  rw [places] at hd
  split at hd
  next =>
    obtain rfl := List.mem_singleton.mp hd
    omega
  next => exact Nat.digits_lt_base hbase hd

theorem ofDigits_places : Nat.ofDigits base (places base n) = n := by
  rw [places]
  split
  next hzero => rw [hzero, Nat.ofDigits_singleton]
  next => exact Nat.ofDigits_digits base n

theorem length_places_le (hbase : 1 < base) (hw : 0 < w) (h : n < base ^ w) :
    (places base n).length ≤ w := by
  rw [places]
  split
  next => exact hw
  next => exact (Nat.digits_length_le_iff hbase n).mpr h

/-- No numeral of more than one place starts with a zero. -/
theorem places_leading {d : Nat} {rest : List Nat} (h : (places base n).reverse = d :: rest)
    (hrest : rest ≠ []) : d ≠ 0 := by
  rw [places] at h
  split at h
  next =>
    rw [List.reverse_singleton] at h
    exact absurd (List.cons.inj h).2.symm hrest
  next hn =>
    have hlast := Nat.getLast_digit_ne_zero base hn
    have hhead : (Nat.digits base n).getLast? = some d := by
      rw [← List.head?_reverse, h, List.head?_cons]
    rwa [List.getLast_eq_iff_getLast?_eq_some _ |>.mpr hhead] at hlast

/-! ## Fields -/

theorem field_succ : field base (w + 1) n = field base w n ++ [n / base ^ w % base] := by
  rw [field, List.range_succ, List.map_append]
  rfl

theorem length_field : (field base w n).length = w := by
  rw [field, List.length_map, List.length_range]

theorem lt_of_mem_field (hbase : 0 < base) {d : Nat} (hd : d ∈ field base w n) : d < base := by
  obtain ⟨k, -, rfl⟩ := List.mem_map.mp hd
  exact Nat.mod_lt _ hbase

/-- A field has the low part of the number. -/
theorem ofDigits_field : Nat.ofDigits base (field base w n) = n % base ^ w := by
  induction w with
  | zero => rw [pow_zero, Nat.mod_one]; rfl
  | succ w ih =>
      rw [field_succ, Nat.ofDigits_append, ih, length_field, Nat.ofDigits_singleton, Nat.mod_pow_succ]

/-- A number that fits its field is its numeral behind zeros. -/
theorem field_eq_places (hbase : 1 < base) (hw : 0 < w) (h : n < base ^ w) :
    field base w n = places base n ++ List.replicate (w - (places base n).length) 0 := by
  have hle := length_places_le hbase hw h
  refine Nat.ofDigits_inj_of_len_eq hbase ?_ (fun d => lt_of_mem_field (by omega)) ?_ ?_
  · rw [length_field, List.length_append, List.length_replicate]
    omega
  · intro d hd
    rcases List.mem_append.mp hd with hd | hd
    · exact lt_of_mem_places hbase hd
    · rw [List.eq_of_mem_replicate hd]
      omega
  · rw [ofDigits_field, Nat.ofDigits_append_replicate_zero, ofDigits_places, Nat.mod_eq_of_lt h]

end Places
