import TsOs.Lib.Numerals

/-!
# Numbers in a width

`_print_num` skips the zeros before a number in its buffer, and then prints the number in
the width that the format asks for: its last digits where it is longer, and zeros before
it where it is shorter and the format starts with one. The numbers that are not negative
are printed right; `itoa` has no sign.
-/

namespace TsOs.Print
open ByteMemory Places

variable {buf : Mem} {fmt s : List UInt8} {n p : Nat}

/-- A string without the zeros that `_print_num` skips. -/
def stripZeros : List UInt8 → List UInt8
  | c :: d :: s => if c = zero then stripZeros (d :: s) else c :: d :: s
  | s => s

/-- The number that a string of digits denotes. -/
def width (fmt : List UInt8) : Nat := fmt.foldl (fun sum c => 10 * sum + (c.toNat - 48)) 0

/-- A numeral in the width of a format. No digits and a single zero ask for the whole numeral. -/
def numField (fmt numeral : List UInt8) : List UInt8 :=
  if fmt = [] ∨ fmt = [zero] then numeral
  else if width fmt ≤ numeral.length then numeral.drop (numeral.length - width fmt)
  else if fmt.head? = some zero then List.replicate (width fmt - numeral.length) zero ++ numeral
  else numeral

/-! ## Skipped zeros -/

theorem stripZeros_suffix (s : List UInt8) : stripZeros s <:+ s := by
  fun_induction stripZeros s with
  | case1 d s ih => exact ih.trans (List.suffix_cons _ _)
  | case2 => exact List.suffix_refl _
  | case3 => exact List.suffix_refl _

/-- A string of one character, or with another first character, stays as it is. -/
theorem stripZeros_of_leading {c : UInt8} (h : s ≠ [] → c ≠ zero) : stripZeros (c :: s) = c :: s := by
  cases s with
  | nil => rfl
  | cons d s => rw [stripZeros, if_neg (h (List.cons_ne_nil d s))]

theorem stripZeros_replicate (hs : s ≠ []) (k : Nat) :
    stripZeros (List.replicate k zero ++ s) = stripZeros s := by
  induction k with
  | zero => rfl
  | succ k ih =>
      have hne : List.replicate k zero ++ s ≠ [] := fun h => hs (List.append_eq_nil_iff.mp h).2
      obtain ⟨d, rest, hrest⟩ := List.exists_cons_of_ne_nil hne
      rw [List.replicate_succ, List.cons_append, hrest, stripZeros, if_pos rfl, ← hrest, ih]

/-- The loop ends at the first character of the stripped string. -/
theorem skipZeros_spec (hs : s ≠ []) (hcs : ∀ c ∈ s, c ≠ 0) (hholds : Holds buf p s)
    (hend : buf (p + s.length) = 0) (hn : s.length ≤ n) :
    ∃ q, skipZeros buf n p = some q ∧ q + (stripZeros s).length = p + s.length ∧
      Holds buf q (stripZeros s) := by
  induction s generalizing n p with
  | nil => exact absurd rfl hs
  | cons c s ih =>
      cases n with
      | zero => exact absurd hn (Nat.not_succ_le_zero _)
      | succ n =>
          rw [skipZeros]
          cases s with
          | nil =>
              rw [if_neg fun h => h.1 hend]
              exact ⟨p, rfl, rfl, hholds⟩
          | cons d s =>
              have hnext : buf (p + 1) ≠ 0 := hholds.tail.head ▸ hcs d (by simp)
              rw [stripZeros, hholds.head]
              by_cases hc : c = zero
              · have hend' : buf (p + 1 + (d :: s).length) = 0 := by
                  rwa [Nat.add_assoc, Nat.add_comm 1]
                obtain ⟨q, hrun, hlen, hrest⟩ := ih (List.cons_ne_nil d s)
                  (fun e he => hcs e (List.mem_cons_of_mem c he)) hholds.tail hend'
                  (Nat.le_of_succ_le_succ hn)
                rw [if_pos ⟨hnext, hc⟩, if_pos hc]
                refine ⟨q, hrun, ?_, hrest⟩
                rw [hlen, List.length_cons, List.length_cons, List.length_cons]
                omega
              · rw [if_neg fun h => hc h.2, if_neg hc]
                exact ⟨p, rfl, rfl, hholds⟩

/-! ## Stripped numerals -/

theorem stripZeros_numeral {base : Nat} (hbase : 1 < base) (hle : base ≤ 16) (n : Nat) :
    stripZeros ((places base n).reverse.map hexChar) = (places base n).reverse.map hexChar := by
  have hne : (places base n).reverse ≠ [] := fun h => places_ne_nil (List.reverse_eq_nil_iff.mp h)
  obtain ⟨d, rest, hrest⟩ := List.exists_cons_of_ne_nil hne
  have hd : d < 16 :=
    (lt_of_mem_places hbase (List.mem_reverse.mp (hrest ▸ List.mem_cons_self))).trans_le hle
  have hzero : ∀ d < 16, d ≠ 0 → hexChar d ≠ zero := by decide
  rw [hrest, List.map_cons]
  exact stripZeros_of_leading fun h =>
    hzero d hd (places_leading hrest fun hnil => h (congrArg (List.map hexChar) hnil))

theorem stripZeros_decimal (n : Nat) : stripZeros (decimal n) = decimal n := by
  rw [decimal_eq_places]
  exact stripZeros_numeral (by decide) (by decide) n

/-- The eight places of a word without the zeros before them are its numeral. -/
theorem stripZeros_hexText {x : Nat} (h : x < 2 ^ 32) : stripZeros (hexText x) = hexadecimal x := by
  have hlt : x < 16 ^ 8 := h
  have hne : (places 16 x).reverse.map hexChar ≠ [] := fun h =>
    places_ne_nil (List.reverse_eq_nil_iff.mp (List.map_eq_nil_iff.mp h))
  rw [hexText, field_eq_places (by decide) (by decide) hlt, List.reverse_append,
    List.reverse_replicate, List.map_append, List.map_replicate]
  exact (stripZeros_replicate hne _).trans (stripZeros_numeral (by decide) (le_refl 16) x)

/-! ## Widths -/

theorem isNum_iff {c : UInt8} : isNum c = true ↔ ∃ d < 10, c = hexChar d := by
  constructor
  · intro h
    obtain ⟨hlow, hhigh⟩ := of_decide_eq_true h
    rw [UInt8.le_iff_toNat_le] at hlow hhigh
    change 48 ≤ c.toNat at hlow
    change c.toNat ≤ 57 at hhigh
    refine ⟨c.toNat - 48, by omega, ?_⟩
    rw [hexChar, if_pos (by omega), digitChar, Nat.add_sub_cancel' hlow, UInt8.ofNat_toNat]
  · rintro ⟨d, hd, rfl⟩
    revert d
    decide

theorem hexChar_toNat {d : Nat} (hd : d < 10) : (hexChar d).toNat - 48 = d := by
  revert d
  decide

/-- `atoi` reads the number that the digits denote. -/
theorem atoi_eq_width (h : ∀ c ∈ fmt, isNum c) : atoi fmt 10 = u32 (width fmt) := by
  have hfold : ∀ m, fmt.foldl (atoiStep 10) (u32 m) =
      u32 (fmt.foldl (fun sum c => 10 * sum + (c.toNat - 48)) m) := by
    induction fmt with
    | nil => exact fun m => rfl
    | cons c fmt ih =>
        intro m
        obtain ⟨d, hd, rfl⟩ := isNum_iff.mp (h _ List.mem_cons_self)
        have hstep : u32 (u32 m * 10 + d) = u32 (10 * m + d) := by
          rw [u32, u32, u32]
          omega
        rw [List.foldl_cons, List.foldl_cons, atoiStep_hexChar (hd.trans (by decide)), hstep,
          hexChar_toNat hd]
        exact ih (fun e he => h e (List.mem_cons_of_mem _ he)) _
  exact hfold 0

theorem width_zero_cons : width (zero :: fmt) = width fmt := rfl

theorem width_lt (h : ∀ c ∈ fmt, isNum c) : width fmt < 10 ^ fmt.length := by
  have hfold : ∀ m, fmt.foldl (fun sum c => 10 * sum + (c.toNat - 48)) m < (m + 1) * 10 ^ fmt.length := by
    induction fmt with
    | nil => intro m; simp
    | cons c fmt ih =>
        intro m
        obtain ⟨d, hd, rfl⟩ := isNum_iff.mp (h _ List.mem_cons_self)
        rw [List.foldl_cons, hexChar_toNat hd, List.length_cons]
        calc fmt.foldl (fun sum c => 10 * sum + (c.toNat - 48)) (10 * m + d)
            < (10 * m + d + 1) * 10 ^ fmt.length := ih (fun e he => h e (List.mem_cons_of_mem _ he)) _
          _ ≤ (10 * (m + 1)) * 10 ^ fmt.length := Nat.mul_le_mul_right _ (by omega)
          _ = (m + 1) * 10 ^ (fmt.length + 1) := by ring
  have hzero := hfold 0
  rwa [Nat.zero_add, one_mul] at hzero

/-- Up to nine digits, `_print_num` takes the width as it is written. -/
theorem numFormat_eq (h : ∀ c ∈ fmt, isNum c) (hlen : fmt.length ≤ 9) (hnil : fmt ≠ [])
    (hzero : fmt ≠ [zero]) : numFormat fmt = ⟨false, fmt.head? = some zero, width fmt⟩ := by
  have hlt : width fmt < 10 ^ 9 := (width_lt h).trans_le (Nat.pow_le_pow_right (by decide) hlen)
  have hbmod : (width fmt : Int).bmod (2 ^ 32) = width fmt :=
    Int.bmod_eq_of_le (by omega) (by omega)
  have hall : fmt.all isNum = true := List.all_eq_true.mpr h
  have hdirect : ¬(fmt = [] ∨ fmt = [zero]) := fun h => h.elim hnil hzero
  rw [numFormat, if_neg hdirect, if_neg (not_not.mpr hall)]
  split
  next hhead =>
    cases fmt with
    | nil => exact absurd rfl hnil
    | cons c rest =>
        obtain rfl := Option.some.inj hhead
        rw [width_zero_cons] at hlt hbmod ⊢
        rw [List.tail_cons, atoi_eq_width fun e he => h e (List.mem_cons_of_mem _ he),
          u32_of_lt (by omega), hbmod]
        rfl
  next hhead => rw [atoi_eq_width h, u32_of_lt (by omega), hbmod, decide_eq_false hhead]

/-! ## Printing -/

/-- The end of `_print_num` prints the stripped string in its width. -/
theorem printPadded_eq {N : Nat} {zeroFlag : Bool} (hcs : ∀ c ∈ s, c ≠ 0) (hholds : Holds buf p s)
    (hend : buf (p + s.length) = 0) (hfit : p + s.length < numBufSize) :
    printPadded buf p zeroFlag N = some (if N ≤ s.length then s.drop (s.length - N)
      else (if zeroFlag then List.replicate (N - s.length) zero else []) ++ s) := by
  have hstring : cString buf (numBufSize - p) p = some s := cString_eq hcs hholds hend (by omega)
  have hminus : ¬(N : Int) = -1 := by omega
  rw [printPadded, hstring]
  simp only [Option.bind_eq_bind, Option.bind_some, if_neg hminus]
  by_cases hle : N ≤ s.length
  · have hp : ((p : Int) + (s.length : Int) - (N : Int)).toNat = p + (s.length - N) := by omega
    have hlast : cString buf (numBufSize - (p + (s.length - N))) (p + (s.length - N)) =
        some (s.drop (s.length - N)) := by
      refine cString_eq (fun c hc => hcs c (List.mem_of_mem_drop hc)) (hholds.drop _) ?_ ?_
      · rw [List.length_drop, Nat.add_assoc, Nat.add_sub_cancel' (Nat.sub_le _ _)]
        exact hend
      · rw [List.length_drop]
        omega
    rw [if_neg (by omega), if_pos hle, hp, hlast]
  · have hdiff : ((N : Int) - (s.length : Int)).toNat = N - s.length := by omega
    rw [if_pos (by omega), if_neg hle, hdiff]
    rfl

/-- Without a width the stripped string is printed. -/
theorem printPadded_direct {zeroFlag : Bool} (hcs : ∀ c ∈ s, c ≠ 0) (hholds : Holds buf p s)
    (hend : buf (p + s.length) = 0) (hfit : p + s.length < numBufSize) :
    printPadded buf p zeroFlag (-1) = some s := by
  rw [printPadded, cString_eq hcs hholds hend (by omega)]
  rfl

/-- `_print_num` prints what stands in its buffer, without the zeros before it and in the width
of the format. -/
theorem printNum_eq {numType : UInt8} {num : Int} (hfmt : ∀ c ∈ fmt, isNum c) (hlen : fmt.length ≤ 9)
    (hbuf : numBuffer numType num = some buf) (hs : s ≠ []) (hcs : ∀ c ∈ s, c ≠ 0)
    (hholds : Holds buf 0 s) (hend : buf s.length = 0) (hfit : s.length < numBufSize) :
    printNum fmt numType num =
      some ((if numType = 120 then chars "0x" else []) ++ numField fmt (stripZeros s)) := by
  have hend0 : buf (0 + s.length) = 0 := by rwa [Nat.zero_add]
  obtain ⟨p, hskip, hlast, hrest⟩ :=
    skipZeros_spec (n := numBufSize - 1) hs hcs hholds hend0 (Nat.le_sub_one_of_lt hfit)
  rw [Nat.zero_add] at hlast
  have hcs' : ∀ c ∈ stripZeros s, c ≠ 0 := fun c hc => hcs c ((stripZeros_suffix s).subset hc)
  have hend' : buf (p + (stripZeros s).length) = 0 := by rwa [hlast]
  have hfit' : p + (stripZeros s).length < numBufSize := by rwa [hlast]
  have htext : (numFormat fmt).wrong = false ∧
      printPadded buf p (numFormat fmt).zeroFlag (numFormat fmt).numStrLen =
        some (numField fmt (stripZeros s)) := by
    rw [numField]
    by_cases hdirect : fmt = [] ∨ fmt = [zero]
    · rw [numFormat, if_pos hdirect, if_pos hdirect]
      exact ⟨rfl, printPadded_direct hcs' hrest hend' hfit'⟩
    · have hnil : fmt ≠ [] := fun h => hdirect (Or.inl h)
      have hzero : fmt ≠ [zero] := fun h => hdirect (Or.inr h)
      rw [numFormat_eq hfmt hlen hnil hzero, if_neg hdirect]
      refine ⟨rfl, (printPadded_eq hcs' hrest hend' hfit').trans (congrArg some ?_)⟩
      by_cases hle : width fmt ≤ (stripZeros s).length
      · rw [if_pos hle, if_pos hle]
      · rw [if_neg hle, if_neg hle]
        by_cases hhead : fmt.head? = some zero
        · rw [if_pos hhead, if_pos (decide_eq_true hhead)]
        · rw [if_neg hhead, if_neg fun h => hhead (of_decide_eq_true h), List.nil_append]
  obtain ⟨hright, htext⟩ := htext
  rw [printNum, hbuf]
  simp only [Option.bind_eq_bind, Option.bind_some, hskip, htext, hright]
  rfl

theorem printNum_hex (hfmt : ∀ c ∈ fmt, isNum c) (hlen : fmt.length ≤ 9) (x : Int) :
    printNum fmt 120 x = some (chars "0x" ++ numField fmt (hexadecimal (intToU32 x))) := by
  obtain ⟨hholds, hsame⟩ := sprintHex_spec x fun _ => 0
  have hlength := hexText_length (intToU32 x)
  have hne : hexText (intToU32 x) ≠ [] := List.ne_nil_of_length_eq_add_one hlength
  have hend := hsame (hexText (intToU32 x)).length hlength.ge
  rw [printNum_eq hfmt hlen rfl hne (fun c => hexText_ne_zero) hholds hend (by rw [hlength]; decide),
    stripZeros_hexText (intToU32_lt x)]
  rfl

/-- With `d`, the characters of `itoa` are printed. -/
theorem printNum_itoaText {sign : Int} (hsign : sign = 1 ∨ sign = -1) (hfmt : ∀ c ∈ fmt, isNum c)
    (hlen : fmt.length ≤ 9) (hn : n < 2 ^ 32) :
    printNum fmt 100 (sign * n) = some (numField fmt (stripZeros (itoaText sign n))) := by
  have hle : (itoaText sign n).length ≤ 10 := by
    rw [itoaText_length]
    exact length_places_le (by decide) (by decide) (hn.trans (by decide))
  have hfit : (itoaText sign n).length < numBufSize := hle.trans_lt (by decide)
  obtain ⟨buf, hrun, hholds, hzero⟩ := itoa_spec hsign hfit.le fun _ => 0
  have hne : itoaText sign n ≠ [] := by
    intro h
    have hlength := itoaText_length (n := n) sign
    rw [h] at hlength
    exact places_ne_nil (List.length_eq_zero_iff.mp hlength.symm)
  have hbuf : numBuffer 100 (sign * n) = some buf := hrun
  rw [printNum_eq hfmt hlen hbuf hne (fun c => itoaText_ne_zero hsign) hholds
    (hzero _ (le_refl _) hfit) hfit]
  rfl

/-- `_print_num` prints numbers that are not negative in the width of the format. -/
theorem printNum_field (hfmt : ∀ c ∈ fmt, isNum c) (hlen : fmt.length ≤ 9) :
    (∀ x : Int, printNum fmt 120 x = some (chars "0x" ++ numField fmt (hexadecimal (intToU32 x)))) ∧
      ∀ m : Int, 0 ≤ m → m < 2 ^ 31 → printNum fmt 100 m = some (numField fmt (decimal m.toNat)) := by
  refine ⟨printNum_hex hfmt hlen, fun m hm hlt => ?_⟩
  obtain ⟨k, rfl⟩ := Int.eq_ofNat_of_zero_le hm
  have hprint := printNum_itoaText (n := k) (Or.inl rfl) hfmt hlen (by omega)
  rwa [one_mul, itoaText_one, stripZeros_decimal] at hprint

/-- The widths `05` and `3`, of which the second is too short. -/
theorem printNum_field_sample :
    printNum (chars "05") 120 5 = some (chars "0x00005") ∧
      printNum (chars "3") 100 12342234 = some (chars "234") :=
  ⟨((printNum_field (by decide +kernel : ∀ c ∈ chars "05", isNum c) (by decide)).1 5).trans
      (congrArg some (by decide +kernel)),
    ((printNum_field (by decide +kernel : ∀ c ∈ chars "3", isNum c) (by decide)).2 12342234
      (by decide) (by decide)).trans (congrArg some (by decide +kernel))⟩

end TsOs.Print
