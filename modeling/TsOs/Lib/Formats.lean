import TsOs.Lib.Widths

/-!
# Formats

`printf` prints the characters of its format, and hands what follows a `%` to
`_print_arg_handler`. A number is printed as `_print_num` prints it, so `%d` has no sign
either.
-/

namespace TsOs.Print
open ByteMemory Places

variable {fmt rest text : List UInt8} {args : List Arg} {n : Nat}

/-- The decimal numeral of an `int`. -/
def signedDecimal (x : Int) : List UInt8 :=
  if x < 0 then 45 :: decimal x.natAbs else decimal x.natAbs

/-! ## The loop of `printf` -/

/-- The handler leaves less of the format than it was given. -/
theorem printArgHandler_rest {args' : List Arg}
    (h : printArgHandler fmt args = some (some (text, rest, args'))) : rest.length < fmt.length := by
  have hle := (List.dropWhile_sublist (l := fmt) (! isAlpha ·)).length_le
  rw [printArgHandler] at h
  cases hfmt : fmt.dropWhile (! isAlpha ·) with
  | nil =>
      rw [hfmt] at h
      exact absurd (Option.some.inj h) (by simp)
  | cons p tail =>
      rw [hfmt] at h hle
      obtain ⟨next, -, hnext⟩ := Option.map_eq_some_iff.mp h
      obtain ⟨⟨text', args''⟩, -, heq⟩ := Option.map_eq_some_iff.mp hnext
      obtain rfl : tail = rest := (Prod.mk.inj (Prod.mk.inj heq).2).1
      exact hle

/-- As many rounds as the format has characters are enough. -/
theorem printfLoop_congr {n m : Nat} (hn : fmt.length ≤ n) (hm : fmt.length ≤ m) :
    printfLoop n fmt args = printfLoop m fmt args := by
  induction n generalizing m fmt args with
  | zero =>
      obtain rfl := List.length_eq_zero_iff.mp (Nat.le_zero.mp hn)
      rw [printfLoop, printfLoop]
  | succ n ih =>
      cases fmt with
      | nil => rw [printfLoop, printfLoop]
      | cons c fmt =>
          cases m with
          | zero => exact absurd hm (Nat.not_succ_le_zero _)
          | succ m =>
              rw [List.length_cons] at hn hm
              rw [printfLoop, printfLoop]
              by_cases hc : c = 37
              · rw [if_pos hc, if_pos hc]
                cases hhandler : printArgHandler fmt args with
                | none => rfl
                | some next =>
                    cases next with
                    | none => rfl
                    | some next =>
                        obtain ⟨text, rest, args'⟩ := next
                        have hlt := printArgHandler_rest hhandler
                        simp only [Option.bind_eq_bind, Option.bind_some]
                        rw [ih (m := m) (by omega) (by omega)]
              · rw [if_neg hc, if_neg hc, ih (m := m) (by omega) (by omega)]

theorem printf_nil (args : List Arg) : printf [] args = some [] := rfl

/-- Other characters are printed as they are. -/
theorem printf_char {c : UInt8} (hc : c ≠ 37) :
    printf (c :: fmt) args = (printf fmt args).map (c :: ·) := by
  rw [printf, List.length_cons, printfLoop, if_neg hc, ← printf]

theorem printf_text (h : 37 ∉ text) :
    printf (text ++ fmt) args = (printf fmt args).map (text ++ ·) := by
  induction text with
  | nil =>
      cases hfmt : printf fmt args with
      | none => rw [List.nil_append, hfmt, Option.map_none]
      | some out => rw [List.nil_append, hfmt, Option.map_some, List.nil_append]
  | cons c text ih =>
      have hc : c ≠ 37 := fun heq => h (heq ▸ List.mem_cons_self)
      rw [List.cons_append, printf_char hc, ih fun hmem => h (List.mem_cons_of_mem c hmem),
        Option.map_map]
      rfl

/-- The handler of `printf` prints a number in the width before the letter. -/
theorem printf_num {numType : UInt8} {x : Int} (hfmt : ∀ c ∈ fmt, isNum c) (hlen : fmt.length < 32)
    (htype : numType = 120 ∨ numType = 100) :
    printf (37 :: (fmt ++ numType :: rest)) (.int x :: args) =
      (printNum fmt numType x).bind fun text => (printf rest args).map (text ++ ·) := by
  have hdigit : ∀ c ∈ fmt, (! isAlpha c) = true := by
    intro c hc
    have hnot : ∀ d < 10, (! isAlpha (hexChar d)) = true := by decide
    obtain ⟨d, hd, rfl⟩ := isNum_iff.mp (hfmt c hc)
    exact hnot d hd
  have halpha : ¬(! isAlpha numType) = true := by
    rcases htype with rfl | rfl
    · decide
    · decide
  have hchar : numType ≠ 99 := by
    rcases htype with rfl | rfl
    · decide
    · decide
  have hwidth : (fmt ++ numType :: rest).takeWhile (! isAlpha ·) = fmt := by
    rw [List.takeWhile_append_of_pos hdigit, List.takeWhile_cons_of_neg (by exact halpha),
      List.append_nil]
  have hletter : (fmt ++ numType :: rest).dropWhile (! isAlpha ·) = numType :: rest := by
    rw [List.dropWhile_append_of_pos hdigit, List.dropWhile_cons_of_neg (by exact halpha)]
  have hhandler : printArgHandler (fmt ++ numType :: rest) (.int x :: args) =
      (printNum fmt numType x).map fun text => some (text, rest, args) := by
    rw [printArgHandler, hwidth, hletter]
    dsimp only
    rw [printArg, if_neg hchar, if_pos htype, if_pos hlen, Option.map_map]
    rfl
  rw [printf, List.length_cons, printfLoop, if_pos rfl, hhandler]
  cases printNum fmt numType x with
  | none => rfl
  | some text =>
      have hrest : printfLoop (fmt ++ numType :: rest).length rest args = printf rest args :=
        printfLoop_congr (by rw [List.length_append, List.length_cons]; omega) (le_refl _)
      simp only [Option.map_some, Option.bind_eq_bind, Option.bind_some, hrest]
      cases printf rest args with
      | none => rfl
      | some out => rfl

/-- `%d` alone prints the number as `_print_num` does. -/
theorem printf_int (x : Int) : printf (chars "%d") [.int x] = printNum [] 100 x := by
  have hnum : printf (37 :: ([] ++ 100 :: [])) [.int x] =
      (printNum [] 100 x).bind fun text => (printf [] []).map (text ++ ·) :=
    printf_num (fun c hc => absurd hc List.not_mem_nil) (by decide) (Or.inr rfl)
  have hformat : chars "%d" = 37 :: ([] ++ 100 :: []) := by decide
  rw [hformat, hnum]
  cases printNum [] 100 x with
  | none => rfl
  | some text =>
      rw [Option.bind_some, printf_nil, Option.map_some, List.append_nil]

/-! ## Signed numbers -/

theorem numField_nil (numeral : List UInt8) : numField [] numeral = numeral := rfl

theorem printf_itoaText {sign : Int} (hsign : sign = 1 ∨ sign = -1) (hn : n < 2 ^ 32) :
    printf (chars "%d") [.int (sign * n)] = some (stripZeros (itoaText sign n)) := by
  rw [printf_int, printNum_itoaText hsign (fun c hc => absurd hc List.not_mem_nil) (by decide) hn,
    numField_nil]

/-- The numeral of a negative number is longer than what `itoa` writes. -/
theorem itoaText_length_lt (hn : 0 < n) : (itoaText (-1) n).length < (signedDecimal (-n)).length := by
  have hneg : (-(n : Int)) < 0 := by omega
  rw [signedDecimal, if_pos hneg, Int.natAbs_neg, Int.natAbs_natCast, ← itoaText_one, List.length_cons,
    itoaText_length, itoaText_length]
  exact Nat.lt_succ_self _

/-- `itoa` and `%d` write the numeral of a number exactly if it is not negative. -/
theorem signedDecimal_iff {x : Int} {bufSize : Nat} (hlow : -2 ^ 31 ≤ x) (hhigh : x < 2 ^ 31)
    (hroom : (signedDecimal x).length < bufSize) (buf : Mem) :
    (((itoa x buf bufSize).bind fun buf => cString buf bufSize 0) = some (signedDecimal x) ↔ 0 ≤ x) ∧
      (printf (chars "%d") [.int x] = some (signedDecimal x) ↔ 0 ≤ x) := by
  rcases lt_or_ge x 0 with hneg | hpos
  · obtain ⟨k, rfl⟩ : ∃ k : Nat, x = -k := ⟨x.natAbs, by omega⟩
    have hlt := itoaText_length_lt (n := k) (by omega)
    have htext := itoa_cString (Or.inr rfl) (hlt.trans hroom) buf
    have hprint := printf_itoaText (n := k) (Or.inr rfl) (by omega)
    rw [neg_one_mul] at htext hprint
    have hle := (stripZeros_suffix (itoaText (-1) k)).length_le
    rw [htext, hprint]
    refine ⟨⟨fun h => ?_, fun h => absurd h (by omega)⟩, fun h => ?_, fun h => absurd h (by omega)⟩
    · rw [Option.some.inj h] at hlt
      omega
    · rw [Option.some.inj h] at hle
      omega
  · obtain ⟨k, rfl⟩ := Int.eq_ofNat_of_zero_le hpos
    have hsigned : signedDecimal k = itoaText 1 k := by
      rw [signedDecimal, if_neg (by omega), Int.natAbs_natCast, itoaText_one]
    rw [hsigned] at hroom ⊢
    have htext := itoa_cString (Or.inl rfl) hroom buf
    have hprint := printf_itoaText (n := k) (Or.inl rfl) (by omega)
    rw [itoaText_one, stripZeros_decimal, ← itoaText_one] at hprint
    rw [one_mul] at htext hprint
    exact ⟨⟨fun _ => hpos, fun _ => htext⟩, fun _ => hpos, fun _ => hprint⟩

theorem signedDecimal_iff_sample :
    (((itoa 2147483647 (fun _ => 1) 11).bind fun buf => cString buf 11 0) =
        some (signedDecimal 2147483647) ↔ (0 : Int) ≤ 2147483647) ∧
      (printf (chars "%d") [.int 2147483647] = some (signedDecimal 2147483647) ↔
        (0 : Int) ≤ 2147483647) :=
  signedDecimal_iff (by decide) (by decide) (by decide) _

/-- For -5, `itoa` writes a plus sign, which `%d` prints. -/
theorem itoa_minus_five :
    ((itoa (-5) (fun _ => 0) 12).bind fun buf => cString buf 12 0) = some (chars "+") ∧
      printf (chars "%d") [.int (-5)] = some (chars "+") ∧ signedDecimal (-5) = chars "-5" ∧
      chars "+" ≠ chars "-5" := by
  decide +kernel

end TsOs.Print
