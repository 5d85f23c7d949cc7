import TsOs.Lib.Printing

/-!
# Digits in buffers

`itoa` leaves the digits of a number in its buffer, each with the sign of the number, and
`sprint_hex` the eight nibbles of a word. `atoi` reads both texts back.
-/

namespace TsOs.Print
open ByteMemory Places

variable {buf : Mem} {i n : Nat} {cs : List UInt8}

/-! ## The swaps of `itoa` -/

theorem swapEnds_apply (i j : Nat) (buf : Mem) (k : Nat) :
    swapEnds i j buf k = if j ≤ k ∧ k ≤ i then buf (j + i - k) else buf k := by
  induction i generalizing j buf with
  | zero =>
      rw [swapEnds]
      split
      next h => rw [show j + 0 - k = k by omega]
      next => rfl
  | succ i ih =>
      rw [swapEnds]
      split
      next hlt =>
        have hends : ∀ x, store8 (store8 buf j (buf (i + 1))) (i + 1) (buf j) x =
            if x = i + 1 then buf j else if x = j then buf (i + 1) else buf x := fun x => rfl
        dsimp only
        rw [ih, hends, hends]
        by_cases hin : j + 1 ≤ k ∧ k ≤ i
        · rw [if_pos hin, if_neg (by omega), if_neg (by omega), if_pos (by omega)]
          congr 1
          omega
        · rw [if_neg hin]
          by_cases hlast : k = i + 1
          · rw [if_pos hlast, if_pos (by omega), show j + (i + 1) - k = j by omega]
          · rw [if_neg hlast]
            by_cases hfirst : k = j
            · rw [if_pos hfirst, if_pos (by omega), show j + (i + 1) - k = i + 1 by omega]
            · rw [if_neg hfirst, if_neg (by omega)]
      next hge =>
        split
        next h => rw [show j + (i + 1) - k = k by omega]
        next => rfl

/-- Swapping the ends of a string reverses it. -/
theorem holds_swapEnds (h : Holds buf 0 cs) : Holds (swapEnds (cs.length - 1) 0 buf) 0 cs.reverse := by
  intro j hj
  rw [List.length_reverse] at hj
  rw [Nat.zero_add, swapEnds_apply, if_pos (by omega), List.getElem_reverse]
  have hsource := h (cs.length - 1 - j) (by omega)
  rwa [show 0 + (cs.length - 1 - j) = 0 + (cs.length - 1) - j by omega] at hsource

/-! ## The digits of `itoa` -/

/-- The character that `itoa` writes for a digit of a number with the given sign. -/
def signedChar (sign : Int) (d : Nat) : UInt8 := UInt8.ofInt (sign * d + 48)

section Digits

variable {sign : Int} (hsign : sign = 1 ∨ sign = -1)

theorem signedChar_one {d : Nat} (hd : d < 10) : signedChar 1 d = hexChar d := by
  revert d
  decide

include hsign

theorem signedChar_ne_zero {d : Nat} (hd : d < 10) : signedChar sign d ≠ 0 := by
  rcases hsign with rfl | rfl
  · revert d
    decide
  · revert d
    decide

/-- Truncated division keeps the sign. -/
theorem tdiv_tmod_sign (n : Nat) :
    (sign * n).tdiv 10 = sign * (n / 10 : Nat) ∧ (sign * n).tmod 10 = sign * (n % 10 : Nat) := by
  rcases hsign with rfl | rfl
  · rw [one_mul, one_mul, one_mul]
    exact ⟨(Int.ofNat_tdiv n 10).symm, (Int.ofNat_tmod n 10).symm⟩
  · rw [neg_one_mul, neg_one_mul, neg_one_mul, Int.neg_tdiv, Int.neg_tmod]
    exact ⟨congrArg _ (Int.ofNat_tdiv n 10).symm, congrArg _ (Int.ofNat_tmod n 10).symm⟩

/-- The digit loop writes the last digit first. -/
theorem itoaDigits_spec {room : Nat} (hroom : (places 10 n).length ≤ room) (i : Nat) (buf : Mem) :
    ∃ buf', itoaDigits room (sign * n) i buf = some (buf', i + (places 10 n).length) ∧
      Holds buf' i ((places 10 n).map (signedChar sign)) ∧
      ∀ k, k < i ∨ i + (places 10 n).length ≤ k → buf' k = buf k := by
  induction room generalizing n i buf with
  | zero => exact absurd (List.length_eq_zero_iff.mp (Nat.le_zero.mp hroom)) places_ne_nil
  | succ room ih =>
      obtain ⟨hdiv, hmod⟩ := tdiv_tmod_sign hsign n
      have hzero : sign * (n / 10 : Nat) = 0 ↔ n < 10 := by
        rcases hsign with rfl | rfl
        · omega
        · omega
      rw [itoaDigits, hdiv, hmod]
      rcases Nat.lt_or_ge n 10 with hlt | hle
      · have hplaces := places_of_lt hlt
        rw [if_pos (hzero.mpr hlt), hplaces, Nat.mod_eq_of_lt hlt]
        refine ⟨_, rfl, holds_cons (store8_same buf i _) fun j hj => absurd hj (Nat.not_lt_zero j), ?_⟩
        intro k hk
        exact store8_of_ne buf i _ (by rw [List.length_singleton] at hk; omega)
      · have hplaces := places_of_le (by decide : 1 < 10) hle
        rw [hplaces, List.length_cons] at hroom
        obtain ⟨buf', hrun, hholds, hsame⟩ :=
          ih (Nat.le_of_succ_le_succ hroom) (i + 1) (store8 buf i (signedChar sign (n % 10)))
        have hlen : i + 1 + (places 10 (n / 10)).length = i + (places 10 n).length := by
          rw [hplaces, List.length_cons]
          omega
        rw [if_neg fun h => absurd (hzero.mp h) (by omega)]
        refine ⟨buf', hlen ▸ hrun, ?_, ?_⟩
        · rw [hplaces, List.map_cons]
          exact holds_cons ((hsame i (by omega)).trans (store8_same buf i _)) hholds
        · intro k hk
          rw [hsame k (by omega)]
          exact store8_of_ne buf i _ (by omega)

/-- The text that `itoa` writes for a number with the given sign and size. -/
def itoaText (sign : Int) (n : Nat) : List UInt8 := (places 10 n).reverse.map (signedChar sign)

omit hsign in
theorem itoaText_one : itoaText 1 n = decimal n := by
  rw [itoaText, decimal_eq_places]
  exact List.map_congr_left fun d hd =>
    signedChar_one (lt_of_mem_places (by decide) (List.mem_reverse.mp hd))

theorem itoaText_ne_zero {c : UInt8} (hc : c ∈ itoaText sign n) : c ≠ 0 := by
  obtain ⟨d, hd, rfl⟩ := List.mem_map.mp hc
  exact signedChar_ne_zero hsign (lt_of_mem_places (by decide) (List.mem_reverse.mp hd))

omit hsign in
theorem itoaText_length (sign : Int) : (itoaText sign n).length = (places 10 n).length := by
  rw [itoaText, List.length_map, List.length_reverse]

/-- `itoa` leaves its text at the start of the buffer, and zeros behind it. -/
theorem itoa_spec {bufSize : Nat} (hroom : (itoaText sign n).length ≤ bufSize) (buf : Mem) :
    ∃ buf', itoa (sign * n) buf bufSize = some buf' ∧ Holds buf' 0 (itoaText sign n) ∧
      ∀ k, (itoaText sign n).length ≤ k → k < bufSize → buf' k = 0 := by
  rw [itoaText_length] at hroom ⊢
  obtain ⟨buf', hrun, hholds, hsame⟩ :=
    itoaDigits_spec hsign hroom 0 fun k => if k < bufSize then 0 else buf k
  have hne : places 10 n ≠ [] := places_ne_nil
  have hpos := List.length_pos_of_ne_nil hne
  refine ⟨swapEnds (0 + (places 10 n).length - 1) 0 buf', ?_, ?_, ?_⟩
  · rw [itoa, hrun]
    rfl
  · have hswap := holds_swapEnds hholds
    rw [List.length_map, ← List.map_reverse] at hswap
    rwa [Nat.zero_add]
  · intro k hk hlt
    rw [swapEnds_apply, if_neg (by omega), hsame k (by omega), if_pos hlt]

/-- The string that `itoa` writes, where the terminator fits too. -/
theorem itoa_cString {bufSize : Nat} (hroom : (itoaText sign n).length < bufSize) (buf : Mem) :
    ((itoa (sign * n) buf bufSize).bind fun buf => cString buf bufSize 0) =
      some (itoaText sign n) := by
  obtain ⟨buf', hrun, hholds, hzero⟩ := itoa_spec hsign hroom.le buf
  rw [hrun, Option.bind_some]
  refine cString_eq (fun c => itoaText_ne_zero hsign) hholds ?_ hroom
  rw [Nat.zero_add]
  exact hzero _ (le_refl _) hroom

end Digits

/-! ## The nibbles of `sprint_hex` -/

theorem hbToHex_byte : ∀ b < 256, hbToHex (UInt8.ofNat b) = hexChar (b / 16) := by
  decide +kernel

theorem lbToHex_byte : ∀ b < 256, lbToHex (UInt8.ofNat b) = hexChar (b % 16) := by
  decide +kernel

/-- The two characters of a byte are those of its nibbles. -/
theorem hex_byte (m : Nat) :
    hbToHex (UInt8.ofNat m) = hexChar (m / 16 % 16) ∧ lbToHex (UInt8.ofNat m) = hexChar (m % 16) := by
  have hbyte : UInt8.ofNat m = UInt8.ofNat (m % 256) := by
    apply UInt8.toNat_inj.mp
    rw [UInt8.toNat_ofNat', UInt8.toNat_ofNat', Nat.mod_mod]
  have hlt : m % 256 < 256 := Nat.mod_lt m (by decide)
  rw [hbyte, hbToHex_byte _ hlt, lbToHex_byte _ hlt]
  refine ⟨congrArg hexChar ?_, congrArg hexChar ?_⟩
  · omega
  · omega

/-- The text that `sprint_hex` writes for a word. -/
def hexText (x : Nat) : List UInt8 := (field 16 8 x).reverse.map hexChar

theorem hexText_length (x : Nat) : (hexText x).length = 8 := by
  rw [hexText, List.length_map, List.length_reverse, length_field]

theorem hexText_ne_zero {x : Nat} {c : UInt8} (hc : c ∈ hexText x) : c ≠ 0 := by
  obtain ⟨d, hd, rfl⟩ := List.mem_map.mp hc
  exact hexChar_ne_zero (lt_of_mem_field (by decide) (List.mem_reverse.mp hd))

/-- Each round of the loop writes the next two places. -/
theorem sprintHexLoop_spec (x b cnt : Nat) (buf : Mem) :
    Holds (sprintHexLoop (fun i => UInt8.ofNat (x / 256 ^ i)) b cnt buf) cnt
        ((field 16 (2 * b) x).reverse.map hexChar) ∧
      ∀ k, k < cnt ∨ cnt + 2 * b ≤ k →
        sprintHexLoop (fun i => UInt8.ofNat (x / 256 ^ i)) b cnt buf k = buf k := by
  induction b generalizing cnt buf with
  | zero => exact ⟨fun j hj => absurd hj (Nat.not_lt_zero j), fun k _ => rfl⟩
  | succ b ih =>
      obtain ⟨hhigh, hlow⟩ := hex_byte (x / 256 ^ b)
      have hpow : x / 256 ^ b = x / 16 ^ (2 * b) := by
        rw [pow_mul]
        rfl
      have hquot : x / 16 ^ (2 * b) / 16 = x / 16 ^ (2 * b + 1) := by
        rw [Nat.div_div_eq_div_mul, pow_succ]
      rw [hpow] at hhigh hlow
      rw [hquot] at hhigh
      have hfield : (field 16 (2 * (b + 1)) x).reverse.map hexChar =
          hexChar (x / 16 ^ (2 * b + 1) % 16) :: hexChar (x / 16 ^ (2 * b) % 16) ::
            (field 16 (2 * b) x).reverse.map hexChar := by
        rw [Nat.mul_succ, field_succ, field_succ, List.reverse_append, List.reverse_append]
        rfl
      rw [sprintHexLoop, hpow, hhigh, hlow, hfield]
      obtain ⟨hholds, hsame⟩ := ih (cnt + 2)
        (store8 (store8 buf cnt (hexChar (x / 16 ^ (2 * b + 1) % 16))) (cnt + 1)
          (hexChar (x / 16 ^ (2 * b) % 16)))
      refine ⟨holds_cons ?_ (holds_cons ?_ hholds), fun k hk => ?_⟩
      · rw [hsame cnt (by omega), store8_of_ne _ _ _ (by omega), store8_same]
      · rw [hsame (cnt + 1) (by omega), store8_same]
      · rw [hsame k (by omega), store8_of_ne _ _ _ (by omega), store8_of_ne _ _ _ (by omega)]

/-- `sprint_hex` writes its text at the start of the buffer, and nothing behind it. -/
theorem sprintHex_spec (x : Int) (buf : Mem) :
    Holds (sprintHex x buf) 0 (hexText (intToU32 x)) ∧ ∀ k, 8 ≤ k → sprintHex x buf k = buf k := by
  obtain ⟨hholds, hsame⟩ := sprintHexLoop_spec (intToU32 x) 4 0 buf
  exact ⟨hholds, fun k hk => hsame k (Or.inr (by omega))⟩

theorem intToU32_lt (x : Int) : intToU32 x < 2 ^ 32 := by
  rw [intToU32]
  omega

/-! ## Reading back -/

/-- `atoi` reads back what `itoa` writes for a number that is not negative, and the eight
characters of `sprint_hex`. -/
theorem atoi_itoa_sprintHex :
    (∀ (n : Int) (buf : Mem) (bufSize : Nat), 0 ≤ n → n < 2 ^ 31 →
        (decimal n.toNat).length < bufSize →
        ∃ text, ((itoa n buf bufSize).bind fun buf => cString buf bufSize 0) = some text ∧
          (atoi text 10 : Int) = n) ∧
      ∀ (x : Int) (buf : Mem), ∃ text, text.length = 8 ∧ Holds (sprintHex x buf) 0 text ∧
        (∀ k, 8 ≤ k → sprintHex x buf k = buf k) ∧
        cString (store8 (sprintHex x buf) 8 0) 9 0 = some text ∧ atoi text 16 = intToU32 x := by
  refine ⟨fun n buf bufSize hn hlt hroom => ?_, fun x buf => ?_⟩
  · obtain ⟨m, rfl⟩ := Int.eq_ofNat_of_zero_le hn
    rw [Int.toNat_natCast, ← itoaText_one] at hroom
    have hstring := itoa_cString (Or.inl rfl) hroom buf
    rw [one_mul] at hstring
    refine ⟨itoaText 1 m, hstring, ?_⟩
    rw [itoaText_one, atoi_decimal (by omega)]
  · obtain ⟨hholds, hsame⟩ := sprintHex_spec x buf
    have hlen := hexText_length (intToU32 x)
    have hbelow : Holds (store8 (sprintHex x buf) 8 0) 0 (hexText (intToU32 x)) := by
      intro j hj
      rw [store8_of_ne _ _ _ (by omega)]
      exact hholds j hj
    have hend : store8 (sprintHex x buf) 8 0 (0 + (hexText (intToU32 x)).length) = 0 := by
      rw [hlen, Nat.zero_add, store8_same]
    refine ⟨hexText (intToU32 x), hlen, hholds, hsame,
      cString_eq (fun c => hexText_ne_zero) hbelow hend (by omega), ?_⟩
    have hlt : intToU32 x < 16 ^ 8 := intToU32_lt x
    rw [hexText, atoi_digits fun d => lt_of_mem_field (by decide), ofDigits_field,
      Nat.mod_eq_of_lt hlt, u32_of_lt (intToU32_lt x)]

theorem atoi_itoa_sprintHex_sample :
    ∃ text, ((itoa 2147483647 (fun _ => 1) 11).bind fun buf => cString buf 11 0) = some text ∧
      (atoi text 10 : Int) = 2147483647 :=
  atoi_itoa_sprintHex.1 2147483647 (fun _ => 1) 11 (by decide) (by decide) (by decide)

end TsOs.Print
