import TsOs.Library.ByteMemory
import TsOs.Library.Places
import TsOs.Machine

/-!
# Numbers as text

A C string is the list of its characters without the terminator. `char` is signed,
as the compiler has it for this machine.
-/

namespace TsOs
open ByteMemory Places

/-- The value of a `char`. -/
def charVal (c : UInt8) : Int := if c < 128 then c.toNat else c.toNat - 256

/-- A value of type `int` in a `uint32_t`. -/
def intToU32 (z : Int) : Nat := (z % 2 ^ 32).toNat

/-- One round of the loop of `atoi`. -/
def atoiStep (base sum : Nat) (c : UInt8) : Nat :=
  let sum := u32 (sum * base)
  if charVal c ≤ 57 ∧ 48 ≤ charVal c then u32 (sum + intToU32 (charVal c - 48))
  else u32 (sum + intToU32 (charVal c - 65 + 10))

def atoi (s : List UInt8) (base : Nat) : Nat := s.foldl (atoiStep base) 0

/-- The C string at the start of a buffer of `n` bytes, if it ends there. -/
def cString (buf : Mem) : Nat → Nat → Option (List UInt8)
  | 0, _ => none
  | n + 1, i => if buf i = 0 then some [] else (cString buf n (i + 1)).map (buf i :: ·)

variable {b : Mem} {i : Nat} {cs : List UInt8}

/-- The characters stand in the buffer from index `i` on. -/
def Holds (b : Mem) (i : Nat) (cs : List UInt8) : Prop := ∀ j (h : j < cs.length), b (i + j) = cs[j]

theorem Holds.head {c : UInt8} (h : Holds b i (c :: cs)) : b i = c := h 0 (by simp)

theorem Holds.tail {c : UInt8} (h : Holds b i (c :: cs)) : Holds b (i + 1) cs := by
  intro j hj
  have hnext := h (j + 1) (by simpa using hj)
  rwa [show i + (j + 1) = i + 1 + j by omega] at hnext

theorem holds_cons {c : UInt8} (hhead : b i = c) (htail : Holds b (i + 1) cs) :
    Holds b i (c :: cs) := by
  intro j hj
  cases j with
  | zero => exact hhead
  | succ j =>
      rw [show i + (j + 1) = i + 1 + j by omega]
      exact htail j (by simpa using hj)

theorem Holds.drop (h : Holds b i cs) (k : Nat) : Holds b (i + k) (cs.drop k) := by
  intro j hj
  rw [List.length_drop] at hj
  rw [List.getElem_drop, Nat.add_assoc]
  exact h (k + j) (by omega)

/-- A string that fits is read back up to its terminator. -/
theorem cString_eq {n : Nat} (hcs : ∀ c ∈ cs, c ≠ 0) (hbuf : Holds b i cs)
    (hend : b (i + cs.length) = 0) (hn : cs.length < n) : cString b n i = some cs := by
  induction cs generalizing n i with
  | nil =>
      obtain ⟨n, rfl⟩ := Nat.exists_eq_add_of_lt hn
      rw [cString, if_pos (by simpa using hend)]
  | cons c cs ih =>
      cases n with
      | zero => omega
      | succ n =>
          have hne : b i ≠ 0 := hbuf.head ▸ hcs c (by simp)
          have hend' : b (i + 1 + cs.length) = 0 := by
            rwa [List.length_cons, show i + (cs.length + 1) = i + 1 + cs.length by omega] at hend
          have hrest := ih (fun d hd => hcs d (by simp [hd])) hbuf.tail hend' (by simpa using hn)
          rw [cString, if_neg hne, hrest, hbuf.head]
          rfl

/-! ## Numerals -/

/-- The character of a digit. -/
def digitChar (d : Nat) : UInt8 := UInt8.ofNat (48 + d)

/-- The decimal numeral of a number, as `printf` of the shell writes it. -/
def decimal (n : Nat) : List UInt8 :=
  if n = 0 then [digitChar 0] else (Nat.digits 10 n).reverse.map digitChar

/-- The character of a digit of any base up to 16. -/
def hexChar (d : Nat) : UInt8 := if d < 10 then digitChar d else UInt8.ofNat (65 + (d - 10))

/-- The hexadecimal numeral of a number. -/
def hexadecimal (n : Nat) : List UInt8 := (places 16 n).reverse.map hexChar

variable {base d n sum : Nat}

theorem charVal_hexChar (hd : d < 16) : charVal (hexChar d) = if d < 10 then 48 + d else 55 + d := by
  revert d
  decide

theorem hexChar_ne_zero (hd : d < 16) : hexChar d ≠ 0 := by
  revert d
  decide

theorem atoiStep_hexChar (hd : d < 16) : atoiStep base sum (hexChar d) = u32 (sum * base + d) := by
  have hval := charVal_hexChar hd
  have hmod : ∀ m, u32 (u32 m + d) = u32 (m + d) := fun m => Nat.mod_add_mod m (2 ^ 32) d
  rw [atoiStep]
  by_cases hten : d < 10
  · rw [if_pos hten] at hval
    have hdigit : intToU32 (charVal (hexChar d) - 48) = d := by
      rw [hval, intToU32]
      omega
    rw [if_pos (by omega), hdigit, hmod]
  · rw [if_neg hten] at hval
    have hdigit : intToU32 (charVal (hexChar d) - 65 + 10) = d := by
      rw [hval, intToU32]
      omega
    rw [if_neg (by omega), hdigit, hmod]

/-- Digits with the least significant one first, as Mathlib has them, are read from the end. -/
theorem atoi_digits {ds : List Nat} (hds : ∀ d ∈ ds, d < 16) :
    atoi (ds.reverse.map hexChar) base = u32 (Nat.ofDigits base ds) := by
  induction ds with
  | nil => rfl
  | cons d ds ih =>
      have hrest := ih fun e he => hds e (by simp [he])
      have hmod : ∀ m, u32 (u32 m * base + d) = u32 (d + base * m) := fun m => by
        rw [u32, u32, u32, Nat.add_comm d, Nat.mul_comm base m, Nat.add_mod, Nat.mod_mul_mod,
          ← Nat.add_mod]
      rw [atoi] at hrest ⊢
      rw [List.reverse_cons, List.map_append, List.foldl_append, hrest, List.map_cons, List.map_nil,
        List.foldl_cons, List.foldl_nil, atoiStep_hexChar (hds d (by simp)), Nat.ofDigits_cons, hmod]

theorem decimal_eq_places : decimal n = (places 10 n).reverse.map hexChar := by
  have hchar : ∀ d ∈ (places 10 n).reverse, digitChar d = hexChar d := by
    intro d hd
    rw [hexChar, if_pos (lt_of_mem_places (by decide) (List.mem_reverse.mp hd))]
  rw [← List.map_congr_left hchar, decimal, places]
  split
  next => rfl
  next => rfl

/-- `atoi` reads a decimal numeral back. -/
theorem atoi_decimal (hn : n < 2 ^ 32) : atoi (decimal n) 10 = n := by
  have hlt : ∀ d ∈ places 10 n, d < 16 := fun d hd =>
    (lt_of_mem_places (by decide) hd).trans (by decide)
  rw [decimal_eq_places, atoi_digits hlt, ofDigits_places, u32_of_lt hn]

theorem decimal_ne_zero {c : UInt8} (hc : c ∈ decimal n) : c ≠ 0 := by
  rw [decimal_eq_places] at hc
  obtain ⟨d, hd, rfl⟩ := List.mem_map.mp hc
  exact hexChar_ne_zero ((lt_of_mem_places (by decide) (List.mem_reverse.mp hd)).trans (by decide))

theorem decimal_length_le (hn : n < 2 ^ 32) : (decimal n).length ≤ 10 := by
  rw [decimal_eq_places, List.length_map, List.length_reverse]
  exact length_places_le (by decide) (by decide) (hn.trans (by decide))

end TsOs
