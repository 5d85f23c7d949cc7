import Mathlib.Tactic

/-!
# Machine words and the address map

The kernel is compiled for a thirty-two-bit machine. Values of `uint32_t` are
natural numbers below `2 ^ 32`, and each arithmetic operation that the source
may overflow is reduced where it is performed.
-/

namespace TsOs

/-- Reduction to the machine word of `uint32_t`. -/
def u32 (n : Nat) : Nat := n % 2 ^ 32

/-- Subtraction of `uint32_t` values. -/
def sub32 (a b : Nat) : Nat := (a + (2 ^ 32 - b % 2 ^ 32)) % 2 ^ 32

/-- `_1MB`. -/
def oneMB : Nat := 0x100000

/-- `KERNEL_V_START`. -/
def kernelVStart : Nat := 0xC0000000

/-- `LOADED_ADDRESS`. -/
def loadedAddress : Nat := 0x9000

/-- The searching `for` loops: the first of `n` indices from `i` on that passes the test. -/
def firstIndex (p : Nat → Bool) : Nat → Nat → Option Nat
  | 0, _ => none
  | n + 1, i => if p i then some i else firstIndex p n (i + 1)

theorem firstIndex_spec {p : Nat → Bool} {n i k : Nat} (h : firstIndex p n i = some k) :
    i ≤ k ∧ k < i + n ∧ p k = true := by
  induction n generalizing i with
  | zero => exact absurd h (by simp [firstIndex])
  | succ n ih =>
      rw [firstIndex] at h
      split at h
      next hp =>
        obtain rfl := Option.some.inj h
        exact ⟨le_refl i, by omega, hp⟩
      next hp =>
        obtain ⟨hle, hlt, hk⟩ := ih h
        exact ⟨by omega, by omega, hk⟩

/-- The search passes no index that meets the test. -/
theorem firstIndex_least {p : Nat → Bool} {n i k j : Nat} (h : firstIndex p n i = some k) (hij : i ≤ j)
    (hjk : j < k) : p j = false := by
  induction n generalizing i with
  | zero => exact absurd h (by simp [firstIndex])
  | succ n ih =>
      rw [firstIndex] at h
      split at h
      next hp =>
        obtain rfl := Option.some.inj h
        omega
      next hp =>
        rcases Nat.eq_or_lt_of_le hij with rfl | hlt
        · simpa using hp
        · exact ih h hlt

theorem firstIndex_none {p : Nat → Bool} {n i j : Nat} (h : firstIndex p n i = none) (hij : i ≤ j)
    (hjn : j < i + n) : p j = false := by
  induction n generalizing i with
  | zero => omega
  | succ n ih =>
      rw [firstIndex] at h
      split at h
      next hp => exact absurd h (by simp)
      next hp =>
        rcases Nat.eq_or_lt_of_le hij with rfl | hlt
        · simpa using hp
        · exact ih h hlt (by omega)

/-- The first index that passes the test is the result. -/
theorem firstIndex_eq_some {p : Nat → Bool} {n i k : Nat} (hik : i ≤ k) (hkn : k < i + n)
    (hk : p k = true) (hleast : ∀ j, i ≤ j → j < k → p j = false) :
    firstIndex p n i = some k := by
  induction n generalizing i with
  | zero => omega
  | succ n ih =>
      rw [firstIndex]
      rcases Nat.eq_or_lt_of_le hik with rfl | hlt
      · rw [if_pos hk]
      · have hpi : p i = false := hleast i (le_refl i) hlt
        rw [hpi, if_neg Bool.false_ne_true]
        exact ih hlt (by omega) fun j hj hjk => hleast j (by omega) hjk

theorem u32_of_lt {n : Nat} (h : n < 2 ^ 32) : u32 n = n := Nat.mod_eq_of_lt h

theorem u32_lt (n : Nat) : u32 n < 2 ^ 32 := Nat.mod_lt _ (by decide)

/-- Without borrow the machine subtraction is the natural one. -/
theorem sub32_of_le {a b : Nat} (hab : b ≤ a) (ha : a < 2 ^ 32) : sub32 a b = a - b := by
  have hb : b % 2 ^ 32 = b := Nat.mod_eq_of_lt (by omega)
  unfold sub32
  rw [hb]
  omega

end TsOs
