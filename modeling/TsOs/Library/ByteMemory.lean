import Mathlib.Tactic

/-!
# Byte-addressed memory with little-endian words

A memory assigns a byte to every address. A word of `width` bytes is stored
least significant byte first, at any alignment. The lemmas below say which
bytes a store touches, and reduce every load after a store to the two cases
that occur in practice: the same cell, or a disjoint one.
-/

namespace ByteMemory

/-- A memory is a total map from addresses to bytes. -/
abbrev Mem := Nat → UInt8

/-- Store one byte. -/
def store8 (m : Mem) (a : Nat) (v : UInt8) : Mem := fun x => if x = a then v else m x

/-- Load a little-endian word of `width` bytes. -/
def load (m : Mem) (a : Nat) : Nat → Nat
  | 0 => 0
  | width + 1 => (m a).toNat + 256 * load m (a + 1) width

/-- Store the low `width` bytes of `v`, least significant first. -/
def store (m : Mem) (a width v : Nat) : Mem := fun x =>
  if a ≤ x ∧ x < a + width then UInt8.ofNat (v / 256 ^ (x - a)) else m x

/-- The sixteen-bit load. -/
abbrev load16 (m : Mem) (a : Nat) : Nat := load m a 2

/-- The thirty-two-bit load. -/
abbrev load32 (m : Mem) (a : Nat) : Nat := load m a 4

/-- The sixteen-bit store. -/
abbrev store16 (m : Mem) (a v : Nat) : Mem := store m a 2 v

/-- The thirty-two-bit store. -/
abbrev store32 (m : Mem) (a v : Nat) : Mem := store m a 4 v

section Bytes

variable (m : Mem) (a v : Nat)

@[simp] theorem store8_same (b : UInt8) : store8 m a b a = b := by
  simp [store8]

theorem store8_of_ne (b : UInt8) {x : Nat} (h : x ≠ a) : store8 m a b x = m x := by
  simp [store8, h]

theorem store_of_outside {width x : Nat} (h : x < a ∨ a + width ≤ x) :
    store m a width v x = m x := by
  unfold store
  rw [if_neg]
  omega

end Bytes

/-- A load depends only on the bytes of its own cell. -/
theorem load_congr {m m' : Mem} {a width : Nat}
    (h : ∀ x, a ≤ x → x < a + width → m' x = m x) : load m' a width = load m a width := by
  induction width generalizing a with
  | zero => rfl
  | succ width ih =>
      have hhead : m' a = m a := h a (by omega) (by omega)
      have htail : load m' (a + 1) width = load m (a + 1) width := by
        apply ih
        intro x hx hx'
        exact h x (by omega) (by omega)
      simp only [load, hhead, htail]

theorem load_lt (m : Mem) (a width : Nat) : load m a width < 256 ^ width := by
  induction width generalizing a with
  | zero => simp [load]
  | succ width ih =>
      have hb := (m a).toNat_lt
      have hr := ih (a + 1)
      have hp : 256 ^ (width + 1) = 256 * 256 ^ width := by ring
      simp only [load, hp]
      omega

theorem load32_lt (m : Mem) (a : Nat) : load32 m a < 2 ^ 32 := load_lt m a 4

theorem load16_lt (m : Mem) (a : Nat) : load16 m a < 2 ^ 16 := load_lt m a 2

/-- The bytes of a loaded word. -/
theorem load_byte (m : Mem) (a : Nat) {k width : Nat} (h : k < width) :
    UInt8.ofNat (load m a width / 256 ^ k) = m (a + k) := by
  induction width generalizing a k with
  | zero => omega
  | succ width ih =>
      have hb := (m a).toNat_lt
      cases k with
      | zero =>
          have hmod : ((m a).toNat + 256 * load m (a + 1) width) % 256 = (m a).toNat := by omega
          apply UInt8.toNat_inj.mp
          rw [load, pow_zero, Nat.div_one, UInt8.toNat_ofNat', hmod, Nat.add_zero]
      | succ k =>
          have hdiv : ((m a).toNat + 256 * load m (a + 1) width) / 256 = load m (a + 1) width := by omega
          have hpow : 256 ^ (k + 1) = 256 * 256 ^ k := by ring
          rw [load, hpow, ← Nat.div_div_eq_div_mul, hdiv, ih (a + 1) (by omega)]
          congr 1
          omega

/-- The bytes of a stored value load back to its low part. -/
theorem load_of_bytes {m : Mem} {a width v : Nat}
    (h : ∀ i < width, m (a + i) = UInt8.ofNat (v / 256 ^ i)) :
    load m a width = v % 256 ^ width := by
  induction width generalizing a v with
  | zero => simp [load, Nat.mod_one]
  | succ width ih =>
      have hhead : (m a).toNat = v % 256 := by
        have h0 := h 0 (by omega)
        simp only [Nat.add_zero, pow_zero, Nat.div_one] at h0
        rw [h0, UInt8.toNat_ofNat']
      have htail : load m (a + 1) width = v / 256 % 256 ^ width := by
        apply ih
        intro i hi
        have hs := h (i + 1) (by omega)
        rw [Nat.add_assoc, Nat.add_comm 1 i, hs, Nat.div_div_eq_div_mul]
        congr 2
        ring
      have hp : 256 ^ (width + 1) = 256 * 256 ^ width := by ring
      simp only [load, hhead, htail, hp]
      exact (Nat.mod_mul).symm

theorem load_store_same (m : Mem) (a width v : Nat) :
    load (store m a width v) a width = v % 256 ^ width := by
  apply load_of_bytes
  intro i hi
  unfold store
  rw [if_pos (by omega)]
  congr 3
  omega

theorem load_store_disjoint (m : Mem) {a b width width' : Nat} (v : Nat)
    (h : b + width' ≤ a ∨ a + width ≤ b) :
    load (store m a width v) b width' = load m b width' := by
  apply load_congr
  intro x hx hx'
  exact store_of_outside m a v (by omega)

theorem load_store8_disjoint (m : Mem) {a b width : Nat} (v : UInt8)
    (h : a < b ∨ b + width ≤ a) : load (store8 m a v) b width = load m b width := by
  apply load_congr
  intro x hx hx'
  exact store8_of_ne m a v (by omega)

/-- A word that fits its cell is read back unchanged. -/
theorem load32_store32_same (m : Mem) (a : Nat) {v : Nat} (h : v < 2 ^ 32) :
    load32 (store32 m a v) a = v := by
  exact (load_store_same m a 4 v).trans (Nat.mod_eq_of_lt h)

end ByteMemory
