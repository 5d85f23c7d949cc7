import TsOs.Machine

/-!
# The frame bitmap

One bit for each physical frame of 4096 bytes, eight frames a byte, set while the
frame is busy. `alloc_frame` looks for a byte with a clear bit and takes the first
clear bit of it.
-/

namespace TsOs.Paging

def frameSize : Nat := 4096

def maxMemSize : Nat := 128 * oneMB

def userPStart : Nat := 16 * oneMB

def maxFrameNum : Nat := maxMemSize / frameSize

/-- The bytes of `bitmap`. -/
abbrev Bitmap := Nat → BitVec 8

/-- `FRAME_NB`. -/
def frameNb (addr : Nat) : Nat := addr / frameSize

/-- `FRAME_BSET`. -/
def frameBset (bm : Bitmap) (addr : Nat) : Bitmap := fun i =>
  if i = frameNb addr / 8 then bm i ||| (1#8 <<< (frameNb addr % 8)) else bm i

/-- `FRAME_BCLR`. -/
def frameBclr (bm : Bitmap) (addr : Nat) : Bitmap := fun i =>
  if i = frameNb addr / 8 then bm i &&& ~~~(1#8 <<< (frameNb addr % 8)) else bm i

/-- `frame_status`: whether the frame is busy. -/
def frameStatus (bm : Bitmap) (addr : Nat) : Bool :=
  (bm (frameNb addr / 8)).getLsbD (frameNb addr % 8)

/-- `first_clr_bit`, with `none` for the result `-1`. -/
def firstClrBit (b : BitVec 8) : Option Nat :=
  firstIndex (fun i => (1#8 <<< i) &&& b = 0#8) 8 0

/-- The loop of `get_idle_frame_addr`. The result `none` stands for the failed `ASSERT`
at its end, which does not return. -/
def idleFrameLoop (bm : Bitmap) (maxAddr : Nat) : Nat → Nat → Nat → Option Nat
  | 0, _, _ => none
  | n + 1, frameIdx, frameAddr =>
      if frameAddr < maxAddr then
        if bm (frameIdx / 8) ≠ 0xFF#8 then do
          let bitOffset ← firstClrBit (bm (frameIdx / 8))
          let frameAddr := frameAddr + bitOffset * frameSize
          if maxAddr < frameAddr + frameSize then some 0 else some frameAddr
        else idleFrameLoop bm maxAddr n (frameIdx + 8) (frameAddr + 8 * frameSize)
      else none

def getIdleFrameAddr (bm : Bitmap) (minAddr maxAddr : Nat) : Option Nat :=
  let minAddr := if minAddr % frameSize = 0 then minAddr
    else minAddr - minAddr % frameSize + frameSize
  let frameIdx := frameNb minAddr
  idleFrameLoop bm maxAddr maxFrameNum frameIdx (frameIdx * frameSize)

/-- `alloc_frame`: the address taken, `0` for none, and the new bitmap. -/
def allocFrame (bm : Bitmap) (minAddr maxAddr : Nat) : Option (Nat × Bitmap) := do
  let base ← getIdleFrameAddr bm minAddr maxAddr
  if base = 0 then
    return (0, bm)
  return (base, frameBset bm base)

def clearFrame (bm : Bitmap) (addr : Nat) : Bitmap := frameBclr bm addr

variable {bm bm' : Bitmap}

/-- The pattern of the loop of `first_clr_bit` picks out one bit. -/
theorem pattern_and_eq_zero {b : BitVec 8} {i : Nat} (hi : i < 8) :
    (1#8 <<< i) &&& b = 0#8 ↔ b.getLsbD i = false := by
  constructor
  · intro hclear
    have hbit := congrArg (fun v => BitVec.getLsbD v i) hclear
    simpa [hi] using hbit
  · intro hbit
    rw [BitVec.eq_of_getLsbD_eq_iff]
    intro j hj
    rw [BitVec.getLsbD_and, BitVec.getLsbD_shiftLeft, BitVec.getLsbD_one, BitVec.getLsbD_zero]
    by_cases hij : j = i
    · simp [hij, hbit]
    · have hne : ¬j < i → j - i ≠ 0 := by omega
      by_cases hlt : j < i
      · simp [hlt]
      · simp [hne hlt]

theorem firstClrBit_spec {b : BitVec 8} {i : Nat} (h : firstClrBit b = some i) :
    i < 8 ∧ b.getLsbD i = false ∧ ∀ j < i, b.getLsbD j = true := by
  obtain ⟨-, hlt, hfound⟩ := firstIndex_spec h
  refine ⟨hlt, (pattern_and_eq_zero hlt).mp (of_decide_eq_true hfound), fun j hj => ?_⟩
  have hset := of_decide_eq_false (firstIndex_least h (Nat.zero_le j) hj)
  rw [pattern_and_eq_zero (by omega)] at hset
  simpa using hset

/-- A byte without a clear bit is full. -/
theorem firstClrBit_none {b : BitVec 8} (h : firstClrBit b = none) : b = 0xFF#8 := by
  rw [BitVec.eq_of_getLsbD_eq_iff]
  intro j hj
  have hset := of_decide_eq_false (firstIndex_none h (Nat.zero_le j) (by omega))
  rw [pattern_and_eq_zero hj] at hset
  rw [show b.getLsbD j = true by simpa using hset]
  symm
  interval_cases j <;> rfl

theorem frameNb_mul_frameSize (n : Nat) : frameNb (n * frameSize) = n :=
  Nat.mul_div_cancel n (by decide)

theorem getLsbD_one_shiftLeft {i j : Nat} (hj : j < 8) :
    (1#8 <<< i).getLsbD j = decide (j = i) := by
  rw [BitVec.getLsbD_shiftLeft, BitVec.getLsbD_one]
  by_cases hlt : j < i
  · have hne : j ≠ i := by omega
    simp [hlt, hne]
  · have hiff : j - i = 0 ↔ j = i := by omega
    simp [hlt, hj, hiff]

/-- Setting a bit changes the status of its frame and no other. -/
theorem frameStatus_frameBset (bm : Bitmap) (f g : Nat) :
    frameStatus (frameBset bm (f * frameSize)) (g * frameSize) =
      (decide (g = f) || frameStatus bm (g * frameSize)) := by
  simp only [frameStatus, frameBset, frameNb_mul_frameSize]
  split
  next hbyte =>
    have hsame : g % 8 = f % 8 ↔ g = f := by omega
    rw [BitVec.getLsbD_or, getLsbD_one_shiftLeft (Nat.mod_lt _ (by decide)), Bool.or_comm]
    simp only [hsame]
  next hbyte =>
    have hfg : g ≠ f := fun heq => hbyte (by rw [heq])
    simp [hfg]

/-- So does clearing it. -/
theorem frameStatus_frameBclr (bm : Bitmap) (f g : Nat) :
    frameStatus (frameBclr bm (f * frameSize)) (g * frameSize) =
      (!decide (g = f) && frameStatus bm (g * frameSize)) := by
  have hlt : g % 8 < 8 := Nat.mod_lt _ (by decide)
  simp only [frameStatus, frameBclr, frameNb_mul_frameSize]
  split
  next hbyte =>
    have hsame : g % 8 = f % 8 ↔ g = f := by omega
    rw [BitVec.getLsbD_and, BitVec.getLsbD_not, getLsbD_one_shiftLeft hlt, Bool.and_comm]
    simp only [hsame, hlt, decide_true, Bool.true_and]
  next hbyte =>
    have hfg : g ≠ f := fun heq => hbyte (by rw [heq])
    simp [hfg]

/-- The frames of the byte that starts with frame `k`. -/
theorem frameStatus_byte {k bit : Nat} (hk : k % 8 = 0) (hbit : bit < 8) :
    frameStatus bm ((k + bit) * frameSize) = (bm (k / 8)).getLsbD bit := by
  have hbyte : (k + bit) / 8 = k / 8 := by omega
  have hidx : (k + bit) % 8 = bit := by omega
  rw [frameStatus, frameNb_mul_frameSize, hbyte, hidx]

/-- A full byte has eight busy frames. -/
theorem frameStatus_full {k g : Nat} (hk : k % 8 = 0) (hfull : bm (k / 8) = 0xFF#8) (hkg : k ≤ g)
    (hg : g < k + 8) : frameStatus bm (g * frameSize) = true := by
  obtain ⟨bit, rfl⟩ := Nat.exists_eq_add_of_le hkg
  have hbit : bit < 8 := by omega
  rw [frameStatus_byte hk hbit, hfull]
  interval_cases bit <;> rfl

/-- In a range that ends at a whole byte of the bitmap the search finds the lowest idle frame. -/
theorem idleFrameLoop_spec {n m k a : Nat} (hk : k % 8 = 0)
    (h : idleFrameLoop bm (m * 8 * frameSize) n k (k * frameSize) = some a) :
    ∃ f, a = f * frameSize ∧ k ≤ f ∧ f < m * 8 ∧ frameStatus bm (f * frameSize) = false ∧
      ∀ g, k ≤ g → g < f → frameStatus bm (g * frameSize) = true := by
  induction n generalizing k with
  | zero => exact absurd h (by simp [idleFrameLoop])
  | succ n ih =>
      rw [idleFrameLoop] at h
      split at h
      next hlt =>
        have hkm : k < m * 8 := Nat.lt_of_mul_lt_mul_right hlt
        split at h
        next hidle =>
          obtain ⟨bit, hbit, h⟩ := Option.bind_eq_some_iff.mp h
          obtain ⟨hbit8, hclear, hbelow⟩ := firstClrBit_spec hbit
          have hroom : ¬m * 8 * frameSize < k * frameSize + bit * frameSize + frameSize := by
            unfold frameSize
            omega
          rw [if_neg hroom] at h
          obtain rfl := Option.some.inj h
          refine ⟨k + bit, (Nat.add_mul k bit frameSize).symm, Nat.le_add_right k bit, by omega,
            (frameStatus_byte hk hbit8).trans hclear, fun g hkg hg => ?_⟩
          obtain ⟨j, rfl⟩ := Nat.exists_eq_add_of_le hkg
          rw [frameStatus_byte hk (by omega)]
          exact hbelow j (by omega)
        next hfull =>
          rw [← Nat.add_mul] at h
          obtain ⟨f, ha, hle, hmax, hidle, hbusy⟩ := ih (by omega) h
          refine ⟨f, ha, by omega, hmax, hidle, fun g hkg hg => ?_⟩
          rcases Nat.lt_or_ge g (k + 8) with hin | hout
          · exact frameStatus_full hk (not_not.mp hfull) hkg hin
          · exact hbusy g hout hg
      next => exact absurd h (by simp)

/-- The search fails only if every frame of the range is busy. -/
theorem idleFrameLoop_none {n m k g : Nat} (hk : k % 8 = 0) (hfuel : m ≤ k / 8 + n)
    (h : idleFrameLoop bm (m * 8 * frameSize) n k (k * frameSize) = none) (hkg : k ≤ g)
    (hg : g < m * 8) : frameStatus bm (g * frameSize) = true := by
  induction n generalizing k with
  | zero => omega
  | succ n ih =>
      have hlt : k * frameSize < m * 8 * frameSize :=
        Nat.mul_lt_mul_of_pos_right (by omega) (by decide)
      rw [idleFrameLoop, if_pos hlt] at h
      split at h
      next hidle =>
        cases hbit : firstClrBit (bm (k / 8)) with
        | none => exact absurd (firstClrBit_none hbit) hidle
        | some bit =>
            rw [hbit] at h
            simp only [Option.bind_eq_bind, Option.bind_some] at h
            split at h <;> exact absurd h (by simp)
      next hfull =>
        rw [← Nat.add_mul] at h
        rcases Nat.lt_or_ge g (k + 8) with hin | hout
        · exact frameStatus_full hk (not_not.mp hfull) hkg hin
        · exact ih (by omega) (by omega) h hout

/-- The number of the first frame for user memory. -/
def userFrame : Nat := userPStart / frameSize

/-- `alloc_frame` in the user range takes the lowest idle frame of it. -/
theorem allocFrame_user {a : Nat} (h : allocFrame bm userPStart maxMemSize = some (a, bm')) :
    ∃ f, a = f * frameSize ∧ userFrame ≤ f ∧ f < maxFrameNum ∧
      frameStatus bm (f * frameSize) = false ∧ bm' = frameBset bm (f * frameSize) ∧
      ∀ g, userFrame ≤ g → g < f → frameStatus bm (g * frameSize) = true := by
  obtain ⟨base, hbase, hret⟩ := Option.bind_eq_some_iff.mp h
  have hsize : maxMemSize = 4096 * 8 * frameSize := by decide
  rw [hsize] at hbase
  obtain ⟨f, rfl, hle, hmax, hidle, hbusy⟩ := idleFrameLoop_spec (by decide) hbase
  have hf : userFrame ≤ f := hle
  have hne : f * frameSize ≠ 0 := by
    have hpos : 0 < userFrame := by decide
    exact Nat.mul_ne_zero (by omega) (by decide)
  rw [if_neg hne] at hret
  obtain ⟨rfl, rfl⟩ := Prod.mk.injEq .. ▸ Option.some.inj hret
  have hcount : maxFrameNum = 4096 * 8 := by decide
  exact ⟨f, rfl, hf, by omega, hidle, rfl, hbusy⟩

/-- The `ASSERT` fails only if every frame of the user range is busy. -/
theorem allocFrame_none {g : Nat} (h : allocFrame bm userPStart maxMemSize = none)
    (hlow : userFrame ≤ g) (hhigh : g < maxFrameNum) : frameStatus bm (g * frameSize) = true := by
  have hsize : maxMemSize = 4096 * 8 * frameSize := by decide
  have hcount : maxFrameNum = 4096 * 8 := by decide
  cases hbase : getIdleFrameAddr bm userPStart maxMemSize with
  | none =>
      rw [hsize] at hbase
      exact idleFrameLoop_none (by decide) (by decide) hbase hlow (hcount ▸ hhigh)
  | some base =>
      rw [allocFrame, hbase] at h
      simp only [Option.bind_eq_bind, Option.bind_some] at h
      split at h <;> exact absurd h (by simp)

end TsOs.Paging
