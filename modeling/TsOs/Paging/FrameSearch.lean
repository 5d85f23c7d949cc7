import TsOs.Paging.Frames

/-!
# Searches from any address

`get_idle_frame_addr` rounds its start up to a page and reads the bitmap in whole bytes.
It adds the position of a clear bit to the address of the start, which is the address of
the byte only when the start is a multiple of eight frames. From any other start the byte
is also read below the start, and the frame that it finds is moved up.
-/

namespace TsOs.Paging

variable {bm : Bitmap} {minAddr maxAddr : Nat}

/-- The addresses that a search is for. -/
def IdleAddresses (bm : Bitmap) (minAddr maxAddr : Nat) : Set Nat :=
  {a | frameSize ∣ a ∧ minAddr ≤ a ∧ a + frameSize ≤ maxAddr ∧ frameStatus bm a = false}

/-- The search returns the lowest idle frame when there is one, and never a busy one. The result
`0` stands for no frame. -/
structure FindsLowest (bm : Bitmap) (minAddr maxAddr : Nat) : Prop where
  lowest : ∀ a, IsLeast (IdleAddresses bm minAddr maxAddr) a →
    getIdleFrameAddr bm minAddr maxAddr = some a
  idle : ∀ a, getIdleFrameAddr bm minAddr maxAddr = some a → a ≠ 0 → frameStatus bm a = false

/-- The first frame that starts at `minAddr` or behind it. -/
def firstFrame (minAddr : Nat) : Nat := (minAddr + (frameSize - 1)) / frameSize

/-- The frames from `i` on and before `j` are busy. -/
def FramesBusy (bm : Bitmap) (i j : Nat) : Prop :=
  ∀ g, i ≤ g → g < j → frameStatus bm (g * frameSize) = true

/-- `f` is the first idle frame from `i` on, and it lies before `j`. -/
structure FirstIdle (bm : Bitmap) (i j f : Nat) : Prop where
  le : i ≤ f
  lt : f < j
  idle : frameStatus bm (f * frameSize) = false
  busy : FramesBusy bm i f

/-- The bitmaps and ranges for which reading whole bytes makes no difference: the start is the
first frame of a byte; or there is no idle frame, neither in the range nor in the range moved
down to the byte; or the byte has an idle frame below the start, and the first one is as far
behind the first frame of the byte as the first idle frame of the range is behind the start. -/
inductive StartFits (bm : Bitmap) (minAddr maxAddr : Nat) : Prop
  | onByte (h : firstFrame minAddr % 8 = 0)
  | full (hrange : FramesBusy bm (firstFrame minAddr) (maxAddr / frameSize))
      (hbyte : FramesBusy bm (firstFrame minAddr - firstFrame minAddr % 8)
        (maxAddr / frameSize - firstFrame minAddr % 8))
  | below {f : Nat}
      (hbyte : FirstIdle bm (firstFrame minAddr - firstFrame minAddr % 8) (firstFrame minAddr) f)
      (hrange : FirstIdle bm (firstFrame minAddr) (maxAddr / frameSize)
        (f + firstFrame minAddr % 8))

/-! ## The loop -/

/-- An idle frame does not lie among busy ones. -/
theorem FramesBusy.outside {i j f : Nat} (h : FramesBusy bm i j)
    (hidle : frameStatus bm (f * frameSize) = false) (hle : i ≤ f) : j ≤ f := by
  by_contra hlt
  exact absurd (h f hle (by omega)) (by simp [hidle])

theorem FirstIdle.unique {i j j' f f' : Nat} (h : FirstIdle bm i j f) (h' : FirstIdle bm i j' f') :
    f = f' :=
  Nat.le_antisymm (h.busy.outside h'.idle h'.le) (h'.busy.outside h.idle h.le)

theorem FirstIdle.advance {i i' j f : Nat} (h : FirstIdle bm i j f) (hi : i ≤ i') (hle : i' ≤ f) :
    FirstIdle bm i' j f :=
  ⟨hle, h.lt, h.idle, fun g hg => h.busy g (hi.trans hg)⟩

/-- A frame that can be moved up by `r` places lies in the range after that. -/
theorem FirstIdle.inside {s r f : Nat} (h : FirstIdle bm s (maxAddr / frameSize - r) f) :
    (s + r) * frameSize < maxAddr := by
  have hle := h.le
  have hlt := h.lt
  calc (s + r) * frameSize < maxAddr / frameSize * frameSize :=
        Nat.mul_lt_mul_of_pos_right (by omega) (by decide)
    _ ≤ maxAddr := Nat.div_mul_le_self ..

/-- A range is busy or has a first idle frame. -/
theorem framesBusy_or_firstIdle (bm : Bitmap) (i j : Nat) :
    FramesBusy bm i j ∨ ∃ f, FirstIdle bm i j f := by
  by_cases h : ∃ f, i ≤ f ∧ f < j ∧ frameStatus bm (f * frameSize) = false
  · obtain ⟨hle, hlt, hidle⟩ := Nat.find_spec h
    refine Or.inr ⟨Nat.find h, hle, hlt, hidle, fun g hg hgf => ?_⟩
    have hmin := Nat.find_min h hgf
    simpa [hg, hgf.trans hlt] using hmin
  · refine Or.inl fun g hg hgj => ?_
    simpa using fun hidle => h ⟨g, hg, hgj, hidle⟩

/-- What a byte of the bitmap tells about its eight frames. -/
theorem byte_cases {s : Nat} (hs : s % 8 = 0) :
    bm (s / 8) = 0xFF#8 ∧ FramesBusy bm s (s + 8) ∨
      bm (s / 8) ≠ 0xFF#8 ∧ ∃ bit, firstClrBit (bm (s / 8)) = some bit ∧
        FirstIdle bm s (s + 8) (s + bit) := by
  by_cases hfull : bm (s / 8) = 0xFF#8
  · exact Or.inl ⟨hfull, fun g hg hlt => frameStatus_full hs hfull hg hlt⟩
  · cases hbit : firstClrBit (bm (s / 8)) with
    | none => exact absurd (firstClrBit_none hbit) hfull
    | some bit =>
        obtain ⟨hlt, hclear, hbelow⟩ := firstClrBit_spec hbit
        refine Or.inr ⟨hfull, bit, rfl, Nat.le_add_right s bit, by omega,
          (frameStatus_byte hs hlt).trans hclear, fun g hg hgs => ?_⟩
        obtain ⟨j, rfl⟩ := Nat.exists_eq_add_of_le hg
        rw [frameStatus_byte hs (by omega)]
        exact hbelow j (by omega)

/-- One round of the loop at the frame `r` places behind the start of a byte. -/
theorem idleFrameLoop_round {n s r : Nat} (hs : s % 8 = 0) (hr : r < 8)
    (hlt : (s + r) * frameSize < maxAddr) :
    FramesBusy bm s (s + 8) ∧
        idleFrameLoop bm maxAddr (n + 1) (s + r) ((s + r) * frameSize) =
          idleFrameLoop bm maxAddr n (s + 8 + r) ((s + 8 + r) * frameSize) ∨
      ∃ f, FirstIdle bm s (s + 8) f ∧
        idleFrameLoop bm maxAddr (n + 1) (s + r) ((s + r) * frameSize) =
          if f + r < maxAddr / frameSize then some ((f + r) * frameSize) else some 0 := by
  have hbyte : (s + r) / 8 = s / 8 := by omega
  rcases @byte_cases bm _ hs with ⟨hfull, hbusy⟩ | ⟨hidle, bit, hbit, hfirst⟩
  · refine Or.inl ⟨hbusy, ?_⟩
    rw [idleFrameLoop, if_pos hlt, hbyte, if_neg (not_not.mpr hfull), ← Nat.add_mul,
      Nat.add_right_comm]
  · refine Or.inr ⟨s + bit, hfirst, ?_⟩
    have hroom : maxAddr < (s + r) * frameSize + bit * frameSize + frameSize ↔
        ¬s + bit + r < maxAddr / frameSize := by
      rw [Nat.lt_div_iff_mul_lt (by decide)]
      unfold frameSize
      omega
    rw [idleFrameLoop, if_pos hlt, hbyte, if_pos hidle, hbit]
    simp only [Option.bind_eq_bind, Option.bind_some, hroom, ite_not]
    rw [← Nat.add_mul, Nat.add_right_comm]

/-- The loop finds the first idle frame from the start of the byte on, and moves it up. -/
theorem idleFrameLoop_found {n s r f : Nat} (hs : s % 8 = 0) (hr : r < 8)
    (hfuel : maxAddr ≤ (s + r + 8 * n) * frameSize)
    (h : FirstIdle bm s (maxAddr / frameSize - r) f) :
    idleFrameLoop bm maxAddr n (s + r) ((s + r) * frameSize) = some ((f + r) * frameSize) := by
  induction n generalizing s with
  | zero => exact absurd (h.inside.trans_le hfuel) (lt_irrefl _)
  | succ n ih =>
      rcases idleFrameLoop_round hs hr h.inside with ⟨hbusy, hnext⟩ | ⟨f', hfirst, hdone⟩
      · have hle : s + 8 ≤ f := hbusy.outside h.idle h.le
        have hfuel' : maxAddr ≤ (s + 8 + r + 8 * n) * frameSize :=
          hfuel.trans_eq (by ring)
        rw [hnext]
        exact ih (by omega) hfuel' (h.advance (Nat.le_add_right s 8) hle)
      · have hroom : f + r < maxAddr / frameSize := by
          have := h.lt
          omega
        rw [hdone, hfirst.unique h, if_pos hroom]

/-- With no frame to move up into the range the loop fails. -/
theorem idleFrameLoop_missed {n s r a : Nat} (hs : s % 8 = 0) (hr : r < 8)
    (hbusy : FramesBusy bm s (maxAddr / frameSize - r))
    (h : idleFrameLoop bm maxAddr n (s + r) ((s + r) * frameSize) = some a) : a = 0 := by
  induction n generalizing s with
  | zero => exact absurd h (by simp [idleFrameLoop])
  | succ n ih =>
      by_cases hlt : (s + r) * frameSize < maxAddr
      · rcases idleFrameLoop_round (n := n) hs hr hlt with ⟨-, hnext⟩ | ⟨f, hfirst, hdone⟩
        · exact ih (by omega) (fun g hg => hbusy g (by omega)) (hnext ▸ h)
        · have hout : ¬f + r < maxAddr / frameSize := by
            have := hbusy.outside hfirst.idle hfirst.le
            omega
          rw [hdone, if_neg hout] at h
          exact (Option.some.inj h).symm
      · rw [idleFrameLoop, if_neg hlt] at h
        exact absurd h (by simp)

/-! ## The search -/

theorem getIdleFrameAddr_eq (bm : Bitmap) (minAddr maxAddr : Nat) :
    getIdleFrameAddr bm minAddr maxAddr =
      idleFrameLoop bm maxAddr maxFrameNum (firstFrame minAddr) (firstFrame minAddr * frameSize) := by
  have hround : frameNb (if minAddr % frameSize = 0 then minAddr
      else minAddr - minAddr % frameSize + frameSize) = firstFrame minAddr := by
    unfold frameNb firstFrame frameSize
    split <;> omega
  rw [getIdleFrameAddr]
  simp only [hround]

theorem getIdleFrameAddr_found {f : Nat} (hmax : maxAddr ≤ maxMemSize)
    (h : FirstIdle bm (firstFrame minAddr - firstFrame minAddr % 8)
      (maxAddr / frameSize - firstFrame minAddr % 8) f) :
    getIdleFrameAddr bm minAddr maxAddr = some ((f + firstFrame minAddr % 8) * frameSize) := by
  have hsplit := Nat.sub_add_cancel (Nat.mod_le (firstFrame minAddr) 8)
  rw [getIdleFrameAddr_eq]
  have hloop := idleFrameLoop_found (n := maxFrameNum) (by omega) (Nat.mod_lt _ (by decide)) ?_ h
  · rwa [hsplit] at hloop
  · have hall : maxMemSize ≤ 8 * maxFrameNum * frameSize := by decide
    exact hmax.trans (hall.trans (Nat.mul_le_mul_right _ (by omega)))

theorem getIdleFrameAddr_missed {a : Nat}
    (hbusy : FramesBusy bm (firstFrame minAddr - firstFrame minAddr % 8)
      (maxAddr / frameSize - firstFrame minAddr % 8))
    (h : getIdleFrameAddr bm minAddr maxAddr = some a) : a = 0 := by
  have hsplit := Nat.sub_add_cancel (Nat.mod_le (firstFrame minAddr) 8)
  rw [getIdleFrameAddr_eq, ← hsplit] at h
  exact idleFrameLoop_missed (by omega) (Nat.mod_lt _ (by decide)) hbusy h

theorem mem_idleAddresses {f : Nat} : f * frameSize ∈ IdleAddresses bm minAddr maxAddr ↔
    firstFrame minAddr ≤ f ∧ f < maxAddr / frameSize ∧ frameStatus bm (f * frameSize) = false := by
  have hlow : minAddr ≤ f * frameSize ↔ firstFrame minAddr ≤ f := by
    unfold firstFrame frameSize
    omega
  have hhigh : f * frameSize + frameSize ≤ maxAddr ↔ f < maxAddr / frameSize := by
    unfold frameSize
    omega
  rw [IdleAddresses, Set.mem_ofPred_eq, hlow, hhigh]
  exact and_iff_right (Nat.dvd_mul_left ..)

/-- The lowest address of a search is that of the first idle frame. -/
theorem isLeast_idleAddresses {a : Nat} : IsLeast (IdleAddresses bm minAddr maxAddr) a ↔
    ∃ f, a = f * frameSize ∧ FirstIdle bm (firstFrame minAddr) (maxAddr / frameSize) f := by
  constructor
  · rintro ⟨hmem, hleast⟩
    obtain ⟨f, rfl⟩ := exists_eq_mul_left_of_dvd hmem.1
    obtain ⟨hle, hlt, hidle⟩ := mem_idleAddresses.mp hmem
    refine ⟨f, rfl, hle, hlt, hidle, fun g hg hgf => ?_⟩
    by_contra hbusy
    have hg := hleast (mem_idleAddresses.mpr ⟨hg, hgf.trans hlt, by simpa using hbusy⟩)
    exact absurd (Nat.le_of_mul_le_mul_right hg (by decide)) (by omega)
  · rintro ⟨f, rfl, h⟩
    refine ⟨mem_idleAddresses.mpr ⟨h.le, h.lt, h.idle⟩, fun a ha => ?_⟩
    obtain ⟨g, rfl⟩ := exists_eq_mul_left_of_dvd ha.1
    obtain ⟨hle, -, hidle⟩ := mem_idleAddresses.mp ha
    exact Nat.mul_le_mul_right _ (h.busy.outside hidle hle)

/-! ## When the search is right -/

theorem firstFrame_pos (hmin : 0 < minAddr) : 0 < firstFrame minAddr :=
  Nat.div_pos (by unfold frameSize; omega) (by decide)

/-- A search that finds a frame for the byte finds the lowest one of the range just when the
places of the two agree. -/
theorem findsLowest_of_found {f : Nat}
    (hfound : getIdleFrameAddr bm minAddr maxAddr = some (f * frameSize))
    (h : FirstIdle bm (firstFrame minAddr) (maxAddr / frameSize) f) :
    FindsLowest bm minAddr maxAddr := by
  refine ⟨fun a ha => ?_, fun a ha _ => ?_⟩
  · obtain ⟨g, rfl, hg⟩ := isLeast_idleAddresses.mp ha
    rw [hfound, hg.unique h]
  · obtain rfl := Option.some.inj (hfound.symm.trans ha)
    exact h.idle

theorem findsLowest_of_busy
    (hrange : FramesBusy bm (firstFrame minAddr) (maxAddr / frameSize))
    (hbyte : FramesBusy bm (firstFrame minAddr - firstFrame minAddr % 8)
      (maxAddr / frameSize - firstFrame minAddr % 8)) : FindsLowest bm minAddr maxAddr := by
  refine ⟨fun a ha => ?_, fun a ha hne => absurd (getIdleFrameAddr_missed hbyte ha) hne⟩
  obtain ⟨g, -, hg⟩ := isLeast_idleAddresses.mp ha
  exact absurd hg.lt (Nat.not_lt.mpr (hrange.outside hg.idle hg.le))

theorem StartFits.findsLowest (hmax : maxAddr ≤ maxMemSize)
    (h : StartFits bm minAddr maxAddr) : FindsLowest bm minAddr maxAddr := by
  cases h with
  | onByte hr =>
      rcases framesBusy_or_firstIdle bm (firstFrame minAddr) (maxAddr / frameSize) with
        hbusy | ⟨f, hf⟩
      · exact findsLowest_of_busy hbusy (by rwa [hr])
      · have hfound := getIdleFrameAddr_found (f := f) hmax (by rwa [hr])
        rw [hr] at hfound
        exact findsLowest_of_found hfound hf
  | full hrange hbyte => exact findsLowest_of_busy hrange hbyte
  | below hbyte hrange =>
      have hlt := hrange.lt
      exact findsLowest_of_found
        (getIdleFrameAddr_found hmax ⟨hbyte.le, by omega, hbyte.idle, hbyte.busy⟩) hrange

theorem FindsLowest.startFits (hmin : 0 < minAddr) (hmax : maxAddr ≤ maxMemSize)
    (h : FindsLowest bm minAddr maxAddr) : StartFits bm minAddr maxAddr := by
  by_cases hr : firstFrame minAddr % 8 = 0
  · exact .onByte hr
  have hpos := firstFrame_pos hmin
  have hfirst := framesBusy_or_firstIdle bm (firstFrame minAddr) (maxAddr / frameSize)
  rcases framesBusy_or_firstIdle bm (firstFrame minAddr - firstFrame minAddr % 8)
    (maxAddr / frameSize - firstFrame minAddr % 8) with hbyte | ⟨f, hf⟩
  · rcases hfirst with hrange | ⟨g, hg⟩
    · exact .full hrange hbyte
    · -- the lowest frame is not returned
      have hret := h.lowest _ (isLeast_idleAddresses.mpr ⟨g, rfl, hg⟩)
      have hle := hg.le
      exact absurd (getIdleFrameAddr_missed hbyte hret)
        (Nat.mul_ne_zero (by omega) (by decide))
  · have hle := hf.le
    have hlt := hf.lt
    have hfound := getIdleFrameAddr_found hmax hf
    have hidle := h.idle _ hfound (Nat.mul_ne_zero (by omega) (by decide))
    rcases hfirst with hrange | ⟨g, hg⟩
    · have := hrange.outside hidle (by omega)
      omega
    · have hret := h.lowest _ (isLeast_idleAddresses.mpr ⟨g, rfl, hg⟩)
      obtain rfl : g = f + firstFrame minAddr % 8 :=
        Nat.eq_of_mul_eq_mul_right (by decide) (Option.some.inj (hret.symm.trans hfound))
      -- a frame behind the start would have been the lowest one itself
      have hbelow : f < firstFrame minAddr := by
        by_contra hge
        have := hg.busy.outside hf.idle (by omega)
        omega
      exact .below ⟨hf.le, hbelow, hf.idle, hf.busy⟩ hg

/-- The search returns the lowest idle frame, and no busy one, exactly when the bitmap and the
range are such that the whole bytes make no difference. -/
theorem getIdleFrameAddr_lowest_iff (hmin : 0 < minAddr) (hmax : maxAddr ≤ maxMemSize) :
    FindsLowest bm minAddr maxAddr ↔ StartFits bm minAddr maxAddr :=
  ⟨FindsLowest.startFits hmin hmax, StartFits.findsLowest hmax⟩

/-- The search starts at the second frame of user memory. The first one is idle too, so that the position
of the clear bit is 0. -/
theorem getIdleFrameAddr_lowest_iff_sample :
    FindsLowest (frameBset (fun _ => 0) (16 * oneMB + 2 * 4096)) (16 * oneMB + 4096) (17 * oneMB) := by
  refine (getIdleFrameAddr_lowest_iff (by decide) (by decide)).mpr (.below (f := 4096) ?_ ?_)
  · refine ⟨by decide, by decide, by decide, fun g hg hlt => ?_⟩
    have hstart : firstFrame (16 * oneMB + 4096) - firstFrame (16 * oneMB + 4096) % 8 = 4096 := by decide
    omega
  · have hstart : firstFrame (16 * oneMB + 4096) = 4097 := by decide
    rw [hstart]
    refine ⟨by decide, by decide, by decide, fun g hg hlt => ?_⟩
    omega

/-- The first frame of user memory is busy and the search starts at the second one. The clear
bit has position 1, so the third one is returned. -/
theorem getIdleFrameAddr_unaligned :
    ¬FindsLowest (frameBset (fun _ => 0) (16 * oneMB)) (16 * oneMB + 4096) (17 * oneMB) := by
  intro h
  have hfirst : FirstIdle (frameBset (fun _ => 0) (16 * oneMB)) (firstFrame (16 * oneMB + 4096))
      (17 * oneMB / frameSize) 4097 := by
    refine ⟨by decide, by decide, by decide, fun g hg hlt => ?_⟩
    have hstart : firstFrame (16 * oneMB + 4096) = 4097 := by decide
    omega
  have hret := h.lowest _ (isLeast_idleAddresses.mpr ⟨4097, rfl, hfirst⟩)
  exact absurd hret (by decide)

end TsOs.Paging
