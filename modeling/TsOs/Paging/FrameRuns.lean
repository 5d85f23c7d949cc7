import TsOs.Library.Transition
import TsOs.Paging.Frames

/-!
# Runs of the frame allocator

Frames of the user range are taken and given back in any order. The bitmap is busy
exactly at the frames that are out, so a frame is never handed out twice.
-/

namespace TsOs.Paging

/-- The calls of a run. -/
inductive FrameCall where
  | alloc
  | clear (a : Nat)

/-- The bitmap, with the addresses that have been handed out and not cleared since. -/
structure FrameState where
  bitmap : Bitmap
  handed : Finset Nat

namespace FrameState

/-- The bitmap in the `bss` section, with no frame out. -/
def initial : FrameState := ⟨fun _ => 0#8, ∅⟩

def step (s : FrameState) : FrameCall → Option FrameState
  | .alloc => (allocFrame s.bitmap userPStart maxMemSize).map fun r =>
      ⟨r.2, if r.1 = 0 then s.handed else insert r.1 s.handed⟩
  | .clear a => some ⟨clearFrame s.bitmap a, s.handed.erase a⟩

/-- Only a frame that is out is given back. -/
def Allowed (s : FrameState) : FrameCall → Prop
  | .alloc => True
  | .clear a => a ∈ s.handed

instance (s : FrameState) : ∀ call, Decidable (Allowed s call)
  | .alloc => isTrue trivial
  | .clear a => inferInstanceAs (Decidable (a ∈ s.handed))

/-- The frames that are out are those of the user range that are busy, and nothing else is busy. -/
structure Exact (s : FrameState) : Prop where
  aligned : ∀ a ∈ s.handed, ∃ f, a = f * frameSize
  busy : ∀ f, frameStatus s.bitmap (f * frameSize) = true ↔ f * frameSize ∈ s.handed

variable {s s' : FrameState} {call : FrameCall} {calls : List FrameCall} {a : Nat} {bm : Bitmap}

theorem initial_exact : Exact initial :=
  ⟨fun _ ha => absurd ha (Finset.notMem_empty _), fun f => by simp [initial, frameStatus]⟩

theorem mul_frameSize_inj {f g : Nat} : f * frameSize = g * frameSize ↔ f = g :=
  Nat.mul_left_inj (by decide)

/-- One call keeps the bitmap exact. -/
theorem step_exact (hs : Exact s) (hcall : Allowed s call) (h : step s call = some s') : Exact s' := by
  cases call with
  | alloc =>
      obtain ⟨⟨a, bm⟩, halloc, rfl⟩ := Option.map_eq_some_iff.mp h
      obtain ⟨f, rfl, hlow, -, -, rfl, -⟩ := allocFrame_user halloc
      have hne : f * frameSize ≠ 0 := by
        have hpos : 0 < userFrame := by decide
        exact Nat.mul_ne_zero (by omega) (by decide)
      rw [if_neg hne]
      constructor
      · intro a ha
        rcases Finset.mem_insert.mp ha with rfl | hold
        · exact ⟨f, rfl⟩
        · exact hs.aligned a hold
      · intro g
        rw [frameStatus_frameBset, Bool.or_eq_true, decide_eq_true_iff, hs.busy, Finset.mem_insert,
          mul_frameSize_inj]
  | clear a =>
      obtain rfl := Option.some.inj h
      obtain ⟨f, rfl⟩ := hs.aligned a hcall
      constructor
      · exact fun b hb => hs.aligned b (Finset.mem_of_mem_erase hb)
      · intro g
        change frameStatus (frameBclr s.bitmap (f * frameSize)) (g * frameSize) = true ↔ _
        rw [frameStatus_frameBclr, Bool.and_eq_true, Bool.not_eq_true', decide_eq_false_iff_not,
          hs.busy, Finset.mem_erase, Ne, mul_frameSize_inj]

theorem run_exact (hguard : Transition.Guarded step Allowed initial calls)
    (h : Transition.run step initial calls = some s) : Exact s :=
  Transition.inv_of_run (fun _ _ _ => step_exact) initial_exact hguard h

/-- What a call of `alloc_frame` hands out in a state of a run. -/
structure Fresh (s : FrameState) (a : Nat) : Prop where
  aligned : a % frameSize = 0
  inRange : userPStart ≤ a ∧ a < maxMemSize
  idle : frameStatus s.bitmap a = false
  new : a ∉ s.handed
  lowest : ∀ b, userPStart ≤ b → b < a → b % frameSize = 0 → frameStatus s.bitmap b = true

theorem Exact.fresh (hs : Exact s) (h : allocFrame s.bitmap userPStart maxMemSize = some (a, bm)) :
    Fresh s a := by
  obtain ⟨f, rfl, hlow, hhigh, hidle, -, hbelow⟩ := allocFrame_user h
  have hstart : userPStart = userFrame * frameSize := by decide
  have hend : maxMemSize = maxFrameNum * frameSize := by decide
  refine ⟨Nat.mul_mod_left f frameSize, ⟨?_, ?_⟩, hidle, ?_, ?_⟩
  · rw [hstart]
    exact Nat.mul_le_mul_right _ hlow
  · rw [hend]
    exact Nat.mul_lt_mul_of_pos_right hhigh (by decide)
  · rw [← hs.busy, hidle]
    decide
  · intro b hb hba halign
    obtain ⟨g, rfl⟩ := Nat.dvd_of_mod_eq_zero halign
    rw [Nat.mul_comm] at hb hba ⊢
    rw [hstart] at hb
    exact hbelow g (Nat.le_of_mul_le_mul_right hb (by decide)) (Nat.lt_of_mul_lt_mul_right hba)

/-- In every state of a run the busy frames are those that are out, a frame that is handed out
is the lowest idle one of the range, and one is handed out as long as the range has an idle one. -/
theorem frames_run (hguard : Transition.Guarded step Allowed initial calls)
    (h : Transition.run step initial calls = some s) :
    (∀ addr, frameNb addr / 8 < maxFrameNum →
      (frameStatus s.bitmap addr = true ↔ frameNb addr * frameSize ∈ s.handed)) ∧
    (∀ a bm, allocFrame s.bitmap userPStart maxMemSize = some (a, bm) → a ≠ 0 → Fresh s a) ∧
    ∀ b, userPStart ≤ b → b < maxMemSize → frameStatus s.bitmap b = false →
      ∃ a bm, allocFrame s.bitmap userPStart maxMemSize = some (a, bm) ∧ a ≠ 0 := by
  have hs := run_exact hguard h
  have hframe : ∀ addr, frameStatus s.bitmap addr =
      frameStatus s.bitmap (frameNb addr * frameSize) := fun addr => by
    rw [frameStatus, frameStatus, frameNb_mul_frameSize]
  refine ⟨fun addr _ => ?_, fun a bm halloc _ => hs.fresh halloc, fun b hlow hhigh hidle => ?_⟩
  · rw [hframe, hs.busy]
  · cases halloc : allocFrame s.bitmap userPStart maxMemSize with
    | none =>
        have hbusy := allocFrame_none halloc (Nat.div_le_div_right hlow)
          (Nat.div_lt_div_of_lt_of_dvd (by decide) hhigh)
        rw [← frameNb, ← hframe, hidle] at hbusy
        exact absurd hbusy (by decide)
    | some r =>
        refine ⟨r.1, r.2, rfl, fun hzero => ?_⟩
        have hrange := (hs.fresh halloc).inRange.1
        rw [hzero] at hrange
        exact absurd hrange (by decide)

/-- Two frames are taken and the first is given back, so it is the next one handed out. -/
def reuseCalls : List FrameCall := [.alloc, .alloc, .clear userPStart]

theorem frames_run_sample : ∃ s, Transition.run step initial reuseCalls = some s ∧
    s.handed = {userPStart + frameSize} ∧
    (∃ bm, allocFrame s.bitmap userPStart maxMemSize = some (userPStart, bm)) ∧
    Fresh s userPStart := by
  have heval : (Transition.run step initial reuseCalls).elim false (fun s =>
      decide (s.handed = {userPStart + frameSize} ∧
        (allocFrame s.bitmap userPStart maxMemSize).map Prod.fst = some userPStart)) = true := by
    decide
  have hguard : Transition.Guarded step Allowed initial reuseCalls := by decide
  cases hrun : Transition.run step initial reuseCalls with
  | none => exact absurd heval (by rw [hrun]; decide)
  | some s =>
      rw [hrun] at heval
      obtain ⟨hhanded, hnext⟩ := of_decide_eq_true heval
      obtain ⟨⟨a, bm⟩, halloc, rfl⟩ := Option.map_eq_some_iff.mp hnext
      exact ⟨s, rfl, hhanded, ⟨bm, halloc⟩, (frames_run hguard hrun).2.1 _ bm halloc (by decide)⟩

end FrameState

end TsOs.Paging
