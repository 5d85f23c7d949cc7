import TsOs.Paging.Model

/-!
# Reading and writing frames

The words of different frames do not overlap, so a write through a mapping changes
one frame and nothing else. Creating or deleting a temporary mapping changes one
entry of the table of temporary mappings.
-/

namespace TsOs.Paging

variable {s s' : Machine} {f g i j k p v : Nat}

/-! ## Entries -/

theorem pageEntry_eq {flag : Nat} (hflag : flag < frameSize) :
    pageEntry f flag = f * frameSize + flag := by
  have hshift : f * frameSize = f <<< 12 := by
    rw [Nat.shiftLeft_eq]
    rfl
  rw [pageEntry, hshift, Nat.shiftLeft_add_eq_or_of_lt hflag]

theorem frameOf_pageEntry {flag : Nat} (hflag : flag < frameSize) :
    frameOf (pageEntry f flag) = f := by
  rw [pageEntry_eq hflag, frameOf, Nat.mul_comm, Nat.mul_add_div (by decide),
    Nat.div_eq_of_lt hflag, Nat.add_zero]

/-- The flags in use all have the present bit. -/
theorem entrySet_pageEntry {flag : Nat} (hflag : flag < frameSize) (hodd : flag % 2 = 1) :
    entrySet (pageEntry f flag) = true := by
  rw [pageEntry_eq hflag, entrySet, decide_eq_true_iff]
  unfold frameSize pageP
  omega

theorem pageEntry_lt {flag : Nat} (hf : f < 2 ^ 20) (hflag : flag < frameSize) :
    pageEntry f flag < 2 ^ 32 := by
  rw [pageEntry_eq hflag]
  unfold frameSize at *
  omega

@[simp] theorem entrySet_zero : entrySet 0 = false := rfl

/-! ## Words -/

theorem word_lt (s : Machine) (f j : Nat) : word s f j < 2 ^ 32 := (s.mem f j).isLt

/-- The two states agree on all frames but one, and on the bitmap. -/
structure OnlyFrame (f : Nat) (s s' : Machine) : Prop where
  words : ∀ g, g ≠ f → ∀ j < 1024, word s' g j = word s g j
  bitmap : s'.bitmap = s.bitmap

theorem OnlyFrame.refl (f : Nat) (s : Machine) : OnlyFrame f s s :=
  ⟨fun _ _ _ _ => rfl, rfl⟩

theorem OnlyFrame.trans {s'' : Machine} (h : OnlyFrame f s s') (h' : OnlyFrame f s' s'') :
    OnlyFrame f s s'' where
  words := fun g hg j hj => (h'.words g hg j hj).trans (h.words g hg j hj)
  bitmap := h'.bitmap.trans h.bitmap

theorem onlyFrame_setFrame (s : Machine) (f : Nat) (src : Nat → BitVec 32) :
    OnlyFrame f s (setFrame s f src) :=
  ⟨fun _ hg _ _ => congrArg BitVec.toNat (if_neg hg), rfl⟩

theorem word_setFrame_zero (s : Machine) (f j : Nat) : word (setFrame s f fun _ => 0) f j = 0 :=
  congrArg BitVec.toNat (if_pos rfl)

theorem word_setWord_same (s : Machine) (f j : Nat) (hv : v < 2 ^ 32) :
    word (setWord s f j v) f j = v := by
  have hmem : (setWord s f j v).mem f j = BitVec.ofNat 32 v := if_pos ⟨rfl, rfl⟩
  rw [word, hmem, BitVec.toNat_ofNat, Nat.mod_eq_of_lt hv]

theorem word_setWord_ne (s : Machine) (v : Nat) (h : g ≠ f ∨ i ≠ j) :
    word (setWord s f j v) g i = word s g i := by
  have hne : ¬(g = f ∧ i = j) := by
    rintro ⟨rfl, rfl⟩
    simp at h
  exact congrArg BitVec.toNat (if_neg hne)

theorem onlyFrame_setWord (s : Machine) (f j v : Nat) : OnlyFrame f s (setWord s f j v) :=
  ⟨fun _ hg _ _ => word_setWord_ne s v (Or.inl hg), rfl⟩

/-! ## Temporary mappings -/

theorem tempFrame_lt (h : tempFrame s i = some f) : i < 1024 := by
  rw [tempFrame] at h
  split at h
  next hin => exact hin.1
  next => exact absurd h (by simp)

theorem tempFrame_congr (h : word s' sysTb i = word s sysTb i) :
    tempFrame s' i = tempFrame s i := by
  rw [tempFrame, tempFrame, h]

/-- Writes to other frames leave the mappings alone. -/
theorem OnlyFrame.tempFrame_eq (h : OnlyFrame f s s') (hf : f ≠ sysTb) (i : Nat) :
    tempFrame s' i = tempFrame s i := by
  by_cases hi : i < 1024
  · exact tempFrame_congr (h.words sysTb hf.symm i hi)
  · rw [tempFrame, tempFrame, if_neg (fun hin => hi hin.1), if_neg (fun hin => hi hin.1)]

theorem poke_eq (h : poke s p j v = some s') : ∃ f, tempFrame s p = some f ∧
    s' = setWord s f j v := by
  obtain ⟨f, hf, rfl⟩ := Option.map_eq_some_iff.mp h
  exact ⟨f, hf, rfl⟩

theorem memzero_eq (h : memzero s p = some s') : ∃ f, tempFrame s p = some f ∧
    s' = setFrame s f fun _ => 0 := by
  obtain ⟨f, hf, rfl⟩ := Option.map_eq_some_iff.mp h
  exact ⟨f, hf, rfl⟩

theorem memcpy_eq {src : Nat → BitVec 32} (h : memcpy s src p = some s') :
    ∃ f, tempFrame s p = some f ∧ s' = setFrame s f src := by
  obtain ⟨f, hf, rfl⟩ := Option.map_eq_some_iff.mp h
  exact ⟨f, hf, rfl⟩

theorem peek_eq (hp : tempFrame s p = some f) : peek s p j = some (word s f j) := by
  rw [peek, hp]
  rfl

theorem lookupTempVa_spec (h : lookupTempVa s f = some i) : tempFrame s i = some f := by
  exact of_decide_eq_true (firstIndex_spec h).2.2

/-- The effect of creating a mapping. -/
structure Created (s s' : Machine) (i f : Nat) : Prop where
  only : OnlyFrame sysTb s s'
  absent : tempFrame s i = none
  leads : tempFrame s' i = some f
  others : ∀ k, k ≠ i → tempFrame s' k = tempFrame s k

theorem createTempVa_spec (h : createTempVa s f = some (i, s')) (hf : f < 2 ^ 20) :
    Created s s' i f := by
  rw [createTempVa] at h
  obtain ⟨k, hk, hret⟩ := Option.bind_eq_some_iff.mp h
  obtain ⟨rfl, rfl⟩ : k = i ∧ _ = s' := by simpa using hret
  obtain ⟨-, hlt, hfound⟩ := firstIndex_spec hk
  rw [Nat.zero_add] at hlt
  have hclear : entrySet (word s sysTb k) = false := by simpa using hfound
  have hentry : pageEntry f pageFlgKernel < 2 ^ 32 := pageEntry_lt hf (by decide)
  refine ⟨onlyFrame_setWord s sysTb _ _, ?_, ?_, fun l hl => ?_⟩
  · rw [tempFrame, hclear]
    simp
  · rw [tempFrame, word_setWord_same s sysTb k hentry,
      entrySet_pageEntry (by decide) (by decide), frameOf_pageEntry (by decide), if_pos ⟨hlt, rfl⟩]
  · by_cases hl4 : l < 1024
    · exact tempFrame_congr (word_setWord_ne s _ (Or.inr hl))
    · rw [tempFrame, tempFrame, if_neg (fun hin => hl4 hin.1), if_neg (fun hin => hl4 hin.1)]

theorem Created.slot_kept (h : Created s s' i f) (hg : tempFrame s k = some g) : tempFrame s' k = some g := by
  rw [h.others k, hg]
  rintro rfl
  rw [h.absent] at hg
  exact absurd hg (by simp)

/-- A mapping that is found or created leads to its frame and disturbs no other. -/
theorem getTempVa_spec (h : getTempVa s f = some (i, s')) (hf : f < 2 ^ 20) :
    OnlyFrame sysTb s s' ∧ tempFrame s' i = some f ∧
      ∀ k g, tempFrame s k = some g → tempFrame s' k = some g := by
  cases hk : lookupTempVa s f with
  | some k =>
      rw [getTempVa, hk] at h
      obtain ⟨rfl, rfl⟩ : k = i ∧ s = s' := by simpa using h
      exact ⟨OnlyFrame.refl _ _, lookupTempVa_spec hk, fun _ _ hg => hg⟩
  | none =>
      rw [getTempVa, hk] at h
      have hc := createTempVa_spec h hf
      exact ⟨hc.only, hc.leads, fun k g hg => hc.slot_kept hg⟩

/-- The effect of deleting a mapping. -/
theorem deleteTempVa_spec (s : Machine) (i : Nat) :
    OnlyFrame sysTb s (deleteTempVa s i) ∧
      ∀ k, k ≠ i → tempFrame (deleteTempVa s i) k = tempFrame s k := by
  refine ⟨onlyFrame_setWord s sysTb i 0, fun k hk => ?_⟩
  by_cases hk4 : k < 1024
  · exact tempFrame_congr (word_setWord_ne s 0 (Or.inr hk))
  · rw [tempFrame, tempFrame, if_neg (fun hin => hk4 hin.1), if_neg (fun hin => hk4 hin.1)]

theorem ptPhyFromDir_eq {dir di : Nat} (hdir : tempFrame s dir = some f)
    (h : ptPhyFromDir s dir di = some g) :
    entrySet (word s f di) = true ∧ g = frameOf (word s f di) := by
  rw [ptPhyFromDir, peek_eq hdir] at h
  change (if entrySet (word s f di) then some (frameOf (word s f di)) else none) = some g at h
  split at h
  next hset => exact ⟨hset, (Option.some.inj h).symm⟩
  next => exact absurd h (by simp)

theorem frameOf_word_lt (s : Machine) (f j : Nat) : frameOf (word s f j) < 2 ^ 20 := by
  have hlt := word_lt s f j
  unfold frameOf frameSize
  omega

end TsOs.Paging
