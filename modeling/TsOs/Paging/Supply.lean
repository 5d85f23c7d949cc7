import TsOs.Paging.Mapping

/-!
# Enough frames and mappings

With an idle frame and a free entry for temporary mappings the operations on tables return.
A new table or page takes one frame; its mapping is given back when the operation is done
with it.
-/

namespace TsOs.Paging

variable {s s' s₁ : Machine} {D R T f g i k m p dir revTb pt va flag fl : Nat} {ptNow : Option Nat}

/-- There are `k` idle frames. -/
def IdleFrames (s : Machine) (k : Nat) : Prop := ∃ A : Finset Nat, (∀ f ∈ A, Idle s f) ∧ k ≤ A.card

/-- There are `m` free entries for temporary mappings. -/
def FreeTemps (s : Machine) (m : Nat) : Prop :=
  ∃ B : Finset Nat, (∀ i ∈ B, i < 1024 ∧ tempFrame s i = none) ∧ m ≤ B.card

theorem IdleFrames.mono (h : IdleFrames s k) (hm : m ≤ k) : IdleFrames s m := by
  obtain ⟨A, hA, hk⟩ := h
  exact ⟨A, hA, hm.trans hk⟩

theorem IdleFrames.congr (h : IdleFrames s k) (hbitmap : s'.bitmap = s.bitmap) : IdleFrames s' k := by
  obtain ⟨A, hA, hk⟩ := h
  refine ⟨A, fun f hf => ?_, hk⟩
  unfold Idle
  rw [hbitmap]
  exact hA f hf

theorem FreeTemps.mono (h : FreeTemps s k) (hm : m ≤ k) : FreeTemps s m := by
  obtain ⟨B, hB, hk⟩ := h
  exact ⟨B, hB, hm.trans hk⟩

theorem FreeTemps.congr (h : FreeTemps s m) (hsame : ∀ i, tempFrame s' i = tempFrame s i) : FreeTemps s' m := by
  obtain ⟨B, hB, hm⟩ := h
  refine ⟨B, fun i hi => ?_, hm⟩
  rw [hsame]
  exact hB i hi

/-- One entry is taken. -/
theorem FreeTemps.take (h : FreeTemps s (m + 1)) (hsame : ∀ k, k ≠ i → tempFrame s' k = tempFrame s k) :
    FreeTemps s' m := by
  obtain ⟨B, hB, hm⟩ := h
  refine ⟨B.erase i, fun k hk => ?_, ?_⟩
  · obtain ⟨hne, hmem⟩ := Finset.mem_erase.mp hk
    rw [hsame k hne]
    exact hB k hmem
  · have hcard := Finset.pred_card_le_card_erase (s := B) (a := i)
    omega

/-- Deleting a mapping gives its entry back. -/
theorem FreeTemps.delete (h : FreeTemps s m) (hi : tempFrame s i = some f) :
    FreeTemps (deleteTempVa s i) (m + 1) := by
  obtain ⟨B, hB, hm⟩ := h
  have hmem : i ∉ B := by
    intro hmem
    rw [(hB i hmem).2] at hi
    exact absurd hi (by simp)
  refine ⟨insert i B, fun k hk => ?_, ?_⟩
  · by_cases hki : k = i
    · subst hki
      refine ⟨tempFrame_lt hi, ?_⟩
      unfold tempFrame deleteTempVa
      rw [word_setWord_same _ _ _ (by decide), entrySet_zero]
      simp
    · rw [(deleteTempVa_spec s i).2 k hki]
      exact hB k ((Finset.mem_insert.mp hk).resolve_left hki)
  · rw [Finset.card_insert_of_notMem hmem]
    omega

theorem Allocated.freeTemps {ptr : Nat} (h : Allocated s s' ptr f) (hm : FreeTemps s (m + 1)) : FreeTemps s' m :=
  hm.take h.others

theorem Allocated.idleFrames {ptr : Nat} (h : Allocated s s' ptr f) (hk : IdleFrames s (k + 1)) :
    IdleFrames s' k := by
  obtain ⟨A, hA, hk⟩ := hk
  refine ⟨A.erase f, fun g hg => ?_, ?_⟩
  · obtain ⟨hne, hmem⟩ := Finset.mem_erase.mp hg
    exact h.idle_iff.mpr ⟨hA g hmem, hne⟩
  · have hcard := Finset.pred_card_le_card_erase (s := A) (a := f)
    omega

/-! ## Operations that return -/

theorem createTempVa_returns (hm : FreeTemps s (m + 1)) (f : Nat) : ∃ i s', createTempVa s f = some (i, s') := by
  obtain ⟨B, hB, hcard⟩ := hm
  obtain ⟨i, hi⟩ : B.Nonempty := Finset.card_pos.mp (by omega)
  obtain ⟨hlt, hnone⟩ := hB i hi
  cases hfirst : firstIndex (fun i => !entrySet (word s sysTb i)) 1024 0 with
  | some k =>
      refine ⟨k, setWord s sysTb k (pageEntry f pageFlgKernel), ?_⟩
      rw [createTempVa, hfirst]
      rfl
  | none =>
      have hset := firstIndex_none hfirst (Nat.zero_le i) (by omega)
      rw [tempFrame, if_pos ⟨hlt, by simpa using hset⟩] at hnone
      exact absurd hnone (by simp)

/-- The allocating steps shared by `create_page_table` and `alloc_page`. -/
theorem alloc_steps_return (hk : IdleFrames s (k + 1)) (hm : FreeTemps s (m + 1)) :
    ∃ a bm ptr s₁ s₂, allocFrame s.bitmap userPStart maxMemSize = some (a, bm) ∧
      createTempVa { s with bitmap := bm } (frameNb a) = some (ptr, s₁) ∧ memzero s₁ ptr = some s₂ := by
  obtain ⟨A, hA, hcard⟩ := hk
  obtain ⟨g, hg⟩ : A.Nonempty := Finset.card_pos.mp (by omega)
  obtain ⟨hlow, hhigh, hfree⟩ := hA g hg
  cases halloc : allocFrame s.bitmap userPStart maxMemSize with
  | none =>
      rw [allocFrame_none halloc hlow hhigh] at hfree
      exact absurd hfree (by decide)
  | some r =>
      obtain ⟨a, bm⟩ := r
      obtain ⟨f, rfl, -, hmax, -⟩ := allocFrame_user halloc
      obtain ⟨ptr, s₁, hcreate⟩ := createTempVa_returns (s := { s with bitmap := bm })
        (hm.congr fun _ => rfl) (frameNb (f * frameSize))
      have hc := createTempVa_spec hcreate (by rw [frameNb_mul]; exact user_lt hmax)
      refine ⟨_, bm, ptr, s₁, setFrame s₁ (frameNb (f * frameSize)) fun _ => 0, rfl, hcreate, ?_⟩
      rw [memzero, hc.leads]
      rfl

theorem allocPage_returns (hk : IdleFrames s (k + 1)) (hm : FreeTemps s (m + 1)) :
    ∃ ptr f s', allocPage s = some (ptr, f, s') := by
  obtain ⟨a, bm, ptr, s₁, s₂, halloc, hcreate, hzero⟩ := alloc_steps_return hk hm
  obtain ⟨-, hne⟩ := allocated_of_steps halloc hcreate hzero
  refine ⟨ptr, frameNb a, s₂, ?_⟩
  rw [allocPage, halloc]
  simp only [Option.bind_eq_bind, Option.bind_some, hcreate, hzero, if_neg hne]
  rfl

theorem createPageTable_returns (va fl : Nat) (hdir : tempFrame s dir = some D) (hrev : tempFrame s revTb = some R)
    (hD : D ≠ sysTb) (hk : IdleFrames s (k + 1)) (hm : FreeTemps s (m + 1)) :
    ∃ r, createPageTable s dir revTb va fl = some r := by
  rw [createPageTable, peek_eq hdir, Option.bind_eq_bind, Option.bind_some]
  split
  next => exact ⟨_, rfl⟩
  next =>
    obtain ⟨a, bm, ptr, s₁, s₂, halloc, hcreate, hzero⟩ := alloc_steps_return hk hm
    obtain ⟨hall, hne⟩ := allocated_of_steps halloc hcreate hzero
    have hdir' := hall.slot_kept hdir
    have hrev' := hall.slot_kept hrev
    have hpoke : poke s₂ dir (pageDirIndex va) (pageEntry (frameNb a) fl) =
        some (setWord s₂ D (pageDirIndex va) (pageEntry (frameNb a) fl)) := by
      rw [poke, hdir']
      rfl
    have hpoke' : poke (setWord s₂ D (pageDirIndex va) (pageEntry (frameNb a) fl)) revTb (pageDirIndex va)
        (pageEntry (frameNb a) pageP) = some (linkTable s₂ D R (pageDirIndex va) (frameNb a) fl) := by
      rw [poke, (onlyFrame_setWord s₂ D _ _).tempFrame_eq hD, hrev']
      rfl
    simp only [Option.bind_eq_bind, halloc, Option.bind_some, hcreate, if_neg hne, hzero, hpoke, hpoke']
    exact ⟨_, rfl⟩

/-- A page that has no frame takes an idle one. -/
theorem fillEntry_returns (va flag : Nat) (hpt : tempFrame s pt = some T) (hT : T ≠ sysTb) (hk : IdleFrames s (k + 1))
    (hm : FreeTemps s (m + 1)) :
    ∃ s', fillEntry s pt va flag = some s' ∧ IdleFrames s' k ∧ FreeTemps s' (m + 1) := by
  obtain ⟨s', hfill⟩ : ∃ s', fillEntry s pt va flag = some s' := by
    rw [fillEntry, peek_eq hpt, Option.bind_eq_bind, Option.bind_some]
    split
    next => exact ⟨s, rfl⟩
    next =>
      obtain ⟨page, f, s₁, halloc⟩ := allocPage_returns hk hm
      have hpt' := (allocPage_spec halloc).slot_kept hpt
      have hpoke : poke s₁ pt (pageTableIndex va) (pageEntry f flag) =
          some (setWord s₁ T (pageTableIndex va) (pageEntry f flag)) := by
        rw [poke, hpt']
        rfl
      simp only [Option.bind_eq_bind, halloc, Option.bind_some, hpoke]
      exact ⟨_, rfl⟩
  refine ⟨s', hfill, ?_⟩
  rcases fillEntry_cases hpt hfill with ⟨-, rfl⟩ | ⟨-, page, f, s₁, hall, rfl⟩
  · exact ⟨hk.mono (Nat.le_succ k), hm⟩
  · have hsame := (onlyFrame_setWord s₁ T (pageTableIndex va) (pageEntry f flag)).tempFrame_eq hT
    exact ⟨(hall.idleFrames hk).congr rfl,
      ((hall.freeTemps hm).congr hsame).delete ((hsame page).trans hall.leads)⟩

/-- A slot without a table takes an idle frame, and at most one entry more is in use. -/
theorem selectTable_returns (fl : Nat) (hdir : tempFrame s dir = some D) (hrev : tempFrame s revTb = some R)
    (hD : D ≠ sysTb) (hR : R ≠ sysTb) (hva : va < 2 ^ 32)
    (hne : entrySet (word s D (pageDirIndex va)) = true → frameOf (word s D (pageDirIndex va)) ≠ 0)
    (hnow : ∀ p, ptNow = some p → ∃ T, tempFrame s p = some T)
    (hk : IdleFrames s (k + if entrySet (word s D (pageDirIndex va)) then 0 else 1))
    (hm : FreeTemps s (m + 1 + if ptNow = none then 1 else 0)) :
    ∃ newPt pt s', selectTable s dir revTb ptNow va fl = some (newPt, pt, s') ∧ IdleFrames s' k ∧
      FreeTemps s' (m + 1) := by
  have hsys : ∀ (s₁ : Machine) f i, tempFrame (linkTable s₁ D R (pageDirIndex va) f fl) i = tempFrame s₁ i :=
    fun _ _ => linkTable_tempFrame hD hR
  rw [selectTable]
  by_cases hset : entrySet (word s D (pageDirIndex va)) = true
  · rw [if_pos hset] at hk
    have hkeep : createPageTable s dir revTb va fl = some (none, s) := by
      rw [createPageTable, peek_eq hdir, Option.bind_eq_bind, Option.bind_some, if_pos hset]
      rfl
    simp only [hkeep, Option.bind_eq_bind, Option.bind_some]
    cases ptNow with
    | some old => exact ⟨none, old, s, rfl, hk, hm⟩
    | none =>
        have hphy : ptPhyFromDir s dir (pageDirIndex va) = some (frameOf (word s D (pageDirIndex va))) := by
          rw [ptPhyFromDir, peek_eq hdir, Option.bind_eq_bind, Option.bind_some, if_pos hset]
        obtain ⟨pt, s₁, hget, honly, htemps⟩ : ∃ pt s₁,
            getTempVa s (frameOf (word s D (pageDirIndex va))) = some (pt, s₁) ∧ OnlyFrame sysTb s s₁ ∧
              FreeTemps s₁ (m + 1) := by
          cases hlook : lookupTempVa s (frameOf (word s D (pageDirIndex va))) with
          | some i =>
              refine ⟨i, s, ?_, OnlyFrame.refl _ _, hm.mono (Nat.le_succ _)⟩
              rw [getTempVa, hlook]
          | none =>
              obtain ⟨i, s₁, hcreate⟩ := createTempVa_returns hm (frameOf (word s D (pageDirIndex va)))
              have hc := createTempVa_spec hcreate (frameOf_word_lt _ _ _)
              refine ⟨i, s₁, ?_, hc.only, FreeTemps.take hm hc.others⟩
              rw [getTempVa, hlook]
              exact hcreate
        refine ⟨none, pt, s₁, ?_, hk.congr honly.bitmap, htemps⟩
        rw [getPtVa, hphy, Option.bind_eq_bind, Option.bind_some, if_neg (hne hset), hget]
        rfl
  · rw [if_neg hset] at hk
    obtain ⟨⟨new, s₂⟩, hcreate⟩ := createPageTable_returns va fl hdir hrev hD hk
      (hm.mono (show m + 1 ≤ _ by omega))
    simp only [hcreate, Option.bind_eq_bind, Option.bind_some]
    rcases createPageTable_cases hdir hrev hva hD hcreate with ⟨hset', -⟩ | ⟨-, pt, f, s₁, rfl, hall, rfl⟩
    · exact absurd hset' hset
    · have hframes : IdleFrames (linkTable s₁ D R (pageDirIndex va) f fl) k :=
        (hall.idleFrames hk).congr rfl
      cases ptNow with
      | none =>
          exact ⟨some pt, pt, _, rfl, hframes, (hall.freeTemps hm).congr (hsys s₁ f)⟩
      | some old =>
          obtain ⟨T, hT⟩ := hnow old rfl
          have hold := (hsys s₁ f old).trans (hall.slot_kept hT)
          exact ⟨some pt, pt, _, rfl, hframes.congr rfl,
            ((hall.freeTemps hm).congr (hsys s₁ f)).delete hold⟩

end TsOs.Paging
