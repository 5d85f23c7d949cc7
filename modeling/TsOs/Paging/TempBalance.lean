import TsOs.Paging.RegionPages

/-!
# The temporary mappings that a region takes

A call of `request_region_vmap` maps the reverse table, the table of the pages that it visits
and each new frame for a moment. The table of the pages is mapped in three ways: it may have been
mapped before the call, the call may have found it in the directory and mapped it, or it may be a
new table. The last one is given back only if it was made in the last round, and one that was mapped
before the call is given back too when the call makes another table.
-/

namespace TsOs.Paging

variable {s s' s₀ s₁ : Machine} {D R T b d f i k p q x dir revTb pt va vaStart size flag fl n : Nat}
  {newPt ptNow last : Option Nat} {O : Nat → Option Nat} {Q : Nat → Prop}

/-! ## The temporary mappings after each helper -/

theorem Created.temps (h : Created s s' i f) : tempFrame s' = Function.update (tempFrame s) i (some f) :=
  funext fun k => by
    by_cases hk : k = i
    · rw [hk, Function.update_self, h.leads]
    · rw [Function.update_of_ne hk, h.others k hk]

theorem Allocated.temps (h : Allocated s s' p f) : tempFrame s' = Function.update (tempFrame s) p (some f) :=
  funext fun k => by
    by_cases hk : k = p
    · rw [hk, Function.update_self, h.leads]
    · rw [Function.update_of_ne hk, h.others k hk]

theorem deleteTempVa_temps (s : Machine) (i : Nat) :
    tempFrame (deleteTempVa s i) = Function.update (tempFrame s) i none :=
  funext fun k => by
    by_cases hk : k = i
    · subst hk
      rw [Function.update_self, tempFrame, deleteTempVa, word_setWord_same s sysTb k (by decide)]
      exact if_neg fun hin => absurd hin.2 (by decide)
    · rw [Function.update_of_ne hk, (deleteTempVa_spec s i).2 k hk]

theorem update_none_of_absent (h : O p = none) (v : Option Nat) :
    Function.update (Function.update O p v) p none = O := by
  rw [Function.update_idem, ← h, Function.update_eq_self]

/-- The directory's entries and the busy frames are kept. -/
structure Kept (s s' : Machine) (D : Nat) : Prop where
  idle : ∀ f, Idle s' f → Idle s f
  words : ∀ d < 1024, word s' D d = word s D d

theorem Kept.trans {s'' : Machine} (h : Kept s s' D) (h' : Kept s' s'' D) : Kept s s'' D :=
  ⟨fun f hf => h.idle f (h'.idle f hf), fun d hd => (h'.words d hd).trans (h.words d hd)⟩

theorem OnlyFrame.kept (h : OnlyFrame f s s') (hD : D ≠ f) : Kept s s' D where
  idle := by
    intro g hg
    rwa [Idle, ← h.bitmap]
  words := h.words D hD

theorem Allocated.kept (h : Allocated s s' p f) (hD : D ≠ sysTb) (hDf : ¬Idle s D) : Kept s s' D where
  idle := fun _ hg => (h.idle_iff.mp hg).1
  words := h.words D (fun heq => hDf (heq ▸ h.isIdle)) hD

section Round

variable (hD : D ≠ sysTb) (hbusy : ¬Idle s D)
include hD hbusy

/-- The mapping of a new page is given back. -/
theorem fillEntry_temps (hpt : tempFrame s pt = some T) (hT : T ≠ sysTb) (hTD : T ≠ D)
    (h : fillEntry s pt va flag = some s') : tempFrame s' = tempFrame s ∧ Kept s s' D := by
  rcases fillEntry_cases hpt h with ⟨-, rfl⟩ | ⟨-, page, f, s₁, hall, rfl⟩
  · exact ⟨rfl, fun _ hf => hf, fun _ _ => rfl⟩
  · have ho := onlyFrame_setWord s₁ T (pageTableIndex va) (pageEntry f flag)
    have hdel := (deleteTempVa_spec (setWord s₁ T (pageTableIndex va) (pageEntry f flag)) page).1
    refine ⟨?_, ((hall.kept hD hbusy).trans (ho.kept hTD.symm)).trans (hdel.kept hD)⟩
    calc tempFrame (deleteTempVa _ page)
        = Function.update (tempFrame s₁) page none := by rw [deleteTempVa_temps, funext (ho.tempFrame_eq hT)]
      _ = tempFrame s := by rw [hall.temps, update_none_of_absent hall.absent]

/-- The effect of a round at page `x` on the directory. -/
structure Gained (s s' : Machine) (D x : Nat) : Prop where
  idle : ∀ f, Idle s' f → Idle s f
  set_iff : ∀ d < 1024, entrySet (word s' D d) = true ↔ entrySet (word s D d) = true ∨ d = x / 1024

omit hD hbusy in
theorem Kept.gained (h : Kept s s' D) (hset : entrySet (word s D (x / 1024)) = true) : Gained s s' D x where
  idle := h.idle
  set_iff := by
    intro d hd
    rw [h.words d hd]
    refine ⟨Or.inl, ?_⟩
    rintro (hold | rfl)
    · exact hold
    · exact hset

omit hD hbusy in
theorem Gained.kept (h : Gained s s₁ D x) (hk : Kept s₁ s' D) : Gained s s' D x where
  idle := fun f hf => h.idle f (hk.idle f hf)
  set_iff := by
    intro d hd
    rw [hk.words d hd]
    exact h.set_iff d hd

/-- A new table is entered in the directory and stays mapped. -/
theorem Allocated.gained (hall : Allocated s s₁ pt f) (hR : R ≠ sysTb) (hDR : D ≠ R)
    (hfl : fl < frameSize ∧ fl % 2 = 1) :
    tempFrame (linkTable s₁ D R (x / 1024) f fl) = Function.update (tempFrame s) pt (some f) ∧
      Gained s (linkTable s₁ D R (x / 1024) f fl) D x := by
  refine ⟨?_, fun g hg => ?_, fun d hd => ?_⟩
  · rw [← hall.temps]
    exact funext (linkTable_tempFrame hD hR)
  · exact (hall.idle_iff.mp hg).1
  · by_cases hdx : d = x / 1024
    · rw [hdx, linkTable_word_self hDR (pageEntry_lt (user_lt hall.user.2) hfl.1), entrySet_pageEntry hfl.1 hfl.2]
      exact iff_of_true rfl (Or.inr rfl)
    · rw [linkTable_word_ne hdx, (hall.kept hD hbusy).words d hd]
      exact ⟨Or.inl, fun h => h.resolve_right hdx⟩

end Round

/-! ## Rounds -/

/-- Frames that a round may use as a table without harm to the directory or the mappings. -/
def Harmless (D f : Nat) : Prop := f ≠ sysTb ∧ f ≠ D

theorem Idle.harmless (h : Idle s f) (hbusy : ¬Idle s D) : Harmless D f :=
  ⟨h.ne_sysTb, fun heq => hbusy (heq ▸ h)⟩

section Rounds

variable (hD : D ≠ sysTb) (hR : R ≠ sysTb) (hDR : D ≠ R)
include hD hR hDR

/-- A round after the first one keeps the table, or maps a new one and gives the old one back. -/
theorem round_temps (hbusy : ¬Idle s D) (hdir : tempFrame s dir = some D) (hrev : tempFrame s revTb = some R)
    (hp : tempFrame s p = some T) (hT : Harmless D T) (hx : x < 2 ^ 20) (hfl : fl < frameSize ∧ fl % 2 = 1)
    (hsel : selectTable s dir revTb (some p) (x * frameSize) fl = some (newPt, pt, s₁))
    (hfill : fillEntry s₁ pt (x * frameSize) flag = some s') :
    Gained s s' D x ∧
      ((entrySet (word s D (x / 1024)) = true ∧ newPt = none ∧ pt = p ∧ tempFrame s' = tempFrame s) ∨
        (entrySet (word s D (x / 1024)) = false ∧ newPt = some pt ∧ tempFrame s pt = none ∧ ∃ f, Idle s f ∧
          tempFrame s' = Function.update (Function.update (tempFrame s) pt (some f)) p none)) := by
  have hva : x * frameSize < 2 ^ 32 := by
    unfold frameSize
    omega
  rcases selectTable_cases hdir hrev hva hD hsel with
    ⟨hset, hnow, hnew, rfl⟩ | ⟨-, hnow, -⟩ | ⟨hclear, hnew, f, s₂, hall, ⟨hnow, -⟩ | ⟨old, hnow, hs₁⟩⟩
  · obtain rfl : p = pt := Option.some.inj hnow
    obtain ⟨htemps, hkept⟩ := fillEntry_temps hD hbusy hp hT.1 hT.2 hfill
    rw [pageDirIndex_mul] at hset
    exact ⟨hkept.gained hset, Or.inl ⟨hset, hnew, rfl, htemps⟩⟩
  · exact absurd hnow (by simp)
  · exact absurd hnow (by simp)
  · obtain rfl : p = old := Option.some.inj hnow
    rw [pageDirIndex_mul] at hclear hs₁
    have hf := hall.isIdle.harmless hbusy
    obtain ⟨hlinked, hgain⟩ := hall.gained (x := x) hD hbusy hR hDR hfl
    have hne : pt ≠ p := by
      rintro rfl
      rw [hall.absent] at hp
      exact absurd hp (by simp)
    have hdel := (deleteTempVa_spec (linkTable s₂ D R (x / 1024) f fl) p).1
    have htemps₁ : tempFrame s₁ = Function.update (Function.update (tempFrame s) pt (some f)) p none := by
      rw [hs₁, deleteTempVa_temps, hlinked]
    have hpt : tempFrame s₁ pt = some f := by
      rw [htemps₁, Function.update_of_ne hne, Function.update_self]
    have hgain₁ : Gained s s₁ D x := hs₁ ▸ hgain.kept (hdel.kept hD)
    obtain ⟨htemps, hkept⟩ := fillEntry_temps hD (fun h => hbusy (hgain₁.idle D h)) hpt hf.1 hf.2 hfill
    exact ⟨hgain₁.kept hkept, Or.inr ⟨hclear, hnew, hall.absent, f, hall.isIdle, htemps.trans htemps₁⟩⟩

/-- The first round maps the table that the directory names, or a new one. -/
theorem round_first (hbusy : ¬Idle s D) (hdir : tempFrame s dir = some D) (hrev : tempFrame s revTb = some R)
    (hx : x < 2 ^ 20) (hfirst : entrySet (word s D (x / 1024)) = true → Harmless D (tableOf s D (x / 1024)))
    (hfl : fl < frameSize ∧ fl % 2 = 1)
    (hsel : selectTable s dir revTb none (x * frameSize) fl = some (newPt, pt, s₁))
    (hfill : fillEntry s₁ pt (x * frameSize) flag = some s') :
    Gained s s' D x ∧
      ((entrySet (word s D (x / 1024)) = true ∧ newPt = none ∧
          getTempVa s (tableOf s D (x / 1024)) = some (pt, s₁) ∧ tempFrame s' = tempFrame s₁) ∨
        (entrySet (word s D (x / 1024)) = false ∧ newPt = some pt ∧ tempFrame s pt = none ∧ ∃ f, Idle s f ∧
          tempFrame s' = Function.update (tempFrame s) pt (some f))) := by
  have hva : x * frameSize < 2 ^ 32 := by
    unfold frameSize
    omega
  rcases selectTable_cases hdir hrev hva hD hsel with
    ⟨-, hnow, -⟩ | ⟨hset, -, hnew, hget⟩ | ⟨hclear, hnew, f, s₂, hall, ⟨-, hs₁⟩ | ⟨old, hnow, -⟩⟩
  · exact absurd hnow (by simp)
  · rw [pageDirIndex_mul] at hset hget
    obtain ⟨honly, hleads, -⟩ := getTempVa_spec hget (frameOf_word_lt _ _ _)
    have hkept₁ := honly.kept hD
    have hT := hfirst hset
    obtain ⟨htemps, hkept⟩ := fillEntry_temps hD (fun h => hbusy (hkept₁.idle D h)) hleads hT.1 hT.2 hfill
    exact ⟨(hkept₁.trans hkept).gained hset, Or.inl ⟨hset, hnew, hget, htemps⟩⟩
  · rw [pageDirIndex_mul] at hclear hs₁
    have hf := hall.isIdle.harmless hbusy
    obtain ⟨htemps₁, hgain₁⟩ := hall.gained (x := x) hD hbusy hR hDR hfl
    rw [← hs₁] at htemps₁ hgain₁
    have hpt : tempFrame s₁ pt = some f := by
      rw [htemps₁, Function.update_self]
    obtain ⟨htemps, hkept⟩ := fillEntry_temps hD (fun h => hbusy (hgain₁.idle D h)) hpt hf.1 hf.2 hfill
    exact ⟨hgain₁.kept hkept, Or.inr ⟨hclear, hnew, hall.absent, f, hall.isIdle, htemps.trans htemps₁⟩⟩
  · exact absurd hnow (by simp)

omit hD hR hDR in
theorem mapRegionLoop_past (hx : b < x)
    (hrun : mapRegionLoop dir revTb (b * frameSize) flag n s newPt ptNow fl (x * frameSize) = some (last, s')) :
    newPt = last ∧ s = s' := by
  have hgt : ¬x * frameSize ≤ b * frameSize := fun hmul => hx.not_ge (Nat.le_of_mul_le_mul_right hmul (by decide))
  cases n with
  | zero => exact absurd hrun (by simp [mapRegionLoop])
  | succ n => simpa [mapRegionLoop, hgt] using hrun

omit hD hR hDR in
theorem mapRegionLoop_round (hx : x ≤ b) (hb : b + 1 < 2 ^ 20) (hfl : fl < frameSize ∧ fl % 2 = 1)
    (hrun : mapRegionLoop dir revTb (b * frameSize) flag (n + 1) s newPt ptNow fl (x * frameSize) =
      some (last, s')) :
    ∃ new pt s₁ s₂ fl', (fl' < frameSize ∧ fl' % 2 = 1) ∧
      selectTable s dir revTb ptNow (x * frameSize) fl' = some (new, pt, s₁) ∧
      fillEntry s₁ pt (x * frameSize) flag = some s₂ ∧
      mapRegionLoop dir revTb (b * frameSize) flag n s₂ new (some pt) fl' ((x + 1) * frameSize) =
        some (last, s') := by
  rw [mapRegionLoop, if_pos (Nat.mul_le_mul_right _ hx)] at hrun
  obtain ⟨⟨new, pt, s₁⟩, hsel, hrun⟩ := Option.bind_eq_some_iff.mp hrun
  obtain ⟨s₂, hfill, hrun⟩ := Option.bind_eq_some_iff.mp hrun
  rw [u32_page (by omega)] at hrun
  exact ⟨new, pt, s₁, s₂, _, pageFlgUsr_or_kernel hfl, hsel, hfill, hrun⟩

/-- The last page is the first one that is visited in a slot without a table. -/
def Opens (s : Machine) (D x b : Nat) : Prop :=
  entrySet (word s D (b / 1024)) = false ∧ (b % 1024 = 0 ∨ x = b)

omit hD hR hDR in
theorem Gained.opens_iff (h : Gained s s' D x) (hx : x < b) (hb : b < 2 ^ 20) :
    Opens s' D (x + 1) b ↔ Opens s D x b := by
  have hset := h.set_iff (b / 1024) (by omega)
  unfold Opens
  rw [← Bool.not_eq_true, ← Bool.not_eq_true, hset, not_or]
  constructor
  · rintro ⟨⟨hclear, hother⟩, hlast⟩
    exact ⟨hclear, by omega⟩
  · rintro ⟨hclear, hlast⟩
    exact ⟨⟨hclear, by omega⟩, by omega⟩

/-- One mapping, of a frame in `Q`, has been added to `O`. -/
structure Extra (Q : Nat → Prop) (O : Nat → Option Nat) (s : Machine) (q : Nat) : Prop where
  absent : O q = none
  taken : ∃ f, Q f ∧ tempFrame s = Function.update O q (some f)

omit hD hR hDR in
theorem Extra.kept (h : Extra Q O s q) (hi : O i = some f) : tempFrame s i = some f := by
  obtain ⟨g, -, htemps⟩ := h.taken
  have hne : i ≠ q := by
    rintro rfl
    exact absurd (hi.symm.trans h.absent) (by simp)
  rw [htemps, Function.update_of_ne hne, hi]

omit hD hR hDR in
/-- The extra mapping is replaced by another one. -/
theorem Extra.replace (h : Extra Q O s p) (hq : tempFrame s q = none) (hf : Q f)
    (htemps : tempFrame s' = Function.update (Function.update (tempFrame s) q (some f)) p none) :
    Extra Q O s' q := by
  obtain ⟨g, -, hold⟩ := h.taken
  have hne : q ≠ p := by
    rintro rfl
    rw [hold, Function.update_self] at hq
    exact absurd hq (by simp)
  refine ⟨?_, f, hf, ?_⟩
  · rw [← hq, hold, Function.update_of_ne hne]
  · rw [htemps, Function.update_comm hne, hold, update_none_of_absent h.absent]

omit hD hR hDR in
/-- What is left to do after a round that ends with an extra mapping. The round has told whether its
table is new. -/
theorem Extra.rest {new : Option Nat} (h : Extra Q O s₁ q) (hgain : Gained s s₁ D x) (hb : b < 2 ^ 20) (hx : x ≤ b)
    (hnew : (entrySet (word s D (x / 1024)) = true ∧ new = none) ∨
      (entrySet (word s D (x / 1024)) = false ∧ new = some q))
    (hrun : mapRegionLoop dir revTb (b * frameSize) flag n s₁ new (some q) fl ((x + 1) * frameSize) =
      some (last, s'))
    (hlater : x < b → ∃ q, Extra Q O s' q ∧
      ((Opens s₁ D (x + 1) b ∧ last = some q) ∨ (¬Opens s₁ D (x + 1) b ∧ last = none))) :
    ∃ q, Extra Q O s' q ∧ ((Opens s D x b ∧ last = some q) ∨ (¬Opens s D x b ∧ last = none)) := by
  rcases Nat.lt_or_ge x b with hlt | hge
  · rw [← hgain.opens_iff hlt hb]
    exact hlater hlt
  · obtain rfl : x = b := Nat.le_antisymm hx hge
    obtain ⟨rfl, rfl⟩ := mapRegionLoop_past (Nat.lt_succ_self x) hrun
    refine ⟨q, h, ?_⟩
    rcases hnew with ⟨hset, rfl⟩ | ⟨hclear, rfl⟩
    · exact Or.inr ⟨fun hopens => absurd (hset.symm.trans hopens.1) (by decide), rfl⟩
    · exact Or.inl ⟨⟨hclear, Or.inr rfl⟩, rfl⟩

/-- Once the rounds hold a mapping of their own they hold one at the end. It is that of a new table
of the last round exactly when the last page opens its slot. -/
theorem mapRegionLoop_extra (hQ : ∀ f, Q f → Harmless D f) (hb : b + 1 < 2 ^ 20) (hdir : O dir = some D)
    (hrev : O revTb = some R) (hidle : ∀ f, Idle s f → Q f) (hbusy : ¬Idle s D) (h : Extra Q O s p) (hx : x ≤ b)
    (hfl : fl < frameSize ∧ fl % 2 = 1)
    (hrun : mapRegionLoop dir revTb (b * frameSize) flag n s newPt (some p) fl (x * frameSize) = some (last, s')) :
    ∃ q, Extra Q O s' q ∧ ((Opens s D x b ∧ last = some q) ∨ (¬Opens s D x b ∧ last = none)) := by
  induction n generalizing s newPt p fl x with
  | zero => exact absurd hrun (by simp [mapRegionLoop])
  | succ n ih =>
      obtain ⟨new, pt, s₁, s₂, fl', hfl', hsel, hfill, hrest⟩ := mapRegionLoop_round hx hb hfl hrun
      obtain ⟨T, hT, htemps⟩ := h.taken
      have hp : tempFrame s p = some T := by
        rw [htemps, Function.update_self]
      obtain ⟨hgain, hround⟩ := round_temps hD hR hDR hbusy (h.kept hdir) (h.kept hrev) hp (hQ T hT) (by omega)
        hfl' hsel hfill
      have hlater : Extra Q O s₂ pt → x < b → _ := fun hextra hlt =>
        ih (fun f hf => hidle f (hgain.idle f hf)) (fun hf => hbusy (hgain.idle D hf)) hextra hlt hfl' hrest
      rcases hround with ⟨hset, hnew, rfl, hsame⟩ | ⟨hclear, hnew, habsent, f, hf, hswap⟩
      · have hextra : Extra Q O s₂ pt := ⟨h.absent, T, hT, hsame.trans htemps⟩
        exact hextra.rest hgain (by omega) hx (Or.inl ⟨hset, hnew⟩) hrest (hlater hextra)
      · have hextra : Extra Q O s₂ pt := h.replace habsent (hidle f hf) hswap
        exact hextra.rest hgain (by omega) hx (Or.inr ⟨hclear, hnew⟩) hrest (hlater hextra)

/-- Every slot of the pages from `x` to `b` has a table. -/
def AllSet (s : Machine) (D x b : Nat) : Prop :=
  ∀ d, x / 1024 ≤ d → d ≤ b / 1024 → entrySet (word s D d) = true

omit hD hR hDR in
theorem Gained.allSet_iff (h : Gained s s' D x) (hset : entrySet (word s D (x / 1024)) = true)
    (hb : b < 2 ^ 20) : AllSet s' D (x + 1) b ↔ AllSet s D x b := by
  constructor
  · intro hall d hlow hhigh
    by_cases hd : d = x / 1024
    · rw [hd, hset]
    · exact ((h.set_iff d (by omega)).mp (hall d (by omega) hhigh)).resolve_right hd
  · intro hall d hlow hhigh
    exact (h.set_iff d (by omega)).mpr (Or.inl (hall d (by omega) hhigh))

/-- Rounds that hold a mapping from before the call keep the mappings if every slot has a table, and
lose that mapping otherwise. -/
theorem mapRegionLoop_found (hb : b + 1 < 2 ^ 20) (hbusy : ¬Idle s D) (hdir : tempFrame s dir = some D)
    (hrev : tempFrame s revTb = some R) (hp : tempFrame s p = some T) (hT : Harmless D T) (hTbusy : ¬Idle s T)
    (hTR : T = R → AllSet s D x b) (hx : x ≤ b) (hfl : fl < frameSize ∧ fl % 2 = 1)
    (hrun : mapRegionLoop dir revTb (b * frameSize) flag n s newPt (some p) fl (x * frameSize) = some (last, s')) :
    (AllSet s D x b ∧ last = none ∧ tempFrame s' = tempFrame s) ∨
      (¬AllSet s D x b ∧ ∃ q, Extra (fun f => Harmless D f ∧ f ≠ T) (Function.update (tempFrame s) p none) s' q) := by
  induction n generalizing s newPt fl x with
  | zero => exact absurd hrun (by simp [mapRegionLoop])
  | succ n ih =>
      obtain ⟨new, pt, s₁, s₂, fl', hfl', hsel, hfill, hrest⟩ := mapRegionLoop_round hx hb hfl hrun
      obtain ⟨hgain, ⟨hset, hnew, rfl, hsame⟩ | ⟨hclear, -, habsent, f, hf, hnew⟩⟩ :=
        round_temps hD hR hDR hbusy hdir hrev hp hT (by omega) hfl' hsel hfill
      · rcases Nat.lt_or_ge x b with hlt | hge
        · have hall := hgain.allSet_iff hset (show b < 2 ^ 20 by omega)
          rw [← hall, ← hsame]
          rw [← hall] at hTR
          rw [← hsame] at hdir hrev hp
          exact ih (fun hf => hbusy (hgain.idle D hf)) hdir hrev hp (fun hf => hTbusy (hgain.idle T hf)) hTR hlt
            hfl' hrest
        · obtain rfl : x = b := Nat.le_antisymm hx hge
          obtain ⟨rfl, rfl⟩ := mapRegionLoop_past (Nat.lt_succ_self x) hrest
          refine Or.inl ⟨fun d hlow hhigh => ?_, hnew, hsame⟩
          rw [Nat.le_antisymm hhigh hlow, hset]
      · have hnot : ¬AllSet s D x b := by
          intro hall
          have hset := hall (x / 1024) (le_refl _) (Nat.div_le_div_right hx)
          exact absurd (hset.symm.trans hclear) (by decide)
        have hne : pt ≠ p := by
          rintro rfl
          exact absurd (hp.symm.trans habsent) (by simp)
        have hidle : ∀ g, Idle s g → Harmless D g ∧ g ≠ T := fun g hg =>
          ⟨hg.harmless hbusy, fun heq => hTbusy (heq ▸ hg)⟩
        have hextra : Extra (fun f => Harmless D f ∧ f ≠ T) (Function.update (tempFrame s) p none) s₂ pt := by
          refine ⟨?_, f, hidle f hf, ?_⟩
          · rw [Function.update_of_ne hne, habsent]
          · rw [hnew, Function.update_comm hne]
        refine Or.inr ⟨hnot, ?_⟩
        rcases Nat.lt_or_ge x b with hlt | hge
        · have hdirp : dir ≠ p := by
            rintro rfl
            exact hT.2 (Option.some.inj (hp.symm.trans hdir))
          have hrevp : revTb ≠ p := by
            rintro rfl
            exact hnot (hTR (Option.some.inj (hp.symm.trans hrev)))
          have hdir' : Function.update (tempFrame s) p none dir = some D := by
            rw [Function.update_of_ne hdirp, hdir]
          have hrev' : Function.update (tempFrame s) p none revTb = some R := by
            rw [Function.update_of_ne hrevp, hrev]
          obtain ⟨q, hq, -⟩ := mapRegionLoop_extra hD hR hDR (fun f hf => hf.1) hb hdir' hrev'
            (fun g hg => hidle g (hgain.idle g hg)) (fun hf => hbusy (hgain.idle D hf)) hextra hlt hfl' hrest
          exact ⟨q, hq⟩
        · obtain ⟨rfl, rfl⟩ := mapRegionLoop_past (Nat.lt_succ_of_le hge) hrest
          exact ⟨pt, hextra⟩

/-- The rounds of a call: the table of the first page is found mapped, or the rounds hold a mapping of
their own from the first one on. -/
theorem mapRegionLoop_temps (hb : b + 1 < 2 ^ 20) (hbusy : ¬Idle s D) (hdir : tempFrame s dir = some D)
    (hrev : tempFrame s revTb = some R)
    (hfirst : entrySet (word s D (k / 1024)) = true →
      Harmless D (tableOf s D (k / 1024)) ∧ ¬Idle s (tableOf s D (k / 1024)) ∧
        (tableOf s D (k / 1024) = R → AllSet s D k b))
    (hk : k ≤ b) (hfl : fl < frameSize ∧ fl % 2 = 1)
    (hrun : mapRegionLoop dir revTb (b * frameSize) flag n s none none fl (k * frameSize) = some (last, s')) :
    (entrySet (word s D (k / 1024)) = true ∧ ∃ p, tempFrame s p = some (tableOf s D (k / 1024)) ∧
      ((AllSet s D k b ∧ last = none ∧ tempFrame s' = tempFrame s) ∨
        (¬AllSet s D k b ∧ ∃ q, Extra (fun f => Harmless D f ∧ f ≠ tableOf s D (k / 1024))
          (Function.update (tempFrame s) p none) s' q))) ∨
    ((entrySet (word s D (k / 1024)) = true → ∀ i, tempFrame s i ≠ some (tableOf s D (k / 1024))) ∧
      ∃ q, Extra (Harmless D) (tempFrame s) s' q ∧
        ((Opens s D k b ∧ last = some q) ∨ (¬Opens s D k b ∧ last = none))) := by
  cases n with
  | zero => exact absurd hrun (by simp [mapRegionLoop])
  | succ n =>
      obtain ⟨new, pt, s₁, s₂, fl', hfl', hsel, hfill, hrest⟩ := mapRegionLoop_round hk hb hfl hrun
      obtain ⟨hgain, hround⟩ := round_first hD hR hDR hbusy hdir hrev (by omega) (fun hset => (hfirst hset).1) hfl'
        hsel hfill
      have hbusy₂ : ¬Idle s₂ D := fun hf => hbusy (hgain.idle D hf)
      have hlater : Extra (Harmless D) (tempFrame s) s₂ pt → k < b → _ := fun hextra hlt =>
        mapRegionLoop_extra hD hR hDR (fun _ hf => hf) hb hdir hrev
          (fun f hf => (hgain.idle f hf).harmless hbusy) hbusy₂ hextra hlt hfl' hrest
      rcases hround with ⟨hset, rfl, hget, hsame⟩ | ⟨hclear, hnew, habsent, f, hf, htemps⟩
      · obtain ⟨hT, hTbusy, hTR⟩ := hfirst hset
        cases hlook : lookupTempVa s (tableOf s D (k / 1024)) with
        | some i =>
            rw [getTempVa, hlook] at hget
            obtain ⟨rfl, rfl⟩ : i = pt ∧ s = s₁ := by simpa using hget
            have hp := lookupTempVa_spec hlook
            refine Or.inl ⟨hset, i, hp, ?_⟩
            rcases Nat.lt_or_ge k b with hlt | hge
            · have hall := hgain.allSet_iff hset (show b < 2 ^ 20 by omega)
              rw [← hall] at hTR ⊢
              rw [← hsame] at hdir hrev hp ⊢
              exact mapRegionLoop_found hD hR hDR hb hbusy₂ hdir hrev hp hT (fun hf => hTbusy (hgain.idle _ hf)) hTR hlt
                hfl' hrest
            · obtain rfl : k = b := Nat.le_antisymm hk hge
              obtain ⟨rfl, rfl⟩ := mapRegionLoop_past (Nat.lt_succ_self k) hrest
              refine Or.inl ⟨fun d hlow hhigh => ?_, rfl, hsame⟩
              rw [Nat.le_antisymm hhigh hlow, hset]
        | none =>
            rw [getTempVa, hlook] at hget
            have hc := createTempVa_spec hget (frameOf_word_lt _ _ _)
            have hextra : Extra (Harmless D) (tempFrame s) s₂ pt := ⟨hc.absent, _, hT, hsame.trans hc.temps⟩
            refine Or.inr ⟨fun _ i hi => ?_, hextra.rest hgain (by omega) hk (Or.inl ⟨hset, rfl⟩) hrest (hlater hextra)⟩
            have hnone := firstIndex_none hlook (Nat.zero_le i) (by simpa using tempFrame_lt hi)
            exact of_decide_eq_false hnone hi
      · have hextra : Extra (Harmless D) (tempFrame s) s₂ pt := ⟨habsent, f, hf.harmless hbusy, htemps⟩
        refine Or.inr ⟨fun hset => absurd (hset.symm.trans hclear) (by decide), ?_⟩
        exact hextra.rest hgain (by omega) hk (Or.inr ⟨hclear, hnew⟩) hrest (hlater hextra)

end Rounds

/-! ## The whole call -/

/-- What the call needs of the directory: it is a busy frame, its reverse table is another one, and so
is the table of the first page, if there is one. -/
structure Editable (s : Machine) (D first : Nat) : Prop where
  dir_ne : D ≠ sysTb
  dir_busy : ¬Idle s D
  rev_ne : tableOf s D 1023 ≠ sysTb
  rev_ne_dir : D ≠ tableOf s D 1023
  table : entrySet (word s D first) = true → Harmless D (tableOf s D first) ∧ ¬Idle s (tableOf s D first)
  table_rev : entrySet (word s D first) = true → tableOf s D first = tableOf s D 1023 → first = 1023

/-- When a call gives back the mappings that it takes: there is no page; or there are tables for all
pages, and that of the first one was mapped before or is the reverse table; or the last page has got a
new table, and the table of the first page was not mapped before. -/
inductive GivesBack (s : Machine) (D k b : Nat) : Prop
  | empty (h : b < k)
  | mapped (hset : AllSet s D k b)
      (h : (∃ i, tempFrame s i = some (tableOf s D (k / 1024))) ∨ k / 1024 = 1023)
  | newTable (hopens : Opens s D k b)
      (h : entrySet (word s D (k / 1024)) = true → ∀ i, tempFrame s i ≠ some (tableOf s D (k / 1024)))

/-- The mapping of the reverse table is given back if it is new. -/
theorem rev_given_back {fresh : Bool} (hdir : tempFrame s dir = some D)
    (hget : getRevTable s dir = some (revTb, fresh, s₁)) (hsame : tempFrame s' = tempFrame s₁) :
    tempFrame (if fresh then deleteTempVa s' revTb else s') = tempFrame s := by
  rcases getRevTable_cases hdir hget with ⟨rfl, rfl, -⟩ | ⟨rfl, hc⟩
  · exact hsame
  · rw [if_pos rfl, deleteTempVa_temps, hsame, hc.temps, update_none_of_absent hc.absent]

/-- Other mappings than that of the reverse table were there before. -/
theorem tempFrame_before_rev {fresh : Bool} (hdir : tempFrame s dir = some D)
    (hget : getRevTable s dir = some (revTb, fresh, s₁)) (hi : tempFrame s₁ i = some f)
    (hne : f ≠ tableOf s D 1023) : tempFrame s i = some f := by
  rcases getRevTable_cases hdir hget with ⟨-, rfl, -⟩ | ⟨-, hc⟩
  · exact hi
  · rwa [hc.others i] at hi
    rintro rfl
    exact hne (Option.some.inj (hi.symm.trans hc.leads))

theorem tempFrame_of_delete (h : tempFrame (deleteTempVa s i) p = some f) : tempFrame s p = some f := by
  rw [deleteTempVa_temps] at h
  by_cases hp : p = i
  · rw [hp, Function.update_self] at h
    exact absurd h (by simp)
  · rwa [Function.update_of_ne hp] at h

theorem Kept.allSet_iff (h : Kept s s' D) (hb : b < 2 ^ 20) : AllSet s' D x b ↔ AllSet s D x b := by
  refine forall_congr' fun d => imp_congr_right fun _ => imp_congr_right fun hd => ?_
  rw [h.words d (by omega)]

theorem Kept.opens_iff (h : Kept s s' D) (hb : b < 2 ^ 20) : Opens s' D x b ↔ Opens s D x b := by
  unfold Opens
  rw [h.words _ (by omega)]

section Outcome

variable {fresh : Bool} {s₂ : Machine} (he : Editable s D (k / 1024)) (hdir : tempFrame s dir = some D)
  (hget : getRevTable s dir = some (revTb, fresh, s₁))
include hdir hget

include he in
/-- The table of the first page has been found, and every slot has a table. -/
theorem givesBack_of_found (hset : entrySet (word s D (k / 1024)) = true) (hall : AllSet s D k b)
    (hp : tempFrame s₁ p = some (tableOf s D (k / 1024))) : GivesBack s D k b := by
  refine GivesBack.mapped hall ?_
  by_cases hrev : tableOf s D (k / 1024) = tableOf s D 1023
  · exact Or.inr (he.table_rev hset hrev)
  · exact Or.inl ⟨p, tempFrame_before_rev hdir hget hp hrev⟩

include he in
/-- The table of the first page has been found and another one made: its mapping is lost. -/
theorem lost_of_found (hk : k ≤ b) (hb : b < 2 ^ 20) (hset : entrySet (word s D (k / 1024)) = true) (hall : ¬AllSet s D k b)
    (hp : tempFrame s₁ p = some (tableOf s D (k / 1024)))
    (hextra : Extra (fun f => Harmless D f ∧ f ≠ tableOf s D (k / 1024)) (Function.update (tempFrame s₁) p none) s₂ q) :
    ¬GivesBack s D k b ∧ tempFrame s p = some (tableOf s D (k / 1024)) ∧
      tempFrame s₂ p ≠ some (tableOf s D (k / 1024)) := by
  have hne : tableOf s D (k / 1024) ≠ tableOf s D 1023 := by
    intro hrev
    have hlast := he.table_rev hset hrev
    refine hall fun d hlow hhigh => ?_
    obtain rfl : d = k / 1024 := by omega
    exact hset
  have hbefore := tempFrame_before_rev hdir hget hp hne
  refine ⟨?_, hbefore, ?_⟩
  · rintro (hempty | ⟨hset', -⟩ | ⟨-, hnot⟩)
    · omega
    · exact hall hset'
    · exact hnot hset p hbefore
  · obtain ⟨f, hf, htemps⟩ := hextra.taken
    rw [htemps]
    by_cases hpq : p = q
    · rw [hpq, Function.update_self]
      exact fun heq => hf.2 (Option.some.inj heq)
    · rw [Function.update_of_ne hpq, Function.update_self]
      simp

/-- The rounds hold a mapping of their own. -/
theorem givesBack_of_extra (hk : k ≤ b)
    (hnot : entrySet (word s D (k / 1024)) = true → ∀ i, tempFrame s₁ i ≠ some (tableOf s D (k / 1024))) :
    GivesBack s D k b ↔ Opens s D k b := by
  have hrev := getRevTable_spec hdir hget
  constructor
  · rintro (hempty | ⟨hall, hfound⟩ | ⟨hopens, -⟩)
    · omega
    · have hset := hall (k / 1024) (le_refl _) (Nat.div_le_div_right hk)
      rcases hfound with ⟨i, hi⟩ | hlast
      · exact absurd (hrev.slots i _ hi) (hnot hset i)
      · exact absurd (hlast ▸ hrev.leads) (hnot hset revTb)
    · exact hopens
  · intro hopens
    refine GivesBack.newTable hopens fun hset i hi => ?_
    exact hnot hset i (hrev.slots i _ hi)

end Outcome

/-- A completed call gives its mappings back or changes one. -/
theorem requestRegionVmap_temps (hdir : tempFrame s dir = some D) (he : Editable s D (vaStart / frameSize / 1024))
    (hva : vaStart < 2 ^ 32) (h : requestRegionVmap s dir vaStart size flag = some s') :
    (GivesBack s D (vaStart / frameSize) (u32 (vaStart + size) / frameSize) ∧ tempFrame s' = tempFrame s) ∨
      (¬GivesBack s D (vaStart / frameSize) (u32 (vaStart + size) / frameSize) ∧
        ∃ i, tempFrame s' i ≠ tempFrame s i) := by
  obtain ⟨revTb, s₁, fresh, last, s₂, hget, hloop, hs'⟩ := requestRegionVmap_cases h
  have hrev := getRevTable_spec hdir hget
  have hkept := hrev.only.kept he.dir_ne
  have hstart : pageAddr vaStart = vaStart / frameSize * frameSize := rfl
  have hend : pageAddr (u32 (vaStart + size)) = u32 (vaStart + size) / frameSize * frameSize := rfl
  rw [hstart, hend] at hloop
  have hkmax : vaStart / frameSize < 2 ^ 20 := by
    unfold frameSize
    omega
  have hbmax : u32 (vaStart + size) / frameSize < 2 ^ 20 := by
    have hlt : u32 (vaStart + size) < 2 ^ 32 := Nat.mod_lt _ (by decide)
    unfold frameSize
    omega
  generalize vaStart / frameSize = k at *
  generalize u32 (vaStart + size) / frameSize = b at *
  rcases Nat.lt_or_ge b k with hlt | hk
  · obtain ⟨rfl, rfl⟩ := mapRegionLoop_past hlt hloop
    refine Or.inl ⟨GivesBack.empty hlt, ?_⟩
    rw [hs']
    exact rev_given_back hdir hget rfl
  have hb : b + 1 < 2 ^ 20 := by
    by_contra hlast
    obtain rfl : b = 2 ^ 20 - 1 := by omega
    exact mapRegionLoop_last hkmax _ hloop
  have hword : word s₁ D (k / 1024) = word s D (k / 1024) := hkept.words _ (by omega)
  have htable : tableOf s₁ D (k / 1024) = tableOf s D (k / 1024) := congrArg frameOf hword
  have hfirst : entrySet (word s₁ D (k / 1024)) = true → Harmless D (tableOf s₁ D (k / 1024)) ∧
      ¬Idle s₁ (tableOf s₁ D (k / 1024)) ∧ (tableOf s₁ D (k / 1024) = tableOf s D 1023 → AllSet s₁ D k b) := by
    rw [hword, htable, hkept.allSet_iff hbmax]
    intro hset
    obtain ⟨hharm, hbusy⟩ := he.table hset
    refine ⟨hharm, fun hf => hbusy (hkept.idle _ hf), fun hR d hlow hhigh => ?_⟩
    have hlast := he.table_rev hset hR
    obtain rfl : d = k / 1024 := by omega
    exact hset
  have hrun := mapRegionLoop_temps he.dir_ne he.rev_ne he.rev_ne_dir hb (fun hf => he.dir_busy (hkept.idle D hf))
    (hrev.slots dir D hdir) hrev.leads hfirst hk (by decide) hloop
  rw [hword, htable, hkept.allSet_iff hbmax, hkept.opens_iff hbmax] at hrun
  rcases hrun with ⟨hset, p, hp, ⟨hall, rfl, hsame⟩ | ⟨hall, q, hextra⟩⟩ | ⟨hnot, q, hextra, hlast⟩
  · refine Or.inl ⟨givesBack_of_found he hdir hget hset hall hp, ?_⟩
    rw [hs']
    exact rev_given_back hdir hget hsame
  · obtain ⟨hgives, hbefore, hafter⟩ := lost_of_found he hdir hget hk hbmax hset hall hp hextra
    refine Or.inr ⟨hgives, p, fun hsame => hafter ?_⟩
    rw [hbefore, hs'] at hsame
    cases last <;> cases fresh
    · exact hsame
    · exact tempFrame_of_delete hsame
    · exact tempFrame_of_delete hsame
    · exact tempFrame_of_delete (tempFrame_of_delete hsame)
  · rw [givesBack_of_extra hdir hget hk hnot]
    obtain ⟨f, -, htemps⟩ := hextra.taken
    rcases hlast with ⟨hopens, rfl⟩ | ⟨hopens, rfl⟩
    · refine Or.inl ⟨hopens, ?_⟩
      rw [hs']
      refine rev_given_back hdir hget ?_
      rw [Option.elim_some, deleteTempVa_temps, htemps, update_none_of_absent hextra.absent]
    · refine Or.inr ⟨hopens, q, fun hsame => ?_⟩
      have hafter : tempFrame s₂ q = some f := by
        rw [htemps, Function.update_self]
      have hne : q ≠ revTb := by
        rintro rfl
        exact absurd (hextra.absent.symm.trans hrev.leads) (by simp)
      have hleft : tempFrame s' q = some f := by
        rw [hs']
        cases fresh with
        | false => exact hafter
        | true => exact ((deleteTempVa_spec s₂ revTb).2 q hne).trans hafter
      have hbefore := hrev.slots q f (hsame.symm.trans hleft)
      exact absurd (hbefore.symm.trans hextra.absent) (by simp)

/-- A completed call leaves the temporary mappings as they were exactly when it gives back those that
it takes. -/
theorem requestRegionVmap_balanced_iff (hdir : tempFrame s dir = some D)
    (he : Editable s D (vaStart / frameSize / 1024)) (hva : vaStart < 2 ^ 32)
    (h : requestRegionVmap s dir vaStart size flag = some s') :
    tempFrame s' = tempFrame s ↔ GivesBack s D (vaStart / frameSize) (u32 (vaStart + size) / frameSize) := by
  rcases requestRegionVmap_temps hdir he hva h with ⟨hgives, hsame⟩ | ⟨hnot, i, hi⟩
  · exact iff_of_true hsame hgives
  · exact iff_of_false (fun hsame => hi (congrFun hsame i)) hnot

theorem Tables.editable (h : Tables s D) (hk : k < 1024) : Editable s D k where
  dir_ne := h.dir_ne
  dir_busy := h.dir_busy
  rev_ne := h.ne_sysTb 1023 (by decide) h.reverse
  rev_ne_dir := (h.ne_dir 1023 (by decide) h.reverse).symm
  table := fun hset => ⟨⟨h.ne_sysTb k hk hset, h.ne_dir k hk hset⟩, h.busy k hk hset⟩
  table_rev := fun hset heq => h.distinct k hk 1023 (by decide) hset h.reverse heq

theorem stackMachine_text :
    ∃ s', requestRegionVmap stackMachine 0 (2 ^ 22) 5000 pageFlgUsr = some s' :=
  requestRegionVmap_returns stackMachine_directory (by decide) (by decide) (by decide) (by decide)
    (stackMachine_available (by decide))

theorem requestRegionVmap_balanced_sample :
    ∃ s', requestRegionVmap stackMachine 0 (2 ^ 22) 5000 pageFlgUsr = some s' ∧
      (tempFrame s' = tempFrame stackMachine ↔
        GivesBack stackMachine 4200 (2 ^ 22 / frameSize) (u32 (2 ^ 22 + 5000) / frameSize)) := by
  obtain ⟨s', hrun⟩ := stackMachine_text
  exact ⟨s', hrun, requestRegionVmap_balanced_iff (by decide)
    (stackMachine_directory.editable (by decide)) (by decide) hrun⟩

/-- Two pages in a slot without a table: the table is new in the first round, not in the last one. -/
theorem requestRegionVmap_unbalanced :
    ∃ s', requestRegionVmap stackMachine 0 (2 ^ 22) 5000 pageFlgUsr = some s' ∧
      tempFrame s' ≠ tempFrame stackMachine := by
  obtain ⟨s', hrun⟩ := stackMachine_text
  rcases requestRegionVmap_temps (by decide) (stackMachine_directory.editable (by decide)) (by decide) hrun with
    ⟨hempty | ⟨hall, -⟩ | ⟨hopens, -⟩, -⟩ | ⟨-, i, hi⟩
  · exact absurd hempty (by decide)
  · exact absurd (hall 1 (by decide) (by decide)) (by decide)
  · exact absurd hopens.2 (by decide)
  · exact ⟨s', hrun, fun hsame => hi (congrFun hsame i)⟩

end TsOs.Paging
