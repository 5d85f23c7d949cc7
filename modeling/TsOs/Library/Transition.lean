import Mathlib.Tactic

/-!
# Runs of a partial step function

A system takes actions one after the other; a step may have no result. The two
rules below carry a property along whole runs. The first also shows that the
run has a result, from a step lemma that gives one. `Always` and `Guarded` speak
about every state and every action of a run.
-/

namespace Transition

variable {σ α : Type*} (step : σ → α → Option σ)

/-- Take the actions in order. -/
def run : σ → List α → Option σ
  | s, [] => some s
  | s, a :: as => (step s a).bind fun s' => run s' as

/-- Every action of the run meets the condition in the state it is taken in. -/
def Guarded (cond : σ → α → Prop) : σ → List α → Prop
  | _, [] => True
  | s, a :: as => cond s a ∧ ∀ s', step s a = some s' → Guarded cond s' as

instance Guarded.decidable {cond : σ → α → Prop} [∀ s a, Decidable (cond s a)] :
    ∀ s as, Decidable (Guarded step cond s as)
  | _, [] => isTrue trivial
  | s, a :: as =>
      match h : step s a with
      | none => decidable_of_iff (cond s a) (by simp [Guarded, h])
      | some s' =>
          have : Decidable (Guarded step cond s' as) := Guarded.decidable s' as
          decidable_of_iff (cond s a ∧ Guarded step cond s' as) (by simp [Guarded, h])

/-- Every state of the run has the property, the first one included. -/
def Always (P : σ → Prop) : σ → List α → Prop
  | s, [] => P s
  | s, a :: as => P s ∧ ∀ s', step s a = some s' → Always P s' as

variable {step} {s s' : σ} {a : α} {as bs : List α} {cond : σ → α → Prop} {P Inv : σ → Prop}

theorem run_cons : run step s (a :: as) = (step s a).bind fun s' => run step s' as := rfl

theorem run_append : run step s (as ++ bs) = (run step s as).bind fun s' => run step s' bs := by
  induction as generalizing s with
  | nil => rfl
  | cons a as ih =>
      cases h : step s a with
      | none => simp [run_cons, h]
      | some s' => simp [run_cons, h, ih]

/-- A run with a result starts with a step that has one. -/
theorem run_cons_eq_some (h : run step s (a :: as) = some s') :
    ∃ s₁, step s a = some s₁ ∧ run step s₁ as = some s' :=
  Option.bind_eq_some_iff.mp h

/-- A condition on the actions alone. -/
theorem guarded_of_forall (h : ∀ a ∈ as, ∀ s, cond s a) : Guarded step cond s as := by
  induction as generalizing s with
  | nil => trivial
  | cons a as ih => exact ⟨h a (by simp) s, fun s' _ => ih fun b hb => h b (by simp [hb])⟩

/-- The first part of the run meets the condition. -/
theorem guarded_of_append (h : Guarded step cond s (as ++ bs)) : Guarded step cond s as := by
  induction as generalizing s with
  | nil => trivial
  | cons a as ih => exact ⟨h.1, fun s' hs' => ih (h.2 s' hs')⟩

/-- The actions after a first part of the run meet the condition from the state that it leads to. -/
theorem guarded_append (h : Guarded step cond s (as ++ bs)) (hrun : run step s as = some s') :
    Guarded step cond s' bs := by
  induction as generalizing s with
  | nil =>
      obtain rfl := Option.some.inj hrun
      exact h
  | cons a as ih =>
      obtain ⟨s₁, hs₁, htail⟩ := run_cons_eq_some hrun
      exact ih (h.2 s₁ hs₁) htail

/-- The last state of a run is one of its states. -/
theorem always_last (P : σ → Prop) (h : Always step P s as) (hrun : run step s as = some s') : P s' := by
  induction as generalizing s with
  | nil =>
      obtain rfl := Option.some.inj hrun
      exact h
  | cons a as ih =>
      obtain ⟨s₁, hs₁, htail⟩ := run_cons_eq_some hrun
      exact ih (h.2 s₁ hs₁) htail

/-- The first state of a run is one of its states. -/
theorem always_first (P : σ → Prop) (h : Always step P s as) : P s := by
  cases as with
  | nil => exact h
  | cons a as => exact h.1

/-- A step lemma with a result gives whole runs with a result. -/
theorem exists_run (hstep : ∀ s a, Inv s → cond s a → ∃ s', step s a = some s' ∧ Inv s')
    (hinv : Inv s) (hrun : Guarded step cond s as) : ∃ s', run step s as = some s' ∧ Inv s' := by
  induction as generalizing s with
  | nil => exact ⟨s, rfl, hinv⟩
  | cons a as ih =>
      obtain ⟨s₁, hs₁, hinv₁⟩ := hstep s a hinv hrun.1
      obtain ⟨s', hs', hinv'⟩ := ih hinv₁ (hrun.2 s₁ hs₁)
      refine ⟨s', ?_, hinv'⟩
      rw [run_cons, hs₁, Option.bind_some, hs']

/-- A property that steps keep holds after every run that has a result. -/
theorem inv_of_run (hstep : ∀ s a s', Inv s → cond s a → step s a = some s' → Inv s')
    (hinv : Inv s) (hguard : Guarded step cond s as) (hrun : run step s as = some s') :
    Inv s' := by
  induction as generalizing s with
  | nil =>
      obtain rfl := Option.some.inj hrun
      exact hinv
  | cons a as ih =>
      obtain ⟨s₁, hs₁, htail⟩ := run_cons_eq_some hrun
      exact ih (hstep s a s₁ hinv hguard.1 hs₁) (hguard.2 s₁ hs₁) htail

/-- Two conditions that agree wherever the invariant holds agree along runs, if the steps that meet
one of them keep the invariant. -/
theorem guarded_iff {P Q : σ → α → Prop} (hiff : ∀ s a, Inv s → cond s a → (P s a ↔ Q s a))
    (hstep : ∀ s a s', Inv s → cond s a → Q s a → step s a = some s' → Inv s') (hinv : Inv s)
    (hguard : Guarded step cond s as) : Guarded step P s as ↔ Guarded step Q s as := by
  induction as generalizing s with
  | nil => exact Iff.rfl
  | cons a as ih =>
      have htail : Q s a → ∀ s', step s a = some s' → (Guarded step P s' as ↔ Guarded step Q s' as) :=
        fun hQ s' hs' => ih (hstep s a s' hinv hguard.1 hQ hs') (hguard.2 s' hs')
      constructor
      · rintro ⟨hP, hrest⟩
        have hQ := (hiff s a hinv hguard.1).mp hP
        exact ⟨hQ, fun s' hs' => (htail hQ s' hs').mp (hrest s' hs')⟩
      · rintro ⟨hQ, hrest⟩
        exact ⟨(hiff s a hinv hguard.1).mpr hQ, fun s' hs' => (htail hQ s' hs').mpr (hrest s' hs')⟩

theorem guarded_and {P Q : σ → α → Prop} (hP : Guarded step P s as) (hQ : Guarded step Q s as) :
    Guarded step (fun s a => P s a ∧ Q s a) s as := by
  induction as generalizing s with
  | nil => trivial
  | cons a as ih => exact ⟨⟨hP.1, hQ.1⟩, fun s' hs' => ih (hP.2 s' hs') (hQ.2 s' hs')⟩

/-- A property that steps keep holds in every state of a run. -/
theorem always_of_step (hstep : ∀ s a s', Inv s → cond s a → step s a = some s' → Inv s')
    (hP : ∀ s, Inv s → P s) (hinv : Inv s) (hguard : Guarded step cond s as) : Always step P s as := by
  induction as generalizing s with
  | nil => exact hP s hinv
  | cons a as ih =>
      exact ⟨hP s hinv, fun s₁ hs₁ => ih (hstep s a s₁ hinv hguard.1 hs₁) (hguard.2 s₁ hs₁)⟩

end Transition
