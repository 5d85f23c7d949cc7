import TsOs.Library.CyclicScan
import TsOs.Library.Transition
import TsOs.Tasking.Runs
import TsOs.Tasking.Switching

/-!
# Round robin

`schedule` scans the slots behind the running task. In every state between two events
the running task is alive and every live slot carries its own number, so the scans
of a run form one rotation of the ring of slots.
-/

namespace TsOs.Tasking
open CyclicScan

variable {c c' c₁ : Cpu} {e : Event} {es : List Event} {a b i : Nat}

/-- The slot is in use. -/
def Live (c : Cpu) (i : Nat) : Prop := (c.taskArr i).state ≠ 0

instance (c : Cpu) (i : Nat) : Decidable (Live c i) := inferInstanceAs (Decidable (_ ≠ _))

/-- A value of the field `state` that is in use. -/
def Marked (state : Nat) : Prop := state = taskPresent ∨ state = taskPresent ||| taskNeedSched

/-- Slots in use carry their number and the mark `TASK_PRESENT`. -/
def Numbered (c : Cpu) : Prop :=
  ∀ i < maxTaskNum, Live c i → (c.taskArr i).tid = i ∧ Marked (c.taskArr i).state

/-- Tasks can run. -/
structure Ready (c : Cpu) : Prop where
  inRange : c.current < maxTaskNum
  live : Live c c.current
  numbered : Numbered c

/-- The state in which `schedule` scans. The running task may have ended. -/
structure Scanning (c : Cpu) : Prop where
  inRange : c.current < maxTaskNum
  tid : c.task.tid = c.current
  numbered : Numbered c

theorem Marked.ne_zero {state : Nat} (h : Marked state) : state ≠ 0 := by
  rcases h with rfl | rfl
  · decide
  · decide

/-- A mark leaves the task in use. -/
theorem Marked.mark {state : Nat} (h : Marked state) : Marked (state ||| taskNeedSched) := by
  rcases h with rfl | rfl
  · exact Or.inr rfl
  · exact Or.inr (by decide)

theorem Ready.scanning (h : Ready c) : Scanning c :=
  ⟨h.inRange, (h.numbered c.current h.inRange h.live).1, h.numbered⟩

/-! ## The scan -/

/-- The additions of the scan do not leave the ring. -/
theorem nextTask_eq (c : Cpu) : nextTask c =
    (firstIndex (fun i => decide (Live c (place maxTaskNum c.task.tid i))) maxTaskNum 1).map
      (place maxTaskNum c.task.tid) := by
  have hslot : ∀ i, u32 (c.task.tid + i) % maxTaskNum = place maxTaskNum c.task.tid i :=
    fun i => Nat.mod_mod_of_dvd _ (by decide)
  simp only [nextTask, hslot]
  rfl

/-- Without a result of the scan no slot is in use. -/
theorem nextTask_none (h : nextTask c = none) (hi : i < maxTaskNum) : ¬Live c i := by
  rw [nextTask_eq] at h
  have hdead : ∀ j, 1 ≤ j → j < 1 + maxTaskNum → ¬Live c (place maxTaskNum c.task.tid j) :=
    fun j hj hjn => of_decide_eq_false (firstIndex_none (Option.map_eq_none_iff.mp h) hj hjn)
  obtain ⟨p, hp, hplace⟩ := exists_place (Nat.mod_lt c.task.tid (by decide : 0 < maxTaskNum)) hi
  have hmod : place maxTaskNum c.task.tid p = i := by
    rw [← hplace, place, place, Nat.mod_add_mod]
  rcases Nat.eq_zero_or_pos p with rfl | hpos
  · -- the slot itself is the last one that is looked at
    have hlast := hdead maxTaskNum (by decide) (by decide)
    rw [place, Nat.add_zero] at hmod
    rwa [place, Nat.add_mod_right, hmod] at hlast
  · rw [← hmod]
    exact hdead p hpos (by omega)

theorem nextTask_isNext (hc : Scanning c) (h : nextTask c = some a) :
    IsNext (Live c) maxTaskNum c.current a := by
  rw [nextTask_eq, hc.tid] at h
  obtain ⟨k, hk, rfl⟩ := Option.map_eq_some_iff.mp h
  obtain ⟨hlow, hhigh, hlive⟩ := firstIndex_spec hk
  exact ⟨k, hlow, by omega, rfl, of_decide_eq_true hlive,
    fun j hj hjk => of_decide_eq_false (firstIndex_least hk hj hjk)⟩

/-! ## What the routines keep -/

/-- A record keeps its number and stays in use, or out of use. -/
structure SameTask (t t' : Task) : Prop where
  tid : t'.tid = t.tid
  idle : t.state = 0 → t'.state = 0
  marked : Marked t.state → Marked t'.state

/-- All records do. -/
def SameTasks (c c' : Cpu) : Prop := ∀ i, SameTask (c.taskArr i) (c'.taskArr i)

theorem SameTask.refl (t : Task) : SameTask t t := ⟨rfl, id, id⟩

theorem SameTasks.trans (h : SameTasks c c₁) (h' : SameTasks c₁ c') : SameTasks c c' :=
  fun i => ⟨(h' i).tid.trans (h i).tid, (h' i).idle ∘ (h i).idle, (h' i).marked ∘ (h i).marked⟩

theorem setTask_same {f : Task → Task} (h : SameTask c.task (f c.task)) :
    SameTasks c (c.setTask f) := by
  intro i
  rw [Cpu.setTask_arr]
  split
  next hi => exact hi ▸ h
  next => exact SameTask.refl _

theorem SameTasks.live (h : SameTasks c c') (hc : Numbered c) (hi : i < maxTaskNum) :
    Live c' i ↔ Live c i := by
  constructor
  · exact fun hl hidle => hl ((h i).idle hidle)
  · exact fun hl => ((h i).marked (hc i hi hl).2).ne_zero

theorem SameTasks.numbered (h : SameTasks c c') (hc : Numbered c) : Numbered c' := by
  intro i hi hl
  obtain ⟨htid, hmark⟩ := hc i hi ((h.live hc hi).mp hl)
  exact ⟨(h i).tid.trans htid, (h i).marked hmark⟩

theorem switchStacks_same (c : Cpu) (new : Nat) : SameTasks c (switchStacks c new) := by
  have hcr3 : SameTasks c (c.setTask fun t => { t with phyDir := c.cr3 }) :=
    setTask_same ⟨rfl, id, id⟩
  exact fun i => (hcr3.trans (setTask_same ⟨rfl, id, id⟩) :
    SameTasks c (Cpu.setTask _ fun t => { t with esp := c.esp })) i

theorem contextSwitch_spec (h : contextSwitch c (some a) = some c') :
    c'.current = a ∧ SameTasks c c' := by
  rw [contextSwitch] at h
  split at h
  next heq =>
    obtain rfl := Option.some.inj h
    exact ⟨heq, fun i => SameTask.refl _⟩
  next =>
    obtain rfl := Option.some.inj h
    exact ⟨rfl, switchStacks_same _ a⟩

/-- `schedule` moves to the task of the scan. -/
theorem schedule_spec (h : schedule c = some c') :
    ∃ a, nextTask c = some a ∧ c'.current = a ∧ SameTasks c c' := by
  cases hnext : nextTask c with
  | none =>
      simp only [schedule, hnext] at h
      split at h <;> exact absurd h (by simp [contextSwitch])
  | some a =>
      simp only [schedule, hnext] at h
      split at h
      next hlive =>
        obtain ⟨hcur, hsame⟩ := contextSwitch_spec h
        have hclear : SameTasks c (c.setTask fun t =>
            { t with state := t.state &&& (2 ^ 32 - 1 - taskNeedSched) }) := by
          refine setTask_same ⟨rfl, fun h0 => absurd h0 hlive, fun hmark => Or.inl ?_⟩
          rcases hmark with hmark | hmark
          · simp only [hmark]
            decide
          · simp only [hmark]
            decide
        exact ⟨a, rfl, hcur, hclear.trans ((setTask_same ⟨rfl, id, id⟩).trans hsame)⟩
      next =>
        obtain ⟨hcur, hsame⟩ := contextSwitch_spec h
        exact ⟨a, rfl, hcur, hsame⟩

theorem countTick_arr (c : Cpu) : (countTick c).taskArr = c.taskArr ∧ (countTick c).current = c.current := by
  simp only [countTick]
  split <;> exact ⟨rfl, rfl⟩

theorem countTick_task (c : Cpu) : (countTick c).task = c.task := by
  obtain ⟨harr, hcur⟩ := countTick_arr c
  rw [Cpu.task, Cpu.task, harr, hcur]

/-- A tick as one assignment to the record of the running task. -/
theorem timerHandler_eq (c : Cpu) : timerHandler c = (countTick c).setTask fun t =>
    { t with
      ttl := sub32 t.ttl 1
      state := if sub32 t.ttl 1 = 0 then t.state ||| taskNeedSched else t.state } := by
  simp only [timerHandler, Cpu.task_setTask, Cpu.setTask_setTask]
  split
  next hzero => simp only [Cpu.setTask, hzero, if_true]
  next hpos => simp only [Cpu.setTask, if_neg hpos]

theorem timerHandler_spec (c : Cpu) (hlive : Marked c.task.state) :
    SameTasks c (timerHandler c) ∧ (timerHandler c).current = c.current := by
  obtain ⟨harr, hcur⟩ := countTick_arr c
  have hcount : SameTasks c (countTick c) := fun i => harr ▸ SameTask.refl _
  rw [timerHandler_eq]
  refine ⟨hcount.trans (setTask_same ⟨rfl, fun hidle => ?_, fun hmark => ?_⟩), hcur⟩
  · rw [countTick_task] at hidle
    exact absurd hidle hlive.ne_zero
  · dsimp only
    split
    next => exact hmark.mark
    next => exact hmark

theorem clearState_arr (c : Cpu) (i : Nat) : (clearState c).taskArr i =
    if i = c.current then { c.task with state := 0 } else c.taskArr i :=
  c.setTask_arr _ i

theorem enterTask_spec {task : Task} (h : enterTask c task = some c') :
    ∃ tid, tid < maxTaskNum ∧ (c.taskArr tid).state = 0 ∧ getNextTid c.taskArr = some tid ∧
      task.tid = tid ∧ task.state = taskPresent ∧
      c' = { c with taskArr := Function.update c.taskArr tid task } := by
  rw [enterTask] at h
  obtain ⟨tid, htid, h⟩ := Option.bind_eq_some_iff.mp h
  obtain ⟨hlt, hidle⟩ := getNextTid_spec htid
  split at h
  next hfilled => exact ⟨tid, hlt, hidle, htid, hfilled.1, hfilled.2, (Option.some.inj h).symm⟩
  next => exact absurd h (by simp)

/-! ## Steps -/

/-- A step of a run: either `schedule` is not called and the running task goes on, or `schedule`
scans in a state that has the tasks of the next one. -/
theorem step_cases (hc : Ready c) (h : step c e = some c') :
    (atSchedule c e = none ∧ c'.current = c.current ∧ Numbered c' ∧ Live c' c.current) ∨
    ∃ c₁, atSchedule c e = some c₁ ∧ Scanning c₁ ∧ c₁.current = c.current ∧
      (∀ i < maxTaskNum, i ≠ c.current → (Live c₁ i ↔ Live c i)) ∧
      nextTask c₁ = some c'.current ∧ SameTasks c₁ c' := by
  have hmark := (hc.numbered c.current hc.inRange hc.live).2
  cases e with
  | timer esp =>
      obtain ⟨hsame, hcur⟩ := timerHandler_spec { c with esp := esp } hmark
      have hnum : Numbered (timerHandler { c with esp := esp }) := hsame.numbered hc.numbered
      have hlive : ∀ i < maxTaskNum, (Live (timerHandler { c with esp := esp }) i ↔ Live c i) :=
        fun i hi => hsame.live hc.numbered hi
      simp only [step, condSchedule] at h
      simp only [atSchedule]
      split at h
      next hneed =>
        obtain ⟨a, hnext, hc', hsame'⟩ := schedule_spec h
        refine Or.inr ⟨_, if_pos hneed, ⟨?_, ?_, hnum⟩, hcur, fun i hi _ => hlive i hi, hc' ▸ hnext, hsame'⟩
        · rw [hcur]
          exact hc.inRange
        · rw [Cpu.task, hcur, (hsame _).tid]
          exact hc.scanning.tid
      next hneed =>
        obtain rfl := Option.some.inj h
        exact Or.inl ⟨if_neg hneed, hcur, hnum, (hlive _ hc.inRange).mpr hc.live⟩
  | exit esp =>
      obtain ⟨a, hnext, hc', hsame'⟩ := schedule_spec h
      have harr := clearState_arr { c with esp := esp }
      refine Or.inr ⟨_, rfl, ⟨hc.inRange, ?_, ?_⟩, rfl, ?_, hc' ▸ hnext, hsame'⟩
      · change ((clearState { c with esp := esp }).taskArr c.current).tid = c.current
        rw [harr, if_pos rfl]
        exact hc.scanning.tid
      · intro i hi hl
        rw [Live, harr] at hl
        rw [harr]
        by_cases hcur : i = c.current
        · rw [if_pos hcur] at hl
          exact absurd rfl hl
        · rw [if_neg hcur] at hl ⊢
          exact hc.numbered i hi hl
      · intro i hi hcur
        rw [Live, harr, if_neg hcur, Live]
  | create task =>
      obtain ⟨tid, -, hidle, -, hfilled, hstate, rfl⟩ := enterTask_spec h
      have hne : c.current ≠ tid := by
        rintro rfl
        exact hc.live hidle
      refine Or.inl ⟨rfl, rfl, fun i hi hl => ?_, ?_⟩
      · by_cases hit : i = tid
        · subst hit
          simp only [Function.update_self]
          exact ⟨hfilled, Or.inl hstate⟩
        · simp only [Live, Function.update_of_ne hit] at hl ⊢
          exact hc.numbered i hi hl
      · simp only [Live, Function.update_of_ne hne]
        exact hc.live

/-- Every event of a run leaves a live task running. -/
theorem step_ready (hc : Ready c) (h : step c e = some c') : Ready c' := by
  rcases step_cases hc h with ⟨-, hcur, hnum, hlive⟩ | ⟨c₁, -, hscan, -, -, hnext, hsame⟩
  · exact ⟨hcur ▸ hc.inRange, hcur ▸ hlive, hnum⟩
  · obtain ⟨k, -, -, hplace, hlive, -⟩ := nextTask_isNext hscan hnext
    have hlt : c'.current < maxTaskNum := hplace ▸ place_lt (by decide)
    exact ⟨hlt, (hsame.live hscan.numbered hlt).mpr hlive, hsame.numbered hscan.numbered⟩

theorem run_ready (hc : Ready c) (h : Transition.run step c es = some c') : Ready c' := by
  have hguard : Transition.Guarded step (fun _ _ => True) c es :=
    Transition.guarded_of_forall fun _ _ _ => trivial
  exact Transition.inv_of_run (fun _ _ _ hready _ hstep => step_ready hready hstep) hc hguard h

/-- The slot is in use in every state of the run. -/
def StaysLive (i : Nat) (c : Cpu) (es : List Event) : Prop :=
  Transition.Always step (fun c => Live c i) c es

theorem StaysLive.first (h : StaysLive i c es) : Live c i :=
  Transition.always_first (fun c => Live c i) h

theorem StaysLive.last (h : StaysLive i c es) (hrun : Transition.run step c es = some c') :
    Live c' i :=
  Transition.always_last (fun c => Live c i) h hrun

/-- The selections of a run are the scans of one rotation. -/
theorem run_rotation (hc : Ready c) (h : Transition.run step c es = some c') (ha : a < maxTaskNum)
    (hb : b < maxTaskNum) (hla : StaysLive a c es) (hlb : StaysLive b c es) :
    ∃ scans, Rotation maxTaskNum c.current scans c'.current ∧
      scans.map Prod.snd = selections c es ∧ ∀ x ∈ scans, x.1 a ∧ x.1 b := by
  induction es generalizing c with
  | nil =>
      obtain rfl := Option.some.inj h
      exact ⟨[], rfl, rfl, by simp⟩
  | cons e es ih =>
      obtain ⟨c₂, hstep, hrun⟩ := Transition.run_cons_eq_some h
      obtain ⟨scans, hrot, hsel, hlive⟩ :=
        ih (step_ready hc hstep) hrun (hla.2 c₂ hstep) (hlb.2 c₂ hstep)
      have hselections : selections c (e :: es) = (selection c e).toList ++ selections c₂ es := by
        rw [selections, hstep]
      rcases step_cases hc hstep with ⟨hno, hcur, -, -⟩ | ⟨c₁, hat, hscan, hcur, -, hnext, hsame⟩
      · refine ⟨scans, hcur ▸ hrot, ?_, hlive⟩
        rw [hselections, hsel, selection, hno]
        rfl
      · have hlive₁ : ∀ i < maxTaskNum, StaysLive i c₂ es → Live c₁ i := by
          intro i hi hl
          exact (hsame.live hscan.numbered hi).mp hl.first
        refine ⟨(Live c₁, c₂.current) :: scans, ⟨hcur ▸ nextTask_isNext hscan hnext, hrot⟩, ?_, ?_⟩
        · rw [hselections, selection, hat, Option.bind_some, hnext, List.map_cons, hsel]
          rfl
        · intro x hx
          rcases List.mem_cons.mp hx with rfl | hx
          · exact ⟨hlive₁ a ha (hla.2 c₂ hstep), hlive₁ b hb (hlb.2 c₂ hstep)⟩
          · exact hlive x hx

/-- In a run from `c` the events `mid` lie between two selections of `a` that follow each other;
`c₂` is the state after the first one. -/
structure Turn (c : Cpu) (a : Nat) (pre mid : List Event) (c₂ : Cpu) : Prop where
  first : ∃ e c₁, Transition.run step c pre = some c₁ ∧ step c₁ e = some c₂ ∧ selection c₁ e = some a
  between : a ∉ selections c₂ mid
  last : ∃ e c₃ c₄, Transition.run step c₂ mid = some c₃ ∧ step c₃ e = some c₄ ∧
    selection c₃ e = some a

/-- An event that calls `schedule` selects the task that runs next. -/
theorem selection_spec (hc : Ready c) (h : step c e = some c') (hsel : selection c e = some a) :
    c'.current = a ∧ ∃ c₁, Scanning c₁ ∧ c₁.current = c.current ∧ nextTask c₁ = some a ∧
      ∀ i < maxTaskNum, i ≠ c.current → (Live c₁ i ↔ Live c i) := by
  rw [selection] at hsel
  rcases step_cases hc h with ⟨hno, -⟩ | ⟨c₁, hat, hscan, hcur, hlive, hnext, -⟩
  · rw [hno] at hsel
    exact absurd hsel (by simp)
  · rw [hat, Option.bind_some, hnext] at hsel
    obtain rfl := Option.some.inj hsel
    exact ⟨rfl, c₁, hscan, hcur, hnext, hlive⟩

theorem Turn.count_eq_one {pre mid : List Event} {c₂ : Cpu} (hc : Ready c) (h : Turn c a pre mid c₂)
    (hb : b < maxTaskNum) (hab : b ≠ a) (hla : StaysLive a c₂ mid) (hlb : StaysLive b c₂ mid) :
    (selections c₂ mid).count b = 1 := by
  obtain ⟨e, c₁, hpre, hfirst, hsel⟩ := h.first
  obtain ⟨e', c₃, c₄, hmid, hlast, hsel'⟩ := h.last
  have hc₁ := run_ready hc hpre
  have hc₂ := step_ready hc₁ hfirst
  have hc₃ := run_ready hc₂ hmid
  obtain ⟨rfl, -⟩ := selection_spec hc₁ hfirst hsel
  obtain ⟨scans, hrot, hmap, hlive⟩ := run_rotation hc₂ hmid hc₂.inRange hb hla hlb
  obtain ⟨-, c₅, hscan, hcur, hnext, hkeep⟩ := selection_spec hc₃ hlast hsel'
  have hback := nextTask_isNext hscan hnext
  rw [hcur] at hback
  rw [← hmap]
  apply hrot.count_eq_one hc₂.inRange hb hab _ hlive hback
  · -- `b` is in use unless it is the task that has just ended
    by_cases hbc : b = c₃.current
    · exact Or.inr hbc.symm
    · exact Or.inl ((hkeep b hb hbc).mpr (hlb.last hmid))
  · intro x hx heq
    apply h.between
    rw [← hmap, ← heq]
    exact List.mem_map_of_mem hx

/-- Between two selections of a task every other task is selected exactly once, if both stay in
use, and `schedule` finds a task as long as there is one. -/
theorem schedule_round_robin (hc : Ready c) :
    (∀ a b pre mid c₂, Turn c a pre mid c₂ → b < maxTaskNum → b ≠ a → StaysLive a c₂ mid →
      StaysLive b c₂ mid → (selections c₂ mid).count b = 1) ∧
    ∀ c', (∃ i < maxTaskNum, Live c' i) → nextTask c' ≠ none := by
  constructor
  · intro a b pre mid c₂ hturn hb hab hla hlb
    exact hturn.count_eq_one hc hb hab hla hlb
  · rintro c' ⟨i, hi, hlive⟩ hnone
    exact nextTask_none hnone hi hlive

/-- Tasks 0 to 2 at the end of their time, of which the first is running. -/
def threeTasks : Cpu where
  taskArr i := ⟨0, 0, 0, 0, i, if i < 3 then taskPresent else 0, 1⟩
  current := 0
  tssEsp0 := 0
  tssSs0 := 0
  cr3 := 0
  esp := 0
  secs := 0
  freqCounter := 0

theorem ready_threeTasks : Ready threeTasks := by
  refine ⟨by decide, by decide, fun i _ hi => ⟨rfl, Or.inl ?_⟩⟩
  have hlt : i < 3 := by
    by_contra hge
    exact hi (if_neg hge)
  exact if_pos hlt

/-- Task 0 exits, then task 1 and task 2 lose the processor. -/
theorem schedule_round_robin_sample : ∃ c₂, step threeTasks (.exit 0) = some c₂ ∧
    selections c₂ [.timer 0] = [2] ∧ (selections c₂ [.timer 0]).count 2 = 1 := by
  have hturn : ∀ c₂, step threeTasks (.exit 0) = some c₂ → Turn threeTasks 1 [] [.timer 0] c₂ ∧
      StaysLive 1 c₂ [.timer 0] ∧ StaysLive 2 c₂ [.timer 0] := by
    intro c₂ h
    obtain rfl := Option.some.inj h
    refine ⟨⟨⟨.exit 0, threeTasks, rfl, rfl, by decide⟩, by decide, .timer 0, ?_⟩, ?_, ?_⟩
    · exact ⟨_, _, rfl, rfl, by decide⟩
    · refine ⟨by decide, fun c₃ h₃ => ?_⟩
      obtain rfl := Option.some.inj h₃
      change Live _ 1
      decide
    · refine ⟨by decide, fun c₃ h₃ => ?_⟩
      obtain rfl := Option.some.inj h₃
      change Live _ 2
      decide
  obtain ⟨c₂, hstep⟩ : ∃ c₂, step threeTasks (.exit 0) = some c₂ := ⟨_, rfl⟩
  obtain ⟨hturn, hla, hlb⟩ := hturn c₂ hstep
  refine ⟨c₂, hstep, ?_, (schedule_round_robin ready_threeTasks).1 1 2 [] [.timer 0] c₂ hturn
    (by decide) (by decide) hla hlb⟩
  obtain rfl := Option.some.inj hstep
  decide

end TsOs.Tasking
