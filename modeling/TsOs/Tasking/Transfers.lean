import TsOs.Tasking.RoundRobin

/-!
# Transfers of control

A trap from user mode switches to the stack that `tss_entry.esp0` names. `context_switch`
sets the field to the stack of the task it switches to. `spawn_ram` calls the assembly
part directly and leaves the value of `setup_tss` there.
-/

namespace TsOs.Tasking
open Paging

variable {k k' : Kernel} {c c' c₀ : Cpu} {img : Image} {e : Event} {es : List Event}
  {retSyscall : Nat}

/-- The next trap from user mode lands on the stack of the running task. -/
def EntersOwnStack (c : Cpu) : Prop := c.tssEsp0 = c.task.esp0

instance (c : Cpu) : Decidable (EntersOwnStack c) := inferInstanceAs (Decidable (_ = _))

/-- The states of a run in which control has just come to another task. -/
def arrivals : Cpu → List Event → List Cpu
  | _, [] => []
  | c, e :: es =>
      match step c e with
      | some c' => if c'.current = c.current then arrivals c' es else c' :: arrivals c' es
      | none => []

/-- The routine that calls `__context_switch`. -/
inductive Caller where
  | spawnRam
  | contextSwitch
  deriving DecidableEq

/-- The transfers of control of a run that starts with the one of `spawn_ram`, with the state
after each. -/
def transfers (c₀ : Cpu) (es : List Event) : List (Caller × Cpu) :=
  (.spawnRam, c₀) :: (arrivals c₀ es).map (.contextSwitch, ·)

/-! ## Later transfers -/

theorem setTask_esp0 {f : Task → Task} (hf : ∀ t, (f t).esp0 = t.esp0) (c : Cpu) (i : Nat) :
    ((c.setTask f).taskArr i).esp0 = (c.taskArr i).esp0 := by
  rw [Cpu.setTask_arr]
  split
  next hi => rw [hf, Cpu.task, hi]
  next => rfl

/-- The saved registers are not the field for the TSS. -/
theorem switchStacks_esp0 (c : Cpu) (new : Nat) :
    (switchStacks c new).task.esp0 = (c.taskArr new).esp0 := by
  have hcr3 := setTask_esp0 (f := fun t => { t with phyDir := c.cr3 }) (fun _ => rfl) c new
  have hesp := setTask_esp0 (f := fun t => { t with esp := c.esp }) (fun _ => rfl)
    (c.setTask fun t => { t with phyDir := c.cr3 }) new
  exact hesp.trans hcr3

theorem contextSwitch_esp0 {new : Option Nat} (h : contextSwitch c new = some c')
    (hne : c'.current ≠ c.current) : EntersOwnStack c' := by
  cases new with
  | none => exact absurd h (by simp [contextSwitch])
  | some new =>
      rw [contextSwitch] at h
      split at h
      next =>
        obtain rfl := Option.some.inj h
        exact absurd rfl hne
      next =>
        obtain rfl := Option.some.inj h
        exact (switchStacks_esp0 _ new).symm

theorem schedule_esp0 (h : schedule c = some c') (hne : c'.current ≠ c.current) :
    EntersOwnStack c' := by
  simp only [schedule] at h
  split at h
  next => exact contextSwitch_esp0 h hne
  next => exact contextSwitch_esp0 h hne

/-- An event that gives the processor to another task does it through `context_switch`. -/
theorem step_esp0 (h : step c e = some c') (hne : c'.current ≠ c.current) : EntersOwnStack c' := by
  cases e with
  | timer esp =>
      have hcur : (timerHandler { c with esp := esp }).current = c.current := by
        simp only [timerHandler]
        split
        next => exact (countTick_arr _).2
        next => exact (countTick_arr _).2
      simp only [step, condSchedule] at h
      split at h
      next =>
        apply schedule_esp0 h
        rwa [hcur]
      next =>
        obtain rfl := Option.some.inj h
        exact absurd hcur hne
  | exit esp => exact schedule_esp0 h hne
  | create task =>
      obtain ⟨_, -, -, -, -, -, hc'⟩ := enterTask_spec h
      exact absurd (by rw [hc']) hne

theorem arrivals_esp0 (h : c' ∈ arrivals c es) : EntersOwnStack c' := by
  induction es generalizing c with
  | nil => exact absurd h List.not_mem_nil
  | cons e es ih =>
      cases hstep : step c e with
      | none =>
          simp only [arrivals, hstep] at h
          exact absurd h List.not_mem_nil
      | some c₁ =>
          simp only [arrivals, hstep] at h
          split at h
          next => exact ih h
          next hne =>
            rcases List.mem_cons.mp h with rfl | hrest
            · exact step_esp0 hstep hne
            · exact ih hrest

/-! ## The start -/

/-- `load_task` makes an entry of `task_arr`. -/
theorem loadTask_enterTask {ρ : Nat → Tag} {F : Nat} (hs : Sound ρ F k) (himg : img.BelowStack)
    (h : loadTask retSyscall pgDir0 k img = some k') (c : Cpu) :
    ∃ tid D task, Filled task D tid ∧ getNextTid k.taskArr = some tid ∧
      enterTask { c with taskArr := k.taskArr } task = some { c with taskArr := k'.taskArr } := by
  obtain ⟨-, tid, task, D, -, -, hnext, harr, hfilled, -⟩ := loadTask_sound hs himg h
  refine ⟨tid, D, task, hfilled, hnext, ?_⟩
  simp only [enterTask, hnext, harr]
  exact if_pos ⟨hfilled.tid, hfilled.state⟩

/-- The state after `spawn_ram`: two tasks, the new one running with the TSS of `setup_tss`. -/
theorem startTasks_spec (hb : Booted k) (himg : img.BelowStack)
    (h : startTasks retSyscall k c img = some c₀) : Ready c₀ ∧ ¬EntersOwnStack c₀ := by
  rw [startTasks] at h
  obtain ⟨k₀, hinit, h⟩ := Option.bind_eq_some_iff.mp h
  obtain ⟨current, hcur, h⟩ := Option.bind_eq_some_iff.mp h
  rw [spawnRam] at h
  obtain ⟨new, hnew, h⟩ := Option.bind_eq_some_iff.mp h
  obtain ⟨k₁, hload, h⟩ := Option.bind_eq_some_iff.mp h
  obtain rfl := Option.some.inj h
  obtain ⟨⟨ρ, F, hs⟩, honly, hcur₀, hfirst⟩ := initTask0_sound hb hinit
  obtain rfl : 0 = current := Option.some.inj (hcur₀.symm.trans hcur)
  -- the state before the image is loaded
  let c₁ : Cpu := setupTss { c with taskArr := k₀.taskArr, current := 0, cr3 := pgDir0 * frameSize }
  have hready₁ : Ready c₁ := by
    refine ⟨(by decide : 0 < maxTaskNum), hs.first.1.2, fun i hi hlive => ?_⟩
    obtain rfl := honly i ⟨hi, hlive⟩
    exact ⟨hfirst.tid, Or.inl hfirst.state⟩
  obtain ⟨tid, D, task, hfilled, hnext, henter⟩ := loadTask_enterTask hs himg hload c₁
  obtain rfl : tid = new := Option.some.inj (hnext.symm.trans hnew)
  have hready₂ : Ready { c₁ with taskArr := k₁.taskArr } := step_ready (e := .create task) hready₁ henter
  obtain ⟨n, hlt, -, hnext', -, -, harr⟩ := enterTask_spec henter
  obtain rfl : tid = n := Option.some.inj (hnext.symm.trans hnext')
  have hupdate : k₁.taskArr = Function.update k₀.taskArr tid task := congrArg Cpu.taskArr harr
  have hrecord : k₁.taskArr tid = task := by
    rw [hupdate, Function.update_self]
  have hsame := switchStacks_same { c₁ with taskArr := k₁.taskArr } tid
  refine ⟨⟨hlt, ?_, hsame.numbered hready₂.numbered⟩, fun hown => ?_⟩
  · refine (hsame.live hready₂.numbered hlt).mpr ?_
    change (k₁.taskArr tid).state ≠ 0
    rw [hrecord, hfilled.state]
    decide
  · rw [EntersOwnStack, switchStacks_esp0] at hown
    change 0xFFFFFF00 = (k₁.taskArr tid).esp0 at hown
    rw [hrecord, hfilled.esp0] at hown
    exact absurd hown (by decide)

/-- Control arrives with the right stack for traps exactly when it comes from `context_switch`. -/
theorem transfer_entersOwnStack_iff (hb : Booted k) (himg : img.BelowStack)
    (h : startTasks retSyscall k c img = some c₀) (es : List Event) :
    ∀ t ∈ transfers c₀ es, EntersOwnStack t.2 ↔ t.1 = .contextSwitch := by
  intro t ht
  rcases List.mem_cons.mp ht with rfl | hlater
  · constructor
    · exact fun hown => absurd hown (startTasks_spec hb himg h).2
    · exact fun heq => absurd heq (by simp)
  · obtain ⟨c', hc', rfl⟩ := List.mem_map.mp hlater
    exact ⟨fun _ => rfl, fun _ => arrivals_esp0 hc'⟩

/-- A processor with cleared registers. -/
def bootCpu : Cpu := ⟨fun _ => ⟨0, 0, 0, 0, 0, 0, 0⟩, 0, 0, 0, 0, 0, 0, 0⟩

/-- The running task, whether traps land on its stack, and where it goes on after ten ticks. -/
theorem startTasks_sample : ∃ c₀, startTasks 0 bootKernel bootCpu sampleImage = some c₀ ∧
    c₀.current = 1 ∧ c₀.tssEsp0 = 0xFFFFFF00 ∧
    (arrivals c₀ (List.replicate 10 (.timer 0))).map Cpu.current = [0] := by
  have heval : (startTasks 0 bootKernel bootCpu sampleImage).elim false (fun c₀ =>
      decide (c₀.current = 1 ∧ c₀.tssEsp0 = 0xFFFFFF00 ∧
        (arrivals c₀ (List.replicate 10 (.timer 0))).map Cpu.current = [0])) = true := by
    simp only [startTasks, spawnRam, loadTask_eq (by decide : pgDir0 < userFrame)]
    decide +kernel
  cases hrun : startTasks 0 bootKernel bootCpu sampleImage with
  | none => exact absurd heval (by rw [hrun]; decide)
  | some c₀ =>
      rw [hrun] at heval
      exact ⟨c₀, rfl, of_decide_eq_true heval⟩

theorem transfer_entersOwnStack_sample : ∃ c₀ c₁,
    startTasks 0 bootKernel bootCpu sampleImage = some c₀ ∧
    (Caller.spawnRam, c₀) ∈ transfers c₀ (List.replicate 10 (.timer 0)) ∧ ¬EntersOwnStack c₀ ∧
    (Caller.contextSwitch, c₁) ∈ transfers c₀ (List.replicate 10 (.timer 0)) ∧ EntersOwnStack c₁ := by
  obtain ⟨c₀, hstart, -, -, harrive⟩ := startTasks_sample
  obtain ⟨c₁, hc₁⟩ : ∃ c₁, c₁ ∈ arrivals c₀ (List.replicate 10 (.timer 0)) := by
    apply List.exists_mem_of_ne_nil
    rintro hnil
    rw [hnil] at harrive
    exact absurd harrive (by decide)
  have himg : sampleImage.BelowStack := belowStack_sampleImage _ (by simp)
  have hiff := transfer_entersOwnStack_iff booted_bootKernel himg hstart (List.replicate 10 (.timer 0))
  have hfirst : (Caller.spawnRam, c₀) ∈ transfers c₀ (List.replicate 10 (.timer 0)) :=
    List.mem_cons_self
  have hlater : (Caller.contextSwitch, c₁) ∈ transfers c₀ (List.replicate 10 (.timer 0)) :=
    List.mem_cons_of_mem _ (List.mem_map_of_mem hc₁)
  exact ⟨c₀, c₁, hstart, hfirst, fun hown => absurd ((hiff _ hfirst).mp hown) (by simp), hlater,
    (hiff _ hlater).mpr rfl⟩

/-- Control comes to task 1 while the TSS still names the stack that `setup_tss` put there. -/
theorem spawnRam_tss_stale : ∃ c₀, startTasks 0 bootKernel bootCpu sampleImage = some c₀ ∧
    (Caller.spawnRam, c₀) ∈ transfers c₀ [] ∧ c₀.current = 1 ∧ c₀.tssEsp0 = 0xFFFFFF00 ∧
    c₀.tssEsp0 ≠ c₀.task.esp0 := by
  obtain ⟨c₀, hstart, hcur, htss, -⟩ := startTasks_sample
  have himg : sampleImage.BelowStack := belowStack_sampleImage _ (by simp)
  exact ⟨c₀, hstart, List.mem_cons_self, hcur, htss, (startTasks_spec booted_bootKernel himg hstart).2⟩

end TsOs.Tasking
