import TsOs.Library.Transition
import TsOs.Tasking.Contexts

/-!
# Runs with any number of tasks

Between two switches there may be any work of other tasks and any number of switches. A
task goes on behind its call of `__context_switch` as long as the others keep to their
own memory.

The stacks of two tasks may have one linear address, if their directories give it different
places.
-/

namespace TsOs.Contexts
open Ia32

variable {tr : Translation} {alu : State → Word} {current t : Word} {s u : State} {m m' : Memory} {c : Context}
  {b : Word}

/-- The tasks by the addresses of their records: the directory of each, the linear addresses of its stack, and
the places in memory of what its directory shows. -/
structure Layout where
  tasks : Set Word
  dir : Word → Word
  stack : Word → Set Word
  place : Word → Word → Word

namespace Layout

/-- `current` and the records, which every task sees. -/
def shared (L : Layout) (current : Word) : Set Word := {b | b ∈ span current 4 ∨ ∃ t ∈ L.tasks, b ∈ record t}

/-- The addresses that a task uses. -/
def used (L : Layout) (current t : Word) : Set Word := L.shared current ∪ L.stack t

/-- The bytes of the memory that belong to a task: its record and its stack. -/
def own (L : Layout) (t : Word) : Set Word := L.place t '' (record t ∪ L.stack t)

end Layout

/-- Tasks that see the records at the same places, and have them and their stacks apart from each other. A task
is mapped in a memory that has its page tables, which lie elsewhere. -/
structure Tasks (tr : Translation) (current : Word) extends Layout where
  Maps : Memory → Word → Prop
  translates : ∀ t ∈ tasks, ∀ m, Maps m t → Set.EqOn (tr m (dir t)) (place t) (toLayout.used current t)
  tables : ∀ m m', (∀ p, (∀ t ∈ tasks, p ∉ place t '' toLayout.used current t) → m' p = m p) →
    ∀ t ∈ tasks, Maps m t → Maps m' t
  injOn : ∀ t ∈ tasks, Set.InjOn (place t) (toLayout.used current t)
  shows : ∀ t ∈ tasks, ∀ t' ∈ tasks, Set.EqOn (place t) (place t') (toLayout.shared current)
  record_apart : ∀ t ∈ tasks, ∀ b ∈ record t, b ∉ span current 4
  stack_apart : ∀ t ∈ tasks, ∀ b ∈ stack t, b ∉ toLayout.shared current
  apart : ∀ t ∈ tasks, ∀ t' ∈ tasks, t ≠ t' → ∀ p ∈ toLayout.own t, p ∉ toLayout.own t'

/-- The processor, and what the tasks that do not run have left: the context in which they go on and
the memory at that time. No step reads the second part. -/
structure System where
  cpu : State
  left : Word → Option (Context × Memory)

/-- Work of the running task, a call of `__context_switch`, and the creation of a task. -/
inductive Event
  | work (f : State → State)
  | switch
  | create (t : Word) (c : Context) (f : State → State)

/-- The task that runs, and the one that a call would change to. -/
def System.running (tr : Translation) (current : Word) (σ : System) : Word :=
  Contexts.running current (σ.cpu.linear tr)

def System.newTask (tr : Translation) (σ : System) : Word := Contexts.newTask (σ.cpu.linear tr)

/-- What the tasks have left after a switch. -/
def leftBySwitch (tr : Translation) (current : Word) (σ : System) : Word → Option (Context × Memory) :=
  Function.update (Function.update σ.left (σ.running tr current)
    (some (callContext current (σ.cpu.linear tr), σ.cpu.mem))) (σ.newTask tr) none

def step (tr : Translation) (alu : State → Word) (current : Word) (σ : System) : Event → Option System
  | .work f => some { σ with cpu := f σ.cpu }
  | .switch => some ⟨contextSwitch tr alu current σ.cpu, leftBySwitch tr current σ⟩
  | .create t c f => some
      { cpu := f σ.cpu
        left := Function.update σ.left t (some (c, (f σ.cpu).mem)) }

theorem leftBySwitch_new (σ : System) : leftBySwitch tr current σ (σ.newTask tr) = none :=
  Function.update_self ..

theorem leftBySwitch_running {σ : System} (h : σ.newTask tr ≠ σ.running tr current) :
    leftBySwitch tr current σ (σ.running tr current) =
      some (callContext current (σ.cpu.linear tr), σ.cpu.mem) :=
  (Function.update_of_ne h.symm _ _).trans (Function.update_self ..)

theorem leftBySwitch_of_ne {σ : System} (hnew : t ≠ σ.newTask tr) (hold : t ≠ σ.running tr current) :
    leftBySwitch tr current σ t = σ.left t :=
  (Function.update_of_ne hnew _ _).trans (Function.update_of_ne hold _ _)

namespace Tasks

/-- The running task keeps to its directory, and leaves `current`, the mappings and the other tasks alone, apart
from the ones that it creates. -/
structure Local (T : Tasks tr current) (created : Set Word) (s s' : State) : Prop where
  target : running current (s'.linear tr) = running current (s.linear tr)
  cr3 : s'.cr3 = s.cr3
  maps : ∀ t ∈ T.tasks, t ∉ created → T.Maps s.mem t → T.Maps s'.mem t
  others : ∀ t ∈ T.tasks, t ≠ running current (s.linear tr) → t ∉ created → ∀ p ∈ T.own t, s'.mem p = s.mem p

/-- A task whose context is on its own stack. -/
structure Ready (T : Tasks tr current) (m : Memory) (t : Word) (c : Context) : Prop where
  mem : t ∈ T.tasks
  cr3 : c.cr3 = T.dir t
  frame : span (c.reg .esp - 40) 40 ⊆ T.stack t
  maps : T.Maps m t
  suspended : Suspended (shown tr m c.cr3) (shown tr m c.cr3) t c

/-- The steps that keep to their own memory. A task calls `__context_switch` on its own stack, and for a
task that is suspended. -/
def Allowed (T : Tasks tr current) (σ : System) : Event → Prop
  | .work f => T.Local ∅ σ.cpu (f σ.cpu)
  | .switch => callFrame (σ.cpu.linear tr) ⊆ T.stack (σ.running tr current) ∧ (σ.left (σ.newTask tr)).isSome
  | .create t c f => t ≠ σ.running tr current ∧ σ.left t = none ∧ T.Ready (f σ.cpu).mem t c ∧
      T.Local {t} σ.cpu (f σ.cpu)

/-- What a suspended task has left is still there. The words that the switch has pushed are not part
of it. -/
structure Kept (T : Tasks tr current) (s : State) (t : Word) (c : Context) (m : Memory) : Prop where
  ready : T.Ready s.mem t c
  rest : ∀ b ∈ T.stack t, b ∉ span (c.reg .esp - 40) 36 → s.mem (T.place t b) = m (T.place t b)

structure Sound (T : Tasks tr current) (σ : System) : Prop where
  task : σ.running tr current ∈ T.tasks
  cr3 : σ.cpu.cr3 = T.dir (σ.running tr current)
  maps : T.Maps σ.cpu.mem (σ.running tr current)
  active : σ.left (σ.running tr current) = none
  kept : ∀ t c m, σ.left t = some (c, m) → T.Kept σ.cpu t c m

variable {T : Tasks tr current} {σ σ' σ₁ : System} {e : Event} {es : List Event} {t' p : Word}

/-! ### Places -/

theorem mem_own (hb : b ∈ record t ∪ T.stack t) : T.place t b ∈ T.own t := ⟨b, hb, rfl⟩

theorem record_shared (ht : t ∈ T.tasks) (hb : b ∈ record t) : b ∈ T.shared current := .inr ⟨t, ht, hb⟩

theorem own_used (ht : t ∈ T.tasks) (hb : b ∈ record t ∪ T.stack t) : b ∈ T.used current t :=
  hb.imp (record_shared ht) id

theorem Maps.shown (h : T.Maps m t) (ht : t ∈ T.tasks) (hb : b ∈ T.used current t) :
    shown tr m (T.dir t) b = m (T.place t b) :=
  congrArg m (T.translates t ht m h hb)

/-- `current` is at no place that belongs to a task. -/
theorem own_current (ht : t ∈ T.tasks) (ht' : t' ∈ T.tasks) (hp : p ∈ T.own t) :
    p ∉ T.place t' '' span current 4 := by
  obtain ⟨b, hb, rfl⟩ := hp
  rintro ⟨x, hx, hplace⟩
  have hshared : x ∈ T.shared current := .inl hx
  rw [T.shows t' ht' t ht hshared] at hplace
  obtain rfl := T.injOn t ht (.inl hshared) (own_used ht hb) hplace
  rcases hb with hb | hb
  · exact T.record_apart t ht x hb hx
  · exact T.stack_apart t ht x hb hshared

/-- The records of two tasks are apart. -/
theorem record_disjoint (ht : t ∈ T.tasks) (ht' : t' ∈ T.tasks) (hne : t ≠ t') (hb : b ∈ record t) :
    b ∉ record t' := by
  intro hb'
  apply T.apart t ht t' ht' hne _ (mem_own (.inl hb))
  rw [T.shows t ht t' ht' (record_shared ht hb)]
  exact mem_own (.inl hb')

/-- What a call on a task's own stack writes is at no place of another task. -/
theorem own_saved (ht : t ∈ T.tasks) (ht' : t' ∈ T.tasks) (hne : t ≠ t') (hrunning : running current s = t')
    (hframe : callFrame s ⊆ T.stack t') (hp : p ∈ T.own t) : p ∉ T.place t' '' savedBytes current s := by
  rintro ⟨x, (hx | hx) | hx, rfl⟩
  · rw [hrunning] at hx
    exact T.apart t ht t' ht' hne _ hp (mem_own (.inl hx))
  · exact T.apart t ht t' ht' hne _ hp (mem_own (.inr (hframe (span_mono hx (by decide)))))
  · exact own_current ht ht' hp ⟨x, hx, rfl⟩

theorem callBytes_used (ht : running current s ∈ T.tasks) (ht' : newTask s ∈ T.tasks)
    (hframe : callFrame s ⊆ T.stack (running current s)) :
    callBytes current s ⊆ T.used current (running current s) := by
  rintro b ((hb | hb) | (hb | hb))
  · exact .inl (.inl hb)
  · exact .inl (record_shared ht hb)
  · exact .inl (record_shared ht' hb)
  · exact .inr (hframe hb)

/-- Writes at the places of one task keep the mappings. -/
theorem Maps.of_written {R : Set Word} (h : T.Maps m t) (ht : t ∈ T.tasks) (ht' : t' ∈ T.tasks)
    (hR : R ⊆ T.used current t') (hm : ∀ p, p ∉ T.place t' '' R → m' p = m p) : T.Maps m' t :=
  T.tables m m' (fun p hp => hm p fun hin => hp t' ht' (Set.image_mono hR hin)) t ht h

theorem Maps.steady {R : Set Word} (h : T.Maps m t) (ht : t ∈ T.tasks) (hR : R ⊆ T.used current t) :
    Steady tr m (T.dir t) (T.place t) R :=
  ⟨(T.injOn t ht).mono hR, fun m' hm' => (T.translates t ht m' (h.of_written ht ht hR hm')).mono hR⟩

/-- A directory shows the bytes of its task as they were, as long as nobody writes them. -/
theorem Maps.shown_congr (h : T.Maps m t) (h' : T.Maps m' t) (ht : t ∈ T.tasks)
    (hm : ∀ p ∈ T.own t, m' p = m p) (hb : b ∈ record t ∪ T.stack t) :
    Ia32.shown tr m' (T.dir t) b = Ia32.shown tr m (T.dir t) b := by
  rw [h.shown ht (own_used ht hb), h'.shown ht (own_used ht hb)]
  exact hm _ (mem_own hb)

theorem Ready.congr (h : T.Ready m t c) (hmaps : T.Maps m' t) (hm : ∀ p ∈ T.own t, m' p = m p) :
    T.Ready m' t c where
  mem := h.mem
  cr3 := h.cr3
  frame := h.frame
  maps := hmaps
  suspended := by
    have hsuspended := h.suspended
    rw [h.cr3] at hsuspended ⊢
    exact hsuspended.congr (fun b hb => h.maps.shown_congr hmaps h.mem hm (.inl hb))
      fun b hb => h.maps.shown_congr hmaps h.mem hm (.inr (h.frame hb))

theorem Kept.congr (h : T.Kept s t c m) (hmaps : T.Maps u.mem t) (hs : ∀ p ∈ T.own t, u.mem p = s.mem p) :
    T.Kept u t c m where
  ready := h.ready.congr hmaps hs
  rest b hb hframe := (hs _ (mem_own (.inr hb))).trans (h.rest b hb hframe)

/-! ### One step -/

theorem Sound.ne_running (h : T.Sound σ) (ht : σ.left t = some (c, m)) : t ≠ σ.running tr current := by
  rintro rfl
  rw [h.active] at ht
  cases ht

theorem Sound.callable (h : T.Sound σ) (hframe : callFrame (σ.cpu.linear tr) ⊆ T.stack (σ.running tr current)) :
    Callable current (σ.cpu.linear tr) where
  frame b hb := ⟨fun hrecord => T.stack_apart _ h.task b (hframe hb) (record_shared h.task hrecord),
    fun hcurrent => T.stack_apart _ h.task b (hframe hb) (.inl hcurrent)⟩
  task := T.record_apart _ h.task

/-- A switch of a sound system to a suspended task. -/
theorem Sound.switched (h : T.Sound σ) (hframe : callFrame (σ.cpu.linear tr) ⊆ T.stack (σ.running tr current))
    (hnew : σ.left (σ.newTask tr) = some (c, m)) :
    Switched tr current (T.place (σ.running tr current)) σ.cpu (contextSwitch tr alu current σ.cpu) c := by
  have hready := (h.kept _ c m hnew).ready
  have hne := h.ne_running hnew
  have hused : callBytes current (σ.cpu.linear tr) ⊆ T.used current (σ.running tr current) :=
    callBytes_used h.task hready.mem hframe
  have hsteady := h.maps.steady h.task hused
  rw [← h.cr3] at hsteady
  refine contextSwitch_switched hsteady (h.callable hframe) ⟨?_, ?_⟩ ?_
  · rintro b hb ((hsave | hsave) | hsave)
    · exact record_disjoint hready.mem h.task hne hb hsave
    · exact T.stack_apart _ h.task b (hframe (span_mono hsave (by decide))) (record_shared hready.mem hb)
    · exact T.record_apart _ hready.mem b hb hsave
  · intro m' hm' b hb
    have hmaps' : T.Maps m' (σ.newTask tr) :=
      hready.maps.of_written hready.mem h.task ((savedBytes_subset _ _).trans hused) hm'
    rw [hready.cr3]
    exact hready.maps.shown_congr hmaps' hready.mem
      (fun p hp => hm' p (own_saved hready.mem h.task hne rfl hframe hp)) (.inr (hready.frame hb))
  · refine hready.suspended.congr (fun b hb => ?_) fun _ _ => rfl
    have hshared : b ∈ T.shared current := record_shared hready.mem hb
    rw [h.cr3, hready.cr3, h.maps.shown h.task (.inl hshared), hready.maps.shown hready.mem (.inl hshared),
      T.shows _ h.task _ hready.mem hshared]

section Switch

variable (h : T.Sound σ) (hframe : callFrame (σ.cpu.linear tr) ⊆ T.stack (σ.running tr current))
  (hnew : σ.left (σ.newTask tr) = some (c, m)) (hs : Switched tr current (T.place (σ.running tr current)) σ.cpu s c)
include h hframe hnew hs

theorem switched_maps (ht : t ∈ T.tasks) (hmaps : T.Maps σ.cpu.mem t) : T.Maps s.mem t :=
  hmaps.of_written ht h.task
    ((savedBytes_subset _ _).trans (callBytes_used h.task (h.kept _ c m hnew).ready.mem hframe)) hs.rest

omit hnew in
/-- A switch leaves the memory of the other tasks alone. -/
theorem switched_rest (ht : t ∈ T.tasks) (hne : t ≠ σ.running tr current) : ∀ p ∈ T.own t, s.mem p = σ.cpu.mem p :=
  fun p hp => hs.rest p (own_saved ht h.task hne rfl hframe hp)

omit hframe in
theorem switched_cr3 : s.cr3 = T.dir (σ.newTask tr) := hs.runs.cr3.trans (h.kept _ c m hnew).ready.cr3

theorem switched_target : running current (s.linear tr) = σ.newTask tr := by
  have hready := (h.kept _ c m hnew).ready
  refine (readWord_of_span fun b hb => ?_).trans hs.target
  have hshared : b ∈ T.shared current := .inl hb
  change shown tr s.mem s.cr3 b = _
  rw [switched_cr3 h hnew hs, (switched_maps h hframe hnew hs hready.mem hready.maps).shown hready.mem (.inl hshared),
    T.shows _ hready.mem _ h.task hshared]

/-- The task that calls `__context_switch` is kept. -/
theorem switched_kept :
    T.Kept s (σ.running tr current) (callContext current (σ.cpu.linear tr)) σ.cpu.mem := by
  have hesp : (callContext current (σ.cpu.linear tr)).reg .esp - 40 = σ.cpu.esp - 36 := by
    change σ.cpu.esp + 4 - 40 = σ.cpu.esp - 36
    bv_omega
  have hmaps := switched_maps h hframe hnew hs h.task h.maps
  have hstack : span (σ.cpu.esp - 36) 40 ⊆ T.stack (σ.running tr current) :=
    fun b hb => hframe (span_mono hb (by decide))
  refine ⟨⟨h.task, h.cr3, ?_, hmaps, ?_⟩, fun b hb hpushed => hs.rest _ ?_⟩
  · rw [hesp]
    exact hstack
  · have hcr3 : (callContext current (σ.cpu.linear tr)).cr3 = T.dir (σ.running tr current) := h.cr3
    rw [hcr3]
    refine hs.suspended.congr (fun b hb => hmaps.shown h.task (own_used h.task (.inl hb))) fun b hb => ?_
    rw [hesp] at hb
    exact hmaps.shown h.task (.inr (hstack hb))
  · rw [hesp] at hpushed
    have hused := callBytes_used h.task (h.kept _ c m hnew).ready.mem hframe
    rintro ⟨x, hx, hplace⟩
    obtain rfl := T.injOn _ h.task (hused (savedBytes_subset _ _ hx)) (.inr hb) hplace
    rcases hx with (hx | hx) | hx
    · exact T.stack_apart _ h.task x hb (record_shared h.task hx)
    · exact hpushed hx
    · exact T.stack_apart _ h.task x hb (.inl hx)

theorem after_switch : T.Sound ⟨s, leftBySwitch tr current σ⟩ := by
  have hready := (h.kept _ c m hnew).ready
  have htarget : System.running tr current ⟨s, leftBySwitch tr current σ⟩ = σ.newTask tr :=
    switched_target h hframe hnew hs
  refine ⟨?_, ?_, ?_, ?_, fun t c' m' ht => ?_⟩
  · rw [htarget]
    exact hready.mem
  · rw [htarget]
    exact switched_cr3 h hnew hs
  · rw [htarget]
    exact switched_maps h hframe hnew hs hready.mem hready.maps
  · rw [htarget]
    exact leftBySwitch_new σ
  · change leftBySwitch tr current σ t = some (c', m') at ht
    have hnewt : t ≠ σ.newTask tr := by
      intro heq
      rw [heq, leftBySwitch_new] at ht
      cases ht
    by_cases hold : t = σ.running tr current
    · rw [hold, leftBySwitch_running (h.ne_running hnew), Option.some.injEq, Prod.mk.injEq] at ht
      obtain ⟨hc, hm⟩ := ht
      rw [← hc, ← hm, hold]
      exact switched_kept h hframe hnew hs
    · rw [leftBySwitch_of_ne hnewt hold] at ht
      have hkept := h.kept t c' m' ht
      exact hkept.congr (switched_maps h hframe hnew hs hkept.ready.mem hkept.ready.maps)
        (switched_rest h hframe hs hkept.ready.mem hold)

end Switch

theorem Sound.after_work (h : T.Sound σ) {f : State → State} (hlocal : T.Local ∅ σ.cpu (f σ.cpu)) :
    T.Sound { σ with cpu := f σ.cpu } := by
  have htarget : System.running tr current { σ with cpu := f σ.cpu } = σ.running tr current := hlocal.target
  refine ⟨?_, ?_, ?_, ?_, fun t c m ht => ?_⟩
  · rw [htarget]
    exact h.task
  · rw [htarget]
    exact hlocal.cr3.trans h.cr3
  · rw [htarget]
    exact hlocal.maps _ h.task (fun hf => hf) h.maps
  · rw [htarget]
    exact h.active
  · have hkept := h.kept t c m ht
    exact hkept.congr (hlocal.maps t hkept.ready.mem (fun hf => hf) hkept.ready.maps)
      (hlocal.others t hkept.ready.mem (h.ne_running ht) fun hf => hf)

theorem Sound.after_create (h : T.Sound σ) {f : State → State} (hne : t ≠ σ.running tr current)
    (hready : T.Ready (f σ.cpu).mem t c) (hlocal : T.Local {t} σ.cpu (f σ.cpu)) :
    T.Sound ⟨f σ.cpu, Function.update σ.left t (some (c, (f σ.cpu).mem))⟩ := by
  have htarget : System.running tr current ⟨f σ.cpu, Function.update σ.left t (some (c, (f σ.cpu).mem))⟩ =
      σ.running tr current := hlocal.target
  refine ⟨?_, ?_, ?_, ?_, fun t' c' m' ht' => ?_⟩
  · rw [htarget]
    exact h.task
  · rw [htarget]
    exact hlocal.cr3.trans h.cr3
  · rw [htarget]
    exact hlocal.maps _ h.task hne.symm h.maps
  · rw [htarget]
    exact (Function.update_of_ne hne.symm _ _).trans h.active
  · change Function.update σ.left t (some (c, (f σ.cpu).mem)) t' = some (c', m') at ht'
    by_cases heq : t' = t
    · rw [heq, Function.update_self, Option.some.injEq, Prod.mk.injEq] at ht'
      obtain ⟨rfl, rfl⟩ := ht'
      rw [heq]
      exact ⟨hready, fun _ _ _ => rfl⟩
    · rw [Function.update_of_ne heq] at ht'
      have hkept := h.kept t' c' m' ht'
      exact hkept.congr (hlocal.maps t' hkept.ready.mem heq hkept.ready.maps)
        (hlocal.others t' hkept.ready.mem (h.ne_running ht') heq)

theorem step_sound (h : T.Sound σ) (hallowed : T.Allowed σ e) (hstep : step tr alu current σ e = some σ') :
    T.Sound σ' := by
  cases e with
  | work f =>
      obtain rfl := Option.some.inj hstep
      exact h.after_work hallowed
  | switch =>
      obtain ⟨hframe, hsome⟩ := hallowed
      obtain ⟨⟨c, m⟩, hnew⟩ := Option.isSome_iff_exists.mp hsome
      obtain rfl := Option.some.inj hstep
      exact after_switch h hframe hnew (h.switched hframe hnew)
  | create t c f =>
      obtain ⟨hne, -, hready, hlocal⟩ := hallowed
      obtain rfl := Option.some.inj hstep
      exact h.after_create hne hready hlocal

/-- What a task has left stays while no switch is for it. -/
theorem step_left (h : T.Sound σ) (hallowed : T.Allowed σ e) (ht : σ.left t = some (c, m))
    (hother : e = .switch → σ.newTask tr ≠ t) (hstep : step tr alu current σ e = some σ') :
    σ'.left t = some (c, m) := by
  cases e with
  | work f =>
      obtain rfl := Option.some.inj hstep
      exact ht
  | switch =>
      obtain rfl := Option.some.inj hstep
      exact (leftBySwitch_of_ne (hother rfl).symm (h.ne_running ht)).trans ht
  | create t' c' f =>
      obtain ⟨-, hfree, -⟩ := hallowed
      obtain rfl := Option.some.inj hstep
      have hne : t ≠ t' := by
        rintro rfl
        rw [hfree] at ht
        cases ht
      change Function.update σ.left t' _ t = _
      rw [Function.update_of_ne hne]
      exact ht

/-- A call of `__context_switch` in `s` comes back in `s'`. The registers `eax` and `ecx` belong to
the routine, and the stack, as the task sees it, is as it was except below the call. -/
structure Returns (T : Tasks tr current) (s s' : State) : Prop where
  reg : ∀ r, r ≠ .eax → r ≠ .ecx → r ≠ .esp → s'.reg r = s.reg r
  esp : s'.esp = s.esp + 4
  eip : s'.eip = (s.linear tr).top
  eflags : s'.eflags = s.eflags
  cr3 : s'.cr3 = s.cr3
  target : running current (s'.linear tr) = running current (s.linear tr)
  stack : ∀ b ∈ T.stack (running current (s.linear tr)), b ∉ span (s.esp - 36) 36 →
    shown tr s'.mem s'.cr3 b = shown tr s.mem s.cr3 b

/-- A switch to a task takes it back to where it was. -/
theorem Sound.returns {σ₀ : System} (h₀ : T.Sound σ₀) (h : T.Sound σ) (hallowed : T.Allowed σ .switch)
    (hleft : σ.left (σ.newTask tr) = some (callContext current (σ₀.cpu.linear tr), σ₀.cpu.mem))
    (hnew : σ.newTask tr = σ₀.running tr current) : T.Returns σ₀.cpu (contextSwitch tr alu current σ.cpu) := by
  obtain ⟨hframe, -⟩ := hallowed
  have hs : Switched tr current _ σ.cpu (contextSwitch tr alu current σ.cpu) _ := h.switched hframe hleft
  have hkept := h.kept _ _ _ hleft
  have hmaps := switched_maps h hframe hleft hs hkept.ready.mem hkept.ready.maps
  have hrest := switched_rest h hframe hs hkept.ready.mem (h.ne_running hleft)
  have htarget := switched_target h hframe hleft hs
  have hcr3 := switched_cr3 h hleft hs
  have hesp : (callContext current (σ₀.cpu.linear tr)).reg .esp - 40 = σ₀.cpu.esp - 36 := by
    change σ₀.cpu.esp + 4 - 40 = σ₀.cpu.esp - 36
    bv_omega
  have hreg := hs.runs.reg
  generalize contextSwitch tr alu current σ.cpu = s' at hs hrest hreg hmaps htarget hcr3
  refine ⟨fun r heax hecx hesp => ?_, congrFun hreg .esp, hs.runs.eip, hs.runs.eflags, hs.runs.cr3,
    htarget.trans hnew, fun b hb hpushed => ?_⟩
  · rw [hreg]
    cases r with
    | eax => exact absurd rfl heax
    | ecx => exact absurd rfl hecx
    | esp => exact absurd rfl hesp
    | edx => rfl
    | ebx => rfl
    | ebp => rfl
    | esi => rfl
    | edi => rfl
  · have hb' : b ∈ T.stack (σ.newTask tr) := by
      rw [hnew]
      exact hb
    rw [hcr3, hmaps.shown hkept.ready.mem (.inr hb'), hrest _ (mem_own (.inr hb')), h₀.cr3,
      h₀.maps.shown h₀.task (.inr hb), ← hnew]
    apply hkept.rest b hb'
    rw [hesp]
    exact hpushed

/-- What a task has left stays over steps that are no switch to it. -/
theorem run_left (h : T.Sound σ) (ht : σ.left t = some (c, m))
    (hallowed : Transition.Guarded (step tr alu current) T.Allowed σ es)
    (hother : Transition.Guarded (step tr alu current) (fun τ e => e = .switch → τ.newTask tr ≠ t) σ es)
    (hrun : Transition.run (step tr alu current) σ es = some σ') :
    T.Sound σ' ∧ σ'.left t = some (c, m) := by
  have hkeep : ∀ τ e τ', T.Sound τ ∧ τ.left t = some (c, m) →
      T.Allowed τ e ∧ (e = .switch → τ.newTask tr ≠ t) → step tr alu current τ e = some τ' →
      T.Sound τ' ∧ τ'.left t = some (c, m) := fun τ e τ' hinv hcond hstep =>
    ⟨step_sound hinv.1 hcond.1 hstep, step_left hinv.1 hcond.1 hinv.2 hcond.2 hstep⟩
  have hlast := Transition.inv_of_run hkeep ⟨h, ht⟩ (Transition.guarded_and hallowed hother) hrun
  exact hlast

/-- A task that calls `__context_switch` goes on behind the call when another task switches to it,
whatever work, switches and new tasks there are in between. -/
theorem contextSwitch_returns {σ₂ : System} (h : T.Sound σ)
    (hallowed : Transition.Guarded (step tr alu current) T.Allowed σ (.switch :: (es ++ [.switch])))
    (hbetween : ∀ σ', step tr alu current σ .switch = some σ' → Transition.Guarded (step tr alu current)
      (fun τ e => e = .switch → τ.newTask tr ≠ σ.running tr current) σ' es)
    (hrun : Transition.run (step tr alu current) σ (.switch :: es) = some σ₁)
    (hnew : σ₁.newTask tr = σ.running tr current) (hback : step tr alu current σ₁ .switch = some σ₂) :
    T.Returns σ.cpu σ₂.cpu := by
  obtain ⟨hcall, hrest⟩ := hallowed
  obtain ⟨σ', hfirst, htail⟩ := Transition.run_cons_eq_some hrun
  have hleft : σ'.left (σ.running tr current) = some (callContext current (σ.cpu.linear tr), σ.cpu.mem) := by
    obtain ⟨-, hsome⟩ := hcall
    obtain ⟨⟨c, m⟩, hnew'⟩ := Option.isSome_iff_exists.mp hsome
    obtain rfl := Option.some.inj hfirst
    exact leftBySwitch_running (h.ne_running hnew')
  have hguards := hrest σ' hfirst
  obtain ⟨hsound, hleft₁⟩ := run_left (step_sound h hcall hfirst) hleft
    (Transition.guarded_of_append hguards) (hbetween σ' hfirst) htail
  have hlast : T.Allowed σ₁ .switch := (Transition.guarded_append hguards htail).1
  rw [← hnew] at hleft₁
  obtain rfl := Option.some.inj hback
  exact h.returns hsound hlast hleft₁ hnew

/-! ## A sample -/

/-- The kernel's half of an address space, with a page of its own at 0xFF7FF000. -/
def sampleTr : Translation := fun _ cr3 a =>
  if (a - 0xFF7FF000).toNat < 0x1000 then cr3 + 0x1000000 + (a - 0xFF7FF000) else a - 0xC0000000

/-- The first two entries of `task_arr`. Their stacks are at the same address. -/
def sampleLayout : Layout where
  tasks := {0xC0901000, 0xC090101C}
  dir t := if t = 0xC0901000 then 0x100000 else 0x200000
  stack _ := span 0xFF7FF000 0x1000
  place t := sampleTr (fun _ => 0) (if t = 0xC0901000 then 0x100000 else 0x200000)

theorem sample_cases (hb : b ∈ sampleLayout.used 0xC0900000 t) : (b - 0xFF7FF000).toNat < 0x1000 ∨
    (b - 0xC0900000).toNat < 0x1024 := by
  rcases hb with (hb | ⟨_, rfl | rfl, hb⟩) | hb
  · exact .inr (span_mono hb (by decide))
  · simp only [record, span, Set.mem_ofPred_eq] at hb
    exact .inr (by bv_omega)
  · simp only [record, span, Set.mem_ofPred_eq] at hb
    exact .inr (by bv_omega)
  · exact .inl hb

theorem sample_shared (hb : b ∈ sampleLayout.shared 0xC0900000) : (b - 0xC0900000).toNat < 0x1024 := by
  rcases hb with hb | ⟨_, rfl | rfl, hb⟩
  · exact span_mono hb (by decide)
  · simp only [record, span, Set.mem_ofPred_eq] at hb
    bv_omega
  · simp only [record, span, Set.mem_ofPred_eq] at hb
    bv_omega

theorem sampleTr_shared (m : Memory) (cr3 : Word) (hb : (b - 0xC0900000).toNat < 0x1024) :
    sampleTr m cr3 b = b - 0xC0000000 := if_neg (by bv_omega)

theorem sampleTr_stack (m : Memory) (cr3 : Word) (hb : (b - 0xFF7FF000).toNat < 0x1000) :
    sampleTr m cr3 b = cr3 + 0x1000000 + (b - 0xFF7FF000) := if_pos hb

theorem sampleTr_injOn {cr3 : Word} (hcr3 : cr3 = 0x100000 ∨ cr3 = 0x200000) (m : Memory) :
    Set.InjOn (sampleTr m cr3) (sampleLayout.used 0xC0900000 t) := by
  intro x hx y hy heq
  rcases sample_cases hx with hx | hx <;> rcases sample_cases hy with hy | hy
  · rw [sampleTr_stack _ _ hx, sampleTr_stack _ _ hy] at heq
    bv_omega
  · rw [sampleTr_stack _ _ hx, sampleTr_shared _ _ hy] at heq
    rcases hcr3 with rfl | rfl <;> bv_omega
  · rw [sampleTr_shared _ _ hx, sampleTr_stack _ _ hy] at heq
    rcases hcr3 with rfl | rfl <;> bv_omega
  · rw [sampleTr_shared _ _ hx, sampleTr_shared _ _ hy] at heq
    bv_omega

/-- The places of a task. -/
theorem sample_own (ht : t ∈ sampleLayout.tasks) (hp : p ∈ sampleLayout.own t) :
    (p - (t - 0xC0000000)).toNat < 8 ∨ (p - (sampleLayout.dir t + 0x1000000)).toNat < 0x1000 := by
  obtain ⟨b, hb | hb, rfl⟩ := hp
  · have hplace : sampleLayout.place t b = b - 0xC0000000 :=
      sampleTr_shared (fun _ => 0) _ (sample_shared (.inr ⟨t, ht, hb⟩))
    change (b - t).toNat < 8 at hb
    rw [hplace]
    exact .inl (by bv_omega)
  · have hplace : sampleLayout.place t b = sampleLayout.dir t + 0x1000000 + (b - 0xFF7FF000) :=
      sampleTr_stack (fun _ => 0) _ hb
    change (b - 0xFF7FF000).toNat < 0x1000 at hb
    rw [hplace]
    exact .inr (by bv_omega)

theorem sample_dir : sampleLayout.dir 0xC0901000 = 0x100000 ∧ sampleLayout.dir 0xC090101C = 0x200000 := by decide

def sampleTasks : Tasks sampleTr 0xC0900000 where
  toLayout := sampleLayout
  Maps _ _ := True
  translates _ _ _ _ _ _ := rfl
  tables _ _ _ _ _ := id
  injOn := by
    rintro t (rfl | rfl)
    · exact sampleTr_injOn (.inl rfl) (fun _ => 0)
    · exact sampleTr_injOn (.inr rfl) (fun _ => 0)
  shows t _ t' _ b hb :=
    (sampleTr_shared (fun _ => 0) _ (sample_shared hb)).trans (sampleTr_shared (fun _ => 0) _ (sample_shared hb)).symm
  record_apart := by
    rintro t (rfl | rfl) b hb hb'
    · simp only [record, span, Set.mem_ofPred_eq] at hb hb'
      bv_omega
    · simp only [record, span, Set.mem_ofPred_eq] at hb hb'
      bv_omega
  stack_apart t _ b hb hb' := by
    have hlow := sample_shared hb'
    change (b - 0xFF7FF000).toNat < 0x1000 at hb
    bv_omega
  apart := by
    rintro t ht t' ht' hne p hp hp'
    have hplace := sample_own ht hp
    have hplace' := sample_own ht' hp'
    obtain rfl | rfl := ht <;> obtain rfl | rfl := ht'
    · exact hne rfl
    · rw [sample_dir.1] at hplace
      rw [sample_dir.2] at hplace'
      bv_omega
    · rw [sample_dir.2] at hplace
      rw [sample_dir.1] at hplace'
      bv_omega
    · exact hne rfl

/-- `current`, the argument of the first task, the record of the second one, and its argument. -/
def sampleMemory : Memory :=
  writeWord (writeWord (writeWord (writeWord (writeWord (fun _ => 0) 0x900000 0xC0901000) 0x1100804 0xC090101C)
    0x90101C 0xFF7FF7D8) 0x901020 0x200000) 0x1200804 0xC0901000

def sampleContext : Context where
  reg r := if r = .esp then 0xFF7FF800 else 0
  eip := 0
  eflags := 0
  cr3 := 0x200000

/-- The first task is about to call, and the second one is suspended. -/
def sampleSystem : System where
  cpu := {
    reg := fun r => if r = .esp then 0xFF7FF800 else 7
    seg := fun _ => 0x10
    eip := 0
    eflags := 2
    cr3 := 0x100000
    mem := sampleMemory }
  left t := if t = 0xC090101C then some (sampleContext, sampleMemory) else none

theorem sample_left (t : Word) : sampleSystem.left t =
    if t = 0xC090101C then some (sampleContext, sampleMemory) else none := rfl

theorem sample_running : sampleSystem.running sampleTr 0xC0900000 = 0xC0901000 := by decide +kernel

theorem sample_newTask : sampleSystem.newTask sampleTr = 0xC090101C := by decide +kernel

theorem sample_suspended : Suspended (shown sampleTr sampleMemory 0x200000) (shown sampleTr sampleMemory 0x200000)
    0xC090101C sampleContext where
  esp := by decide +kernel
  cr3 := by decide +kernel
  stack := ⟨0, by
    simp only [Context.words, Stacked]
    decide +kernel⟩

theorem sample_ready : sampleTasks.Ready sampleMemory 0xC090101C sampleContext where
  mem := .inr rfl
  cr3 := by decide
  frame b hb := by
    have hframe : sampleContext.reg .esp - 40 = 0xFF7FF7D8 := by decide
    rw [hframe] at hb
    change (b - 0xFF7FF7D8).toNat < 40 at hb
    change (b - 0xFF7FF000).toNat < 0x1000
    bv_omega
  maps := trivial
  suspended := sample_suspended

theorem sample_sound : sampleTasks.Sound sampleSystem where
  task := by
    rw [sample_running]
    exact .inl rfl
  cr3 := by
    rw [sample_running]
    decide
  maps := trivial
  active := by
    rw [sample_running, sample_left, if_neg (by decide)]
  kept t c m ht := by
    by_cases heq : t = 0xC090101C
    · subst heq
      rw [sample_left, if_pos rfl, Option.some.injEq, Prod.mk.injEq] at ht
      obtain ⟨rfl, rfl⟩ := ht
      exact ⟨sample_ready, fun _ _ _ => rfl⟩
    · rw [sample_left, if_neg heq] at ht
      cases ht

/-- A call on the stack of a sample task. -/
theorem sample_allowed {τ : System} (hesp : τ.cpu.esp = 0xFF7FF800) (hsome : (τ.left (τ.newTask sampleTr)).isSome) :
    sampleTasks.Allowed τ .switch := by
  refine ⟨fun b hb => ?_, hsome⟩
  change (b - (τ.cpu.esp - 36)).toNat < 44 at hb
  rw [hesp] at hb
  change (b - 0xFF7FF000).toNat < 0x1000
  bv_omega

theorem sample_switched : (contextSwitch sampleTr State.eflags 0xC0900000 sampleSystem.cpu).esp = 0xFF7FF800 ∧
    newTask ((contextSwitch sampleTr State.eflags 0xC0900000 sampleSystem.cpu).linear sampleTr) = 0xC0901000 := by
  decide +kernel

/-- The two tasks switch to each other. -/
theorem contextSwitch_returns_sample : sampleTasks.Returns sampleSystem.cpu
    (contextSwitch sampleTr State.eflags 0xC0900000
      (contextSwitch sampleTr State.eflags 0xC0900000 sampleSystem.cpu)) := by
  obtain ⟨hesp, hback⟩ := sample_switched
  have hfirst : step sampleTr State.eflags 0xC0900000 sampleSystem .switch =
      some ⟨contextSwitch sampleTr State.eflags 0xC0900000 sampleSystem.cpu,
        leftBySwitch sampleTr 0xC0900000 sampleSystem⟩ := rfl
  generalize contextSwitch sampleTr State.eflags 0xC0900000 sampleSystem.cpu = s at hesp hback hfirst
  have hleft : (sampleSystem.left (sampleSystem.newTask sampleTr)).isSome := by
    rw [sample_newTask]
    rfl
  have hne : sampleSystem.newTask sampleTr ≠ sampleSystem.running sampleTr 0xC0900000 := by
    rw [sample_newTask, sample_running]
    decide
  have hallowed : Transition.Guarded (step sampleTr State.eflags 0xC0900000) sampleTasks.Allowed sampleSystem
      (.switch :: ([.work id] ++ [.switch])) := by
    refine ⟨sample_allowed rfl hleft, fun σ' hσ' => ?_⟩
    obtain rfl := Option.some.inj (hfirst.symm.trans hσ')
    refine ⟨⟨rfl, rfl, fun _ _ _ h => h, fun _ _ _ _ _ _ => rfl⟩, fun σ₁ hσ₁ => ⟨?_, fun _ _ => trivial⟩⟩
    obtain rfl := Option.some.inj hσ₁
    apply sample_allowed hesp
    have hnew : System.newTask sampleTr ⟨id s, leftBySwitch sampleTr 0xC0900000 sampleSystem⟩ = 0xC0901000 := hback
    have hrunning : leftBySwitch sampleTr 0xC0900000 sampleSystem (sampleSystem.running sampleTr 0xC0900000) = _ :=
      leftBySwitch_running hne
    rw [sample_running] at hrunning
    rw [hnew]
    exact Option.isSome_iff_exists.mpr ⟨_, hrunning⟩
  have hrun : Transition.run (step sampleTr State.eflags 0xC0900000) sampleSystem [.switch, .work id] =
      some ⟨s, leftBySwitch sampleTr 0xC0900000 sampleSystem⟩ := by
    rw [Transition.run, hfirst]
    rfl
  refine contextSwitch_returns sample_sound hallowed
    (fun _ _ => ⟨fun hswitch => Event.noConfusion hswitch, fun _ _ => trivial⟩) hrun ?_ rfl
  rw [sample_running]
  exact hback

end Tasks

end TsOs.Contexts
