import TsOs.Library.Transition
import TsOs.Paging.EarlyMap
import TsOs.Tasking.Isolation
import Mathlib.Order.CompletePartialOrder

/-!
# Runs of the loader

After `init_task0` any number of images is loaded. The loaded tasks never share a
directory, a table or a page below the kernel. Their kernel stacks are not private:
they all have the frame of task 0.

## Implementation notes

`Mathlib.Order.CompletePartialOrder` gives the order of sets that `Disjoint` is stated in.
-/

namespace TsOs.Tasking
open Paging ByteMemory

/-- `init_task0`, then `load_task` for each image. -/
def runTasks (retSyscall : Nat) (k : Kernel) (images : List Image) : Option Kernel :=
  (initTask0 k).bind fun k => Transition.run (loadTask retSyscall pgDir0) k images

/-- The frame that a page is mapped to. -/
def mappedFrame (s : Machine) (D va : Nat) : Option Nat :=
  if entrySet (word s D (pageDirIndex va)) then
    let pt := frameOf (word s D (pageDirIndex va))
    if entrySet (word s pt (pageTableIndex va)) then
      some (frameOf (word s pt (pageTableIndex va)))
    else none
  else none

/-- The directory, its tables below the kernel and the frames mapped there. -/
def userFrames (s : Machine) (D : Nat) : Set Nat :=
  {f | f = D ∨ (∃ i < userSlots, entrySet (word s D i) = true ∧ f = frameOf (word s D i)) ∨
    ∃ va < kernelVStart, mappedFrame s D va = some f}

/-- Any two tasks have different frames behind their stacks. -/
def PrivateStacks (k : Kernel) : Prop :=
  ∀ i j, i ≠ j → Present k i → Present k j →
    mappedFrame k.machine (dirFrame k i) kstackFrame ≠
      mappedFrame k.machine (dirFrame k j) kstackFrame

variable {k k' : Kernel} {ρ : Nat → Tag} {F retSyscall i j : Nat} {images : List Image}

/-- The invariant with its tags and the stack's table left open. -/
def Isolated (k : Kernel) : Prop := ∃ ρ F, Sound ρ F k

theorem run_sound (hs : Isolated k) (himgs : ∀ img ∈ images, img.BelowStack)
    (hrun : Transition.run (loadTask retSyscall pgDir0) k images = some k') : Isolated k' := by
  have hguard : Transition.Guarded (loadTask retSyscall pgDir0) (fun _ img => img.BelowStack) k
      images := Transition.guarded_of_forall fun img himg _ => himgs img himg
  apply Transition.inv_of_run _ hs hguard hrun
  rintro k img k' ⟨ρ, F, hs⟩ himg hload
  obtain ⟨⟨ρ', hs'⟩, -⟩ := loadTask_sound hs himg hload
  exact ⟨ρ', F, hs'⟩

/-- The last image of a run is a task. -/
theorem run_present (hs : Isolated k) (himgs : ∀ img ∈ images, img.BelowStack)
    (hrun : Transition.run (loadTask retSyscall pgDir0) k images = some k') (hne : images ≠ []) :
    ∃ i, i ≠ 0 ∧ Present k' i := by
  rcases List.eq_nil_or_concat images with hnil | ⟨front, last, rfl⟩
  · exact absurd hnil hne
  · rw [List.concat_eq_append] at hrun himgs
    rw [Transition.run_append] at hrun
    obtain ⟨k₁, hfront, hlast⟩ := Option.bind_eq_some_iff.mp hrun
    obtain ⟨ρ, F, hs₁⟩ := run_sound hs (fun img himg => himgs img (by simp [himg])) hfront
    obtain ⟨k₂, hload, hend⟩ := Transition.run_cons_eq_some hlast
    obtain rfl := Option.some.inj hend
    obtain ⟨-, tid, -, -, hne, hpres, -⟩ := loadTask_sound hs₁ (himgs last (by simp)) hload
    exact ⟨tid, hne, hpres⟩

/-- In every directory the stack's page leads through the table of task 0. -/
theorem Sound.mappedFrame_kstack (hs : Sound ρ F k) (hi : Present k i) :
    mappedFrame k.machine (dirFrame k i) kstackFrame = some (frameOf (word k.machine F 1023)) := by
  have hword : word k.machine (dirFrame k i) 1021 = word k.machine pgDir0 1021 := by
    by_cases hi0 : i = 0
    · rw [hi0, hs.first.2]
    · exact (hs.dirs i hi0 hi).2
  have hdi : pageDirIndex kstackFrame = 1021 := by decide
  have hti : pageTableIndex kstackFrame = 1023 := by decide
  rw [mappedFrame, hdi, hti, hword, if_pos hs.present.table, hs.present.frame,
    if_pos hs.present.page]

theorem Sound.not_privateStacks (hs : Sound ρ F k) (hi0 : i ≠ 0) (hi : Present k i) :
    ¬PrivateStacks k := by
  intro hprivate
  apply hprivate i 0 hi0 hi hs.first.1
  rw [hs.mappedFrame_kstack hi, hs.mappedFrame_kstack hs.first.1]

/-- All frames of a loaded task carry its tag. -/
theorem Sound.userFrames_tag (hs : Sound ρ F k) (hi0 : i ≠ 0) (hi : Present k i) {f : Nat}
    (hf : f ∈ userFrames k.machine (dirFrame k i)) : ∃ r, ρ f = .task (dirFrame k i) r := by
  have hdir := (hs.dirs i hi0 hi).1
  rcases hf with rfl | ⟨n, hn, hset, rfl⟩ | ⟨va, hva, hmap⟩
  · exact ⟨.dir, hdir⟩
  · rcases hs.tagged.dir _ _ hdir n hn with hzero | ⟨-, htag⟩
    · rw [hzero] at hset
      exact absurd hset (by decide)
    · exact ⟨.table, htag⟩
  · rw [mappedFrame] at hmap
    split at hmap
    next hset =>
      obtain ⟨htable, -⟩ := hs.tagged.walk hdir hva hset
      dsimp only at hmap
      split at hmap
      next hpage =>
        obtain rfl := Option.some.inj hmap
        rcases hs.tagged.table _ (.task (dirFrame k i) .page) (by rw [htable]; rfl) _
          (pageTableIndex_lt va) with hzero | ⟨-, htag⟩
        · rw [hzero] at hpage
          exact absurd hpage (by decide)
        · exact ⟨.page, htag⟩
      next => exact absurd hmap (by simp)
    next => exact absurd hmap (by simp)

/-- The early initialisation leaves the directory as the loader expects it. -/
theorem initPgDir0Vmap_booted {s s' : Machine} (h : initPgDir0Vmap s = some s')
    (arr : Nat → Task) (current : Option Nat) : Booted ⟨s', arr, current⟩ := by
  obtain ⟨s₁, hrun, hs⟩ := initPgDir0Vmap_shows s
  obtain rfl := Option.some.inj (hrun.symm.trans h)
  have hidle : ¬Used earlyPages 1021 := by
    rintro ⟨j, hj, hne⟩
    apply hne
    rw [earlyPages_eq, if_neg (by omega), if_neg (by omega)]
  exact ⟨(hs.system 1023 (by decide) (by decide)).1, (hs.system 1022 (by decide) (by decide)).1,
    (hs.unused 1021 (by decide) hidle).1⟩

/-! ## A run with two images -/

instance (k : Kernel) (i : Nat) : Decidable (Present k i) := inferInstanceAs (Decidable (_ ∧ _))

/-- A machine after the early initialisation, as far as the loader reads it. -/
def bootMachine : Machine :=
  let s : Machine := ⟨fun _ _ => 0, fun i => if i < 512 then 0xFF#8 else 0#8⟩
  let s := setWord s pgDir0 1023 (pageEntry (dir0Pt 1023) pageFlgKernel)
  let s := setWord s pgDir0 1022 (pageEntry sysTb pageFlgKernel)
  setWord s sysTb 1023 (pageEntry pgDir0 pageFlgKernel)

def bootKernel : Kernel := ⟨bootMachine, fun _ => ⟨0, 0, 0, 0, 0, 0, 0⟩, none⟩

/-- Sixteen bytes of text at address 0 and no data. -/
def sampleImage : Image :=
  ⟨kernelVStart + 8 * oneMB, [(0, 0xABCD1234), (1, 0x1000), (3, 16), (4, 0x2000),
    (5, 0x400000)].foldl (fun m w => store32 m (kernelVStart + 8 * oneMB + 4 * w.1) w.2) fun _ => 0⟩

theorem booted_bootKernel : Booted bootKernel := ⟨by decide, by decide, by decide⟩

theorem belowStack_sampleImage : ∀ img ∈ [sampleImage, sampleImage], img.BelowStack := by
  intro img himg
  obtain rfl : img = sampleImage := by simpa using himg
  exact ⟨by decide, by decide⟩

theorem runTasks_sample : ∃ k, runTasks 0 bootKernel [sampleImage, sampleImage] = some k ∧
    Present k 1 ∧ Present k 2 := by
  have heval : (runTasks 0 bootKernel [sampleImage, sampleImage]).elim false
      (fun k => decide (Present k 1 ∧ Present k 2)) = true := by
    simp only [runTasks, Transition.run, loadTask_eq (by decide : pgDir0 < userFrame)]
    decide +kernel
  cases hrun : runTasks 0 bootKernel [sampleImage, sampleImage] with
  | none => exact absurd heval (by rw [hrun]; decide)
  | some k =>
      rw [hrun] at heval
      exact ⟨k, rfl, of_decide_eq_true heval⟩

/-! ## Stacks and user memory -/

/-- The kernel stacks of the tasks are private only as long as no image has been loaded. -/
theorem runTasks_privateStacks_iff (hb : Booted k) (himgs : ∀ img ∈ images, img.BelowStack)
    (h : runTasks retSyscall k images = some k') : PrivateStacks k' ↔ images = [] := by
  obtain ⟨k₀, hinit, hrun⟩ := Option.bind_eq_some_iff.mp h
  obtain ⟨hs₀, honly, -⟩ := initTask0_sound hb hinit
  constructor
  · intro hprivate
    by_contra hne
    obtain ⟨ρ, F, hs⟩ := run_sound hs₀ himgs hrun
    obtain ⟨i, hi0, hi⟩ := run_present hs₀ himgs hrun hne
    exact hs.not_privateStacks hi0 hi hprivate
  · rintro rfl
    obtain rfl := Option.some.inj hrun
    intro i j hij hi hj
    exact absurd ((honly i hi).trans (honly j hj).symm) hij

theorem runTasks_privateStacks_sample : ∃ k,
    runTasks 0 bootKernel [sampleImage, sampleImage] = some k ∧ ¬PrivateStacks k := by
  obtain ⟨k, hrun, -⟩ := runTasks_sample
  exact ⟨k, hrun, fun hprivate => absurd ((runTasks_privateStacks_iff booted_bootKernel
    belowStack_sampleImage hrun).mp hprivate) (by simp)⟩

/-- After two images tasks 0 and 1 have the same frame behind their stacks. -/
theorem runTasks_shared_stack : ∃ k, runTasks 0 bootKernel [sampleImage, sampleImage] = some k ∧
    Present k 0 ∧ Present k 1 ∧ mappedFrame k.machine (dirFrame k 0) kstackFrame =
      mappedFrame k.machine (dirFrame k 1) kstackFrame := by
  obtain ⟨k, hrun, hone, -⟩ := runTasks_sample
  obtain ⟨k₀, hinit, hload⟩ := Option.bind_eq_some_iff.mp hrun
  obtain ⟨ρ, F, hs⟩ := run_sound (initTask0_sound booted_bootKernel hinit).1 belowStack_sampleImage
    hload
  refine ⟨k, hrun, hs.first.1, hone, ?_⟩
  rw [hs.mappedFrame_kstack hs.first.1, hs.mappedFrame_kstack hone]

/-- The user memory of loaded tasks is disjoint and lies in the user range. -/
theorem runTasks_userFrames_isolated (hb : Booted k) (himgs : ∀ img ∈ images, img.BelowStack)
    (h : runTasks retSyscall k images = some k') (hi0 : i ≠ 0) (hi : Present k' i) :
    (∀ f ∈ userFrames k'.machine (dirFrame k' i),
      userPStart ≤ f * frameSize ∧ f * frameSize < maxMemSize) ∧
    ∀ j, j ≠ 0 → j ≠ i → Present k' j →
      Disjoint (userFrames k'.machine (dirFrame k' i)) (userFrames k'.machine (dirFrame k' j)) := by
  obtain ⟨k₀, hinit, hrun⟩ := Option.bind_eq_some_iff.mp h
  obtain ⟨ρ, F, hs⟩ := run_sound (initTask0_sound hb hinit).1 himgs hrun
  refine ⟨fun f hf => ?_, fun j hj0 hji hj => ?_⟩
  · obtain ⟨r, htag⟩ := hs.userFrames_tag hi0 hi hf
    obtain ⟨hlow, hhigh, -⟩ := hs.tagged.user f (by simp [htag])
    have hstart : userPStart = userFrame * frameSize := by decide
    have hend : maxMemSize = maxFrameNum * frameSize := by decide
    rw [hstart, hend]
    exact ⟨Nat.mul_le_mul_right _ hlow, Nat.mul_lt_mul_of_pos_right hhigh (by decide)⟩
  · rw [Set.disjoint_left]
    intro f hfi hfj
    obtain ⟨r, htagi⟩ := hs.userFrames_tag hi0 hi hfi
    obtain ⟨r', htagj⟩ := hs.userFrames_tag hj0 hj hfj
    obtain ⟨hdir, -⟩ := Tag.task.inj (htagi.symm.trans htagj)
    exact hji (hs.distinct i j hi0 hj0 hi hj hdir).symm

theorem runTasks_userFrames_sample : ∃ k,
    runTasks 0 bootKernel [sampleImage, sampleImage] = some k ∧ Present k 1 ∧ Present k 2 ∧
      Disjoint (userFrames k.machine (dirFrame k 1)) (userFrames k.machine (dirFrame k 2)) := by
  obtain ⟨k, hrun, hone, htwo⟩ := runTasks_sample
  have hisolated := runTasks_userFrames_isolated booted_bootKernel belowStack_sampleImage hrun
    (by decide : 1 ≠ 0) hone
  exact ⟨k, hrun, hone, htwo, hisolated.2 2 (by decide) (by decide) htwo⟩

end TsOs.Tasking
