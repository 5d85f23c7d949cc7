import TsOs.Tasking.ContextRuns
import TsOs.Tasking.Translation

/-!
# The tasks of the kernel

Task 0 runs under `pg_dir0` on a stack in the kernel's half, and every loaded task has its
stack at the same linear address. In memory the tasks are apart as long as the directories
of the loaded ones give this page different frames.

`load_task` links one frame into all directories, so that task 0 and one loaded task are
apart, and two loaded tasks are not.
-/

namespace TsOs.Tasking
open Paging Ia32
open Gates (InImage Disjoint)

/-- `current`, `task_arr` and the stack of task 0, which lie in the image and the heap. -/
structure Objects where
  current : Nat
  taskArr : Nat
  stack : Nat
  stackSize : Nat
  currentPlace : InImage current 4
  taskArrPlace : InImage taskArr (maxTaskNum * taskSize)
  stackPlace : InImage stack stackSize
  current_taskArr : Disjoint current 4 taskArr (maxTaskNum * taskSize)
  stack_current : Disjoint stack stackSize current 4
  stack_taskArr : Disjoint stack stackSize taskArr (maxTaskNum * taskSize)

/-- A directory with the kernel's slots and a frame for the kernel stack. -/
structure LoadedDir (s : Machine) (D St : Nat) : Prop where
  dir : userFrame ≤ D ∧ D < maxFrameNum
  table : userFrame ≤ frameOf (word s D (pageDirIndex kstackFrame)) ∧
    frameOf (word s D (pageDirIndex kstackFrame)) < maxFrameNum
  stack : userFrame ≤ St ∧ St < maxFrameNum
  slots : KernelSlots s D
  mapped : mappedFrame s D kstackFrame = some St

/-- Loaded tasks whose stacks have frames of their own, which are no tables. -/
structure OwnStacks (k : Kernel) (ids : Set Nat) (St : Nat → Nat) : Prop where
  numbers : ∀ i ∈ ids, i ≠ 0 ∧ i < maxTaskNum
  loaded : ∀ i ∈ ids, LoadedDir k.machine (dirFrame k i) (St i)
  own : Set.InjOn St ids
  tables : ∀ i ∈ ids, ∀ j ∈ ids, St i ≠ dirFrame k j ∧
    St i ≠ frameOf (word k.machine (dirFrame k j) (pageDirIndex kstackFrame))

variable {o : Objects} {k : Kernel} {ids : Set Nat} {St : Nat → Nat} {i j : Nat} {b p t : Word} {m m' : Memory}

theorem mem_span_ofNat {a n : Nat} (h : a + n ≤ 2 ^ 32) :
    b ∈ span (BitVec.ofNat 32 a) n ↔ a ≤ b.toNat ∧ b.toNat < a + n := by
  change (b - BitVec.ofNat 32 a).toNat < n ↔ _
  bv_omega

namespace Objects

/-- The entry of `task_arr`. -/
def record (o : Objects) (i : Nat) : Word := BitVec.ofNat 32 (o.taskArr + taskSize * i)

/-- The number of the task with this entry. -/
def number (o : Objects) (t : Word) : Nat := (t.toNat - o.taskArr) / taskSize

def stackBytes (o : Objects) : Set Word := {b | o.stack ≤ b.toNat ∧ b.toNat < o.stack + o.stackSize}

/-- Task 0 and the loaded tasks. -/
def layout (o : Objects) (k : Kernel) (ids : Set Nat) (St : Nat → Nat) : Contexts.Layout where
  tasks := o.record '' insert 0 ids
  dir t := BitVec.ofNat 32 (dirFrame k (o.number t) * frameSize)
  stack t := if o.number t = 0 then o.stackBytes else kstackPage
  place t b := if o.number t ≠ 0 ∧ kstackFrame ≤ b.toNat then kstackPlace (St (o.number t)) b else kernelPlace b

/-- An entry lies in the table. -/
theorem record_le (o : Objects) (hi : i < maxTaskNum) : o.taskArr + taskSize * i + 28 ≤ 0xC1000000 := by
  have hhigh := o.taskArrPlace.high
  have hsizes : taskSize = 28 ∧ maxTaskNum = 32 ∧ kernelVStart + userPStart = 0xC1000000 := ⟨rfl, rfl, rfl⟩
  rw [hsizes.1, hsizes.2.1, hsizes.2.2] at hhigh
  rw [hsizes.2.1] at hi
  rw [hsizes.1]
  omega

theorem record_toNat (o : Objects) (hi : i < maxTaskNum) : (o.record i).toNat = o.taskArr + taskSize * i := by
  have hle := o.record_le hi
  rw [record, BitVec.toNat_ofNat]
  omega

theorem number_record (o : Objects) (hi : i < maxTaskNum) : o.number (o.record i) = i := by
  rw [number, o.record_toNat hi, Nat.add_sub_cancel_left]
  exact Nat.mul_div_cancel_left i (by decide)

theorem record_ne (o : Objects) (hi : i < maxTaskNum) (hj : j < maxTaskNum) (hne : i ≠ j) :
    o.record i ≠ o.record j := by
  intro heq
  have hnumber := congrArg o.number heq
  rw [o.number_record hi, o.number_record hj] at hnumber
  exact hne hnumber

theorem mem_current (o : Objects) : b ∈ span (BitVec.ofNat 32 o.current) 4 ↔
    o.current ≤ b.toNat ∧ b.toNat < o.current + 4 := by
  have hhigh := o.currentPlace.high
  have hsize : kernelVStart + userPStart = 0xC1000000 := rfl
  exact mem_span_ofNat (by omega)

theorem mem_record (o : Objects) (hi : i < maxTaskNum) : b ∈ Contexts.record (o.record i) ↔
    o.taskArr + 28 * i ≤ b.toNat ∧ b.toNat < o.taskArr + 28 * i + 8 := by
  have hle := o.record_le hi
  apply mem_span_ofNat
  omega

/-- The objects are in the kernel's half and apart. -/
theorem bounds (o : Objects) : kernelVStart + 8 * oneMB ≤ o.current ∧ o.current + 4 ≤ kernelVStart + userPStart ∧
    kernelVStart + 8 * oneMB ≤ o.taskArr ∧ o.taskArr + 896 ≤ kernelVStart + userPStart ∧
    (o.current + 4 ≤ o.taskArr ∨ o.taskArr + 896 ≤ o.current) :=
  ⟨o.currentPlace.low, o.currentPlace.high, o.taskArrPlace.low, o.taskArrPlace.high, o.current_taskArr⟩

theorem stack_bounds (o : Objects) : kernelVStart + 8 * oneMB ≤ o.stack ∧
    o.stack + o.stackSize ≤ kernelVStart + userPStart ∧
    (o.stack + o.stackSize ≤ o.current ∨ o.current + 4 ≤ o.stack) ∧
    (o.stack + o.stackSize ≤ o.taskArr ∨ o.taskArr + 896 ≤ o.stack) :=
  ⟨o.stackPlace.low, o.stackPlace.high, o.stack_current, o.stack_taskArr⟩

theorem layout_stack (hi : i < maxTaskNum) :
    (o.layout k ids St).stack (o.record i) = if i = 0 then o.stackBytes else kstackPage := by
  simp only [layout, o.number_record hi]

theorem layout_dir (hi : i < maxTaskNum) :
    (o.layout k ids St).dir (o.record i) = BitVec.ofNat 32 (dirFrame k i * frameSize) := by
  simp only [layout, o.number_record hi]

theorem kernelBytes_lt (hb : b ∈ kernelBytes) : b.toNat < kstackFrame :=
  lt_trans hb.2 (by decide)

theorem place_kernel (hb : b ∈ kernelBytes) : (o.layout k ids St).place t b = kernelPlace b :=
  if_neg fun h => absurd h.2 (Nat.not_le_of_lt (kernelBytes_lt hb))

theorem place_kstack (hi : i < maxTaskNum) (hne : i ≠ 0) (hb : b ∈ kstackPage) :
    (o.layout k ids St).place (o.record i) b = kstackPlace (St i) b := by
  simp only [layout, o.number_record hi]
  exact if_pos ⟨hne, hb.1⟩

end Objects

theorem kstackPlace_toNat {f : Nat} (hf : f < maxFrameNum) (hb : b ∈ kstackPage) :
    (kstackPlace f b).toNat = f * frameSize + (b.toNat - kstackFrame) := by
  obtain ⟨hlow, hhigh⟩ := hb
  have hsizes : frameSize = 4096 ∧ maxFrameNum = 32768 := ⟨rfl, rfl⟩
  rw [hsizes.1] at hhigh
  rw [hsizes.2] at hf
  rw [kstackPlace, BitVec.toNat_ofNat, hsizes.1]
  omega

/-- The frame of a place in the kernel's half. -/
theorem kernelPlace_frame (hb : b ∈ kernelBytes) :
    dir0Pt 1023 < (kernelPlace b).toNat / frameSize ∧ (kernelPlace b).toNat / frameSize < userFrame := by
  obtain ⟨-, hlow, hhigh⟩ := kernelPlace_toNat hb
  have hsizes : oneMB = 0x100000 ∧ userPStart = 0x1000000 ∧ frameSize = 4096 := ⟨rfl, rfl, rfl⟩
  have hframes : dir0Pt 1023 = 1280 ∧ userFrame = 4096 := ⟨rfl, rfl⟩
  rw [hsizes.2.2]
  omega

theorem kstackPlace_frame {f : Nat} (hf : f < maxFrameNum) (hb : b ∈ kstackPage) :
    (kstackPlace f b).toNat / frameSize = f := by
  have hhigh := hb.2
  have hsize : frameSize = 4096 := rfl
  rw [kstackPlace_toNat hf hb, hsize]
  rw [hsize] at hhigh
  omega

namespace OwnStacks

variable (h : OwnStacks k ids St)
include h

theorem lt (hi : i ∈ insert 0 ids) : i < maxTaskNum := by
  rcases hi with rfl | hi
  · decide
  · exact (h.numbers i hi).2

/-- What every task sees is in the kernel's half. -/
theorem shared_kernel (hb : b ∈ (o.layout k ids St).shared (BitVec.ofNat 32 o.current)) : b ∈ kernelBytes := by
  obtain ⟨hcurrent, hcurrent', harr, harr', -⟩ := o.bounds
  rcases hb with hb | ⟨_, ⟨i, hi, rfl⟩, hb⟩
  · rw [o.mem_current] at hb
    exact ⟨by omega, by omega⟩
  · have hlt : i < 32 := h.lt hi
    rw [o.mem_record hlt] at hb
    exact ⟨by omega, by omega⟩

/-- The addresses that a task uses are in the kernel's half, or in the page of its stack. -/
theorem used_cases (hi : i ∈ insert 0 ids)
    (hb : b ∈ (o.layout k ids St).used (BitVec.ofNat 32 o.current) (o.record i)) :
    b ∈ kernelBytes ∨ i ≠ 0 ∧ b ∈ kstackPage := by
  rcases hb with hb | hb
  · exact .inl (h.shared_kernel hb)
  · rw [Objects.layout_stack (h.lt hi)] at hb
    split_ifs at hb with hzero
    · obtain ⟨hlow, hhigh, -⟩ := o.stack_bounds
      exact .inl ⟨hlow.trans hb.1, hb.2.trans_le hhigh⟩
    · exact .inr ⟨hzero, hb⟩

/-- The frames of the tables are not among the places that the tasks use. -/
theorem frame_ne {f : Nat} (hf : f ≤ dir0Pt 1023 ∨ userFrame ≤ f ∧ ∀ j ∈ ids, St j ≠ f) (hi : i ∈ insert 0 ids)
    (hp : p ∈ (o.layout k ids St).place (o.record i) ''
      (o.layout k ids St).used (BitVec.ofNat 32 o.current) (o.record i)) :
    p.toNat / frameSize ≠ f := by
  obtain ⟨b, hb, rfl⟩ := hp
  rcases h.used_cases hi hb with hb | ⟨hne, hb⟩
  · obtain ⟨hlow, hhigh⟩ := kernelPlace_frame hb
    rw [Objects.place_kernel hb]
    omega
  · have hmem := hi.resolve_left hne
    obtain ⟨hlow, hhigh⟩ := (h.loaded i hmem).stack
    rw [Objects.place_kstack (h.lt hi) hne hb, kstackPlace_frame hhigh hb]
    have hframes : dir0Pt 1023 = 1280 ∧ userFrame = 4096 := ⟨rfl, rfl⟩
    rcases hf with hf | ⟨-, hf⟩
    · omega
    · exact hf i hmem

/-- What belongs to a task: its record and a stack in the kernel's half, or the frame of its stack. -/
theorem own_cases (hi : i ∈ insert 0 ids) (hp : p ∈ (o.layout k ids St).own (o.record i)) :
    (∃ b ∈ kernelBytes, p = kernelPlace b ∧ (b ∈ Contexts.record (o.record i) ∨ i = 0 ∧ b ∈ o.stackBytes)) ∨
      i ≠ 0 ∧ p.toNat / frameSize = St i := by
  obtain ⟨b, hb | hb, rfl⟩ := hp
  · have hkernel : b ∈ kernelBytes := h.shared_kernel (.inr ⟨_, ⟨i, hi, rfl⟩, hb⟩)
    exact .inl ⟨b, hkernel, Objects.place_kernel hkernel, .inl hb⟩
  · have hused := h.used_cases hi (.inr hb)
    rw [Objects.layout_stack (h.lt hi)] at hb
    split_ifs at hb with hzero
    · have hkernel := hused.resolve_right fun hpage => hpage.1 hzero
      exact .inl ⟨b, hkernel, Objects.place_kernel hkernel, .inr ⟨hzero, hb⟩⟩
    · rw [Objects.place_kstack (h.lt hi) hzero hb,
        kstackPlace_frame (h.loaded i (hi.resolve_left hzero)).stack.2 hb]
      exact .inr ⟨hzero, rfl⟩

theorem own_apart (hi : i ∈ insert 0 ids) (hj : j ∈ insert 0 ids) (hne : i ≠ j)
    (hp : p ∈ (o.layout k ids St).own (o.record i)) : p ∉ (o.layout k ids St).own (o.record j) := by
  intro hp'
  have hlt : i < 32 := h.lt hi
  have hlt' : j < 32 := h.lt hj
  obtain ⟨-, -, -, harr⟩ := o.stack_bounds
  rcases h.own_cases hi hp with ⟨b, hb, rfl, hin⟩ | ⟨hi0, hframe⟩ <;>
    rcases h.own_cases hj hp' with ⟨x, hx, hplace, hin'⟩ | ⟨hj0, hframe'⟩
  · obtain rfl := kernelPlace_injective hplace
    rw [o.mem_record hlt] at hin
    rw [o.mem_record hlt'] at hin'
    change _ ∨ i = 0 ∧ o.stack ≤ b.toNat ∧ b.toNat < o.stack + o.stackSize at hin
    change _ ∨ j = 0 ∧ o.stack ≤ b.toNat ∧ b.toNat < o.stack + o.stackSize at hin'
    omega
  · obtain ⟨-, hhigh⟩ := kernelPlace_frame hb
    have hlow := (h.loaded j (hj.resolve_left hj0)).stack.1
    omega
  · obtain ⟨-, hhigh⟩ := kernelPlace_frame hx
    have hlow := (h.loaded i (hi.resolve_left hi0)).stack.1
    rw [hplace] at hframe
    omega
  · exact hne (h.own (hi.resolve_left hi0) (hj.resolve_left hj0) (hframe.symm.trans hframe'))

theorem place_injOn (hi : i ∈ insert 0 ids) : Set.InjOn ((o.layout k ids St).place (o.record i))
    ((o.layout k ids St).used (BitVec.ofNat 32 o.current) (o.record i)) := by
  -- a page of the stack is in a user frame, and the kernel's half is below these
  have hpage : ∀ x ∈ kernelBytes, ∀ y ∈ kstackPage, i ≠ 0 → kernelPlace x ≠ kstackPlace (St i) y := by
    intro x hx y hy hne heq
    obtain ⟨hlow, hhigh⟩ := (h.loaded i (hi.resolve_left hne)).stack
    have hframe := (kernelPlace_frame hx).2
    rw [heq, kstackPlace_frame hhigh hy] at hframe
    omega
  intro x hx y hy heq
  rcases h.used_cases hi hx with hx | ⟨hne, hx⟩ <;> rcases h.used_cases hi hy with hy | ⟨hne', hy⟩
  · rw [Objects.place_kernel hx, Objects.place_kernel hy] at heq
    exact kernelPlace_injective heq
  · rw [Objects.place_kernel hx, Objects.place_kstack (h.lt hi) hne' hy] at heq
    exact absurd heq (hpage x hx y hy hne')
  · rw [Objects.place_kstack (h.lt hi) hne hx, Objects.place_kernel hy] at heq
    exact absurd heq.symm (hpage y hy x hx hne)
  · have hhigh := (h.loaded i (hi.resolve_left hne)).stack.2
    rw [Objects.place_kstack (h.lt hi) hne hx, Objects.place_kstack (h.lt hi) hne hy] at heq
    have hnat := congrArg BitVec.toNat heq
    rw [kstackPlace_toNat hhigh hx, kstackPlace_toNat hhigh hy] at hnat
    have hlow := hx.1
    have hlow' := hy.1
    exact BitVec.eq_of_toNat_eq (by omega)

theorem stack_unshared (hi : i ∈ insert 0 ids) (hb : b ∈ (o.layout k ids St).stack (o.record i)) :
    b ∉ (o.layout k ids St).shared (BitVec.ofNat 32 o.current) := by
  intro hshared
  have hkernel := h.shared_kernel hshared
  rw [Objects.layout_stack (h.lt hi)] at hb
  split_ifs at hb with hzero
  · obtain ⟨-, -, hcurrent, harr⟩ := o.stack_bounds
    change o.stack ≤ b.toNat ∧ b.toNat < o.stack + o.stackSize at hb
    rcases hshared with hshared | ⟨_, ⟨j, hj, rfl⟩, hshared⟩
    · rw [o.mem_current] at hshared
      omega
    · have hlt : j < 32 := h.lt hj
      rw [o.mem_record hlt] at hshared
      omega
  · have hlow := hb.1
    have hhigh := Objects.kernelBytes_lt hkernel
    omega

/-- A frame that no task writes. -/
theorem unwritten {f : Nat} (hf : f ≤ dir0Pt 1023 ∨ userFrame ≤ f ∧ ∀ j ∈ ids, St j ≠ f)
    (hm : ∀ p, (∀ t ∈ (o.layout k ids St).tasks,
      p ∉ (o.layout k ids St).place t '' (o.layout k ids St).used (BitVec.ofNat 32 o.current) t) → m' p = m p)
    (hp : p.toNat / frameSize = f) : m' p = m p := by
  apply hm p
  rintro _ ⟨i, hi, rfl⟩ hin
  exact h.frame_ne hf hi hin hp

theorem dir_unwritten (hfirst : dirFrame k 0 = pgDir0) (hi : i ∈ insert 0 ids) :
    dirFrame k i ≤ dir0Pt 1023 ∨ userFrame ≤ dirFrame k i ∧ ∀ j ∈ ids, St j ≠ dirFrame k i := by
  rcases hi with rfl | hi
  · rw [hfirst]
    exact .inl (by decide)
  · exact .inr ⟨(h.loaded i hi).dir.1, fun j hj => (h.tables j hj i hi).1⟩

theorem dir_lt (hfirst : dirFrame k 0 = pgDir0) (hi : i ∈ insert 0 ids) : dirFrame k i < 2 ^ 20 := by
  rcases hi with rfl | hi
  · rw [hfirst]
    decide
  · exact lt_trans (h.loaded i hi).dir.2 (by decide)

theorem kernelSlots (hfirst : dirFrame k 0 = pgDir0) (hi : i ∈ insert 0 ids) :
    KernelSlots k.machine (dirFrame k i) := by
  rcases hi with rfl | hi
  · rw [hfirst]
    exact fun _ _ => rfl
  · exact (h.loaded i hi).slots

end OwnStacks

/-- Two loaded tasks have one frame for their stacks. -/
theorem Sound.not_mem_ownStacks {ρ : Nat → Tag} {F : Nat} (hs : Sound ρ F k) (h : OwnStacks k ids St)
    (hi : Present k i) (hj : Present k j) (hne : i ≠ j) (hin : i ∈ ids) : j ∉ ids := by
  intro hin'
  have hmapped := (h.loaded i hin).mapped.symm.trans (hs.mappedFrame_kstack hi)
  have hmapped' := (h.loaded j hin').mapped.symm.trans (hs.mappedFrame_kstack hj)
  exact hne (h.own hin hin' (Option.some.inj (hmapped.trans hmapped'.symm)))

/-- Task 0 and loaded tasks with stacks of their own, under the walk of the processor. -/
def kernelTasks (o : Objects) (he : EarlyTables k.machine) (hfirst : dirFrame k 0 = pgDir0) (h : OwnStacks k ids St) :
    Contexts.Tasks twoLevel (BitVec.ofNat 32 o.current) where
  toLayout := o.layout k ids St
  Maps m t := HoldsKernel m k.machine (dirFrame k (o.number t)) ∧
    (o.number t ≠ 0 → HoldsStack m k.machine (dirFrame k (o.number t)))
  translates := by
    rintro _ ⟨i, hi, rfl⟩ m hm b hb
    rw [o.number_record (h.lt hi)] at hm
    rw [Objects.layout_dir (h.lt hi)]
    rcases h.used_cases hi hb with hb | ⟨hne, hb⟩
    · rw [Objects.place_kernel hb]
      exact he.translates (h.kernelSlots hfirst hi) (h.dir_lt hfirst hi) hm.1 hb
    · rw [Objects.place_kstack (h.lt hi) hne hb]
      exact translates_kstackPage (h.dir_lt hfirst hi) (h.loaded i (hi.resolve_left hne)).mapped (hm.2 hne) hb
  tables := by
    rintro m m' hm _ ⟨i, hi, rfl⟩ hmaps
    rw [o.number_record (h.lt hi)] at hmaps ⊢
    obtain ⟨hkernel, hstack⟩ := hmaps
    have hdir := h.dir_unwritten hfirst hi
    have hD := h.dir_lt hfirst hi
    refine ⟨⟨fun b hb => ?_, fun b hb => ?_⟩, fun hne => ⟨?_, ?_⟩⟩
    · exact (hkernel.slot b hb).congr (fun p hp => h.unwritten hdir hm hp) hD (pageDirIndex_lt b.isLt)
    · obtain ⟨-, hslot⟩ := kernelBytes_slot hb
      exact (hkernel.table b hb).congr (fun p hp => h.unwritten (.inl (by unfold dir0Pt; omega)) hm hp)
        (dir0Pt_lt (by omega)) (pageTableIndex_lt _)
    · exact (hstack hne).slot.congr (fun p hp => h.unwritten hdir hm hp) hD (by decide)
    · have hi' := hi.resolve_left hne
      obtain ⟨hlow, hhigh⟩ := (h.loaded i hi').table
      exact (hstack hne).table.congr
        (fun p hp => h.unwritten (.inr ⟨hlow, fun j hj => (h.tables j hj i hi').2⟩) hm hp)
        (lt_trans hhigh (by decide)) (by decide)
  injOn := by
    rintro _ ⟨i, hi, rfl⟩
    exact h.place_injOn hi
  shows := by
    rintro t - t' - b hb
    rw [Objects.place_kernel (h.shared_kernel hb), Objects.place_kernel (h.shared_kernel hb)]
  record_apart := by
    rintro _ ⟨i, hi, rfl⟩ b hb hb'
    have hlt : i < 32 := h.lt hi
    obtain ⟨-, -, -, -, hapart⟩ := o.bounds
    rw [o.mem_record hlt] at hb
    rw [o.mem_current] at hb'
    omega
  stack_apart := by
    rintro _ ⟨i, hi, rfl⟩ b hb
    exact h.stack_unshared hi hb
  apart := by
    rintro _ ⟨i, hi, rfl⟩ _ ⟨j, hj, rfl⟩ hne p hp
    exact h.own_apart hi hj (fun heq => hne (congrArg o.record heq)) hp

section Fields

variable {he : EarlyTables k.machine} {hfirst : dirFrame k 0 = pgDir0} {h : OwnStacks k ids St}

theorem kernelTasks_dir (hi : i < maxTaskNum) :
    (kernelTasks o he hfirst h).dir (o.record i) = BitVec.ofNat 32 (dirFrame k i * frameSize) :=
  congrArg (fun n => BitVec.ofNat 32 (dirFrame k n * frameSize)) (o.number_record hi)

theorem kernelTasks_stack (hi : i < maxTaskNum) :
    (kernelTasks o he hfirst h).stack (o.record i) = if i = 0 then o.stackBytes else kstackPage :=
  congrArg (fun n => if n = 0 then o.stackBytes else kstackPage) (o.number_record hi)

theorem kernelTasks_maps (hi : i < maxTaskNum) : (kernelTasks o he hfirst h).Maps m (o.record i) ↔
    HoldsKernel m k.machine (dirFrame k i) ∧ (i ≠ 0 → HoldsStack m k.machine (dirFrame k i)) := by
  simp only [kernelTasks, o.number_record hi]

end Fields

end TsOs.Tasking
