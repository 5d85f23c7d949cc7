import TsOs.Kernel.SystemCalls
import TsOs.Tasking.KernelTasks

/-!
# The first entry of a task

`load_task` leaves a context for `__context_switch` on the stack of the new task, with
the address of `__ret_syscall` to return to, and behind it the words that are
restored there. The first switch to the task, which task 0 makes in `spawn_ram`, finds
these words through the tables of the new directory, and ends in user mode.
-/

namespace TsOs.Tasking
open Paging

variable {k k' : Kernel} {ρ ρ' : Nat → Tag} {K : Nat → Prop} {F R retSyscall stack tid : Nat} {img : Image}
  {d : NewDir}

/-- A loaded task gets the stack's frame that its parent has. -/
theorem loadStack_frame (hs : Prepared ρ k.machine d R)
    (hpres : KstackPresent k.machine d.newPgDirPhy F) (hF : ρ F = .stackTable)
    (h : allocKstackAndTask k d.newPgDirPhy = some (stack, k')) :
    tempFrame k'.machine stack = some (frameOf (word k.machine F 1023)) := by
  have hDs := hs.tagged.ne_sysTb hs.dirTag (by simp)
  have hFs := hs.tagged.ne_sysTb hF (by decide)
  have hDF : d.newPgDirPhy ≠ F := ne_of_apply_ne ρ (by rw [hs.dirTag, hF]; simp)
  have hDlt := user_lt (hs.tagged.user d.newPgDirPhy (by simp [hs.dirTag])).2.1
  have hSt : ρ (frameOf (word k.machine F 1023)) = .stack := hpres.stack_tag hs.tagged hF
  have hSts := hs.tagged.ne_sysTb hSt (by decide)
  rw [allocKstackAndTask] at h
  obtain ⟨⟨dir, s₁⟩, hcreate, h⟩ := Option.bind_eq_some_iff.mp h
  obtain ⟨s₂, hregion, h⟩ := Option.bind_eq_some_iff.mp h
  obtain ⟨⟨St, s₃⟩, hphy, h⟩ := Option.bind_eq_some_iff.mp h
  obtain ⟨⟨stack', s₄⟩, hmap, h⟩ := Option.bind_eq_some_iff.mp h
  obtain ⟨s₅, hpokes, h⟩ := Option.bind_eq_some_iff.mp h
  obtain ⟨tid, htid, h⟩ := Option.bind_eq_some_iff.mp h
  obtain ⟨s₆, hpoke, h⟩ := Option.bind_eq_some_iff.mp h
  obtain ⟨task, -, h⟩ := Option.bind_eq_some_iff.mp h
  obtain ⟨rfl, rfl⟩ : stack' = stack ∧ _ = k' := by simpa using h
  have hc := createTempVa_spec hcreate hDlt
  have hpres₁ := hpres.congr (hc.only.words _ hDs) (hc.only.words F hFs)
  have hsys₁ : entrySet (word s₁ d.newPgDirPhy 1022) = true := by
    rw [hc.only.words _ hDs _ (by decide)]
    exact hs.sysEntry
  obtain ⟨honly₂, hslots₂⟩ := requestRegionVmap_kstack_present hc.leads hDs hFs hpres₁ hsys₁ hregion
  have hpres₂ := hpres₁.congr (honly₂.words _ hDs) (honly₂.words F hFs)
  have hidx : frameOf (word s₂ d.newPgDirPhy (pageDirIndex kstackFrame)) = F := hpres₂.frame
  have hdir₂ := hslots₂ _ _ hc.leads
  obtain ⟨-, hframe, honly₃, hslots₃⟩ := getPhyFromDir_spec hdir₂ (fun _ => hidx ▸ hFs) hphy
  rw [hidx] at hframe hslots₃
  have hword : word s₂ F (pageTableIndex kstackFrame) = word k.machine F 1023 :=
    (honly₂.words F hFs _ (by decide)).trans (hc.only.words F hFs _ (by decide))
  rw [hword] at hframe
  have hcS := createTempVa_spec hmap (hframe ▸ frameOf_word_lt _ _ _)
  have htid32 : tid < 2 ^ 32 := Nat.lt_trans (getNextTid_spec htid).1 (by decide)
  obtain ⟨-, hslot₆, -⟩ := record_spec hcS.leads (hframe ▸ hSts) hDlt htid32 hpokes hpoke
  have hne : stack' ≠ dir := by
    rintro rfl
    exact absurd (hcS.absent.symm.trans (hslots₃ _ _ hdir₂ hDF)) (by simp)
  rw [← hframe]
  exact ((deleteTempVa_spec s₆ dir).2 stack' hne).trans hslot₆

/-- The words of the trap frame. -/
def entryWords (retSyscall : Nat) : List Nat :=
  [0, 0, 0, 0, 0, 0, 0, 0, 0, u32 retSyscall, 0x23, 0x23, 0x23, 0x23, 0, 0x1b, 0x200,
    ustackFrame + frameSize - 4, 0x23]

theorem lastWord_trapFrame (retSyscall : Nat) (w : Nat) : ∀ j < 19,
    (entryWords retSyscall)[j]? = some (lastWord (trapFrame retSyscall) (tfWord + j) w) := by
  intro j hj
  interval_cases j <;> rfl

/-- The record of a new task with the directory `D`, and the trap frame in its stack's frame. -/
structure Entering (s : Machine) (task : Task) (St D retSyscall : Nat) : Prop where
  esp : task.esp = kstackFrame + frameSize - taskSize - trapFrameSize
  phyDir : task.phyDir = D * frameSize
  frame : ∀ j < 19, (entryWords retSyscall)[j]? = some (word s St (tfWord + j))

theorem finishTask_entering (hs : Prepared ρ k.machine d R)
    (hpres : KstackPresent k.machine d.newPgDirPhy F) (hF : ρ F = .stackTable)
    (hK : ∀ g, K g → Old ρ g ∧ ρ g ≠ .stack ∧ g ≠ sysTb ∧ g ≠ 0 ∧ ∀ r, ρ g ≠ .task d.newPgDirPhy r)
    (himg : img.BelowStack) (h : finishTask retSyscall d k img = some k') :
    ∃ tid task, getNextTid k.taskArr = some tid ∧ k'.taskArr = Function.update k.taskArr tid task ∧
      Entering k'.machine task (frameOf (word k.machine F 1023)) d.newPgDirPhy retSyscall := by
  rw [finishTask] at h
  obtain ⟨⟨stack, k₁⟩, halloc, h⟩ := Option.bind_eq_some_iff.mp h
  obtain ⟨newTid, hnew, h⟩ := Option.bind_eq_some_iff.mp h
  obtain ⟨s₂, hspace, h⟩ := Option.bind_eq_some_iff.mp h
  obtain ⟨s₃, hpoke, h⟩ := Option.bind_eq_some_iff.mp h
  obtain ⟨s₄, hpokes, h⟩ := Option.bind_eq_some_iff.mp h
  obtain ⟨task, hread, h⟩ := Option.bind_eq_some_iff.mp h
  obtain rfl := Option.some.inj h
  obtain ⟨ρ₁, F₁, St, tid, hst, hext₁⟩ := loadStack_spec hs hpres hF
    (fun g hg => ⟨(hK g hg).1, (hK g hg).2.1, (hK g hg).2.2.1⟩) halloc
  have hshared : St = frameOf (word k.machine F 1023) :=
    Option.some.inj (hst.slot.symm.trans (loadStack_frame hs hpres hF halloc))
  have hsp := hst.space hs hext₁ rfl fun g hg => ⟨(hK g hg).1, (hK g hg).2.2⟩
  obtain ⟨ρ₂, htag₂, hext₂, -⟩ := createTaskAddressSpace_spec hsp hst.slot hst.record.phyDir himg hspace
  have hSt₂ : ρ₂ St = .stack := (hext₂.tags _ (by simp [hst.stackTag])).trans hst.stackTag
  have hSts := htag₂.ne_sysTb hSt₂ (by simp)
  have hslot₂ := hext₂.slots _ _ hst.slot rfl
  obtain ⟨honly, hslot₄, hrest₄⟩ := trapFrame_spec hslot₂ hSts hpoke hpokes
  obtain rfl : recordAt s₄ St = task := Option.some.inj ((readTask_eq hslot₄).symm.trans hread)
  have htid : newTid = tid := by
    rw [peek_eq hst.slot] at hnew
    exact (Option.some.inj hnew).symm.trans hst.record.tid
  obtain ⟨t₁, harr, -⟩ := hst.arr
  have hlast := (deleteTempVa_spec s₄ d.newPgDir).1.trans
    ((deleteTempVa_spec _ d.revTb).1.trans
      ((deleteTempVa_spec _ d.sysPg).1.trans (deleteTempVa_spec _ stack).1))
  -- the words of the frame after the assignments
  obtain ⟨g, hg, rfl⟩ := poke_eq hpoke
  obtain rfl : St = g := Option.some.inj (hslot₂.symm.trans hg)
  have hslot₃ := ((onlyFrame_setWord s₂ St taskWord
    (kstackFrame + frameSize - taskSize - trapFrameSize)).tempFrame_eq hSts _).trans hslot₂
  obtain ⟨-, hwords⟩ := pokes_spec hslot₃ hSts hpokes
  refine ⟨tid, recordAt s₄ St, hst.next, by rw [harr, htid, Function.update_idem], ?_, ?_, fun j hj => ?_⟩
  · change word s₄ St taskWord = _
    rw [hwords, lastWord_of_ne fun a ha => (trapFrame_lt ha).ne, word_setWord_same _ _ _ (by decide)]
  · change word s₄ St (taskWord + 1) = _
    rw [hrest₄ _ (by decide) (by decide), hext₂.kept St (Or.inr rfl) _ (by decide)]
    exact hst.record.phyDir
  · have hj' : tfWord + j < 1024 := by
      have htf : tfWord = 998 := rfl
      omega
    rw [← hshared]
    refine Eq.trans ?_ (congrArg some (hlast.words St hSts _ hj').symm)
    rw [hwords]
    exact lastWord_trapFrame retSyscall _ j hj

/-- What `load_task` leaves for the first switch to the new task. The frame of the stack is the one that
every directory has. -/
theorem loadTask_entering (hs : Sound ρ F k) (himg : img.BelowStack)
    (h : loadTask retSyscall pgDir0 k img = some k') :
    ∃ tid task D, getNextTid k.taskArr = some tid ∧ k'.taskArr tid = task ∧
      Entering k'.machine task (frameOf (word k'.machine F 1023)) D retSyscall := by
  rw [loadTask_eq (by decide)] at h
  obtain ⟨⟨d, s₁⟩, hprep, h⟩ := Option.bind_eq_some_iff.mp h
  obtain ⟨ρ₁, R, hlink⟩ := hs.linkedDir hprep
  have hK : ∀ g, g = F → Old ρ₁ g ∧ ρ₁ g ≠ .stack ∧ g ≠ sysTb ∧ g ≠ 0 ∧
      ∀ r, ρ₁ g ≠ .task d.newPgDirPhy r := by
    rintro g rfl
    have huser := (hlink.prepared.tagged.user g (by simp [hlink.table])).1
    have hpos : 0 < userFrame := by decide
    exact ⟨Or.inr (by simp [hlink.table]), by simp [hlink.table],
      hlink.prepared.tagged.ne_sysTb hlink.table (by simp), by omega, by simp [hlink.table]⟩
  obtain ⟨tid, task, hnext, harr, hentering⟩ :=
    finishTask_entering hlink.prepared hlink.present hlink.table hK himg h
  obtain ⟨_, _, _, -, hext, -⟩ := finishTask_spec hlink.prepared hlink.present hlink.table hK himg h
  refine ⟨tid, task, d.newPgDirPhy, hnext, ?_, ?_⟩
  · rw [harr, Function.update_self]
  · rw [hext.kept F rfl 1023 (by decide)]
    exact hentering

/-! ## The switch to the new task -/

open Ia32 (Word Memory State readWord span shown twoLevel)
open Gates (InImage Disjoint)

/-- The address of the trap frame. -/
def tfAddr : Nat := kstackFrame + frameSize - taskSize - trapFrameSize

/-- A memory has the frame `St` in the page of the kernel stack. -/
def ShowsStack (m : Memory) (s : Machine) (St : Nat) : Prop :=
  ∀ j < 1024, (readWord m (BitVec.ofNat 32 (kstackFrame + 4 * j))).toNat = word s St j

/-- Task 0 calls `__context_switch` for the task `tid` as `spawn_ram` does: with `pg_dir0`, and on a stack in the
kernel's half. The memory has the record in `task_arr`, the tables and the frames of user memory. -/
structure SpawnCall (o : Objects) (k : Kernel) (tid : Nat) (c : State) : Prop where
  cpl : c.cpl = 0
  cr3 : c.cr3 = BitVec.ofNat 32 (pgDir0 * frameSize)
  memory : InMemory c.mem k.machine
  running : Contexts.running (BitVec.ofNat 32 o.current) (c.linear twoLevel) = o.record 0
  newTask : Contexts.newTask (c.linear twoLevel) = o.record tid
  esp : (readWord (c.linear twoLevel).mem (o.record tid)).toNat = (k.taskArr tid).esp
  phyDir : (readWord (c.linear twoLevel).mem (o.record tid + 4)).toNat = (k.taskArr tid).phyDir
  stack : Contexts.callFrame (c.linear twoLevel) ⊆ o.stackBytes

/-- The context at the start of the trap frame. -/
def entryContext (retSyscall D : Nat) : Contexts.Context where
  reg r := if r = .esp then BitVec.ofNat 32 (tfAddr + 40) else 0
  eip := BitVec.ofNat 32 retSyscall
  eflags := 0
  cr3 := BitVec.ofNat 32 (D * frameSize)

/-- User code at address 0 with the directory `D`, at the top of its stack and with interrupts on. -/
def userEntry (D : Nat) (m : Memory) : State where
  reg r := if r = .esp then BitVec.ofNat 32 (ustackFrame + frameSize - 4) else 0
  seg g := if g = .cs then 0x1b else 0x23
  eip := 0
  eflags := 0x200
  cr3 := BitVec.ofNat 32 (D * frameSize)
  mem := m

variable {s : Machine} {task : Task} {m m' : Memory} {t : Word} {St D : Nat}

theorem eq_ofNat {a : Word} {n : Nat} (h : a.toNat = n) : a = BitVec.ofNat 32 n := by
  rw [← h, BitVec.ofNat_toNat, BitVec.setWidth_eq]

/-- The words from one of the frame on. -/
theorem ShowsStack.stacked (h : ShowsStack m s St) {ws : List Nat} {j : Nat} (hlen : j + ws.length ≤ 1024)
    (hws : ∀ i < ws.length, ws[i]? = some (word s St (j + i))) :
    Ia32.Stacked m (BitVec.ofNat 32 (kstackFrame + 4 * j)) (ws.map (BitVec.ofNat 32)) := by
  induction ws generalizing j with
  | nil => trivial
  | cons w ws ih =>
      rw [List.length_cons] at hlen
      have hnext : BitVec.ofNat 32 (kstackFrame + 4 * j) + 4 = BitVec.ofNat 32 (kstackFrame + 4 * (j + 1)) := by
        rw [Nat.mul_succ, ← Nat.add_assoc, BitVec.ofNat_add _ 4]
        rfl
      have hfirst : w = word s St j := Option.some.inj (hws 0 (by simp))
      refine ⟨eq_ofNat ((h j (by omega)).trans hfirst.symm), ?_⟩
      rw [hnext]
      refine ih (by omega) fun i hi => ?_
      rw [Nat.add_right_comm j 1 i]
      exact hws (i + 1) (by rw [List.length_cons]; omega)

theorem Entering.stacked {retSyscall : Nat} (h : Entering s task St D retSyscall) (hm : ShowsStack m s St) :
    Ia32.Stacked m (BitVec.ofNat 32 tfAddr) ((entryWords retSyscall).map (BitVec.ofNat 32)) := by
  have haddr : tfAddr = kstackFrame + 4 * tfWord := by decide
  rw [haddr]
  have hlen : (entryWords retSyscall).length = 19 := rfl
  exact hm.stacked (by rw [hlen]; decide) fun i hi => h.frame i (by omega)

/-- The words behind the context: the segments, and what `iret` takes. -/
def returnWords : List Word :=
  [0x23, 0x23, 0x23, 0x23, 0, 0x1b, 0x200, BitVec.ofNat 32 (ustackFrame + frameSize - 4), 0x23]

theorem u32_ofNat (n : Nat) : BitVec.ofNat 32 (u32 n) = BitVec.ofNat 32 n :=
  BitVec.eq_of_toNat_eq (by rw [BitVec.toNat_ofNat, BitVec.toNat_ofNat, u32, Nat.mod_mod])

theorem entryWords_eq (retSyscall D : Nat) : (entryWords retSyscall).map (BitVec.ofNat 32) =
    (entryContext retSyscall D).words 0 ++ returnWords := by
  simp only [entryWords, List.map, u32_ofNat]
  rfl

theorem entryContext_esp (retSyscall D : Nat) :
    (entryContext retSyscall D).reg .esp - 40 = BitVec.ofNat 32 tfAddr := by
  change BitVec.ofNat 32 (tfAddr + 40) - 40 = _
  rw [BitVec.ofNat_add]
  exact BitVec.add_sub_cancel _ _

/-- The trap frame starts with a context. -/
theorem Entering.suspended {retSyscall : Nat} (h : Entering s task St D retSyscall)
    (hesp : (readWord m t).toNat = task.esp) (hphyDir : (readWord m (t + 4)).toNat = task.phyDir)
    (hm : ShowsStack m' s St) : Contexts.Suspended m m' t (entryContext retSyscall D) := by
  have hstack : Ia32.Stacked m' (BitVec.ofNat 32 tfAddr) ((entryContext retSyscall D).words 0) := by
    have hall := h.stacked hm
    rw [entryWords_eq retSyscall D] at hall
    exact hall.append_left
  refine ⟨?_, eq_ofNat (hphyDir.trans h.phyDir), 0, ?_⟩
  · rw [entryContext_esp]
    exact eq_ofNat (hesp.trans h.esp)
  · rw [entryContext_esp]
    exact hstack

theorem Entering.behind {retSyscall : Nat} (h : Entering s task St D retSyscall) (hm : ShowsStack m s St) :
    Ia32.Stacked m (BitVec.ofNat 32 (tfAddr + 40)) returnWords := by
  have hall := h.stacked hm
  rw [entryWords_eq retSyscall D] at hall
  rw [BitVec.ofNat_add]
  exact hall.append_right

theorem cpl_userEntry (D : Nat) (m : Memory) : ¬(userEntry D m).cpl = 0 :=
  (by decide : ¬(0x1b : BitVec 16).toNat % 4 = 0)

/-- They are what `__ret_syscall` takes to go to the entry of the user code. -/
theorem returnWords_eq (D : Nat) (m : Memory) : returnWords =
    [((userEntry D m).seg .ds).setWidth 32, ((userEntry D m).seg .es).setWidth 32,
      ((userEntry D m).seg .fs).setWidth 32, ((userEntry D m).seg .gs).setWidth 32] ++
        (Ia32.trapWords (userEntry D m)).reverse := by
  rw [Ia32.trapWords_reverse, if_neg (cpl_userEntry D m)]
  rfl

/-- What the directory of the new task shows in the page of the kernel stack. -/
theorem showsStack (hmem : InMemory m s) (h : LoadedDir s D St) :
    ShowsStack (shown twoLevel m (BitVec.ofNat 32 (D * frameSize))) s St := by
  intro j hj
  have htranslates := translates_kstackPage (lt_trans h.dir.2 (by decide)) h.mapped (hmem.holdsStack h.dir h.table)
  rw [← hmem.user St h.stack.1 h.stack.2 j hj]
  have hpage : kstackFrame = 0xFF7FF000 := rfl
  have hsize : frameSize = 4096 := rfl
  refine congrArg BitVec.toNat (Ia32.readWord_moved fun i hi => ?_)
  have haddr : (BitVec.ofNat 32 (kstackFrame + 4 * j) + BitVec.ofNat 32 i).toNat = kstackFrame + (4 * j + i) := by
    rw [hpage]
    bv_omega
  have hin : BitVec.ofNat 32 (kstackFrame + 4 * j) + BitVec.ofNat 32 i ∈ kstackPage := by
    refine ⟨by omega, ?_⟩
    rw [haddr, hsize]
    omega
  refine congrArg m ((htranslates hin).trans ?_)
  rw [kstackPlace, haddr, Nat.add_sub_cancel_left, ← Nat.add_assoc, BitVec.ofNat_add _ i]

namespace SpawnCall

variable {o : Objects} {tid : Nat} {c : State} {b : Word} (hcall : SpawnCall o k tid c) (he : EarlyTables k.machine)
  (hfirst : dirFrame k 0 = pgDir0) (hown : OwnStacks k {tid} fun _ => St)
  (h : Entering k.machine (k.taskArr tid) St (dirFrame k tid) retSyscall)
include hcall he hfirst hown h

omit hfirst h in
/-- The record of the new task, as its own directory shows it. -/
theorem shown_record (hb : b ∈ Contexts.record (o.record tid)) :
    shown twoLevel c.mem (BitVec.ofNat 32 (dirFrame k tid * frameSize)) b = (c.linear twoLevel).mem b := by
  have hloaded := hown.loaded tid rfl
  have hkernel : b ∈ kernelBytes := hown.shared_kernel (o := o) (.inr ⟨_, ⟨tid, .inr rfl, rfl⟩, hb⟩)
  change _ = shown twoLevel c.mem c.cr3 b
  rw [hcall.cr3, he.shown hloaded.slots (lt_trans hloaded.dir.2 (by decide))
    (hcall.memory.holdsKernel (.inr hloaded.dir)) hkernel, he.shown (fun _ _ => rfl) (by decide) (hcall.memory.holdsKernel (.inl rfl)) hkernel]

/-- The new task has its context on its stack. -/
theorem ready : (kernelTasks o he hfirst hown).Ready c.mem (o.record tid)
    (entryContext retSyscall (dirFrame k tid)) := by
  obtain ⟨hne, hlt⟩ := hown.numbers tid rfl
  have hloaded := hown.loaded tid rfl
  have hcr3 : (entryContext retSyscall (dirFrame k tid)).cr3 = BitVec.ofNat 32 (dirFrame k tid * frameSize) := rfl
  refine {
    mem := ⟨tid, .inr rfl, rfl⟩
    cr3 := by rw [hcr3, kernelTasks_dir hlt]
    frame := fun b hb => ?_
    maps := (kernelTasks_maps hlt).mpr ⟨hcall.memory.holdsKernel (.inr hloaded.dir), fun _ =>
      hcall.memory.holdsStack hloaded.dir hloaded.table⟩
    suspended := ?_ }
  · have htf : tfAddr = 0xFF7FFF98 ∧ kstackFrame = 0xFF7FF000 ∧ frameSize = 4096 := ⟨rfl, rfl, rfl⟩
    rw [entryContext_esp, mem_span_ofNat (by decide)] at hb
    rw [kernelTasks_stack hlt, if_neg hne]
    exact ⟨by omega, by omega⟩
  · rw [hcr3]
    exact (h.suspended hcall.esp hcall.phyDir (showsStack hcall.memory hloaded)).congr
      (fun b hb => hcall.shown_record he hown hb) fun _ _ => rfl

omit he hfirst hown h in
theorem running_system (left : Word → Option (Contexts.Context × Memory)) :
    Contexts.System.running twoLevel (BitVec.ofNat 32 o.current) ⟨c, left⟩ = o.record 0 := hcall.running

/-- At the call the tasks are as they are between two switches. -/
theorem sound : (kernelTasks o he hfirst hown).Sound
    ⟨c, fun t => if t = o.record tid then some (entryContext retSyscall (dirFrame k tid), c.mem) else none⟩ := by
  obtain ⟨hne, hlt⟩ := hown.numbers tid rfl
  refine {
    task := ?_
    cr3 := ?_
    maps := ?_
    active := ?_
    kept := fun t ctx m ht => ?_ }
  · rw [hcall.running_system]
    exact ⟨0, .inl rfl, rfl⟩
  · rw [hcall.running_system, kernelTasks_dir (by decide), hfirst]
    exact hcall.cr3
  · rw [hcall.running_system, kernelTasks_maps (by decide)]
    exact ⟨hcall.memory.holdsKernel (.inl hfirst), fun hzero => absurd rfl hzero⟩
  · rw [hcall.running_system]
    exact if_neg (o.record_ne (by decide) hlt hne.symm)
  · dsimp only at ht
    split_ifs at ht with heq
    obtain ⟨rfl, rfl⟩ := Prod.mk.inj (Option.some.inj ht)
    rw [heq]
    exact ⟨hcall.ready he hfirst hown h, fun _ _ _ => rfl⟩

/-- The switch of task 0 to the new task, and what the new task's directory shows of its stack then. -/
theorem switched (alu : State → Word) :
    Contexts.Switched twoLevel (BitVec.ofNat 32 o.current) ((o.layout k {tid} fun _ => St).place (o.record 0)) c
      (Contexts.contextSwitch twoLevel alu (BitVec.ofNat 32 o.current) c) (entryContext retSyscall (dirFrame k tid)) ∧
    ∀ b ∈ kstackPage, shown twoLevel (Contexts.contextSwitch twoLevel alu (BitVec.ofNat 32 o.current) c).mem
      (BitVec.ofNat 32 (dirFrame k tid * frameSize)) b =
        shown twoLevel c.mem (BitVec.ofNat 32 (dirFrame k tid * frameSize)) b := by
  obtain ⟨hne, hlt⟩ := hown.numbers tid rfl
  have hs := hcall.sound he hfirst hown h
  have hready := hcall.ready he hfirst hown h
  generalize hleft : (fun t => if t = o.record tid then
    some (entryContext retSyscall (dirFrame k tid), c.mem) else none) = left at hs
  have hrunning := hcall.running_system left
  have hframe : Contexts.callFrame (c.linear twoLevel) ⊆ (kernelTasks o he hfirst hown).stack
      (Contexts.System.running twoLevel (BitVec.ofNat 32 o.current) ⟨c, left⟩) := by
    rw [hrunning, kernelTasks_stack (by decide), if_pos rfl]
    exact hcall.stack
  have hnew : left (Contexts.System.newTask twoLevel ⟨c, left⟩) =
      some (entryContext retSyscall (dirFrame k tid), c.mem) := by
    rw [← hleft]
    exact if_pos hcall.newTask
  have hswitched : Contexts.Switched twoLevel _ _ c (Contexts.contextSwitch twoLevel alu _ c) _ :=
    hs.switched hframe hnew
  have hmaps := Contexts.Tasks.switched_maps hs hframe hnew hswitched hready.mem hready.maps
  have hother : o.record tid ≠ Contexts.System.running twoLevel (BitVec.ofNat 32 o.current) ⟨c, left⟩ := by
    rw [hrunning]
    exact o.record_ne hlt (by decide) hne
  have hrest := Contexts.Tasks.switched_rest hs hframe hswitched hready.mem hother
  rw [hrunning] at hswitched
  refine ⟨hswitched, fun b hb => ?_⟩
  have hin : b ∈ (kernelTasks o he hfirst hown).stack (o.record tid) := by
    rw [kernelTasks_stack hlt, if_neg hne]
    exact hb
  have hdir : (kernelTasks o he hfirst hown).dir (o.record tid) = _ := kernelTasks_dir hlt
  rw [← hdir]
  exact hready.maps.shown_congr hmaps hready.mem hrest (.inr hin)

theorem enters (alu : State → Word) :
    (Contexts.contextSwitch twoLevel alu (BitVec.ofNat 32 o.current) c).eip = BitVec.ofNat 32 retSyscall ∧
      Ia32.Resumes (userEntry (dirFrame k tid) c.mem) (Ia32.popPaged twoLevel Ia32.iret (Ia32.runPaged alu twoLevel
        (Contexts.contextSwitch twoLevel alu (BitVec.ofNat 32 o.current) c) Stubs.retSyscall)) := by
  obtain ⟨hs, hshown⟩ := hcall.switched he hfirst hown h alu
  generalize Contexts.contextSwitch twoLevel alu (BitVec.ofNat 32 o.current) c = u at hs hshown
  refine ⟨hs.runs.eip, ?_⟩
  have hreg := hs.runs.reg
  have hcr3 := hs.runs.cr3
  have hstack : Ia32.Stacked (u.linear twoLevel).mem (u.linear twoLevel).esp returnWords := by
    have hbehind := h.behind (showsStack hcall.memory (hown.loaded tid rfl))
    have hmem : (u.linear twoLevel).mem = shown twoLevel u.mem (BitVec.ofNat 32 (dirFrame k tid * frameSize)) :=
      congrArg (shown twoLevel u.mem) hcr3
    have hesp : (u.linear twoLevel).esp = BitVec.ofNat 32 (tfAddr + 40) := congrFun hreg .esp
    rw [hmem, hesp]
    refine hbehind.congr fun i hi => hshown _ ?_
    have hlen : returnWords.length = 9 := rfl
    have htf : tfAddr = 0xFF7FFF98 ∧ kstackFrame = 0xFF7FF000 ∧ frameSize = 4096 := ⟨rfl, rfl, rfl⟩
    rw [hlen] at hi
    exact ⟨by bv_omega, by bv_omega⟩
  rw [returnWords_eq (dirFrame k tid) c.mem] at hstack
  obtain ⟨hrun, -⟩ := Ia32.runPaged_quiet alu twoLevel Stubs.retSyscall (by decide) u
  have hresumes : Ia32.Resumes (userEntry (dirFrame k tid) c.mem)
      (Ia32.iret (Ia32.run alu (u.linear twoLevel) Stubs.retSyscall)) := by
    refine Stubs.retSyscall_resumes alu hstack (fun r hr => ?_) ?_ hcr3 fun hkernel => ?_
    · change u.reg r = _
      rw [hreg]
      exact (if_neg hr).trans (if_neg hr).symm
    · change (u.seg .cs).toNat % 4 = 0
      rw [hs.seg]
      exact hcall.cpl
    · exact absurd hkernel (cpl_userEntry _ c.mem)
  rw [Ia32.popPaged, hrun]
  exact hresumes.withMem _

end SpawnCall

/-- The new task and task 0 are apart in memory. -/
theorem Sound.ownStacks {tid : Nat} (hs : Sound ρ F k) (hne : tid ≠ 0) (hpresent : Present k tid)
    (hslots : ∀ i, userSlots < i → i < 1022 → word k.machine (dirFrame k tid) i = word k.machine pgDir0 i) :
    OwnStacks k {tid} fun _ => frameOf (word k.machine F 1023) := by
  obtain ⟨hdirTag, -⟩ := hs.dirs tid hne hpresent
  have hstackTag := hs.present.stack_tag hs.tagged hs.table
  have htable : frameOf (word k.machine (dirFrame k tid) (pageDirIndex kstackFrame)) = F := by
    have hword : word k.machine (dirFrame k tid) (pageDirIndex kstackFrame) = word k.machine pgDir0 1021 :=
      hslots 1021 (by decide) (by decide)
    rw [hword]
    exact hs.present.frame
  have huser : ∀ f, ρ f ≠ .free → userFrame ≤ f ∧ f < maxFrameNum := by
    intro f hf
    obtain ⟨hlow, hhigh, -⟩ := hs.tagged.user f hf
    exact ⟨hlow, hhigh⟩
  refine ⟨?_, ?_, Set.injOn_singleton _ _, ?_⟩
  · rintro _ rfl
    exact ⟨hne, hpresent.1⟩
  · rintro _ rfl
    refine ⟨huser _ (by simp [hdirTag]), ?_, huser _ (by simp [hstackTag]), fun b hb => ?_,
      hs.mappedFrame_kstack hpresent⟩
    · rw [htable]
      exact huser F (by simp [hs.table])
    · obtain ⟨hlow, hhigh⟩ := kernelBytes_slot hb
      exact hslots _ hlow (by omega)
  · rintro _ rfl _ rfl
    rw [htable]
    exact ⟨ne_of_apply_ne ρ (by rw [hstackTag, hdirTag]; simp), ne_of_apply_ne ρ (by rw [hstackTag, hs.table]; simp)⟩

/-- After `load_task` the call in `spawn_ram` goes to `__ret_syscall`, and this enters user code at address 0 in
the new address space. -/
theorem loadTask_enters (hs : Sound ρ F k) (he : EarlyTables k.machine) (himg : img.BelowStack)
    (h : loadTask retSyscall pgDir0 k img = some k') :
    ∃ tid, getNextTid k.taskArr = some tid ∧ Present k' tid ∧
      ∀ (alu : State → Word) (o : Objects) (c : State), SpawnCall o k' tid c →
        (Contexts.contextSwitch twoLevel alu (BitVec.ofNat 32 o.current) c).eip = BitVec.ofNat 32 retSyscall ∧
          Ia32.Resumes (userEntry (dirFrame k' tid) c.mem)
            (Ia32.popPaged twoLevel Ia32.iret (Ia32.runPaged alu twoLevel
              (Contexts.contextSwitch twoLevel alu (BitVec.ofNat 32 o.current) c) Stubs.retSyscall)) := by
  obtain ⟨⟨ρ', hs'⟩, tid, task, D, hne, hpresent, hnext, harr, hfilled, -, hslots⟩ := loadTask_sound hs himg h
  obtain ⟨tid', task', D', hnext', harr', hentering⟩ := loadTask_entering hs himg h
  obtain rfl : tid = tid' := Option.some.inj (hnext.symm.trans hnext')
  have hdir : dirFrame k' tid = D := by
    rw [dirFrame, harr, Function.update_self, hfilled.phyDir, frameNb_mul]
  have hdir' : dirFrame k' tid = D' := by
    rw [dirFrame, harr', hentering.phyDir, frameNb_mul]
  rw [← hdir] at hslots
  rw [← hdir', ← harr'] at hentering
  exact ⟨tid, hnext, hpresent, fun alu o c hcall => hcall.enters (loadTask_earlyTables hs he himg h) hs'.first.2
    (hs'.ownStacks hne hpresent hslots) hentering alu⟩

/-! ## A sample -/

/-- `bootMachine` with the tables of the early initialisation. -/
def earlyMachine : Machine where
  mem f i :=
    if f = pgDir0 ∧ (i = 0 ∨ 768 ≤ i ∧ i < 772) then BitVec.ofNat 32 (pageEntry (dir0Pt i) pageFlgKernel)
    else if f = dir0Pt 0 ∨ dir0Pt 768 ≤ f ∧ f < dir0Pt 772 then
      BitVec.ofNat 32 (smallEntry (earlyPages ((f - dir0Pt 0) * 1024 + i)))
    else bootMachine.mem f i
  bitmap := bootMachine.bitmap

def earlyKernel : Kernel := ⟨earlyMachine, fun _ => ⟨0, 0, 0, 0, 0, 0, 0⟩, none⟩

theorem used_earlyPages {i : Nat} (h : Used earlyPages i) : i ∈ [0, 768, 769, 770, 771] := by
  obtain ⟨j, hj, hpage⟩ := h
  rw [earlyPages_eq] at hpage
  split_ifs at hpage with himage hlow
  · simp only [List.mem_cons, List.not_mem_nil, or_false]
    omega
  · simp only [List.mem_cons, List.not_mem_nil, or_false]
    omega
  · exact absurd rfl hpage

theorem earlyMachine_tables : EarlyTables earlyMachine where
  slot i _ hused := (by decide : ∀ i ∈ ([0, 768, 769, 770, 771] : List Nat),
    word earlyMachine pgDir0 i = pageEntry (dir0Pt i) pageFlgKernel) i (used_earlyPages hused)
  table i _ hused := (by decide +kernel : ∀ i ∈ ([0, 768, 769, 770, 771] : List Nat), ∀ j < (1024 : Nat),
    word earlyMachine (dir0Pt i) j = smallEntry (earlyPages (i * 1024 + j))) i (used_earlyPages hused)

/-- The kernel after the first `load_task`. -/
theorem earlyKernel_loaded : ∃ k k', initTask0 earlyKernel = some k ∧
    loadTask 0xC0801000 pgDir0 k sampleImage = some k' ∧ getNextTid k.taskArr = some 1 ∧
    (k'.taskArr 1).esp < 2 ^ 32 ∧ (k'.taskArr 1).phyDir < 2 ^ 32 := by
  have heval : (initTask0 earlyKernel).elim false (fun k =>
      (loadTask 0xC0801000 pgDir0 k sampleImage).elim false fun k' =>
        decide (getNextTid k.taskArr = some 1 ∧
          (k'.taskArr 1).esp < 2 ^ 32 ∧ (k'.taskArr 1).phyDir < 2 ^ 32)) = true := by
    simp only [loadTask_eq (by decide : pgDir0 < userFrame)]
    decide +kernel
  cases hinit : initTask0 earlyKernel with
  | none => exact absurd heval (by rw [hinit]; decide)
  | some k =>
      rw [hinit, Option.elim_some] at heval
      cases hload : loadTask 0xC0801000 pgDir0 k sampleImage with
      | none =>
          rw [hload, Option.elim_none] at heval
          cases heval
      | some k' =>
          rw [hload, Option.elim_some] at heval
          exact ⟨k, k', rfl, hload, of_decide_eq_true heval⟩

/-- `current`, the argument of the call and the record of task 1, at their places in memory. -/
def spawnWords (task : Task) : Memory :=
  Ia32.writeWord (Ia32.writeWord (Ia32.writeWord (Ia32.writeWord (fun _ => 0) 0x900000 0xC0901000)
    0xEFFF04 0xC090101C) 0x90101C (BitVec.ofNat 32 task.esp)) 0x901020 (BitVec.ofNat 32 task.phyDir)

/-- The frames of the tables and of user memory, and the words of the call. -/
def spawnMemory (task : Task) (s : Machine) : Memory := fun b =>
  if pgDir0 ≤ b.toNat / frameSize ∧ b.toNat / frameSize ≤ dir0Pt 1023 ∨ userFrame ≤ b.toNat / frameSize then
    UInt8.ofNat (word s (b.toNat / frameSize) (b.toNat % frameSize / 4) / 256 ^ (b.toNat % 4))
  else spawnWords task b

/-- A call of `__context_switch` below 0xC0F00000, the kernel's first stack. -/
def spawnCall (task : Task) (s : Machine) : State where
  reg r := if r = .esp then 0xC0EFFF00 else 0
  seg _ := 0x08
  eip := 0
  eflags := 2
  cr3 := BitVec.ofNat 32 (pgDir0 * frameSize)
  mem := spawnMemory task s

theorem spawnMemory_holds (task : Task) (s : Machine) {f j : Nat}
    (hf : pgDir0 ≤ f ∧ f ≤ dir0Pt 1023 ∨ userFrame ≤ f ∧ f < maxFrameNum) (hj : j < 1024) :
    Holds (spawnMemory task s) s f j := by
  have hlt : f < 2 ^ 20 := by
    have hframes : dir0Pt 1023 = 1280 ∧ maxFrameNum = 32768 := ⟨rfl, rfl⟩
    omega
  have hsize : frameSize = 4096 := rfl
  have hword : readWord (spawnMemory task s) (BitVec.ofNat 32 (f * frameSize + 4 * j)) =
      BitVec.ofNat 32 (word s f j) := by
    refine Ia32.readWord_of_bytes fun i hi => ?_
    have haddr : (BitVec.ofNat 32 (f * frameSize + 4 * j) + BitVec.ofNat 32 i).toNat = f * 4096 + (4 * j + i) := by
      rw [hsize]
      bv_omega
    have hframe : (f * 4096 + (4 * j + i)) / 4096 = f := by omega
    have hindex : (f * 4096 + (4 * j + i)) % 4096 / 4 = j := by omega
    have hbyte : (f * 4096 + (4 * j + i)) % 4 = i := by omega
    rw [spawnMemory, haddr, hsize, hframe, hindex, hbyte, if_pos (hf.imp_right And.left)]
  rw [Holds, hword, BitVec.toNat_ofNat, Nat.mod_eq_of_lt (word_lt s f j)]

theorem spawnMemory_inMemory (task : Task) (s : Machine) : InMemory (spawnMemory task s) s :=
  ⟨fun _ hlow hhigh _ hj => spawnMemory_holds task s (.inl ⟨hlow, hhigh⟩) hj,
    fun _ hlow hhigh _ hj => spawnMemory_holds task s (.inr ⟨hlow, hhigh⟩) hj⟩

/-- A word of the image. -/
theorem readWord_spawnCall {k : Kernel} (he : EarlyTables k.machine) (task : Task) {n : Nat} (hn : InImage n 4) :
    readWord ((spawnCall task k.machine).linear twoLevel).mem (BitVec.ofNat 32 n) =
      readWord (spawnWords task) (BitVec.ofNat 32 (n - kernelVStart)) := by
  obtain ⟨hlow, hhigh⟩ := hn
  have hsizes : oneMB = 0x100000 ∧ userPStart = 0x1000000 ∧ kernelVStart = 0xC0000000 ∧ frameSize = 4096 :=
    ⟨rfl, rfl, rfl, rfl⟩
  have hframes : dir0Pt 1023 = 1280 ∧ userFrame = 4096 := ⟨rfl, rfl⟩
  have hplaces : readWord ((spawnCall task k.machine).linear twoLevel).mem (BitVec.ofNat 32 n) =
      readWord (spawnMemory task k.machine) (BitVec.ofNat 32 (n - kernelVStart)) := by
    refine Ia32.readWord_moved fun i hi => ?_
    have hbyte : BitVec.ofNat 32 n + BitVec.ofNat 32 i ∈ kernelBytes := ⟨by bv_omega, by bv_omega⟩
    refine (he.shown (fun _ _ => rfl) (by decide) ((spawnMemory_inMemory task k.machine).holdsKernel (.inl rfl))
      hbyte).trans (congrArg _ ?_)
    rw [kernelPlace]
    bv_omega
  refine hplaces.trans (Ia32.readWord_of_span fun b hb => if_neg ?_)
  change (b - BitVec.ofNat 32 (n - kernelVStart)).toNat < 4 at hb
  rw [hsizes.2.2.2]
  bv_omega

theorem readWord_writeWord_far {a b v : Word} (h : 4 ≤ (a - b).toNat ∧ (a - b).toNat + 4 ≤ 2 ^ 32) :
    readWord (Ia32.writeWord m b v) a = readWord m a := by
  refine Ia32.readWord_of_span fun x hx => Ia32.writeWord_of_ge m v ?_
  change (x - a).toNat < 4 at hx
  bv_omega

theorem spawnWords_current (task : Task) : readWord (spawnWords task) 0x900000 = 0xC0901000 := by
  rw [spawnWords, readWord_writeWord_far (by decide), readWord_writeWord_far (by decide),
    readWord_writeWord_far (by decide), Ia32.readWord_writeWord_same]

theorem spawnWords_argument (task : Task) : readWord (spawnWords task) 0xEFFF04 = 0xC090101C := by
  rw [spawnWords, readWord_writeWord_far (by decide), readWord_writeWord_far (by decide),
    Ia32.readWord_writeWord_same]

theorem spawnWords_esp (task : Task) : readWord (spawnWords task) 0x90101C = BitVec.ofNat 32 task.esp := by
  rw [spawnWords, readWord_writeWord_far (by decide), Ia32.readWord_writeWord_same]

/-- The stack of the call is below 0xC0F00000. -/
def spawnObjects : Objects where
  current := 0xC0900000
  taskArr := 0xC0901000
  stack := 0xC0EFF000
  stackSize := 0x1000
  currentPlace := ⟨by decide, by decide⟩
  taskArrPlace := ⟨by decide, by decide⟩
  stackPlace := ⟨by decide, by decide⟩
  current_taskArr := .inl (by decide)
  stack_current := .inr (by decide)
  stack_taskArr := .inr (by decide)

theorem spawnCall_spawns {k : Kernel} (he : EarlyTables k.machine) (hesp : (k.taskArr 1).esp < 2 ^ 32)
    (hphyDir : (k.taskArr 1).phyDir < 2 ^ 32) :
    SpawnCall spawnObjects k 1 (spawnCall (k.taskArr 1) k.machine) where
  cpl := (by decide : (0x08 : BitVec 16).toNat % 4 = 0)
  cr3 := rfl
  memory := spawnMemory_inMemory _ _
  running := (readWord_spawnCall he _ ⟨by decide, by decide⟩).trans (spawnWords_current _)
  newTask := (readWord_spawnCall he (n := 0xC0EFFF04) _ ⟨by decide, by decide⟩).trans (spawnWords_argument _)
  esp := by
    have hword := (readWord_spawnCall he (n := 0xC090101C) (k.taskArr 1) ⟨by decide, by decide⟩).trans
      (spawnWords_esp _)
    rw [← Nat.mod_eq_of_lt hesp, ← BitVec.toNat_ofNat]
    exact congrArg BitVec.toNat hword
  phyDir := by
    have hword := (readWord_spawnCall he (n := 0xC0901020) (k.taskArr 1) ⟨by decide, by decide⟩).trans
      (Ia32.readWord_writeWord_same _ _ _)
    rw [← Nat.mod_eq_of_lt hphyDir, ← BitVec.toNat_ofNat]
    exact congrArg BitVec.toNat hword
  stack b hb := by
    change (b - (0xC0EFFF00 - 36)).toNat < 44 at hb
    change 0xC0EFF000 ≤ b.toNat ∧ b.toNat < 0xC0EFF000 + 0x1000
    bv_omega

/-- The first image starts in user mode. -/
theorem loadTask_enters_sample : ∃ k k', initTask0 earlyKernel = some k ∧
    loadTask 0xC0801000 pgDir0 k sampleImage = some k' ∧
    Ia32.Resumes (userEntry (dirFrame k' 1) (spawnMemory (k'.taskArr 1) k'.machine))
      (Ia32.popPaged twoLevel Ia32.iret (Ia32.runPaged State.eflags twoLevel
        (Contexts.contextSwitch twoLevel State.eflags 0xC0900000 (spawnCall (k'.taskArr 1) k'.machine))
          Stubs.retSyscall)) := by
  obtain ⟨k, k', hinit, hload, htid, hesp, hphy⟩ := earlyKernel_loaded
  have hbooted : Booted earlyKernel := ⟨by decide, by decide, by decide⟩
  have he := initTask0_earlyTables hbooted earlyMachine_tables hinit
  obtain ⟨⟨ρ, F, hs⟩, -, -⟩ := initTask0_sound hbooted hinit
  have himg : sampleImage.BelowStack := belowStack_sampleImage sampleImage (by simp)
  obtain ⟨tid, hnext, -, henters⟩ := loadTask_enters hs he himg hload
  obtain rfl : 1 = tid := Option.some.inj (htid.symm.trans hnext)
  exact ⟨k, k', hinit, hload, (henters State.eflags spawnObjects _
    (spawnCall_spawns (loadTask_earlyTables hs he himg hload) hesp hphy)).2⟩

end TsOs.Tasking
