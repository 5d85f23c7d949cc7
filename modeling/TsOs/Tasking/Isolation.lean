import TsOs.Tasking.Loading

/-!
# Isolation of tasks

`Sound` holds after `init_task0` and after every `load_task`. It gives every loaded
task tables and pages of its own. It also says that all directories name the same
table in slot 1021, so all tasks run on the kernel stack of task 0.
-/

namespace TsOs.Tasking
open Paging

variable {k k' : Kernel} {ρ ρ' : Nat → Tag} {K : Nat → Prop} {D F R retSyscall : Nat} {img : Image}
  {d : NewDir}

/-- A loaded task finds the stack through the slot that it shares with its parent. -/
theorem loadStack_spec {stack : Nat} (hs : Prepared ρ k.machine d R)
    (hpres : KstackPresent k.machine d.newPgDirPhy F) (hF : ρ F = .stackTable)
    (hK : ∀ g, K g → Old ρ g ∧ ρ g ≠ .stack ∧ g ≠ sysTb)
    (h : allocKstackAndTask k d.newPgDirPhy = some (stack, k')) :
    ∃ ρ' F' St tid, Stacked ρ' k k' d.newPgDirPhy F' St stack tid ∧
      Extends (fun g => K g ∨ g = d.newPgDirPhy) (· = d.newPgDirPhy) ρ k.machine ρ' k'.machine := by
  have hDs := hs.tagged.ne_sysTb hs.dirTag (by simp)
  have hFs := hs.tagged.ne_sysTb hF (by decide)
  have hDlt := user_lt (hs.tagged.user d.newPgDirPhy (by simp [hs.dirTag])).2.1
  have hK' : ∀ g, K g ∨ g = d.newPgDirPhy → Old ρ g ∧ ρ g ≠ .stack ∧ g ≠ sysTb := by
    rintro g (hg | rfl)
    · exact hK g hg
    · simp [Old, hs.dirTag, hDs]
  have hP : ∀ g, g = d.newPgDirPhy → Old ρ g ∧ ρ g ≠ .stackTable ∧ ρ g ≠ .stack := by
    rintro g rfl
    simp [Old, hs.dirTag]
  obtain ⟨ρ', F', St, tid, hst, hext, -⟩ := allocKstackAndTask_spec (P := (· = d.newPgDirPhy))
    (Q := fun _ => True) hs.tagged hDlt rfl hDs hK' hP (fun s₁ s₂ dir hc hreq => by
      have hpres₁ := hpres.congr (hc.only.words _ hDs) (hc.only.words F hFs)
      have hsys₁ : entrySet (word s₁ d.newPgDirPhy 1022) = true := by
        rw [hc.only.words _ hDs _ (by decide)]
        exact hs.sysEntry
      obtain ⟨honly, hslots⟩ := requestRegionVmap_kstack_present hc.leads hDs hFs hpres₁ hsys₁ hreq
      refine ⟨ρ, F, (hs.tagged.of_temp hc.only).of_temp honly, ?_, ?_, hF, fun i hi _ => honly.words _ hDs i hi⟩
      · exact Extends.of_temp honly (fun hsysK => (hK' sysTb hsysK).2.2 rfl)
          fun i g hg _ => hslots i g hg
      · exact hpres₁.congr (honly.words _ hDs) (honly.words F hFs)) h
  exact ⟨ρ', F', St, tid, hst, hext⟩

/-- The assignments to the record and to the trap frame in front of it leave the rest of the record. -/
theorem trapFrame_spec {s s₁ s₂ : Machine} {stack St v : Nat} (hslot : tempFrame s stack = some St)
    (hSt : St ≠ sysTb) (hpoke : poke s stack taskWord v = some s₁)
    (hpokes : pokes s₁ stack (trapFrame retSyscall) = some s₂) :
    OnlyFrame St s s₂ ∧ tempFrame s₂ stack = some St ∧
      ∀ j, taskWord < j → j < 1024 → word s₂ St j = word s St j := by
  obtain ⟨g, hg, rfl⟩ := poke_eq hpoke
  obtain rfl : St = g := Option.some.inj (hslot.symm.trans hg)
  have honly := onlyFrame_setWord s St taskWord v
  have hslot₁ := (honly.tempFrame_eq hSt _).trans hslot
  obtain ⟨honly₂, hwords⟩ := pokes_spec hslot₁ hSt hpokes
  refine ⟨honly.trans honly₂, (honly₂.tempFrame_eq hSt _).trans hslot₁, fun j hlow hhigh => ?_⟩
  rw [hwords, lastWord_of_ne fun a ha => by have := trapFrame_lt ha; omega,
    word_setWord_ne s _ (Or.inr (by omega))]

/-- The new stack is a foreign frame for the work on the address space. -/
theorem Stacked.space {ρ₁ : Nat → Tag} {k₁ : Kernel} {St stack tid : Nat} {P : Nat → Prop}
    (hst : Stacked ρ₁ k k₁ d.newPgDirPhy F St stack tid) (hs : Prepared ρ k.machine d R)
    (hext : Extends (fun g => K g ∨ g = d.newPgDirPhy) P ρ k.machine ρ₁ k₁.machine) (hP : P d.newPgDirPhy)
    (hK : ∀ g, K g → Old ρ g ∧ g ≠ sysTb ∧ g ≠ 0 ∧ ∀ r, ρ g ≠ .task d.newPgDirPhy r) :
    Space (fun g => K g ∨ g = St) ρ₁ k₁.machine d.newPgDir d.newPgDirPhy R St where
  tagged := hst.tagged
  dirTag := (hext.tags _ (by simp [hs.dirTag])).trans hs.dirTag
  revTag := (hext.tags _ (by simp [hs.revTag])).trans hs.revTag
  stackTag := hst.stackTag
  dirSlot := hext.slots _ _ hs.dirSlot hP
  revEntry := by
    rw [hext.kept _ (Or.inr rfl) _ (by decide)]
    exact hs.revEntry
  foreign := by
    rintro g (hg | rfl)
    · obtain ⟨hold, hsys, hzero, htask⟩ := hK g hg
      rw [hext.tag_eq hs.tagged hst.tagged hold]
      exact ⟨hext.old hold, hsys, hzero, htask⟩
    · have huser := (hst.tagged.user g (by simp [hst.stackTag])).1
      have hpos : 0 < userFrame := by decide
      exact ⟨Or.inr (by simp [hst.stackTag]), hst.tagged.ne_sysTb hst.stackTag (by simp),
        by omega, by simp [hst.stackTag]⟩

/-- The last part of `load_task` adds to the new task and to the stack that all share. -/
theorem finishTask_spec (hs : Prepared ρ k.machine d R)
    (hpres : KstackPresent k.machine d.newPgDirPhy F) (hF : ρ F = .stackTable)
    (hK : ∀ g, K g → Old ρ g ∧ ρ g ≠ .stack ∧ g ≠ sysTb ∧ g ≠ 0 ∧ ∀ r, ρ g ≠ .task d.newPgDirPhy r)
    (himg : img.BelowStack) (h : finishTask retSyscall d k img = some k') :
    ∃ (ρ' : Nat → Tag) (tid : Nat) (task : Task), Tagged ρ' k'.machine ∧
      Extends K (fun _ => False) ρ k.machine ρ' k'.machine ∧
      (∀ i, userSlots < i → i < 1022 → word k'.machine d.newPgDirPhy i = word k.machine d.newPgDirPhy i) ∧
      getNextTid k.taskArr = some tid ∧ k'.taskArr = Function.update k.taskArr tid task ∧
      Filled task d.newPgDirPhy tid ∧ k'.current = k.current := by
  rw [finishTask] at h
  obtain ⟨⟨stack, k₁⟩, halloc, h⟩ := Option.bind_eq_some_iff.mp h
  obtain ⟨newTid, hnew, h⟩ := Option.bind_eq_some_iff.mp h
  obtain ⟨s₂, hspace, h⟩ := Option.bind_eq_some_iff.mp h
  obtain ⟨s₃, hpoke, h⟩ := Option.bind_eq_some_iff.mp h
  obtain ⟨s₄, hpokes, h⟩ := Option.bind_eq_some_iff.mp h
  obtain ⟨task, hread, h⟩ := Option.bind_eq_some_iff.mp h
  obtain rfl := Option.some.inj h
  obtain ⟨ρ₁, F₁, St, tid, hst, hext₁⟩ := loadStack_spec hs hpres hF
    (fun g hg => ⟨(hK g hg).1, (hK g hg).2.1, (hK g hg).2.2.1⟩) halloc
  obtain ⟨t₁, harr, -⟩ := hst.arr
  have hsp := hst.space hs hext₁ rfl fun g hg => ⟨(hK g hg).1, (hK g hg).2.2⟩
  obtain ⟨ρ₂, htag₂, hext₂, hkeep₂⟩ :=
    createTaskAddressSpace_spec hsp hst.slot hst.record.phyDir himg hspace
  have hSt₂ : ρ₂ St = .stack := (hext₂.tags _ (by simp [hst.stackTag])).trans hst.stackTag
  have hSts := htag₂.ne_sysTb hSt₂ (by simp)
  obtain ⟨honly, hslot₄, hrest₄⟩ := trapFrame_spec (hext₂.slots _ _ hst.slot rfl) hSts hpoke hpokes
  have hrecord₄ : ∀ j, taskWord < j → j < 1024 → word s₄ St j = word k₁.machine St j :=
    fun j hlow hhigh => (hrest₄ j hlow hhigh).trans (hext₂.kept St (Or.inr rfl) j hhigh)
  obtain rfl : recordAt s₄ St = task := Option.some.inj ((readTask_eq hslot₄).symm.trans hread)
  have hlast := (deleteTempVa_spec s₄ d.newPgDir).1.trans
    ((deleteTempVa_spec _ d.revTb).1.trans
      ((deleteTempVa_spec _ d.sysPg).1.trans (deleteTempVa_spec _ stack).1))
  have hDSt : d.newPgDirPhy ≠ St :=
    ne_of_apply_ne ρ₁ (by rw [hsp.dirTag, hsp.stackTag]; simp)
  have hDs := hsp.tagged.ne_sysTb hsp.dirTag (by simp)
  have htid : newTid = tid := by
    rw [peek_eq hst.slot] at hnew
    exact (Option.some.inj hnew).symm.trans hst.record.tid
  refine ⟨ρ₂, tid, recordAt s₄ St, ?_, ?_, fun i hlow hhigh => ?_, hst.next, ?_, hst.record.congr hrecord₄,
    hst.current⟩
  · exact (htag₂.of_plain honly (hSt₂ ▸ ⟨rfl, fun _ => by simp⟩)).of_temp hlast
  · refine ⟨fun f hf => ?_, fun u hu j hj => ?_, fun _ _ _ hP => absurd hP not_false⟩
    · have h₁ := hext₁.tags f hf
      rw [hext₂.tags f (h₁ ▸ hf), h₁]
    · obtain ⟨hold, hstack, hsys, -, -⟩ := hK u hu
      have huSt : u ≠ St := by
        rintro rfl
        exact hstack ((hext₁.tag_eq hs.tagged hst.tagged hold).symm.trans hst.stackTag)
      rw [hlast.words u hsys j hj, honly.words u huSt j hj, hext₂.kept u (Or.inl hu) j hj,
        hext₁.kept u (Or.inl hu) j hj]
  · rw [hlast.words _ hDs i (by omega), honly.words _ hDSt i (by omega), hkeep₂ i hlow hhigh,
      hext₁.kept _ (Or.inr rfl) i (by omega)]
  · rw [harr, htid, Function.update_idem]

/-! ## The invariant -/

/-- What the early initialisation leaves in `pg_dir0`: the two system slots, and nothing in the
slot of the kernel stack. -/
structure Booted (k : Kernel) : Prop where
  rev : word k.machine pgDir0 1023 = pageEntry (dir0Pt 1023) pageFlgKernel
  sys : word k.machine pgDir0 1022 = pageEntry sysTb pageFlgKernel
  kstack : word k.machine pgDir0 1021 = 0

/-- The entry of `task_arr` is in use. -/
def Present (k : Kernel) (i : Nat) : Prop := i < maxTaskNum ∧ (k.taskArr i).state ≠ 0

/-- The frame of a task's directory. -/
def dirFrame (k : Kernel) (i : Nat) : Nat := frameNb (k.taskArr i).phyDir

/-- Task 0 has the kernel's directory. Every other task has a directory of its own, with the
stack's table `F` of task 0 in slot 1021. -/
structure Sound (ρ : Nat → Tag) (F : Nat) (k : Kernel) : Prop where
  tagged : Tagged ρ k.machine
  present : KstackPresent k.machine pgDir0 F
  table : ρ F = .stackTable
  first : Present k 0 ∧ dirFrame k 0 = pgDir0
  dirs : ∀ i, i ≠ 0 → Present k i → ρ (dirFrame k i) = .task (dirFrame k i) .dir ∧
    word k.machine (dirFrame k i) 1021 = word k.machine pgDir0 1021
  distinct : ∀ i j, i ≠ 0 → j ≠ 0 → Present k i → Present k j → dirFrame k i = dirFrame k j → i = j

theorem tagged_free (s : Machine) : Tagged (fun _ => .free) s :=
  ⟨fun _ hne => absurd rfl hne, fun _ _ _ hk => absurd hk (by simp),
    fun _ _ hk => absurd hk (by simp), fun _ _ ht => absurd ht (by simp [Tag.pages])⟩

/-- Task 0 makes the table for the stack. Below user memory this changes slot 1021 of `pg_dir0`, its reverse
table and the temporary mappings. -/
theorem initStack_spec {stack : Nat} (hb : Booted k)
    (h : allocKstackAndTask k pgDir0 = some (stack, k')) :
    ∃ ρ F St tid, Stacked ρ k k' pgDir0 F St stack tid ∧
      (∀ i < 1024, i ≠ 1021 → word k'.machine pgDir0 i = word k.machine pgDir0 i) ∧
      ∀ g, (g < userFrame ∧ g ≠ pgDir0 ∧ g ≠ dir0Pt 1023 ∧ g ≠ sysTb) →
        ∀ i < 1024, word k'.machine g i = word k.machine g i := by
  have hfree := tagged_free k.machine
  have hrev : frameOf (word k.machine pgDir0 1023) = dir0Pt 1023 := by
    rw [hb.rev]
    exact frameOf_pageEntry (by decide)
  have howner : Owner (fun _ => .free) pgDir0 (dir0Pt 1023) .stackTable :=
    ⟨fun _ _ hk => absurd hk (by simp), rfl, fun _ hk => absurd hk (by simp), plain_free,
      by decide, by decide, by decide⟩
  have hspares : Spares (fun g => g < userFrame ∧ g ≠ pgDir0 ∧ g ≠ dir0Pt 1023 ∧ g ≠ sysTb)
      (fun g => g = pgDir0 ∨ g = dir0Pt 1023) (fun _ => Tag.free) pgDir0 (dir0Pt 1023) .stackTable := by
    refine ⟨fun g ⟨hlow, hdir, hrev, hsys⟩ => ⟨hsys, Or.inl hlow, hdir, hrev, by decide⟩, ?_, Or.inl rfl, Or.inr rfl⟩
    rintro g (rfl | rfl)
    · exact ⟨Or.inl (by decide), by decide, by decide⟩
    · exact ⟨Or.inl (by decide), by decide, by decide⟩
  have hP : ∀ g, g = pgDir0 ∨ g = dir0Pt 1023 →
      Old (fun _ => .free) g ∧ Tag.free ≠ .stackTable ∧ Tag.free ≠ .stack :=
    fun g hg => ⟨(hspares.mapped g hg).1, by decide, by decide⟩
  obtain ⟨ρ, F, St, tid, hst, hext, hsame⟩ := allocKstackAndTask_spec hfree (by decide) (Or.inl rfl) (by decide)
    (fun g hg => ⟨(hspares.kept g hg).2.1, by decide, (hspares.kept g hg).1⟩) hP (fun s₁ s₂ dir hc hreq => by
      have hword : ∀ j < 1024, word s₁ pgDir0 j = word k.machine pgDir0 j :=
        hc.only.words pgDir0 (by decide)
      have hrev₁ : frameOf (word s₁ pgDir0 1023) = dir0Pt 1023 := by
        rw [hword _ (by decide), hrev]
      have habsent : entrySet (word s₁ pgDir0 1021) = false := by
        rw [hword _ (by decide), hb.kstack]
        rfl
      have hsys : entrySet (word s₁ pgDir0 1022) = true := by
        rw [hword _ (by decide), hb.sys]
        exact entrySet_pageEntry (by decide) (by decide)
      exact requestRegionVmap_kstack_absent (hfree.of_temp hc.only) hc.leads (hrev₁ ▸ howner)
        (hrev₁ ▸ hspares) habsent hsys (by decide) hreq) h
  exact ⟨ρ, F, St, tid, hst, hsame, hext.kept⟩

theorem getNextTid_zero (h : (k.taskArr 0).state = 0) : getNextTid k.taskArr = some 0 := by
  have hn : maxTaskNum = 31 + 1 := rfl
  rw [getNextTid, hn, firstIndex, if_pos (by simpa using h)]

theorem initTask0_sound (hb : Booted k) (h : initTask0 k = some k') :
    (∃ ρ F, Sound ρ F k') ∧ (∀ i, Present k' i → i = 0) ∧ k'.current = some 0 ∧
      Filled (k'.taskArr 0) pgDir0 0 := by
  rw [initTask0] at h
  obtain ⟨⟨kstack, k₁⟩, halloc, h⟩ := Option.bind_eq_some_iff.mp h
  obtain ⟨tid, htid, h⟩ := Option.bind_eq_some_iff.mp h
  obtain rfl := Option.some.inj h
  have hclear : ∀ i < maxTaskNum, ((clearTasks k).taskArr i).state = 0 := by
    intro i hi
    simp only [clearTasks, if_pos hi]
  have hb' : Booted (clearTasks k) := ⟨hb.rev, hb.sys, hb.kstack⟩
  obtain ⟨ρ, F, St, n, hst, -⟩ := initStack_spec hb' halloc
  obtain rfl : n = 0 :=
    Option.some.inj (hst.next.symm.trans (getNextTid_zero (hclear 0 (by decide))))
  obtain ⟨task, harr, hfilled⟩ := hst.arr
  have honly : ∀ i, Present { k₁ with current := some tid } i → i = 0 := by
    rintro i ⟨hi, hne⟩
    by_contra hi0
    apply hne
    change (k₁.taskArr i).state = 0
    rw [harr, Function.update_of_ne hi0]
    exact hclear i hi
  have hfirst : k₁.taskArr 0 = task := by
    rw [harr, Function.update_self]
  have htid0 : tid = 0 := by
    rw [peek_eq hst.slot] at htid
    exact (Option.some.inj htid).symm.trans hst.record.tid
  refine ⟨⟨ρ, F, hst.tagged, hst.present, hst.table, ⟨⟨by decide, ?_⟩, ?_⟩, ?_, ?_⟩, honly,
    congrArg some htid0, hfirst ▸ hfilled⟩
  · change (k₁.taskArr 0).state ≠ 0
    rw [hfirst, hfilled.state]
    decide
  · change frameNb (k₁.taskArr 0).phyDir = pgDir0
    rw [hfirst, hfilled.phyDir, frameNb_mul]
  · exact fun i hi hpres => absurd (honly i hpres) hi
  · exact fun i _ hi _ hpres => absurd (honly i hpres) hi

/-- `load_task` with the kernel's slots copied at once. -/
theorem loadTask_eq {parentDir : Nat} (hparent : parentDir < userFrame) :
    loadTask retSyscall parentDir k img = (prepareDir k.machine).bind fun p =>
      finishTask retSyscall p.1 { k with
        machine := linkRange p.2 parentDir p.1.newPgDirPhy (1022 - userSlots) userSlots } img := by
  rw [loadTask]
  cases hprep : prepareDir k.machine with
  | none => rfl
  | some p =>
      obtain ⟨d, s⟩ := p
      obtain ⟨ρ, R, hs, -, -⟩ := prepareDir_spec (K := fun _ => False) (P := fun _ => False)
        (tagged_free k.machine) (fun _ hK => absurd hK not_false) hprep
      have huser := (hs.tagged.user d.newPgDirPhy (by simp [hs.dirTag])).1
      have hparent' : parentDir ≠ d.newPgDirPhy := by omega
      have hlink := linkKernel_eq hs.dirSlot (user_ne_sysTb huser) hparent' (1022 - userSlots)
        userSlots
      change (linkKernel parentDir d.newPgDir (1022 - userSlots) s userSlots).bind _ = _
      rw [hlink]
      rfl

theorem Prepared.linkRange {s : Machine} (h : Prepared ρ s d R) (parentDir : Nat) :
    Prepared ρ (linkRange s parentDir d.newPgDirPhy (1022 - userSlots) userSlots) d R := by
  have honly := linkRange_only s parentDir d.newPgDirPhy (1022 - userSlots) userSlots
  have hDs := h.tagged.ne_sysTb h.dirTag (by simp)
  have hlow : ∀ i < userSlots, word (Tasking.linkRange s parentDir d.newPgDirPhy (1022 - userSlots)
      userSlots) d.newPgDirPhy i = word s d.newPgDirPhy i :=
    fun i hi => linkRange_word_ne (by omega)
  have hhigh : ∀ i, 1022 ≤ i → word (Tasking.linkRange s parentDir d.newPgDirPhy (1022 - userSlots)
      userSlots) d.newPgDirPhy i = word s d.newPgDirPhy i := by
    intro i hi
    have hslots : userSlots ≤ 1022 := by decide
    exact linkRange_word_ne (by omega)
  have hRD : R ≠ d.newPgDirPhy := ne_of_apply_ne ρ (by rw [h.dirTag, h.revTag]; simp)
  refine ⟨?_, h.dirTag, h.revTag, ?_, ?_, ?_, ?_, ?_, ?_, fun i hi => ?_, fun i hi => ?_⟩
  · apply h.tagged.of_only honly
    · intro n hn i hi
      rw [hlow i hi]
      exact h.tagged.dir _ n hn i hi
    · intro t ht
      rw [h.dirTag] at ht
      exact absurd ht (by simp [Tag.pages])
  · rw [honly.tempFrame_eq hDs]
    exact h.dirSlot
  · rw [honly.tempFrame_eq hDs]
    exact h.revSlot
  · rw [hhigh 1023 (by decide)]
    exact h.revEntry
  · rw [hhigh 1023 (by decide)]
    exact h.revSet
  · rw [hhigh 1022 (by decide)]
    exact h.sysEntry
  · rw [hhigh 1022 (by decide)]
    exact h.sysTag
  · rw [hlow i hi]
    exact h.blank i hi
  · rw [linkRange_word_ne fun hin => hRD hin.1]
    exact h.revBlank i hi

/-- The frames that loading a further task leaves alone. -/
def Settled (ρ : Nat → Tag) (g : Nat) : Prop := g = pgDir0 ∨ ρ g ≠ .free ∧ ρ g ≠ .stack

/-- The task array after a task has been added. -/
theorem Sound.addTask {tid : Nat} {task : Task} (hs : Sound ρ F k) (htag : Tagged ρ' k'.machine)
    (htags : ∀ f, ρ f ≠ .free → ρ' f = ρ f)
    (hkept : ∀ g, Settled ρ g → ∀ j < 1024, word k'.machine g j = word k.machine g j)
    (hDfree : ρ D = .free) (hDtag : ρ' D = .task D .dir)
    (hDword : word k'.machine D 1021 = word k.machine pgDir0 1021)
    (hnext : getNextTid k.taskArr = some tid) (harr : k'.taskArr = Function.update k.taskArr tid task)
    (hfilled : Filled task D tid) : Sound ρ' F k' ∧ tid ≠ 0 ∧ Present k' tid := by
  obtain ⟨htid, hidle⟩ := getNextTid_spec hnext
  have hpgDir0 := hkept pgDir0 (Or.inl rfl)
  have hFkept := hkept F (Or.inr (by simp [hs.table]))
  have htid0 : tid ≠ 0 := by
    rintro rfl
    exact hs.first.1.2 hidle
  have hnew : k'.taskArr tid = task := by rw [harr, Function.update_self]
  have hold : ∀ i, i ≠ tid → k'.taskArr i = k.taskArr i := by
    intro i hi
    rw [harr, Function.update_of_ne hi]
  have hnewDir : dirFrame k' tid = D := by rw [dirFrame, hnew, hfilled.phyDir, frameNb_mul]
  have holdDir : ∀ i, i ≠ tid → dirFrame k' i = dirFrame k i := by
    intro i hi
    rw [dirFrame, dirFrame, hold i hi]
  have holdPresent : ∀ i, i ≠ tid → Present k' i → Present k i := by
    intro i hi hpres
    rw [Present, hold i hi] at hpres
    exact hpres
  have hother : ∀ i, i ≠ 0 → i ≠ tid → Present k' i → dirFrame k' i ≠ D := by
    rintro i hi hit hpres rfl
    have htask := (hs.dirs i hi (holdPresent i hit hpres)).1
    rw [holdDir i hit, htask] at hDfree
    exact absurd hDfree (by simp)
  refine ⟨⟨htag, hs.present.congr hpgDir0 hFkept, ?_, ?_, ?_, ?_⟩, htid0, htid, ?_⟩
  · rw [htags F (by simp [hs.table])]
    exact hs.table
  · rw [Present, hold 0 htid0.symm, holdDir 0 htid0.symm]
    exact hs.first
  · intro i hi hpres
    by_cases hit : i = tid
    · subst hit
      rw [hnewDir, hDword, hpgDir0 _ (by decide)]
      exact ⟨hDtag, rfl⟩
    · obtain ⟨htask, hword⟩ := hs.dirs i hi (holdPresent i hit hpres)
      have hsettled : Settled ρ (dirFrame k i) := Or.inr (by rw [htask]; simp)
      rw [holdDir i hit, htags _ (by simp [htask]), hkept _ hsettled _ (by decide),
        hpgDir0 _ (by decide)]
      exact ⟨htask, hword⟩
  · intro i j hi hj hpi hpj heq
    by_cases hit : i = tid
    · by_cases hjt : j = tid
      · rw [hit, hjt]
      · subst hit
        exact absurd (heq.symm.trans hnewDir) (hother j hj hjt hpj)
    · by_cases hjt : j = tid
      · subst hjt
        exact absurd (heq.trans hnewDir) (hother i hi hit hpi)
      · rw [holdDir i hit, holdDir j hjt] at heq
        exact hs.distinct i j hi hj (holdPresent i hit hpi) (holdPresent j hjt hpj) heq
  · rw [hnew, hfilled.state]
    decide

/-- The new directory in front of `finishTask`: prepared and with the kernel's slots. -/
structure LinkedDir (ρ ρ' : Nat → Tag) (s s' : Machine) (d : NewDir) (R F : Nat) : Prop where
  prepared : Prepared ρ' s' d R
  present : KstackPresent s' d.newPgDirPhy F
  table : ρ' F = .stackTable
  tags : ∀ f, ρ f ≠ .free → ρ' f = ρ f
  kept : ∀ g, Settled ρ g → ∀ j < 1024, word s' g j = word s g j
  slots : ∀ i, userSlots ≤ i → i < 1022 → word s' d.newPgDirPhy i = word s pgDir0 i
  fresh : ρ d.newPgDirPhy = .free

theorem Sound.linkedDir {s : Machine} (hs : Sound ρ F k) (h : prepareDir k.machine = some (d, s)) :
    ∃ ρ' R, LinkedDir ρ ρ' k.machine (linkRange s pgDir0 d.newPgDirPhy (1022 - userSlots) userSlots) d R F := by
  have hK : ∀ g, Settled ρ g → g ≠ sysTb ∧ Old ρ g := by
    rintro g (rfl | ⟨hne, -⟩)
    · exact ⟨by decide, Or.inl (by decide)⟩
    · exact ⟨hs.tagged.ne_sysTb rfl hne, Or.inr hne⟩
  obtain ⟨ρ₁, R, hprep, hext, hfresh⟩ := prepareDir_spec (P := fun _ => False) hs.tagged hK h
  have huser := (hprep.tagged.user d.newPgDirPhy (by simp [hprep.dirTag])).1
  have hne : ∀ g, Settled ρ g → g ≠ d.newPgDirPhy := by
    rintro g (rfl | ⟨htag, -⟩)
    · have hlow : pgDir0 < userFrame := by decide
      omega
    · rintro rfl
      exact htag hfresh
  have hkept : ∀ g, Settled ρ g → ∀ j < 1024,
      word (linkRange s pgDir0 d.newPgDirPhy (1022 - userSlots) userSlots) g j = word k.machine g j := by
    intro g hg j hj
    rw [linkRange_word_ne fun hin => hne g hg hin.1]
    exact hext.kept g hg j hj
  have hslots : ∀ i, userSlots ≤ i → i < 1022 →
      word (linkRange s pgDir0 d.newPgDirPhy (1022 - userSlots) userSlots) d.newPgDirPhy i =
        word k.machine pgDir0 i := by
    intro i hlow hhigh
    have hfirst : userSlots ≤ 1022 := by decide
    rw [linkRange_word hlow (by omega)]
    exact hext.kept pgDir0 (Or.inl rfl) _ (by omega)
  have hFsettled : Settled ρ F := Or.inr (by simp [hs.table])
  refine ⟨ρ₁, R, hprep.linkRange pgDir0, ⟨?_, ?_, ?_, ?_⟩, (hext.tags F (by simp [hs.table])).trans hs.table,
    hext.tags, hkept, hslots, hfresh⟩
  -- the linked slot leads to the table of task 0
  · rw [hslots 1021 (by decide) (by decide)]
    exact hs.present.table
  · rw [hslots 1021 (by decide) (by decide)]
    exact hs.present.frame
  · rw [hkept F hFsettled _ (by decide)]
    exact hs.present.page
  · rw [hkept F hFsettled _ (by decide)]
    exact hs.present.stale

/-- One `load_task` keeps the invariant and adds one task, with the slots of task 0 behind the kernel's first
one. -/
theorem loadTask_sound (hs : Sound ρ F k) (himg : img.BelowStack)
    (h : loadTask retSyscall pgDir0 k img = some k') :
    (∃ ρ', Sound ρ' F k') ∧ ∃ tid task D, tid ≠ 0 ∧ Present k' tid ∧
      getNextTid k.taskArr = some tid ∧ k'.taskArr = Function.update k.taskArr tid task ∧
      Filled task D tid ∧ k'.current = k.current ∧
      ∀ i, userSlots < i → i < 1022 → word k'.machine D i = word k'.machine pgDir0 i := by
  rw [loadTask_eq (by decide)] at h
  obtain ⟨⟨d, s₁⟩, hprep, h⟩ := Option.bind_eq_some_iff.mp h
  obtain ⟨ρ₁, R, hlink⟩ := hs.linkedDir hprep
  have hK₁ : ∀ g, Settled ρ g → Old ρ₁ g ∧ ρ₁ g ≠ .stack ∧ g ≠ sysTb ∧ g ≠ 0 ∧
      ∀ r, ρ₁ g ≠ .task d.newPgDirPhy r := by
    rintro g (rfl | ⟨hne, hstack⟩)
    · rw [hlink.prepared.tagged.untagged (by decide)]
      exact ⟨Or.inl (by decide), by decide, by decide, by decide, by simp⟩
    · have hpos : 0 < userFrame := by decide
      have hlow := (hs.tagged.user g hne).1
      have htag := hlink.tags g hne
      refine ⟨Or.inr (htag ▸ hne), htag ▸ hstack, hs.tagged.ne_sysTb rfl hne, by omega, fun r hr => ?_⟩
      have howner := hs.tagged.owner g _ r (htag.symm.trans hr)
      rw [hlink.fresh] at howner
      exact absurd howner (by simp)
  obtain ⟨ρ₂, tid, task, htag, hext₂, hwords, hnext, harr, hfilled, hcur⟩ :=
    finishTask_spec hlink.prepared hlink.present hlink.table hK₁ himg h
  have hkept : ∀ g, Settled ρ g → ∀ j < 1024, word k'.machine g j = word k.machine g j :=
    fun g hg j hj => (hext₂.kept g hg j hj).trans (hlink.kept g hg j hj)
  have hslots : ∀ i, userSlots < i → i < 1022 → word k'.machine d.newPgDirPhy i = word k.machine pgDir0 i :=
    fun i hlow hhigh => (hwords i hlow hhigh).trans (hlink.slots i hlow.le hhigh)
  obtain ⟨hsound, htid, hpres⟩ := hs.addTask htag
    (fun f hf => (hext₂.tags f (hlink.tags f hf ▸ hf)).trans (hlink.tags f hf)) hkept hlink.fresh
    ((hext₂.tags _ (by simp [hlink.prepared.dirTag])).trans hlink.prepared.dirTag)
    (hslots 1021 (by decide) (by decide)) hnext harr hfilled
  exact ⟨⟨ρ₂, hsound⟩, tid, task, _, htid, hpres, hnext, harr, hfilled, hcur,
    fun i hlow hhigh => (hslots i hlow hhigh).trans (hkept pgDir0 (Or.inl rfl) i (by omega)).symm⟩

end TsOs.Tasking
