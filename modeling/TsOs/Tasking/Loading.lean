import TsOs.Tasking.Records

/-!
# The parts of `load_task`

The new directory gets its system slots and the kernel's slots of the parent; below
the kernel it has only tables of its own. The sections of the image are copied into
pages of the task. When the table has no entry for a page of a section, the copy goes
to frame 0, which no task owns.
-/

namespace TsOs.Tasking
open Paging

variable {s s' : Machine} {k k' : Kernel} {ρ : Nat → Tag} {K P : Nat → Prop}
  {D R T dir revTb di f flag : Nat} {img : Image}

/-! ## The directory -/

theorem pgDirAdd_eq (hdir : tempFrame s dir = some D) (hrev : tempFrame s revTb = some R)
    (hD : D ≠ sysTb) (hclear : entrySet (word s D di) = false)
    (h : pgDirAdd s dir revTb di f flag = some s') : s' = linkTable s D R di f flag := by
  rw [pgDirAdd, peek_eq hdir, Option.bind_eq_bind, Option.bind_some, hclear] at h
  obtain ⟨s₁, hpoke, hpoke'⟩ := Option.bind_eq_some_iff.mp h
  obtain ⟨g, hg, rfl⟩ := poke_eq hpoke
  obtain rfl : D = g := Option.some.inj (hdir.symm.trans hg)
  obtain ⟨g, hg, rfl⟩ := poke_eq hpoke'
  rw [(onlyFrame_setWord s D _ _).tempFrame_eq hD] at hg
  obtain rfl : R = g := Option.some.inj (hrev.symm.trans hg)
  rfl

/-- The state after the kernel's slots have been copied, all at once. -/
def linkRange (s : Machine) (parentDir D n i : Nat) : Machine :=
  { s with mem := fun g j =>
      if g = D ∧ i ≤ j ∧ j < i + n then s.mem parentDir j else s.mem g j }

theorem linkRange_word_ne {parentDir n i j g : Nat} (h : ¬(g = D ∧ i ≤ j ∧ j < i + n)) :
    word (linkRange s parentDir D n i) g j = word s g j :=
  congrArg BitVec.toNat (if_neg h)

theorem linkRange_word {parentDir n i j : Nat} (hi : i ≤ j) (hj : j < i + n) :
    word (linkRange s parentDir D n i) D j = word s parentDir j :=
  congrArg BitVec.toNat (if_pos ⟨rfl, hi, hj⟩)

theorem linkRange_only (s : Machine) (parentDir D n i : Nat) :
    OnlyFrame D s (linkRange s parentDir D n i) :=
  ⟨fun _ hg _ _ => linkRange_word_ne fun hin => hg hin.1, rfl⟩

theorem linkKernel_eq {parentDir newPgDir : Nat} (hdir : tempFrame s newPgDir = some D)
    (hD : D ≠ sysTb) (hparent : parentDir ≠ D) (n i : Nat) :
    linkKernel parentDir newPgDir n s i = some (linkRange s parentDir D n i) := by
  induction n generalizing s i with
  | zero =>
      have hmem : (linkRange s parentDir D 0 i).mem = s.mem := by
        funext g j
        exact if_neg (by omega)
      rw [linkKernel]
      exact congrArg (fun m => some ({ s with mem := m } : Machine)) hmem.symm
  | succ n ih =>
      have hpoke : poke s newPgDir i (word s parentDir i) =
          some (setWord s D i (word s parentDir i)) := by
        rw [poke, hdir]
        rfl
      have honly := onlyFrame_setWord s D i (word s parentDir i)
      rw [linkKernel, hpoke, Option.bind_some, ih ((honly.tempFrame_eq hD _).trans hdir) (i + 1)]
      congr 1
      have hmem : (linkRange (setWord s D i (word s parentDir i)) parentDir D n (i + 1)).mem =
          (linkRange s parentDir D (n + 1) i).mem := by
        funext g j
        have hofNat : BitVec.ofNat 32 (word s parentDir i) = s.mem parentDir i :=
          BitVec.ofNat_toNat 32 _ |>.trans (BitVec.setWidth_eq _)
        simp only [linkRange, setWord, hofNat, hparent, false_and, if_false]
        by_cases hg : g = D
        · by_cases hji : j = i
          · subst hji
            simp [hg]
          · have hiff : (i + 1 ≤ j ∧ j < i + 1 + n) ↔ (i ≤ j ∧ j < i + (n + 1)) := by omega
            simp only [hg, true_and, hji, if_false, hiff]
        · simp [hg]
      exact congrArg (fun m => ({ s with mem := m } : Machine)) hmem

/-- A directory with its reverse table, ready for the kernel's slots. -/
structure Prepared (ρ : Nat → Tag) (s : Machine) (d : NewDir) (R : Nat) : Prop where
  tagged : Tagged ρ s
  dirTag : ρ d.newPgDirPhy = .task d.newPgDirPhy .dir
  revTag : ρ R = .task d.newPgDirPhy .rev
  dirSlot : tempFrame s d.newPgDir = some d.newPgDirPhy
  revSlot : tempFrame s d.revTb = some R
  revEntry : frameOf (word s d.newPgDirPhy 1023) = R
  revSet : entrySet (word s d.newPgDirPhy 1023) = true
  sysEntry : entrySet (word s d.newPgDirPhy 1022) = true
  sysTag : ρ (frameOf (word s d.newPgDirPhy 1022)) = .task d.newPgDirPhy .sys
  blank : ∀ i < userSlots, word s d.newPgDirPhy i = 0
  revBlank : ∀ i < 1022, word s R i = 0

/-- A further frame for the owner of a directory. -/
theorem allocated_task {ptr : Nat} (hall : Allocated s s' ptr f) (hs : Tagged ρ s)
    (hdir : ρ D = .task D .dir) (r : Role) :
    Tagged (Function.update ρ f (.task D r)) s' ∧
      Function.update ρ f (.task D r) D = .task D .dir ∧ D ≠ f := by
  have hfree := hs.free_of_idle hall.idle
  have hne : D ≠ f := by
    rintro rfl
    exact absurd (hdir.symm.trans hfree) (by simp)
  have hown : Tag.Owned ρ (.task D r) := by
    intro n r' hn
    obtain ⟨rfl, -⟩ := Tag.task.inj hn
    exact hdir
  refine ⟨(hall.tagged hs (hown.update hfree _)).2, ?_, hne⟩
  rw [Function.update_of_ne hne, hdir]

/-- The frames for a directory, its reverse table and its system table. -/
structure NewFrames (ρ : Nat → Tag) (s : Machine) (newPgDir D revTb R sysPg S : Nat) : Prop where
  tagged : Tagged ρ s
  dirTag : ρ D = .task D .dir
  revTag : ρ R = .task D .rev
  sysTag : ρ S = .task D .sys
  dirSlot : tempFrame s newPgDir = some D
  revSlot : tempFrame s revTb = some R
  sysSlot : tempFrame s sysPg = some S
  zero : ∀ j < 1024, word s D j = 0
  revZero : ∀ j < 1024, word s R j = 0

theorem newFrames_spec {newPgDir revTb sysPg S : Nat} {s₁ s₂ s₃ : Machine} (hs : Tagged ρ s)
    (hK : ∀ g, K g → g ≠ sysTb ∧ Old ρ g) (hA : Allocated s s₁ newPgDir D)
    (hB : Allocated s₁ s₂ revTb R) (hC : Allocated s₂ s₃ sysPg S) :
    ∃ ρ', NewFrames ρ' s₃ newPgDir D revTb R sysPg S ∧ Extends K P ρ s ρ' s₃ ∧
      ¬K D ∧ ¬K R ∧ ¬K S := by
  have hownD : Tag.Owned (Function.update ρ D (.task D .dir)) (.task D .dir) := by
    intro n r hn
    obtain ⟨rfl, -⟩ := Tag.task.inj hn
    exact Function.update_self _ _ _
  have htag₁ := (hA.tagged hs hownD).2
  have hext₁ : Extends K P ρ s _ s₁ := hA.extends hs hK (.task D .dir)
  have hdir₁ : Function.update ρ D (Tag.task D .dir) D = .task D .dir := Function.update_self _ _ _
  generalize Function.update ρ D (Tag.task D .dir) = ρ₁ at *
  have hK₁ : ∀ g, K g → g ≠ sysTb ∧ Old ρ₁ g := fun g hg => ⟨(hK g hg).1, hext₁.old (hK g hg).2⟩
  obtain ⟨htag₂, hdir₂, hDR⟩ := allocated_task hB htag₁ hdir₁ .rev
  have hext₂ : Extends K P ρ₁ s₁ _ s₂ := hB.extends htag₁ hK₁ (.task D .rev)
  have hrev₂ : Function.update ρ₁ R (Tag.task D .rev) R = .task D .rev := Function.update_self _ _ _
  generalize Function.update ρ₁ R (Tag.task D .rev) = ρ₂ at *
  have hK₂ : ∀ g, K g → g ≠ sysTb ∧ Old ρ₂ g := fun g hg => ⟨(hK₁ g hg).1, hext₂.old (hK₁ g hg).2⟩
  obtain ⟨htag₃, hdir₃, hDS⟩ := allocated_task hC htag₂ hdir₂ .sys
  have hext₃ : Extends K P ρ₂ s₂ _ s₃ := hC.extends htag₂ hK₂ (.task D .sys)
  have hDs := user_ne_sysTb hA.user.1
  refine ⟨_, ⟨htag₃, hdir₃, ?_, Function.update_self _ _ _, hC.slot_kept (hB.slot_kept hA.leads),
    hC.slot_kept hB.leads, hC.leads, fun j hj => ?_, fun j hj => ?_⟩, hext₁.trans (hext₂.trans hext₃),
    fun hKD => hA.ne_of_old hs (hK D hKD).2 rfl, fun hKR => hB.ne_of_old htag₁ (hK₁ R hKR).2 rfl,
    fun hKS => hC.ne_of_old htag₂ (hK₂ S hKS).2 rfl⟩
  · rw [hext₃.tags R (hrev₂ ▸ by simp), hrev₂]
  · rw [hC.words D hDS hDs j hj, hB.words D hDR hDs j hj, hA.zero j hj]
  · have hRS : R ≠ S := by
      rintro rfl
      exact absurd (hrev₂.symm.trans (htag₂.free_of_idle hC.idle)) (by simp)
    rw [hC.words R hRS (user_ne_sysTb hB.user.1) j hj, hB.zero j hj]

/-- The system slots are written into the new frames only. -/
theorem prepareDir_spec {d : NewDir} (hs : Tagged ρ s) (hK : ∀ g, K g → g ≠ sysTb ∧ Old ρ g)
    (h : prepareDir s = some (d, s')) :
    ∃ ρ' R, Prepared ρ' s' d R ∧ Extends K P ρ s ρ' s' ∧ ρ d.newPgDirPhy = .free := by
  rw [prepareDir] at h
  obtain ⟨⟨newPgDir, D, s₁⟩, halloc₁, h⟩ := Option.bind_eq_some_iff.mp h
  obtain ⟨⟨revTb, R, s₂⟩, halloc₂, h⟩ := Option.bind_eq_some_iff.mp h
  obtain ⟨⟨sysPg, S, s₃⟩, halloc₃, h⟩ := Option.bind_eq_some_iff.mp h
  obtain ⟨s₄, hadd₁, h⟩ := Option.bind_eq_some_iff.mp h
  obtain ⟨s₅, hpoke, h⟩ := Option.bind_eq_some_iff.mp h
  obtain ⟨s₆, hadd₂, h⟩ := Option.bind_eq_some_iff.mp h
  obtain ⟨rfl, rfl⟩ : ⟨newPgDir, D, revTb, sysPg⟩ = d ∧ s₆ = s' := by simpa using h
  have hA := allocPage_spec halloc₁
  have hB := allocPage_spec halloc₂
  have hC := allocPage_spec halloc₃
  obtain ⟨ρ', hnew, hext, hKD, hKR, hKS⟩ := newFrames_spec (P := P) hs hK hA hB hC
  have hDs := user_ne_sysTb hA.user.1
  have hRs := user_ne_sysTb hB.user.1
  have hSs := user_ne_sysTb hC.user.1
  have hDR : D ≠ R := ne_of_apply_ne ρ' (by rw [hnew.dirTag, hnew.revTag]; simp)
  have hDS : D ≠ S := ne_of_apply_ne ρ' (by rw [hnew.dirTag, hnew.sysTag]; simp)
  have hdirPages : (ρ' D).pages = none := by rw [hnew.dirTag]; rfl
  have hrevPlain : (ρ' R).Plain := by rw [hnew.revTag]; exact ⟨rfl, fun _ => by simp⟩
  have hsysPlain : (ρ' S).Plain := by rw [hnew.sysTag]; exact ⟨rfl, fun _ => by simp⟩
  -- slot 1023, the entry of the system table, slot 1022
  have hclear₁ : entrySet (word s₃ D 1023) = false := by
    rw [hnew.zero _ (by decide)]
    rfl
  obtain rfl := pgDirAdd_eq hnew.dirSlot hnew.revSlot hDs hclear₁ hadd₁
  have hslot₄ : ∀ i, tempFrame (linkTable s₃ D R 1023 R pageFlgKernel) i = tempFrame s₃ i :=
    linkTable_tempFrame hDs hRs
  obtain ⟨g, hg, rfl⟩ := poke_eq hpoke
  obtain rfl : S = g := Option.some.inj (((hslot₄ _).trans hnew.sysSlot).symm.trans hg)
  have honly₅ := onlyFrame_setWord (linkTable s₃ D R 1023 R pageFlgKernel) S 1023
    (pageEntry D pageFlgKernel)
  have hslot₅ := fun i => (honly₅.tempFrame_eq hSs i).trans (hslot₄ i)
  have hclear₂ : entrySet (word (setWord (linkTable s₃ D R 1023 R pageFlgKernel) S 1023
      (pageEntry D pageFlgKernel)) D 1022) = false := by
    rw [honly₅.words D hDS _ (by decide), linkTable_word_ne (by decide), hnew.zero _ (by decide)]
    rfl
  obtain rfl := pgDirAdd_eq ((hslot₅ _).trans hnew.dirSlot) ((hslot₅ _).trans hnew.revSlot) hDs
    hclear₂ hadd₂
  have hltR := pageEntry_lt (user_lt hB.user.2) (by decide : pageFlgKernel < frameSize)
  have hltS := pageEntry_lt (user_lt hC.user.2) (by decide : pageFlgKernel < frameSize)
  have hRS : R ≠ S := ne_of_apply_ne ρ' (by rw [hnew.revTag, hnew.sysTag]; simp)
  have hblank : ∀ g, g ≠ S → (∀ j < 1024, word s₃ g j = 0) → ∀ i < 1022,
      word (linkTable (setWord (linkTable s₃ D R 1023 R pageFlgKernel) S 1023 (pageEntry D pageFlgKernel))
        D R 1022 S pageFlgKernel) g i = 0 := by
    intro g hgS hzero i hi
    rw [linkTable_word_ne (by omega), honly₅.words g hgS _ (by omega), linkTable_word_ne (by omega),
      hzero i (by omega)]
  have hslots : userSlots < 1022 := by decide
  refine ⟨ρ', R, ⟨?_, hnew.dirTag, hnew.revTag, ?_, ?_, ?_, ?_, ?_, ?_, fun i hi => ?_, ?_⟩, ?_,
    hs.free_of_idle hA.idle⟩
  · apply Tagged.linkTable _ hdirPages hrevPlain (by decide)
    apply Tagged.of_plain _ honly₅ hsysPlain
    exact hnew.tagged.linkTable hdirPages hrevPlain (by decide)
  · rw [linkTable_tempFrame hDs hRs, hslot₅]
    exact hnew.dirSlot
  · rw [linkTable_tempFrame hDs hRs, hslot₅]
    exact hnew.revSlot
  · rw [linkTable_word_ne (by decide), honly₅.words D hDS _ (by decide),
      linkTable_word_self hDR hltR, frameOf_pageEntry (by decide)]
  · rw [linkTable_word_ne (by decide), honly₅.words D hDS _ (by decide), linkTable_word_self hDR hltR]
    exact entrySet_pageEntry (by decide) (by decide)
  · rw [linkTable_word_self hDR hltS]
    exact entrySet_pageEntry (by decide) (by decide)
  · rw [linkTable_word_self hDR hltS, frameOf_pageEntry (by decide)]
    exact hnew.sysTag
  · exact hblank D hDS hnew.zero i (by omega)
  · exact hblank R hRS hnew.revZero
  · apply hext.trans
    apply Extends.trans (Extends.linkTable hDs hRs hKD hKR)
    apply Extends.trans (Extends.of_only honly₅ hSs hKS)
    exact Extends.linkTable hDs hRs hKD hKR

/-! ## The address space -/

theorem readPage_le {addr : Nat} {src : Nat → BitVec 32} (h : img.readPage addr = some src) :
    addr + frameSize < 2 ^ 32 := by
  rw [Image.readPage] at h
  split at h
  next hin =>
    have hlow : oneMB < 2 ^ 32 := by decide
    have hhigh : kernelVStart + userPStart < 2 ^ 32 := by decide
    omega
  next => exact absurd h (by simp)

/-- One page of a section goes to a page of the task or to frame 0. -/
theorem copyPage_spec {vma page : Nat} {s₁ s₂ s₃ : Machine} {src : Nat → BitVec 32}
    (hs : Tagged ρ s) (hdir : tempFrame s dir = some D) (hD : ρ D = .task D .dir)
    (hK : ∀ g, K g → g ≠ sysTb ∧ g ≠ 0 ∧ ρ g ≠ .task D .page)
    (hP : ∀ g, P g → ρ g ≠ .task D .table) (hvma : vma < kernelVStart)
    (hphy : getPhyFromDir s dir vma = some (f, s₁)) (hmap : createTempVa s₁ f = some (page, s₂))
    (hcpy : memcpy s₂ src page = some s₃) :
    Tagged ρ (deleteTempVa s₃ page) ∧ Extends K P ρ s ρ (deleteTempVa s₃ page) := by
  have hsysK : ¬K sysTb := fun hK' => (hK sysTb hK').1 rfl
  obtain ⟨hset, hf, honly₁, hslots₁⟩ := getPhyFromDir_spec hdir
    (fun hset => hs.ne_sysTb (hs.walk hD hvma hset).1 (by simp)) hphy
  obtain ⟨htable, hpage⟩ := hs.walk hD hvma hset
  rw [← hf] at hpage
  have htag₁ := hs.of_temp honly₁
  have hext₁ : Extends K P ρ s ρ s₁ := by
    apply Extends.of_temp honly₁ hsysK
    intro i g hg hPg
    apply hslots₁ i g hg
    rintro rfl
    exact hP _ hPg htable
  have hc := createTempVa_spec hmap (hf ▸ frameOf_word_lt _ _ _)
  obtain ⟨g, hg, rfl⟩ := memcpy_eq hcpy
  obtain rfl : f = g := Option.some.inj (hc.leads.symm.trans hg)
  obtain ⟨hfs, hplain, hKf⟩ : f ≠ sysTb ∧ (ρ f).Plain ∧ ¬K f := by
    rcases hpage with rfl | htag
    · refine ⟨by decide, ?_, fun hK0 => (hK 0 hK0).2.1 rfl⟩
      rw [hs.untagged (by decide)]
      exact plain_free
    · refine ⟨hs.ne_sysTb htag (by simp), ?_, fun hKf => (hK f hKf).2.2 htag⟩
      rw [htag]
      exact ⟨rfl, fun _ => by simp⟩
  have honly₃ := onlyFrame_setFrame s₂ f src
  have hext₃ : Extends K P ρ s₁ ρ (setFrame s₂ f src) :=
    (Extends.of_created hc hsysK).trans (Extends.of_only honly₃ hfs hKf)
  obtain ⟨htag', hext'⟩ :=
    hext₃.delete_new ((htag₁.of_temp hc.only).of_plain honly₃ hplain) hc.absent hsysK
  exact ⟨htag', hext₁.trans hext'⟩

/-- Copying a section stays below the user stack as long as the section does. -/
theorem copySection_spec {last n vmaImg vma : Nat} (hs : Tagged ρ s)
    (hdir : tempFrame s dir = some D) (hD : ρ D = .task D .dir) (hPD : P D)
    (hK : ∀ g, K g → g ≠ sysTb ∧ g ≠ 0 ∧ ρ g ≠ .task D .page)
    (hP : ∀ g, P g → ρ g ≠ .task D .table) (hvma : vma + last ≤ ustackFrame + vmaImg)
    (h : copySection img dir last n s vmaImg vma = some s') :
    Tagged ρ s' ∧ Extends K P ρ s ρ s' := by
  induction n generalizing s vmaImg vma with
  | zero => exact absurd h (by simp [copySection])
  | succ n ih =>
      rw [copySection] at h
      split at h
      next hlt =>
        obtain ⟨⟨f, s₁⟩, hphy, h⟩ := Option.bind_eq_some_iff.mp h
        obtain ⟨⟨page, s₂⟩, hmap, h⟩ := Option.bind_eq_some_iff.mp h
        obtain ⟨src, hsrc, h⟩ := Option.bind_eq_some_iff.mp h
        obtain ⟨s₃, hcpy, h⟩ := Option.bind_eq_some_iff.mp h
        have hlow : vma < kernelVStart := by
          have hstack : ustackFrame < kernelVStart := by decide
          omega
        obtain ⟨htag₁, hext₁⟩ := copyPage_spec hs hdir hD hK hP hlow hphy hmap hcpy
        have hnext : u32 (vma + frameSize) + last ≤ ustackFrame + u32 (vmaImg + frameSize) := by
          have hle : u32 (vma + frameSize) ≤ vma + frameSize := Nat.mod_le _ _
          rw [u32_of_lt (readPage_le hsrc)]
          omega
        obtain ⟨htag', hext'⟩ := ih htag₁ (hext₁.slots dir D hdir hPD) hnext h
        exact ⟨htag', hext₁.trans hext'⟩
      next =>
        obtain rfl := Option.some.inj h
        exact ⟨hs, Extends.refl K P ρ s⟩

/-- The mappings that the work on an address space relies on. -/
def Held (D R St g : Nat) : Prop := g = D ∨ g = R ∨ g = St

/-- A task's directory is mapped, and the frames in `K` are none of the task's. -/
structure Space (K : Nat → Prop) (ρ : Nat → Tag) (s : Machine) (dir D R St : Nat) : Prop where
  tagged : Tagged ρ s
  dirTag : ρ D = .task D .dir
  revTag : ρ R = .task D .rev
  stackTag : ρ St = .stack
  dirSlot : tempFrame s dir = some D
  revEntry : frameOf (word s D 1023) = R
  foreign : ∀ g, K g → Old ρ g ∧ g ≠ sysTb ∧ g ≠ 0 ∧ ∀ r, ρ g ≠ .task D r

namespace Space

variable {ρ' : Nat → Tag} {St : Nat}

theorem mono (h : Space K ρ s dir D R St) (hext : Extends K (Held D R St) ρ s ρ' s')
    (hs' : Tagged ρ' s') (hword : word s' D 1023 = word s D 1023) :
    Space K ρ' s' dir D R St where
  tagged := hs'
  dirTag := (hext.tags D (by simp [h.dirTag])).trans h.dirTag
  revTag := (hext.tags R (by simp [h.revTag])).trans h.revTag
  stackTag := (hext.tags St (by simp [h.stackTag])).trans h.stackTag
  dirSlot := hext.slots dir D h.dirSlot (Or.inl rfl)
  revEntry := hword ▸ h.revEntry
  foreign := by
    intro g hg
    obtain ⟨hold, hsys, hzero, htask⟩ := h.foreign g hg
    rw [hext.tag_eq h.tagged hs' hold]
    exact ⟨hext.old hold, hsys, hzero, htask⟩

theorem spares (h : Space K ρ s dir D R St) : Spares K (Held D R St) ρ D R (.task D .table) where
  kept := by
    intro g hg
    obtain ⟨hold, hsys, -, htask⟩ := h.foreign g hg
    refine ⟨hsys, hold, ?_, ?_, htask .table⟩
    · rintro rfl
      exact htask .dir h.dirTag
    · rintro rfl
      exact htask .rev h.revTag
  mapped := by
    rintro g (rfl | rfl | rfl)
    · simp [Old, h.dirTag, Tag.pages]
    · simp [Old, h.revTag, Tag.pages]
    · simp [Old, h.stackTag, Tag.pages]
  dir := Or.inl rfl
  rev := Or.inr (Or.inl rfl)

theorem owner (h : Space K ρ s dir D R St) : Owner ρ D R (.task D .table) where
  owned := by
    intro n r hn
    obtain ⟨rfl, -⟩ := Tag.task.inj hn
    exact h.dirTag
  dirPages := by rw [h.dirTag]; rfl
  dirOwner := by
    intro n hn
    obtain ⟨rfl, -⟩ := Tag.task.inj (h.dirTag.symm.trans hn)
    rfl
  revPlain := by rw [h.revTag]; exact ⟨rfl, fun _ => by simp⟩
  dir_ne := h.tagged.ne_sysTb h.dirTag (by simp)
  rev_ne := h.tagged.ne_sysTb h.revTag (by simp)
  ne := ne_of_apply_ne ρ (by rw [h.dirTag, h.revTag]; simp)

/-- A region below the kernel does not reach the slots behind the kernel's first one. -/
theorem request {vaStart size : Nat} (h : Space K ρ s dir D R St) (hva : vaStart < kernelVStart)
    (hend : vaStart + size ≤ kernelVStart)
    (hreq : requestRegionVmap s dir vaStart size pageFlgUsr = some s') :
    ∃ ρ', Space K ρ' s' dir D R St ∧ Extends K (Held D R St) ρ s ρ' s' ∧
      ∀ i, userSlots < i → i < 1022 → word s' D i = word s D i := by
  have hbound : kernelVStart < 2 ^ 32 := by decide
  have hstart : pageAddr vaStart < kernelVStart :=
    Nat.lt_of_le_of_lt (Nat.div_mul_le_self vaStart frameSize) hva
  have hlast : pageDirIndex (pageAddr (u32 (vaStart + size))) ≤ userSlots := by
    rw [u32_of_lt (by omega)]
    have hle : pageAddr (vaStart + size) ≤ kernelVStart :=
      Nat.le_trans (Nat.div_mul_le_self _ frameSize) hend
    exact Nat.div_le_div_right hle
  have hslots : userSlots = 768 := rfl
  have howner : Owner ρ D (frameOf (word s D 1023)) (.task D .table) := by
    rw [h.revEntry]
    exact h.owner
  have hspares : Spares K (Held D R St) ρ D (frameOf (word s D 1023)) (.task D .table) := by
    rw [h.revEntry]
    exact h.spares
  obtain ⟨ρ', htag, hext, hsame⟩ := requestRegionVmap_spec h.tagged h.dirSlot howner hspares rfl
    (by decide) (by omega) (fun hset => (h.tagged.walk h.dirTag hstart hset).1) hreq
  exact ⟨ρ', h.mono hext htag (hsame 1023 (by decide) (by omega)), hext,
    fun i hlow hhigh => hsame i (by omega) (by omega)⟩

/-- A section that ends below the user stack. -/
theorem copy {last n vmaImg vma : Nat} (h : Space K ρ s dir D R St)
    (hvma : vma + last ≤ ustackFrame + vmaImg)
    (hcopy : copySection img dir last n s vmaImg vma = some s') :
    Space K ρ s' dir D R St ∧ Extends K (Held D R St) ρ s ρ s' ∧
      ∀ i, userSlots < i → i < 1022 → word s' D i = word s D i := by
  have hK : ∀ g, K g ∨ g = D → g ≠ sysTb ∧ g ≠ 0 ∧ ρ g ≠ .task D .page := by
    rintro g (hg | rfl)
    · obtain ⟨-, hsys, hzero, htask⟩ := h.foreign g hg
      exact ⟨hsys, hzero, htask .page⟩
    · have huser := (h.tagged.user g (by simp [h.dirTag])).1
      have hpos : 0 < userFrame := by decide
      exact ⟨h.owner.dir_ne, by omega, by simp [h.dirTag]⟩
  obtain ⟨htag, hext⟩ := copySection_spec h.tagged h.dirSlot h.dirTag (Or.inl rfl) hK
    (fun g hg => (h.spares.mapped g hg).2.1) hvma hcopy
  have hkept : Extends K (Held D R St) ρ s ρ s' :=
    ⟨hext.tags, fun g hg => hext.kept g (Or.inl hg), hext.slots⟩
  have hD := hext.kept D (Or.inr rfl)
  exact ⟨h.mono hkept htag (hD 1023 (by decide)), hkept, fun i _ hhigh => hD i (by omega)⟩

end Space

/-- The text and data of an image lie below the user stack. -/
def Image.BelowStack (img : Image) : Prop :=
  img.vmaText + img.textSize ≤ ustackFrame ∧ img.vmaData + img.dataSize ≤ ustackFrame

theorem section_below {vmaBase vmaImg vma size : Nat} (h : vmaBase + size ≤ ustackFrame)
    (hvma : vma ≤ vmaBase) : vma + u32 (vmaImg + size) ≤ ustackFrame + vmaImg := by
  have hle : u32 (vmaImg + size) ≤ vmaImg + size := Nat.mod_le _ _
  omega

/-- The steps of a completed `create_task_address_space`. -/
theorem createTaskAddressSpace_cases {stack : Nat}
    (hrecord : peek s stack (taskWord + 1) = some (D * frameSize))
    (h : createTaskAddressSpace s stack img = some s') :
    img.vmaData % frameSize = 0 ∧ ∃ dir s₁ s₂ s₃ s₄ s₅ s₆, getTempVa s D = some (dir, s₁) ∧
      requestRegionVmap s₁ dir img.vmaText img.textSize pageFlgUsr = some s₂ ∧
      copySection img dir (u32 (u32 (img.base + img.lmaText) + img.textSize)) pageFuel s₂
        (u32 (img.base + img.lmaText)) (pageAddr img.vmaText) = some s₃ ∧
      requestRegionVmap s₃ dir img.vmaData img.dataSize pageFlgUsr = some s₄ ∧
      copySection img dir (u32 (u32 (img.base + img.lmaData) + img.dataSize)) pageFuel s₄
        (u32 (img.base + img.lmaData)) img.vmaData = some s₅ ∧
      requestRegionVmap s₅ dir ustackFrame frameSize pageFlgUsr = some s₆ ∧ s' = deleteTempVa s₆ dir := by
  rw [createTaskAddressSpace] at h
  split at h
  · exact absurd h (by simp)
  split at h
  · exact absurd h (by simp)
  next haligned =>
    rw [hrecord, Option.bind_eq_bind, Option.bind_some, frameNb_mul] at h
    obtain ⟨⟨dir, s₁⟩, hget, h⟩ := Option.bind_eq_some_iff.mp h
    obtain ⟨s₂, htext, h⟩ := Option.bind_eq_some_iff.mp h
    obtain ⟨s₃, hcopyText, h⟩ := Option.bind_eq_some_iff.mp h
    obtain ⟨s₄, hdata, h⟩ := Option.bind_eq_some_iff.mp h
    obtain ⟨s₅, hcopyData, h⟩ := Option.bind_eq_some_iff.mp h
    obtain ⟨s₆, hustack, h⟩ := Option.bind_eq_some_iff.mp h
    exact ⟨by simpa using haligned, dir, s₁, s₂, s₃, s₄, s₅, s₆, hget, htext, hcopyText, hdata, hcopyData,
      hustack, (Option.some.inj h).symm⟩

theorem createTaskAddressSpace_spec {stack St : Nat} (hs : Space K ρ s dir D R St)
    (hstack : tempFrame s stack = some St) (hrecord : word s St (taskWord + 1) = D * frameSize)
    (himg : img.BelowStack) (h : createTaskAddressSpace s stack img = some s') :
    ∃ ρ', Tagged ρ' s' ∧ Extends K (· = St) ρ s ρ' s' ∧
      ∀ i, userSlots < i → i < 1022 → word s' D i = word s D i := by
  obtain ⟨-, dir₁, s₁, s₂, s₃, s₄, s₅, s₆, hget, htext, hcopyText, hdata, hcopyData, hustack, rfl⟩ :=
    createTaskAddressSpace_cases ((peek_eq hstack).trans (congrArg some hrecord)) h
  have hsysK : ¬K sysTb := fun hK => (hs.foreign sysTb hK).2.1 rfl
  have hDs := hs.owner.dir_ne
  obtain ⟨honly₁, hleads₁, hslots₁⟩ := getTempVa_spec hget (user_lt (hs.tagged.user D
    (by simp [hs.dirTag])).2.1)
  have hword₁ : ∀ j < 1024, word s₁ D j = word s D j := honly₁.words D hDs
  have hext₁ : Extends K (Held D R St) ρ s ρ s₁ :=
    Extends.of_temp honly₁ hsysK fun i g hg _ => hslots₁ i g hg
  have hsp₁ : Space K ρ s₁ dir₁ D R St := { hs with
    tagged := hs.tagged.of_temp honly₁
    dirSlot := hleads₁
    revEntry := (hword₁ 1023 (by decide)).symm ▸ hs.revEntry }
  have hstackBelow : ustackFrame < kernelVStart := by decide
  -- text, data and stack, one after the other
  obtain ⟨ρ₂, hsp₂, hext₂, hw₂⟩ := hsp₁.request (by have := himg.1; omega)
    (by have := himg.1; omega) htext
  obtain ⟨hsp₃, hext₃, hw₃⟩ := hsp₂.copy (section_below himg.1 (Nat.div_mul_le_self _ _)) hcopyText
  obtain ⟨ρ₄, hsp₄, hext₄, hw₄⟩ := hsp₃.request (by have := himg.2; omega)
    (by have := himg.2; omega) hdata
  obtain ⟨hsp₅, hext₅, hw₅⟩ := hsp₄.copy (section_below himg.2 (le_refl _)) hcopyData
  obtain ⟨ρ₆, hsp₆, hext₆, hw₆⟩ := hsp₅.request (by decide) (by decide) hustack
  have hext := hext₁.trans (hext₂.trans (hext₃.trans (hext₄.trans (hext₅.trans hext₆))))
  have hSt : D ≠ St := ne_of_apply_ne ρ (by rw [hs.dirTag, hs.stackTag]; simp)
  obtain ⟨htag', hext'⟩ := Extends.delete (K := K) (P := (· = St)) hsp₆.tagged hsp₆.dirSlot hSt hsysK
  refine ⟨ρ₆, htag', Extends.trans ⟨hext.tags, hext.kept, fun i g hg hgSt => ?_⟩ hext', fun i hlow hhigh => ?_⟩
  · exact hext.slots i g hg (Or.inr (Or.inr hgSt))
  · rw [(deleteTempVa_spec s₆ dir₁).1.words D hDs i (by omega), hw₆ i hlow hhigh, hw₅ i hlow hhigh,
      hw₄ i hlow hhigh, hw₃ i hlow hhigh, hw₂ i hlow hhigh, hword₁ i (by omega)]

end TsOs.Tasking
