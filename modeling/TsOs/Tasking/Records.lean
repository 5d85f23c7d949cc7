import TsOs.Paging.KernelStack
import TsOs.Tasking.Model

/-!
# The record of a task

What the assignments through the mapping of a stack do to its frame, and the effect
of `alloc_kstack_and_task`, which task 0 and the loaded tasks share.
-/

namespace TsOs.Tasking
open Paging

variable {s s' : Machine} {k k' : Kernel} {ρ : Nat → Tag} {K P : Nat → Prop} {f p stack tid : Nat}

/-- Word `j` after the assignments. -/
def lastWord (ws : List (Nat × Nat)) (j w : Nat) : Nat :=
  ws.foldl (fun acc a => if a.1 = j then u32 a.2 else acc) w

/-- Assignments through one mapping change one frame. -/
theorem pokes_spec {ws : List (Nat × Nat)} (hp : tempFrame s p = some f) (hf : f ≠ sysTb)
    (h : pokes s p ws = some s') :
    OnlyFrame f s s' ∧ ∀ j, word s' f j = lastWord ws j (word s f j) := by
  induction ws generalizing s with
  | nil =>
      obtain rfl := Option.some.inj h
      exact ⟨OnlyFrame.refl f s, fun _ => rfl⟩
  | cons w ws ih =>
      obtain ⟨i, v⟩ := w
      rw [pokes] at h
      obtain ⟨s₁, hpoke, hrest⟩ := Option.bind_eq_some_iff.mp h
      obtain ⟨g, hg, rfl⟩ := poke_eq hpoke
      obtain rfl : f = g := Option.some.inj (hp.symm.trans hg)
      have honly := onlyFrame_setWord s f i v
      obtain ⟨honly', hwords⟩ := ih ((honly.tempFrame_eq hf p).trans hp) hrest
      refine ⟨honly.trans honly', fun j => ?_⟩
      rw [hwords j, lastWord, lastWord, List.foldl_cons]
      by_cases hij : i = j
      · subst hij
        have hmem : (setWord s f i v).mem f i = BitVec.ofNat 32 v := if_pos ⟨rfl, rfl⟩
        rw [word, hmem, BitVec.toNat_ofNat, if_pos rfl, u32]
      · rw [word_setWord_ne s v (Or.inr (Ne.symm hij)), if_neg hij]

theorem lastWord_of_ne {ws : List (Nat × Nat)} {j : Nat} (h : ∀ a ∈ ws, a.1 ≠ j) (w : Nat) :
    lastWord ws j w = w := by
  induction ws with
  | nil => rfl
  | cons a ws ih =>
      rw [lastWord, List.foldl_cons, if_neg (h a (by simp))]
      exact ih fun b hb => h b (by simp [hb])

/-- The words of a record in the frame of its stack. -/
def recordAt (s : Machine) (f : Nat) : Task :=
  ⟨word s f taskWord, word s f (taskWord + 1), word s f (taskWord + 2), word s f (taskWord + 3),
    word s f (taskWord + 4), word s f (taskWord + 5), word s f (taskWord + 6)⟩

theorem readTask_eq (hp : tempFrame s stack = some f) : readTask s stack = some (recordAt s f) := by
  simp only [readTask, peek_eq hp]
  rfl

/-- A record as `alloc_kstack_and_task` fills it in, for the directory `D`. -/
structure Filled (task : Task) (D tid : Nat) : Prop where
  phyDir : task.phyDir = D * frameSize
  esp0 : task.esp0 = kstackFrame + frameSize - taskSize - 4
  tid : task.tid = tid
  state : task.state = taskPresent
  ttl : task.ttl = 10

theorem Filled.congr {D : Nat} (h : Filled (recordAt s f) D tid)
    (hwords : ∀ j, taskWord < j → j < 1024 → word s' f j = word s f j) :
    Filled (recordAt s' f) D tid :=
  ⟨(hwords _ (by decide) (by decide)).trans h.phyDir, (hwords _ (by decide) (by decide)).trans h.esp0,
    (hwords _ (by decide) (by decide)).trans h.tid, (hwords _ (by decide) (by decide)).trans h.state,
    (hwords _ (by decide) (by decide)).trans h.ttl⟩

theorem getNextTid_spec {arr : Nat → Task} (h : getNextTid arr = some tid) :
    tid < maxTaskNum ∧ (arr tid).state = 0 := by
  obtain ⟨-, hlt, hfound⟩ := firstIndex_spec h
  rw [Nat.zero_add] at hlt
  exact ⟨hlt, of_decide_eq_true hfound⟩

/-- The trap frame lies before the record. -/
theorem trapFrame_lt {retSyscall : Nat} {a : Nat × Nat} (ha : a ∈ trapFrame retSyscall) :
    a.1 < taskWord := by
  rcases List.mem_append.mp ha with hclear | hset
  · obtain ⟨i, hi, rfl⟩ := List.mem_map.mp hclear
    have hlt := List.mem_range.mp hi
    change 998 + i < 1017
    omega
  · simp only [List.mem_cons, List.not_mem_nil, or_false] at hset
    rcases hset with rfl | rfl | rfl | rfl | rfl | rfl | rfl | rfl | rfl | rfl <;>
      simp [tfWord, taskWord]

/-- The assignments of `alloc_kstack_and_task` to the record. -/
theorem record_spec {st D ptid : Nat} {s₁ s₂ : Machine}
    (hslot : tempFrame s stack = some st) (hst : st ≠ sysTb) (hD : D < 2 ^ 20) (htid : tid < 2 ^ 32)
    (hpokes : pokes s stack [(taskWord + 1, D * frameSize),
      (taskWord + 2, kstackFrame + frameSize - taskSize - 4), (taskWord + 3, ptid),
      (taskWord + 5, taskPresent), (taskWord + 6, 10)] = some s₁)
    (hpoke : poke s₁ stack (taskWord + 4) tid = some s₂) :
    OnlyFrame st s s₂ ∧ tempFrame s₂ stack = some st ∧ Filled (recordAt s₂ st) D tid := by
  obtain ⟨honly, hwords⟩ := pokes_spec hslot hst hpokes
  have hslot₁ : tempFrame s₁ stack = some st := (honly.tempFrame_eq hst _).trans hslot
  obtain ⟨g, hg, rfl⟩ := poke_eq hpoke
  obtain rfl : st = g := Option.some.inj (hslot₁.symm.trans hg)
  have honly₂ := onlyFrame_setWord s₁ st (taskWord + 4) tid
  have hslot₂ := (honly₂.tempFrame_eq hst _).trans hslot₁
  have hkeep : ∀ j, j ≠ taskWord + 4 → word (setWord s₁ st (taskWord + 4) tid) st j = word s₁ st j :=
    fun j hj => word_setWord_ne s₁ tid (Or.inr hj)
  have hlt : D * frameSize < 2 ^ 32 := by
    unfold frameSize
    omega
  refine ⟨honly.trans honly₂, hslot₂, ?_, ?_, word_setWord_same _ _ _ htid, ?_, ?_⟩
  · change word _ st (taskWord + 1) = _
    rw [hkeep _ (by decide), hwords]
    simp [lastWord, taskWord, u32_of_lt hlt]
  · change word _ st (taskWord + 2) = _
    rw [hkeep _ (by decide), hwords]
    simp [lastWord, taskWord, u32_of_lt (by decide : kstackFrame + frameSize - taskSize - 4 < 2 ^ 32)]
  · change word _ st (taskWord + 5) = _
    rw [hkeep _ (by decide), hwords]
    simp [lastWord, taskWord, taskPresent, u32]
  · change word _ st (taskWord + 6) = _
    rw [hkeep _ (by decide), hwords]
    simp [lastWord, taskWord, u32]

/-- A task has a stack and a record for the directory `D`; `F` is the table of the stack's page
and `St` its frame. -/
structure Stacked (ρ : Nat → Tag) (k k' : Kernel) (D F St stack tid : Nat) : Prop where
  tagged : Tagged ρ k'.machine
  present : KstackPresent k'.machine D F
  table : ρ F = .stackTable
  slot : tempFrame k'.machine stack = some St
  stackTag : ρ St = .stack
  next : getNextTid k.taskArr = some tid
  record : Filled (recordAt k'.machine St) D tid
  current : k'.current = k.current
  arr : ∃ task, k'.taskArr = Function.update k.taskArr tid task ∧ Filled task D tid

/-- The request for the stack's region may be the one that makes the table or one that finds
it; the rest is the same for both. -/
theorem allocKstackAndTask_spec {D : Nat} {Q : Nat → Prop} (hs : Tagged ρ k.machine) (hD : D < 2 ^ 20) (hPD : P D)
    (hDs : D ≠ sysTb) (hK : ∀ g, K g → Old ρ g ∧ ρ g ≠ .stack ∧ g ≠ sysTb)
    (hP : ∀ g, P g → Old ρ g ∧ ρ g ≠ .stackTable ∧ ρ g ≠ .stack)
    (hreq : ∀ s₁ s₂ dir, Created k.machine s₁ dir D →
      requestRegionVmap s₁ dir kstackFrame frameSize pageFlgKernel = some s₂ →
      ∃ ρ' F, Tagged ρ' s₂ ∧ Extends K P ρ s₁ ρ' s₂ ∧ KstackPresent s₂ D F ∧ ρ' F = .stackTable ∧
        ∀ i < 1024, Q i → word s₂ D i = word s₁ D i)
    (h : allocKstackAndTask k D = some (stack, k')) :
    ∃ ρ' F St tid, Stacked ρ' k k' D F St stack tid ∧ Extends K P ρ k.machine ρ' k'.machine ∧
      ∀ i < 1024, Q i → word k'.machine D i = word k.machine D i := by
  have hsysK : ¬K sysTb := fun hK' => (hK sysTb hK').2.2 rfl
  rw [allocKstackAndTask] at h
  obtain ⟨⟨dir, s₁⟩, hcreate, h⟩ := Option.bind_eq_some_iff.mp h
  obtain ⟨s₂, hregion, h⟩ := Option.bind_eq_some_iff.mp h
  obtain ⟨⟨St, s₃⟩, hphy, h⟩ := Option.bind_eq_some_iff.mp h
  obtain ⟨⟨stack', s₄⟩, hmap, h⟩ := Option.bind_eq_some_iff.mp h
  obtain ⟨s₅, hpokes, h⟩ := Option.bind_eq_some_iff.mp h
  obtain ⟨tid, htid, h⟩ := Option.bind_eq_some_iff.mp h
  obtain ⟨s₆, hpoke, h⟩ := Option.bind_eq_some_iff.mp h
  obtain ⟨task, hread, h⟩ := Option.bind_eq_some_iff.mp h
  obtain ⟨rfl, rfl⟩ : stack' = stack ∧ _ = k' := by simpa using h
  have hc := createTempVa_spec hcreate hD
  have hext₁ : Extends K P ρ k.machine ρ s₁ := Extends.of_created hc hsysK
  have htag₁ := hs.of_temp hc.only
  obtain ⟨ρ', F, htag₂, hext₂, hpres, hF, hsame⟩ := hreq s₁ s₂ dir hc hregion
  have hold : ∀ g, Old ρ g → ρ' g = ρ g := fun g hg => hext₂.tag_eq htag₁ htag₂ hg
  have hdir₂ := hext₂.slots dir D hc.leads hPD
  have hFs := htag₂.ne_sysTb hF (by decide)
  have hPF : ¬P F := fun hPF => (hP F hPF).2.1 ((hold F (hP F hPF).1).symm.trans hF)
  -- the walk for the address of the stack
  have hidx : frameOf (word s₂ D (pageDirIndex kstackFrame)) = F := hpres.frame
  obtain ⟨-, hSt, honly₃, hslots₃⟩ := getPhyFromDir_spec hdir₂ (fun _ => hidx ▸ hFs) hphy
  rw [hidx] at hSt hslots₃
  have hStag : ρ' St = .stack := hSt ▸ hpres.stack_tag htag₂ hF
  have hSts := htag₂.ne_sysTb hStag (by decide)
  have hDSt : D ≠ St := fun heq => (hP D hPD).2.2 ((hold D (hP D hPD).1).symm.trans (heq ▸ hStag))
  have hFSt : F ≠ St := fun heq => absurd (hF.symm.trans (heq ▸ hStag)) (by decide)
  have hKSt : ¬K St := fun hKS => (hK St hKS).2.1 ((hold St (hK St hKS).1).symm.trans hStag)
  have hext₃ : Extends K P ρ' s₂ ρ' s₃ := by
    apply Extends.of_temp honly₃ hsysK
    intro i g hg hPg
    apply hslots₃ i g hg
    rintro rfl
    exact hPF hPg
  have hcS := createTempVa_spec hmap (hSt ▸ frameOf_word_lt _ _ _)
  have hext₄ : Extends K P ρ' s₃ ρ' s₄ := Extends.of_created hcS hsysK
  have htid32 : tid < 2 ^ 32 := Nat.lt_trans (getNextTid_spec htid).1 (by decide)
  obtain ⟨honly₆, hslot₆, hfilled⟩ := record_spec hcS.leads hSts hD htid32 hpokes hpoke
  obtain rfl : recordAt s₆ St = task := Option.some.inj ((readTask_eq hslot₆).symm.trans hread)
  have htag₆ := ((htag₂.of_temp honly₃).of_temp hcS.only).of_plain honly₆
    (hStag ▸ ⟨rfl, fun _ => by simp⟩)
  have hext₆ : Extends K P ρ' s₄ ρ' s₆ := Extends.of_only honly₆ hSts hKSt
  have hall := hext₁.trans (hext₂.trans (hext₃.trans (hext₄.trans hext₆)))
  obtain ⟨htag', hext'⟩ := hall.delete_new htag₆ hc.absent hsysK
  obtain ⟨honly', hother⟩ := deleteTempVa_spec s₆ dir
  have hne : stack' ≠ dir := by
    rintro rfl
    have hDF : D ≠ F := fun heq => hPF (heq ▸ hPD)
    exact absurd (hcS.absent.symm.trans (hslots₃ _ D hdir₂ hDF)) (by simp)
  have hwords : ∀ f, f ≠ sysTb → f ≠ St → ∀ j < 1024,
      word (deleteTempVa s₆ dir) f j = word s₂ f j := by
    intro f hfs hfSt j hj
    rw [honly'.words f hfs j hj, honly₆.words f hfSt j hj, hcS.only.words f hfs j hj,
      honly₃.words f hfs j hj]
  exact ⟨ρ', F, St, tid, {
    tagged := htag'
    present := hpres.congr (hwords D hDs hDSt) (hwords F hFs hFSt)
    table := hF
    slot := (hother stack' hne).trans hslot₆
    stackTag := hStag
    next := htid
    record := hfilled.congr fun j _ hj => honly'.words St hSts j hj
    current := rfl
    arr := ⟨_, rfl, hfilled⟩ }, hext', fun i hi hQ =>
      (hwords D hDs hDSt i hi).trans ((hsame i hi hQ).trans (hc.only.words D hDs i hi))⟩

end TsOs.Tasking
