import TsOs.Library.InterruptController
import TsOs.Library.Transition

/-!
# Interrupts

`config_pic` gives the sixteen lines the vectors from 32 on. `irq_handler_entry` ends an interrupt with a
command that does not say which: the controllers take out the first line in service. An interrupt can come
before the `cli` of a stub, and a handler for the timer changes to another task, so handlers end in any
order. Still every command ends one interrupt, and none is lost or delivered twice.

## Implementation notes

A handler is in `active` from the acknowledgement to its commands. Exceptions send no command, and `int` does
not reach the stubs of the lines from user code. Line 2 is the wire between the controllers.
-/

namespace TsOs.Interrupts
open Pic

def outb (p : Pair) (port value : Nat) : Pair :=
  if port = 0x20 then { p with master := p.master.writeCommand value }
  else if port = 0x21 then { p with master := p.master.writeData value }
  else if port = 0xA0 then { p with slave := p.slave.writeCommand value }
  else if port = 0xA1 then { p with slave := p.slave.writeData value }
  else p

/-- `config_pic`. -/
def configPic (p : Pair) : Pair :=
  [(0x20, 0x11), (0xA0, 0x11), (0x21, 0x20), (0xA1, 0x28), (0x21, 0x04), (0xA1, 0x02), (0x21, 0x01), (0xA1, 0x01),
    (0x21, 0x0), (0xA1, 0x0)].foldl (fun p write => outb p write.1 write.2) p

/-- The commands at the end of `irq_handler_entry`, the slave first. -/
def sendEoi (p : Pair) (irq : Nat) : Pair :=
  let p := if 40 ≤ irq then outb p 0xA0 0x20 else p
  if 32 ≤ irq then outb p 0x20 0x20 else p

/-- The controllers, and the vectors of the handlers that have not sent their commands yet. -/
structure System where
  pics : Pair
  active : List Nat

/-- An edge on a line, the delivery of a vector, and the commands of one of the active handlers. -/
inductive Event
  | raise (line : Nat)
  | deliver (vector : Nat)
  | finish (k : Nat)
  deriving DecidableEq

def step (σ : System) : Event → Option System
  | .raise line => if line < 16 ∧ line ≠ 2 then some { σ with pics := σ.pics.raise line } else none
  | .deliver vector =>
      σ.pics.accept.bind fun accepted =>
        if accepted.2 = vector then some ⟨accepted.1, vector :: σ.active⟩ else none
  | .finish k => σ.active[k]?.map fun vector => ⟨sendEoi σ.pics vector, σ.active.eraseIdx k⟩

/-- What `config_pic` sets, which no later write changes. -/
structure Configured (p : Pair) : Prop where
  bases : p.master.base = 32 ∧ p.slave.base = 40
  cascade : p.master.cascade = 4 ∧ p.slave.cascade = 2
  masks : p.master.mask = ∅ ∧ p.slave.mask = ∅
  expect : p.master.expect = [] ∧ p.slave.expect = []

/-- The lines of the controllers are in service for the active handlers. -/
structure Serviced (σ : System) : Prop extends Configured σ.pics where
  masterRequest : σ.pics.master.request ⊆ (Finset.range 8).erase 2
  slaveRequest : σ.pics.slave.request ⊆ Finset.range 8
  masterService : σ.pics.master.service ⊆ Finset.range 8
  slaveService : σ.pics.slave.service ⊆ Finset.range 8
  masterCount : σ.pics.master.service.card = σ.active.length
  slaveCount : σ.pics.slave.service.card = σ.active.countP fun vector => decide (40 ≤ vector)
  vectors : ∀ vector ∈ σ.active, 32 ≤ vector ∧ vector < 48

variable {p p₀ : Pair} {σ σ' : System} {e : Event} {line vector k : Nat}

/-- What the writes of `config_pic` leave, whatever the controllers were set to before. -/
theorem configPic_eq (p : Pair) : configPic p =
    ⟨⟨∅, p.master.service, ∅, 32, 4, []⟩, ⟨∅, p.slave.service, ∅, 40, 2, []⟩⟩ := by
  simp [configPic, outb, Chip.writeCommand, Chip.writeData]

/-- A delivery acknowledges a line that asks. -/
inductive Accepted (p : Pair) : Pair → Nat → Prop
  | master (i : Nat) (hlt : i < 8) (hne : i ≠ 2) (hrequest : i ∈ p.master.request) (hservice : i ∉ p.master.service) :
      Accepted p ⟨p.master.acknowledge i, p.slave⟩ (32 + i)
  | slave (j : Nat) (hlt : j < 8) (hrequest : j ∈ p.slave.request) (hservice : j ∉ p.slave.service)
      (hwire : 2 ∉ p.master.service) :
      Accepted p ⟨p.master.acknowledge 2, p.slave.acknowledge j⟩ (40 + j)

theorem Accepted.vector_eq {p' : Pair} (h : Accepted p p' vector) : ∃ line < 16, line ≠ 2 ∧ vector = 32 + line := by
  cases h with
  | master i hlt hne _ _ => exact ⟨i, by omega, hne, rfl⟩
  | slave j hlt _ _ _ => exact ⟨8 + j, by omega, by omega, by omega⟩

theorem Accepted.vector_range {p' : Pair} (h : Accepted p p' vector) : 32 ≤ vector ∧ vector < 48 := by
  obtain ⟨line, hlt, -, rfl⟩ := h.vector_eq
  omega

theorem testBit_cascade {i : Nat} (hi : i < 8) : Nat.testBit 4 i = decide (i = 2) := by
  obtain rfl | rfl | rfl | rfl | rfl | rfl | rfl | rfl :
      i = 0 ∨ i = 1 ∨ i = 2 ∨ i = 3 ∨ i = 4 ∨ i = 5 ∨ i = 6 ∨ i = 7 := by omega
  all_goals rfl

theorem accept_spec (h : Configured p) {accepted : Pair × Nat} (haccept : p.accept = some accepted) :
    Accepted p accepted.1 accepted.2 := by
  obtain ⟨i, hi, hrest⟩ := Option.bind_eq_some_iff.mp haccept
  obtain ⟨hinput, hlt, hservice⟩ := pending_spec hi
  rw [h.cascade.1, testBit_cascade hlt] at hrest
  by_cases hwire : i = 2
  · subst hwire
    rw [if_pos (decide_eq_true rfl), if_pos h.cascade.2] at hrest
    obtain ⟨j, hj, rfl⟩ := Option.map_eq_some_iff.mp hrest
    obtain ⟨hrequest, hlt', hservice'⟩ := pending_spec hj
    rw [h.bases.2]
    exact .slave j hlt' hrequest hservice' hservice
  · rw [if_neg (by simpa using hwire)] at hrest
    obtain rfl := Option.some.inj hrest
    rw [h.bases.1]
    refine .master i hlt hwire ?_ hservice
    rcases Finset.mem_union.mp hinput with hrequest | hfrom
    · exact hrequest
    · split at hfrom
      · exact absurd (Finset.mem_singleton.mp hfrom) hwire
      · exact absurd hfrom (Finset.notMem_empty i)

/-- With nothing in service, a line that asks is delivered. -/
theorem accept_isSome (h : Configured p) (hidle : p.master.service = ∅ ∧ p.slave.service = ∅)
    (hmaster : p.master.request ⊆ (Finset.range 8).erase 2) (hline : line < 16) (hrequest : p.Requested line) :
    p.accept.isSome := by
  have hinput : ∃ i ∈ p.inputs, i < 8 := by
    unfold Pair.Requested at hrequest
    split at hrequest
    next hlow => exact ⟨line, Finset.mem_union_left _ hrequest, hlow⟩
    next hhigh =>
      have hslave := pending_isSome hidle.2 h.masks.2 hrequest (by omega)
      refine ⟨2, Finset.mem_union_right _ ?_, by decide⟩
      rw [if_pos hslave]
      exact Finset.mem_singleton_self 2
  obtain ⟨i, hi, hlt⟩ := hinput
  obtain ⟨k, hk⟩ := Option.isSome_iff_exists.mp (pending_isSome hidle.1 h.masks.1 hi hlt)
  obtain ⟨hkInput, hkLt, -⟩ := pending_spec hk
  rw [Pair.accept, hk, Option.bind_some, h.cascade.1, testBit_cascade hkLt]
  by_cases hwire : k = 2
  · subst hwire
    rw [if_pos (decide_eq_true rfl), if_pos h.cascade.2, Option.isSome_map]
    rcases Finset.mem_union.mp hkInput with hrequest | hfrom
    · exact absurd rfl (Finset.mem_erase.mp (hmaster hrequest)).1
    · by_contra hnone
      rw [if_neg hnone] at hfrom
      exact absurd hfrom (Finset.notMem_empty 2)
  · rw [if_neg (by simpa using hwire)]
    rfl

/-! ## One step -/

theorem writeCommand_eoi (c : Chip) : c.writeCommand 0x20 = c.endService := by
  rw [Chip.writeCommand, if_neg (by decide), if_pos rfl]

theorem sendEoi_eq (h : 32 ≤ vector) : sendEoi p vector =
    ⟨p.master.endService, if 40 ≤ vector then p.slave.endService else p.slave⟩ := by
  simp only [sendEoi, if_pos h]
  split <;> simp [outb, writeCommand_eoi]

/-- The commands of a handler end one interrupt on each controller that has one for it. -/
theorem sendEoi_card (h : Serviced σ) (hvector : vector ∈ σ.active) :
    (sendEoi σ.pics vector).master.service.card + 1 = σ.pics.master.service.card ∧
      (sendEoi σ.pics vector).slave.service.card + (if 40 ≤ vector then 1 else 0) = σ.pics.slave.service.card := by
  obtain ⟨hlow, -⟩ := h.vectors vector hvector
  have hmaster : 0 < σ.pics.master.service.card := by
    rw [h.masterCount]
    exact List.length_pos_of_mem hvector
  rw [sendEoi_eq hlow]
  refine ⟨endService_card h.masterService hmaster, ?_⟩
  by_cases hhigh : 40 ≤ vector
  · have hslave : 0 < σ.pics.slave.service.card := by
      rw [h.slaveCount]
      exact List.countP_pos_iff.mpr ⟨vector, hvector, decide_eq_true hhigh⟩
    rw [if_pos hhigh, if_pos hhigh]
    exact endService_card h.slaveService hslave
  · rw [if_neg hhigh, if_neg hhigh, Nat.add_zero]

/-- What a step can do. -/
inductive Stepped (σ : System) : Event → System → Prop
  | raise (line : Nat) (hlt : line < 16) (hne : line ≠ 2) : Stepped σ (.raise line) { σ with pics := σ.pics.raise line }
  | deliver (p' : Pair) (vector : Nat) (haccept : Accepted σ.pics p' vector) :
      Stepped σ (.deliver vector) ⟨p', vector :: σ.active⟩
  | finish (k : Nat) (hk : k < σ.active.length) :
      Stepped σ (.finish k) ⟨sendEoi σ.pics σ.active[k], σ.active.eraseIdx k⟩

theorem step_cases (h : Configured σ.pics) (hstep : step σ e = some σ') : Stepped σ e σ' := by
  cases e with
  | raise line =>
      rw [step] at hstep
      split at hstep
      next hline =>
        obtain rfl := Option.some.inj hstep
        exact .raise line hline.1 hline.2
      next => exact absurd hstep (by simp)
  | deliver vector =>
      obtain ⟨accepted, haccept, hrest⟩ := Option.bind_eq_some_iff.mp hstep
      split at hrest
      next hvector =>
        obtain rfl := Option.some.inj hrest
        have hspec := accept_spec h haccept
        rw [hvector] at hspec
        exact .deliver accepted.1 vector hspec
      next => exact absurd hrest (by simp)
  | finish k =>
      obtain ⟨vector, hvector, rfl⟩ := Option.map_eq_some_iff.mp hstep
      obtain ⟨hk, rfl⟩ := List.getElem?_eq_some_iff.mp hvector
      exact .finish k hk

theorem Configured.raise (h : Configured p) (line : Nat) : Configured (p.raise line) := by
  obtain ⟨hbases, hcascade, hmasks, hexpect⟩ := h
  unfold Pair.raise
  split <;> exact ⟨hbases, hcascade, hmasks, hexpect⟩

theorem Configured.sendEoi (h : Configured p) (hvector : 32 ≤ vector) : Configured (sendEoi p vector) := by
  obtain ⟨hbases, hcascade, hmasks, hexpect⟩ := h
  rw [sendEoi_eq hvector]
  split <;> exact ⟨hbases, hcascade, hmasks, hexpect⟩

theorem sendEoi_request (hvector : 32 ≤ vector) : (sendEoi p vector).master.request = p.master.request ∧
    (sendEoi p vector).slave.request = p.slave.request := by
  rw [sendEoi_eq hvector]
  split <;> exact ⟨rfl, rfl⟩

/-- The counts after a handler has gone from the list. -/
theorem countP_eraseIdx (f : Nat → Bool) (l : List Nat) (k : Nat) (hk : k < l.length) :
    (l.eraseIdx k).countP f + (if f l[k] then 1 else 0) = l.countP f := by
  have hperm := List.getElem_cons_eraseIdx_perm hk
  rw [← hperm.countP_eq, List.countP_cons]

theorem step_serviced (h : Serviced σ) (hstep : Stepped σ e σ') : Serviced σ' := by
  obtain ⟨hconf, hmr, hsr, hms, hss, hmc, hsc, hvectors⟩ := h
  cases hstep with
  | raise line hlt hne =>
      refine ⟨hconf.raise line, ?_, ?_, ?_, ?_, ?_, ?_, hvectors⟩
      all_goals
        unfold Pair.raise
        split
      · exact Finset.insert_subset (Finset.mem_erase.mpr ⟨hne, Finset.mem_range.mpr ‹_›⟩) hmr
      · exact hmr
      · exact hsr
      · exact Finset.insert_subset (Finset.mem_range.mpr (by omega)) hsr
      all_goals assumption
  | deliver p' vector haccept =>
      have hvectors' : ∀ v ∈ vector :: σ.active, 32 ≤ v ∧ v < 48 :=
        List.forall_mem_cons.mpr ⟨haccept.vector_range, hvectors⟩
      cases haccept with
      | master i hlt hne hrequest hservice =>
          refine ⟨⟨hconf.bases, hconf.cascade, hconf.masks, hconf.expect⟩, (Finset.erase_subset _ _).trans hmr, hsr,
            Finset.insert_subset (Finset.mem_range.mpr hlt) hms, hss, ?_, ?_, hvectors'⟩
          · rw [acknowledge_card hservice, hmc, List.length_cons]
          · rw [hsc, List.countP_cons, if_neg (by simp; omega), Nat.add_zero]
      | slave j hlt hrequest hservice hwire =>
          refine ⟨⟨hconf.bases, hconf.cascade, hconf.masks, hconf.expect⟩, (Finset.erase_subset _ _).trans hmr,
            (Finset.erase_subset _ _).trans hsr, Finset.insert_subset (by decide) hms,
            Finset.insert_subset (Finset.mem_range.mpr hlt) hss, ?_, ?_, hvectors'⟩
          · rw [acknowledge_card hwire, hmc, List.length_cons]
          · rw [acknowledge_card hservice, hsc, List.countP_cons, if_pos (by simp)]
  | finish k hk =>
      have hmem := List.getElem_mem hk
      obtain ⟨hlow, -⟩ := hvectors _ hmem
      obtain ⟨hmcard, hscard⟩ := sendEoi_card ⟨hconf, hmr, hsr, hms, hss, hmc, hsc, hvectors⟩ hmem
      obtain ⟨hmreq, hsreq⟩ := sendEoi_request (p := σ.pics) hlow
      refine ⟨hconf.sendEoi hlow, hmreq ▸ hmr, hsreq ▸ hsr, ?_, ?_, ?_, ?_, fun v hv =>
        hvectors v (List.mem_of_mem_eraseIdx hv)⟩
      · dsimp only
        rw [sendEoi_eq hlow]
        exact (endService_subset _).trans hms
      · dsimp only
        rw [sendEoi_eq hlow]
        split
        · exact (endService_subset _).trans hss
        · exact hss
      · dsimp only
        rw [List.length_eraseIdx_of_lt hk]
        omega
      · have hcount := countP_eraseIdx (fun vector => decide (40 ≤ vector)) σ.active k hk
        simp only [decide_eq_true_iff] at hcount
        dsimp only
        omega

/-! ## Lines that ask -/

theorem requested_raise {l : Nat} : (p.raise l).Requested line ↔ line = l ∨ p.Requested line := by
  unfold Pair.Requested Pair.raise
  by_cases hlow : line < 8 <;> by_cases hlow' : l < 8 <;> simp only [hlow, hlow', if_true, if_false, Finset.mem_insert]
  · exact ⟨Or.inr, fun h => h.resolve_left (by omega)⟩
  · exact ⟨Or.inr, fun h => h.resolve_left (by omega)⟩
  · exact or_congr_left (by omega)

/-- A delivery takes one line that asks, and leaves the others. -/
theorem Accepted.requested {p' : Pair} (h : Accepted p p' vector) (hline : line ≠ 2) :
    (p'.Requested line ↔ vector ≠ 32 + line ∧ p.Requested line) ∧ (vector = 32 + line → p.Requested line) := by
  cases h with
  | master i hlt hne hrequest hservice =>
      unfold Pair.Requested
      by_cases hlow : line < 8
      · simp only [if_pos hlow, Chip.acknowledge, Finset.mem_erase]
        refine ⟨and_congr_left fun _ => by omega, fun hvector => ?_⟩
        obtain rfl : i = line := by omega
        exact hrequest
      · simp only [if_neg hlow]
        exact ⟨⟨fun h => ⟨by omega, h⟩, And.right⟩, fun hvector => by omega⟩
  | slave j hlt hrequest hservice hwire =>
      unfold Pair.Requested
      by_cases hlow : line < 8
      · simp only [if_pos hlow, Chip.acknowledge, Finset.mem_erase]
        exact ⟨and_congr_left fun _ => by omega, fun hvector => by omega⟩
      · simp only [if_neg hlow, Chip.acknowledge, Finset.mem_erase]
        refine ⟨and_congr_left fun _ => by omega, fun hvector => ?_⟩
        obtain rfl : j = line - 8 := by omega
        exact hrequest

/-- Whether the line asks, as a number. -/
def asks (σ : System) (line : Nat) : Nat := if σ.pics.Requested line then 1 else 0

theorem sendEoi_requested (hvector : 32 ≤ vector) : (sendEoi p vector).Requested line ↔ p.Requested line := by
  obtain ⟨hmaster, hslave⟩ := sendEoi_request (p := p) hvector
  unfold Pair.Requested
  rw [hmaster, hslave]

/-- A line that asks goes on asking until it is delivered. -/
theorem step_requested (h : Serviced σ) (hstep : Stepped σ e σ') (hline : line ≠ 2)
    (hrequest : σ.pics.Requested line ∨ e = .raise line) : σ'.pics.Requested line ∨ e = .deliver (32 + line) := by
  cases hstep with
  | raise l hlt hne =>
      refine .inl (requested_raise.mpr ?_)
      rcases hrequest with hrequest | heq
      · exact .inr hrequest
      · exact .inl (Event.raise.inj heq).symm
  | deliver p' vector haccept =>
      have hrequest' := hrequest.resolve_right (by simp)
      by_cases hvector : vector = 32 + line
      · exact .inr (congrArg Event.deliver hvector)
      · exact .inl ((haccept.requested hline).1.mpr ⟨hvector, hrequest'⟩)
  | finish k hk =>
      have hlow := (h.vectors _ (List.getElem_mem hk)).1
      exact .inl ((sendEoi_requested hlow).mpr (hrequest.resolve_right (by simp)))

/-- A delivery uses up an edge. -/
theorem step_asks (h : Serviced σ) (hstep : Stepped σ e σ') (hline : line ≠ 2) :
    [e].count (.deliver (32 + line)) + asks σ' line ≤ [e].count (.raise line) + asks σ line := by
  unfold asks
  cases hstep with
  | raise l hlt hne =>
      have hedge : [Event.raise l].count (.raise line) = if line = l then 1 else 0 := by
        rw [List.count_singleton]
        exact if_congr (beq_iff_eq.trans ⟨fun heq => (Event.raise.inj heq).symm, fun heq => heq ▸ rfl⟩) rfl rfl
      have hnone : [Event.raise l].count (.deliver (32 + line)) = 0 := List.count_singleton.trans (by simp)
      rw [hedge, hnone]
      simp only [requested_raise]
      split <;> split <;> split <;> simp_all
  | deliver p' vector haccept =>
      have hnone : [Event.deliver vector].count (.raise line) = 0 := List.count_singleton.trans (by simp)
      have hone : [Event.deliver vector].count (.deliver (32 + line)) = if vector = 32 + line then 1 else 0 := by
        rw [List.count_singleton]
        exact if_congr (beq_iff_eq.trans ⟨Event.deliver.inj, congrArg _⟩) rfl rfl
      obtain ⟨hiff, htaken⟩ := haccept.requested hline
      rw [hnone, hone]
      simp only [hiff]
      by_cases hvector : vector = 32 + line
      · rw [if_pos hvector, if_neg fun hboth => hboth.1 hvector, if_pos (htaken hvector)]
      · rw [if_neg hvector, if_congr (and_iff_right hvector) rfl rfl]
  | finish k hk =>
      have hlow := (h.vectors _ (List.getElem_mem hk)).1
      simp [sendEoi_requested hlow]

theorem start_serviced (hidle : p₀.master.service = ∅ ∧ p₀.slave.service = ∅) : Serviced ⟨configPic p₀, []⟩ := by
  rw [configPic_eq, hidle.1, hidle.2]
  exact ⟨⟨⟨rfl, rfl⟩, ⟨rfl, rfl⟩, ⟨rfl, rfl⟩, ⟨rfl, rfl⟩⟩, Finset.empty_subset _, Finset.empty_subset _,
    Finset.empty_subset _, Finset.empty_subset _, rfl, rfl, fun v hv => absurd hv List.not_mem_nil⟩

/-! ## Runs -/

theorem run_serviced {as : List Event} (h : Serviced σ) (hrun : Transition.run step σ as = some σ') : Serviced σ' := by
  have hkeep : ∀ σ e σ', Serviced σ → True → step σ e = some σ' → Serviced σ' :=
    fun _ _ _ h _ hstep => step_serviced h (step_cases h.toConfigured hstep)
  have hlast := Transition.inv_of_run hkeep h (Transition.guarded_of_forall fun _ _ _ => trivial) hrun
  exact hlast

theorem run_requested {as : List Event} (h : Serviced σ) (hrun : Transition.run step σ as = some σ') (hline : line ≠ 2)
    (hrequest : σ.pics.Requested line) : σ'.pics.Requested line ∨ .deliver (32 + line) ∈ as := by
  induction as generalizing σ with
  | nil =>
      obtain rfl := Option.some.inj hrun
      exact .inl hrequest
  | cons e as ih =>
      obtain ⟨σ₁, hstep, htail⟩ := Transition.run_cons_eq_some hrun
      have hstepped := step_cases h.toConfigured hstep
      rcases step_requested h hstepped hline (.inl hrequest) with hnext | rfl
      · exact (ih (step_serviced h hstepped) htail hnext).imp_right (List.mem_cons_of_mem _)
      · exact .inr (List.mem_cons_self ..)

theorem run_asks {as : List Event} (h : Serviced σ) (hrun : Transition.run step σ as = some σ') (hline : line ≠ 2) :
    as.count (.deliver (32 + line)) + asks σ' line ≤ as.count (.raise line) + asks σ line := by
  induction as generalizing σ with
  | nil =>
      obtain rfl := Option.some.inj hrun
      exact le_refl _
  | cons e as ih =>
      obtain ⟨σ₁, hstep, htail⟩ := Transition.run_cons_eq_some hrun
      have hstepped := step_cases h.toConfigured hstep
      have hhead := step_asks h hstepped hline
      have hrest := ih (step_serviced h hstepped) htail
      have hsplit : ∀ a, ([e] ++ as).count a = [e].count a + as.count a := fun _ => List.count_append
      change ([e] ++ as).count _ + _ ≤ ([e] ++ as).count _ + _
      rw [hsplit, hsplit]
      omega

theorem run_vectors {as : List Event} (h : Serviced σ) (hrun : Transition.run step σ as = some σ')
    (hvector : .deliver vector ∈ as) : ∃ line < 16, line ≠ 2 ∧ vector = 32 + line := by
  induction as generalizing σ with
  | nil => exact absurd hvector List.not_mem_nil
  | cons e as ih =>
      obtain ⟨σ₁, hstep, htail⟩ := Transition.run_cons_eq_some hrun
      have hstepped := step_cases h.toConfigured hstep
      rcases List.mem_cons.mp hvector with rfl | hrest
      · cases hstepped with
        | deliver p' vector haccept => exact haccept.vector_eq
      · exact ih (step_serviced h hstepped) htail hrest

/-- What holds of a run and of the state that it leads to. Every handler that has not sent its commands has one
line in service on the master, and one on the slave if its line is there. No edge is delivered twice, and none
is lost. When all handlers have sent their commands, the lines that ask are delivered. -/
structure Served (as : List Event) (σ : System) : Prop where
  masterCount : σ.pics.master.service.card = σ.active.length
  slaveCount : σ.pics.slave.service.card = σ.active.countP fun vector => decide (40 ≤ vector)
  onlyLines : ∀ vector, .deliver vector ∈ as → ∃ line < 16, line ≠ 2 ∧ vector = 32 + line
  notTwice : ∀ line, line ≠ 2 → as.count (.deliver (32 + line)) + asks σ line ≤ as.count (.raise line)
  notLost : ∀ line, line ≠ 2 → ∀ bs cs, as = bs ++ .raise line :: cs →
    σ.pics.Requested line ∨ .deliver (32 + line) ∈ cs
  goesOn : σ.active = [] → ∀ line < 16, σ.pics.Requested line → ∃ vector, (step σ (.deliver vector)).isSome

/-- From `config_pic` on, for every order of edges, deliveries and ends of handlers. -/
theorem interrupts_served {as : List Event} (hidle : p₀.master.service = ∅ ∧ p₀.slave.service = ∅)
    (hrun : Transition.run step ⟨configPic p₀, []⟩ as = some σ) : Served as σ := by
  have hstart := start_serviced hidle
  have hserviced := run_serviced hstart hrun
  refine ⟨hserviced.masterCount, hserviced.slaveCount, fun vector => run_vectors hstart hrun, fun line hline => ?_,
    fun line hline bs cs hsplit => ?_, fun hactive line hlt hrequest => ?_⟩
  · have hnone : asks ⟨configPic p₀, []⟩ line = 0 := by
      rw [asks, configPic_eq]
      exact if_neg (by unfold Pair.Requested; split <;> exact Finset.notMem_empty _)
    have hcount := run_asks hstart hrun hline
    rwa [hnone, Nat.add_zero] at hcount
  · subst hsplit
    rw [Transition.run_append] at hrun
    obtain ⟨σ₁, hbs, hrest⟩ := Option.bind_eq_some_iff.mp hrun
    obtain ⟨σ₂, hraise, hcs⟩ := Transition.run_cons_eq_some hrest
    have hserviced₁ := run_serviced hstart hbs
    have hstepped := step_cases hserviced₁.toConfigured hraise
    have hasks := (step_requested hserviced₁ hstepped hline (.inr rfl)).resolve_right (by simp)
    exact run_requested (step_serviced hserviced₁ hstepped) hcs hline hasks
  · have hmaster : σ.pics.master.service = ∅ := by
      rw [← Finset.card_eq_zero, hserviced.masterCount, hactive]
      rfl
    have hslave : σ.pics.slave.service = ∅ := by
      rw [← Finset.card_eq_zero, hserviced.slaveCount, hactive]
      rfl
    obtain ⟨accepted, haccept⟩ := Option.isSome_iff_exists.mp
      (accept_isSome hserviced.toConfigured ⟨hmaster, hslave⟩ hserviced.masterRequest hlt hrequest)
    refine ⟨accepted.2, ?_⟩
    rw [step, haccept, Option.bind_some, if_pos rfl]
    rfl

/-- The controllers as the firmware leaves them. -/
def firmwarePics : Pair := ⟨⟨∅, ∅, {3, 4}, 8, 4, []⟩, ⟨∅, ∅, ∅, 0x70, 2, []⟩⟩

/-- The timer comes into the handler of the disk, whose commands are sent first, by another task. -/
def sampleEvents : List Event :=
  [.raise 14, .deliver 46, .raise 0, .deliver 32, .finish 1, .raise 1, .finish 0]

theorem interrupts_served_sample : ∃ σ, Transition.run step ⟨configPic firmwarePics, []⟩ sampleEvents = some σ ∧
    Served sampleEvents σ := by
  have hrun : (Transition.run step ⟨configPic firmwarePics, []⟩ sampleEvents).isSome = true := by decide +kernel
  obtain ⟨σ, hσ⟩ := Option.isSome_iff_exists.mp hrun
  exact ⟨σ, hσ, interrupts_served ⟨rfl, rfl⟩ hσ⟩

end TsOs.Interrupts
