import Mathlib.Tactic

/-!
# The 8259 interrupt controllers

Two controllers with eight lines each, the second one wired to line 2 of the first. A controller keeps the
lines that ask for service and those in service. It passes on the first line that asks if no line before
it, nor itself, is in service. The command for the end of an interrupt takes the first line in service out.

## Implementation notes

Requests are edges and stay until they are acknowledged. Rotating priorities, special masks, polling and the
automatic end of an interrupt are left out, and so are spurious interrupts.
-/

namespace Pic

/-- A word of the initialisation that the data port waits for. -/
inductive Word
  | base
  | cascade
  | mode
  deriving DecidableEq

structure Chip where
  request : Finset Nat
  service : Finset Nat
  mask : Finset Nat
  base : Nat
  cascade : Nat
  expect : List Word

/-- The line of highest priority. -/
def first (s : Finset Nat) : Option Nat := (List.range 8).find? fun i => decide (i ∈ s)

namespace Chip

/-- The line that is passed on. -/
def pending (c : Chip) (inputs : Finset Nat) : Option Nat :=
  (first (inputs \ c.mask)).filter fun i => (first c.service).all fun k => decide (i < k)

def acknowledge (c : Chip) (i : Nat) : Chip :=
  { c with request := c.request.erase i, service := insert i c.service }

/-- The end of an interrupt, of the first line in service. -/
def endService (c : Chip) : Chip :=
  { c with service := (first c.service).elim c.service fun i => c.service.erase i }

/-- A write to the command port: the start of the initialisation, or an end of interrupt. -/
def writeCommand (c : Chip) (v : Nat) : Chip :=
  if v / 16 % 2 = 1 then
    { c with
      request := ∅
      mask := ∅
      expect := .base :: (if v / 2 % 2 = 1 then [] else [.cascade]) ++ (if v % 2 = 1 then [.mode] else []) }
  else if v = 0x20 then c.endService
  else c

/-- A write to the data port. -/
def writeData (c : Chip) (v : Nat) : Chip :=
  match c.expect with
  | .base :: rest => { c with base := v / 8 * 8, expect := rest }
  | .cascade :: rest => { c with cascade := v, expect := rest }
  | .mode :: rest => { c with expect := rest }
  | [] => { c with mask := (Finset.range 8).filter fun i => v.testBit i }

end Chip

/-- The two controllers. -/
structure Pair where
  master : Chip
  slave : Chip

namespace Pair

/-- The lines of the first controller. -/
def inputs (p : Pair) : Finset Nat :=
  p.master.request ∪ if (p.slave.pending p.slave.request).isSome then {2} else ∅

/-- The acknowledgement of the processor, with the vector. -/
def accept (p : Pair) : Option (Pair × Nat) :=
  (p.master.pending p.inputs).bind fun i =>
    if p.master.cascade.testBit i then
      if p.slave.cascade = i then
        (p.slave.pending p.slave.request).map fun j =>
          (⟨p.master.acknowledge i, p.slave.acknowledge j⟩, p.slave.base + j)
      else none
    else some (⟨p.master.acknowledge i, p.slave⟩, p.master.base + i)

/-- An edge on one of the sixteen lines. -/
def raise (p : Pair) (line : Nat) : Pair :=
  if line < 8 then { p with master := { p.master with request := insert line p.master.request } }
  else { p with slave := { p.slave with request := insert (line - 8) p.slave.request } }

/-- The line asks for service. -/
def Requested (p : Pair) (line : Nat) : Prop :=
  if line < 8 then line ∈ p.master.request else line - 8 ∈ p.slave.request

instance (p : Pair) (line : Nat) : Decidable (p.Requested line) := by
  unfold Requested
  infer_instance

end Pair

/-! ## One controller -/

variable {c : Chip} {s inputs : Finset Nat} {i k : Nat}

theorem first_spec (h : first s = some i) : i ∈ s ∧ i < 8 ∧ ∀ j ∈ s, j < 8 → i ≤ j := by
  obtain ⟨hi, hbefore⟩ := List.find?_eq_some_iff_getElem.mp h
  obtain ⟨n, hn, rfl, hleast⟩ := hbefore
  rw [List.length_range] at hn
  rw [List.getElem_range] at hi ⊢
  refine ⟨of_decide_eq_true hi, hn, fun j hj hlt => ?_⟩
  by_contra hlt'
  have hnot := hleast j (by omega)
  rw [List.getElem_range] at hnot
  simp [hj] at hnot

theorem first_isSome (hi : i ∈ s) (hlt : i < 8) : ∃ k, first s = some k ∧ k ≤ i := by
  cases h : first s with
  | none =>
      have hnone := List.find?_eq_none.mp h i (List.mem_range.mpr hlt)
      simp [hi] at hnone
  | some k => exact ⟨k, rfl, (first_spec h).2.2 i hi hlt⟩

theorem pending_spec (h : c.pending inputs = some i) : i ∈ inputs ∧ i < 8 ∧ i ∉ c.service := by
  obtain ⟨hfirst, hpass⟩ := Option.filter_eq_some_iff.mp h
  obtain ⟨hi, hlt, -⟩ := first_spec hfirst
  refine ⟨(Finset.mem_sdiff.mp hi).1, hlt, fun hservice => ?_⟩
  obtain ⟨k, hk, hle⟩ := first_isSome hservice hlt
  rw [hk, Option.all_some, decide_eq_true_iff] at hpass
  omega

/-- Nothing in service and nothing masked: some line that asks is passed on. -/
theorem pending_isSome (hservice : c.service = ∅) (hmask : c.mask = ∅) (hi : i ∈ inputs) (hlt : i < 8) :
    (c.pending inputs).isSome := by
  obtain ⟨k, hk, -⟩ := first_isSome hi hlt
  have hidle : first c.service = none := by
    rw [hservice]
    rfl
  rw [Chip.pending, hmask, Finset.sdiff_empty, hk, hidle]
  rfl

theorem acknowledge_card (h : i ∉ c.service) : (c.acknowledge i).service.card = c.service.card + 1 :=
  Finset.card_insert_of_notMem h

theorem endService_subset (c : Chip) : c.endService.service ⊆ c.service := by
  cases hfirst : first c.service with
  | none =>
      rw [Chip.endService, hfirst]
      exact Finset.Subset.refl _
  | some i =>
      rw [Chip.endService, hfirst]
      exact Finset.erase_subset _ _

/-- An end of interrupt takes one line out of service. -/
theorem endService_card (hlines : c.service ⊆ Finset.range 8) (h : 0 < c.service.card) :
    c.endService.service.card + 1 = c.service.card := by
  obtain ⟨i, hi⟩ := Finset.card_pos.mp h
  obtain ⟨k, hk, -⟩ := first_isSome hi (Finset.mem_range.mp (hlines hi))
  have hmem := (first_spec hk).1
  rw [Chip.endService, hk]
  exact Finset.card_erase_add_one hmem

end Pic
