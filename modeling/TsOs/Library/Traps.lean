import TsOs.Library.Ia32

/-!
# Traps on IA-32

A trap changes to the stack of the kernel, if the processor is not on it, and puts the
state of the interrupted code there. `iret` takes it back, so that whatever was
interrupted goes on as if nothing had happened.
-/

namespace Ia32

/-- `iret`. A return to another privilege level takes the stack pointer too. -/
def iret (s : State) : State :=
  let t := s.popAll [.eip, .seg .cs, .eflags]
  if t.cpl = s.cpl then t
  else (t.drop.put t.drop.top (.seg .ss)).setReg .esp t.top

/-- The stack for privilege level 0. -/
structure Tss where
  esp0 : Word
  ss0 : BitVec 16

/-- The flags that a trap clears: single step, nested task, resume and virtual mode. -/
def trapMask : Word := 0x34100

/-- The words that a trap puts on the stack, from the first one on, apart from the error code. -/
def trapWords (s : State) : List Word :=
  (if s.cpl = 0 then [] else [(s.seg .ss).setWidth 32, s.esp]) ++
    [s.eflags, (s.seg .cs).setWidth 32, s.eip]

/-- A trap through a gate for privilege level 0, with the error code of the exceptions that
have one. -/
def trap (tss : Tss) (selector : BitVec 16) (offset : Word) (err : Option Word) (s : State) : State :=
  let stack := if s.cpl = 0 then s else (s.setReg .esp tss.esp0).setSeg .ss tss.ss0
  { (stack.pushAll (trapWords s ++ err.toList)).setSeg .cs selector with
    eip := offset
    eflags := s.eflags &&& ~~~trapMask }

variable {s t : State} (tss : Tss) (selector : BitVec 16) (offset : Word) (err : Option Word)

/-- The interrupted code goes on as if nothing had happened. -/
structure Resumes (s s' : State) : Prop where
  reg : s'.reg = s.reg
  seg : s'.seg = s.seg
  eip : s'.eip = s.eip
  eflags : s'.eflags = s.eflags
  cr3 : s'.cr3 = s.cr3

theorem setWidth_setWidth_seg (g : BitVec 16) : (g.setWidth 32).setWidth 16 = g := by
  ext i hi
  simp

/-! ## The trap -/

theorem trap_reg (s : State) {r : Reg} (hr : r ≠ .esp) : (trap tss selector offset err s).reg r = s.reg r := by
  simp only [trap, State.setSeg]
  rw [pushAll_reg _ _ hr]
  split
  · rfl
  · exact Function.update_of_ne hr _ _

theorem trap_seg (s : State) {g : Seg} (hcs : g ≠ .cs) (hss : g ≠ .ss) :
    (trap tss selector offset err s).seg g = s.seg g := by
  refine (Function.update_of_ne hcs _ _).trans ?_
  rw [pushAll_seg]
  split
  · rfl
  · exact Function.update_of_ne hss _ _

theorem trap_cs (s : State) : (trap tss selector offset err s).seg .cs = selector := rfl

theorem trap_cr3 (s : State) : (trap tss selector offset err s).cr3 = s.cr3 := by
  refine (pushAll_cr3 _ _).trans ?_
  split <;> rfl

theorem length_trapWords_le (s : State) : (trapWords s).length ≤ 5 := by
  rw [trapWords]
  split <;> simp

/-- The words of the trap lie on the stack, the error code first. -/
theorem trap_stacked (s : State) : Stacked (trap tss selector offset err s).mem
    (trap tss selector offset err s).esp (err.toList ++ (trapWords s).reverse) := by
  have hlen := length_trapWords_le s
  have herr : err.toList.length ≤ 1 := by cases err <;> simp
  have hrev : err.toList ++ (trapWords s).reverse = (trapWords s ++ err.toList).reverse ++ [] := by
    cases err <;> simp
  rw [hrev]
  exact Stacked.pushAll trivial (by rw [List.length_nil, List.length_append]; omega)

/-- The stack pointer from which the trap pushes. -/
def kernelStack (tss : Tss) (s : State) : Word := if s.cpl = 0 then s.esp else tss.esp0

theorem trap_esp (s : State) : (trap tss selector offset err s).esp =
    kernelStack tss s - BitVec.ofNat 32 (4 * (trapWords s ++ err.toList).length) := by
  refine (pushAll_esp _ _).trans ?_
  rw [kernelStack]
  split <;> rfl

/-- The trap touches its own words only. -/
theorem trap_mem (s : State) {b : Word}
    (hb : (b - kernelStack tss s).toNat < 2 ^ 32 - 4 * (trapWords s ++ err.toList).length) :
    (trap tss selector offset err s).mem b = s.mem b := by
  have hlen := length_trapWords_le s
  have herr : err.toList.length ≤ 1 := by cases err <;> simp
  have hroom : 4 * (trapWords s ++ err.toList).length ≤ 2 ^ 32 := by
    rw [List.length_append]
    omega
  refine (pushAll_mem hroom ?_).trans ?_
  · rw [kernelStack] at hb
    split
    next hkernel => rwa [if_pos hkernel] at hb
    next huser => rwa [if_neg huser] at hb
  · split <;> rfl

/-- A trap in the kernel stays on the stack. -/
theorem trap_kernel (h : s.cpl = 0) : (trap tss selector offset err s).seg .ss = s.seg .ss ∧
    (trap tss selector offset err s).esp + BitVec.ofNat 32 (4 * (err.toList.length + 3)) = s.esp := by
  have hwords : trapWords s = [s.eflags, (s.seg .cs).setWidth 32, s.eip] := by rw [trapWords, if_pos h]; rfl
  have hesp : (trap tss selector offset err s).esp = (s.pushAll (trapWords s ++ err.toList)).esp := by
    simp only [trap, if_pos h]
    rfl
  constructor
  · have hne : Seg.ss ≠ .cs := by decide
    simp only [trap, if_pos h, State.setSeg]
    rw [Function.update_of_ne hne, pushAll_seg]
  · rw [hesp, pushAll_esp, hwords, List.length_append, List.length_cons, List.length_cons,
      List.length_cons, List.length_nil, Nat.add_comm]
    exact BitVec.sub_add_cancel _ _

/-! ## The return -/

/-- The words of a trap, the last one first. -/
theorem trapWords_reverse (s : State) : (trapWords s).reverse =
    [s.eip, (s.seg .cs).setWidth 32, s.eflags] ++
      if s.cpl = 0 then [] else [s.esp, (s.seg .ss).setWidth 32] := by
  rw [trapWords]
  split <;> rfl

/-- The segments of the code and the stack, and the others. -/
theorem seg_ext {f g : Seg → BitVec 16} (hcs : f .cs = g .cs) (hss : f .ss = g .ss)
    (hdata : ∀ x, x ≠ .cs → x ≠ .ss → f x = g x) : f = g := by
  funext x
  by_cases hx : x = .cs
  · rw [hx, hcs]
  · by_cases hx' : x = .ss
    · rw [hx', hss]
    · exact hdata x hx hx'

/-- `iret` takes what the trap has put on the stack. -/
theorem iret_resumes {t : State} (hreg : ∀ x, x ≠ .esp → t.reg x = s.reg x)
    (hseg : ∀ g, g ≠ .cs → g ≠ .ss → t.seg g = s.seg g) (hcpl : t.cpl = 0) (hcr3 : t.cr3 = s.cr3)
    (hstack : Stacked t.mem t.esp (trapWords s).reverse)
    (hsame : s.cpl = 0 → t.esp + 12 = s.esp ∧ t.seg .ss = s.seg .ss) : Resumes s (iret t) := by
  rw [trapWords_reverse] at hstack
  have hpops : t.popAll [.eip, .seg .cs, .eflags] = _ := popAll_eq hstack.append_left rfl (by decide)
  have hcs : ((s.seg .cs).setWidth 32).setWidth 16 = s.seg .cs := setWidth_setWidth_seg _
  have hlevel : (t.popAll [.eip, .seg .cs, .eflags]).cpl = s.cpl := by
    rw [hpops]
    change (((s.seg .cs).setWidth 32).setWidth 16).toNat % 4 = _
    rw [hcs]
    rfl
  simp only [iret, hlevel, hcpl]
  split
  next hkernel =>
    obtain ⟨hesp, hss⟩ := hsame hkernel
    rw [hpops]
    refine ⟨funext fun x => ?_, seg_ext hcs hss fun g hc hs => ?_, rfl, rfl, hcr3⟩
    · by_cases hx : x = .esp
      · rw [hx]
        exact hesp
      · exact (Function.update_of_ne hx _ _).trans (hreg x hx)
    · exact (Function.update_of_ne hc _ _).trans (hseg g hc hs)
  next huser =>
    rw [if_neg huser] at hstack
    obtain ⟨hesp, hss, -⟩ := hstack.append_right
    rw [hpops]
    refine ⟨funext fun x => ?_, seg_ext hcs ?_ fun g hc hs => ?_, rfl, rfl, hcr3⟩
    · by_cases hx : x = .esp
      · rw [hx]
        exact hesp
      · refine (Function.update_of_ne hx _ _).trans ((Function.update_of_ne hx _ _).trans ?_)
        exact (Function.update_of_ne hx _ _).trans (hreg x hx)
    · exact (congrArg (BitVec.setWidth 16) hss).trans (setWidth_setWidth_seg _)
    · exact (Function.update_of_ne hs _ _).trans ((Function.update_of_ne hc _ _).trans (hseg g hc hs))

end Ia32
