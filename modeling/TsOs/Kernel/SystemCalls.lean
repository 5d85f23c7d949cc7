import TsOs.Kernel.Stubs
import TsOs.Kernel.Syscalls

/-!
# A system call

User code puts the number of the call in `eax` and its arguments in `ebx` and `ecx`, and
executes `int 0x3f`. The stub pushes four registers, which are the arguments of the
handler, and calls through `syscall_table`. The result comes back in `eax`.

## Implementation notes

The code at an address is given by a function `routine`. Of the handler only the calling
convention is used: the words of its own arguments may come back changed, and the stub
pops the registers from them.
-/

namespace TsOs.Stubs
open Ia32 ByteMemory Syscalls

/-- `__ret_syscall` up to `iret`. -/
def retSyscall : List Instr := [.popSeg .ds, .popSeg .es, .popSeg .fs, .popSeg .gs]

/-- `isr63`, with the address of `syscall_table`. -/
def isr63 (syscallTable : Word) : Stub where
  before := [.cli, .pushSeg .gs, .pushSeg .fs, .pushSeg .es, .pushSeg .ds, .push .edi, .push .edx, .push .ecx,
    .push .ebx, .mov .edi .eax, .movLow .eax 0x10, .movSeg .ds .eax, .movSeg .es .eax, .movSeg .fs .eax,
    .movSeg .gs .eax, .shlImm .edi 2, .addImm .edi syscallTable]
  after := [.pop .ebx, .pop .ecx, .pop .edx, .pop .edi] ++ retSyscall

variable (alu : State → Word)

/-- The address that `isr63` calls. -/
def callTarget (c : State) : Word := readWord c.mem (c.reg .edi)

/-- `int 0x3f` from the trap to the return. -/
def systemCall (tss : Tss) (syscallTable offset : Word) (routine : Word → State → State) (s : State) : State :=
  let c := atCall alu tss (isr63 syscallTable) offset none s
  iret (run alu (routine (callTarget c) c) (isr63 syscallTable).after)

/-- `DEFINE_SYSCALL2` up to the interrupt. -/
def sysArgs (s : State) (num p1 p2 : Word) : State :=
  ((s.setReg .eax num).setReg .ebx p1).setReg .ecx p2

/-- What is left of the interrupted state after a handler with `args` words of arguments. -/
structure Returned (args : Nat) (s c' t : State) : Prop where
  eax : t.reg .eax = c'.reg .eax
  ebx : args = 0 → t.reg .ebx = s.reg .ebx
  ecx : args ≤ 1 → t.reg .ecx = s.reg .ecx
  edx : args ≤ 2 → t.reg .edx = s.reg .edx
  edi : args ≤ 3 → t.reg .edi = s.reg .edi
  esi : t.reg .esi = s.reg .esi
  ebp : t.reg .ebp = s.reg .ebp
  esp : t.esp = s.esp
  seg : t.seg = s.seg
  eip : t.eip = s.eip
  eflags : t.eflags = s.eflags
  cr3 : t.cr3 = s.cr3

variable (tss : Tss) (syscallTable offset : Word) {s : State}

/-- The pushes of `isr63`. -/
def callPushes (t : State) : List Word :=
  [(t.seg .gs).setWidth 32, (t.seg .fs).setWidth 32, (t.seg .es).setWidth 32, (t.seg .ds).setWidth 32,
    t.reg .edi, t.reg .edx, t.reg .ecx, t.reg .ebx]

theorem isr63_pushed (t : State) : Pushed t (run alu t (isr63 syscallTable).before) (callPushes t) :=
  ⟨rfl, rfl, rfl, rfl, rfl⟩

theorem isr63_edi (t : State) :
    (run alu t (isr63 syscallTable).before).reg .edi = t.reg .eax <<< 2 + syscallTable := rfl

/-- The words on the stack when the handler is called: its arguments, the segments and the trap. -/
theorem isr63_called (s : State) :
    Stacked (atCall alu tss (isr63 syscallTable) offset none s).mem
      (atCall alu tss (isr63 syscallTable) offset none s).esp
      ([s.reg .ebx, s.reg .ecx, s.reg .edx, s.reg .edi] ++
        ([(s.seg .ds).setWidth 32, (s.seg .es).setWidth 32, (s.seg .fs).setWidth 32, (s.seg .gs).setWidth 32] ++
          (trapWords s).reverse)) := by
  have hlen := length_trapWords_le s
  have hstack := trap_stacked tss kernelCode offset none s
  have hreg : ∀ r, r ≠ .esp → (trap tss kernelCode offset none s).reg r = s.reg r :=
    fun r hr => trap_reg tss kernelCode offset none s hr
  have hseg : ∀ g, g ≠ .cs → g ≠ .ss → (trap tss kernelCode offset none s).seg g = s.seg g :=
    fun g hcs hss => trap_seg tss kernelCode offset none s hcs hss
  rw [atCall]
  generalize trap tss kernelCode offset none s = t at hstack hreg hseg
  have hpushed := isr63_pushed alu syscallTable t
  have hall : Stacked (t.pushAll (callPushes t)).mem _ _ := hstack.pushAll (by
    simp only [callPushes, Option.toList, List.length_append, List.length_reverse, List.length_cons,
      List.length_nil]
    omega)
  rw [← hpushed.mem, ← hpushed.esp] at hall
  simp only [callPushes, hreg .edi (by decide), hreg .edx (by decide), hreg .ecx (by decide),
    hreg .ebx (by decide), hseg .ds (by decide) (by decide), hseg .es (by decide) (by decide),
    hseg .fs (by decide) (by decide), hseg .gs (by decide) (by decide)] at hall
  exact hall

/-- From `__ret_syscall` on the segments come from the stack, and `iret` takes the rest. -/
theorem retSyscall_resumes {u : State} (hstack : Stacked u.mem u.esp
      ([(s.seg .ds).setWidth 32, (s.seg .es).setWidth 32, (s.seg .fs).setWidth 32, (s.seg .gs).setWidth 32] ++
        (trapWords s).reverse))
    (hreg : ∀ r, r ≠ .esp → u.reg r = s.reg r) (hcpl : u.cpl = 0) (hcr3 : u.cr3 = s.cr3)
    (hsame : s.cpl = 0 → u.esp + 28 = s.esp ∧ u.seg .ss = s.seg .ss) :
    Resumes s (iret (run alu u retSyscall)) := by
  have hpops : run alu u retSyscall = u.popAll [.seg .ds, .seg .es, .seg .fs, .seg .gs] := rfl
  rw [hpops, popAll_eq hstack.append_left rfl (by decide)]
  refine iret_resumes (fun r hr => (Function.update_of_ne hr _ _).trans (hreg r hr)) (fun g hcs hss => ?_)
    hcpl hcr3 hstack.append_right fun hkernel => ⟨?_, (hsame hkernel).2⟩
  · cases g with
    | cs => exact absurd rfl hcs
    | ss => exact absurd rfl hss
    | ds => exact setWidth_setWidth_seg _
    | es => exact setWidth_setWidth_seg _
    | fs => exact setWidth_setWidth_seg _
    | gs => exact setWidth_setWidth_seg _
  · rw [State.setReg_esp, ← (hsame hkernel).1, BitVec.add_assoc]
    rfl

/-- The registers of the arguments take the words that the handler has left. -/
structure ArgsPopped (u r : State) : Prop where
  ebx : r.reg .ebx = readWord u.mem (u.esp + BitVec.ofNat 32 (4 * 0))
  ecx : r.reg .ecx = readWord u.mem (u.esp + BitVec.ofNat 32 (4 * 1))
  edx : r.reg .edx = readWord u.mem (u.esp + BitVec.ofNat 32 (4 * 2))
  edi : r.reg .edi = readWord u.mem (u.esp + BitVec.ofNat 32 (4 * 3))
  eax : r.reg .eax = u.reg .eax
  esi : r.reg .esi = u.reg .esi
  ebp : r.reg .ebp = u.reg .ebp
  esp : r.esp = u.esp + BitVec.ofNat 32 (4 * 4)
  seg : r.seg = u.seg
  mem : r.mem = u.mem
  cr3 : r.cr3 = u.cr3

theorem args_popped (u : State) : ArgsPopped u (run alu u [.pop .ebx, .pop .ecx, .pop .edx, .pop .edi]) := by
  have hadd : ∀ i : Nat, u.esp + BitVec.ofNat 32 i + 4 = u.esp + BitVec.ofNat 32 (i + 4) := fun i => by
    rw [BitVec.ofNat_add, BitVec.add_assoc]
    rfl
  have hwords : Stacked u.mem u.esp [readWord u.mem (u.esp + BitVec.ofNat 32 (4 * 0)),
      readWord u.mem (u.esp + BitVec.ofNat 32 (4 * 1)), readWord u.mem (u.esp + BitVec.ofNat 32 (4 * 2)),
      readWord u.mem (u.esp + BitVec.ofNat 32 (4 * 3))] := by
    refine ⟨congrArg _ (BitVec.add_zero _).symm, rfl, congrArg _ (hadd 4), congrArg _ ?_, trivial⟩
    exact (congrArg (· + 4) (hadd 4)).trans (hadd 8)
  have hpops : run alu u [.pop .ebx, .pop .ecx, .pop .edx, .pop .edi] =
      u.popAll [.reg .ebx, .reg .ecx, .reg .edx, .reg .edi] := rfl
  rw [hpops, popAll_eq hwords rfl (by decide)]
  exact ⟨rfl, rfl, rfl, rfl, rfl, rfl, rfl, rfl, rfl, rfl, rfl⟩

/-- The interrupted state with other general registers. -/
def withRegs (s : State) (reg : Reg → Word) : State :=
  { s with reg := fun r => if r = .esp then s.esp else reg r }

/-- The return from a system call. -/
theorem systemCall_returned {args : Nat} (hargs : args ≤ 4) {f : State → State}
    (hc : Cdecl args (8 + (trapWords s).length - args) f (atCall alu tss (isr63 syscallTable) offset none s)) :
    Returned args s (f (atCall alu tss (isr63 syscallTable) offset none s))
      (iret (run alu (f (atCall alu tss (isr63 syscallTable) offset none s)) (isr63 syscallTable).after)) := by
  have hstack := isr63_called alu tss syscallTable offset s
  have hpushed := isr63_pushed alu syscallTable (trap tss kernelCode offset none s)
  have hreg : ∀ r, r ≠ .esp → (trap tss kernelCode offset none s).reg r = s.reg r :=
    fun r hr => trap_reg tss kernelCode offset none s hr
  have hesi : (atCall alu tss (isr63 syscallTable) offset none s).reg .esi = s.reg .esi := hreg .esi (by decide)
  have hebp : (atCall alu tss (isr63 syscallTable) offset none s).reg .ebp = s.reg .ebp := hreg .ebp (by decide)
  rw [← atCall] at hpushed
  generalize atCall alu tss (isr63 syscallTable) offset none s = c at hc hstack hpushed hesi hebp
  have hesp : s.cpl = 0 → c.esp + 16 + 28 = s.esp ∧ c.seg .ss = s.seg .ss := by
    intro hkernel
    obtain ⟨hss, hback⟩ := trap_kernel tss kernelCode offset none hkernel
    refine ⟨?_, hpushed.ss.trans hss⟩
    rw [hpushed.esp, pushAll_esp, ← hback]
    simp only [callPushes, List.length_cons, List.length_nil, Option.toList_none]
    bv_omega
  have hcpl : (f c).cpl = 0 := by
    rw [State.cpl, hc.seg, hpushed.cs, trap_cs]
    rfl
  have hword : ∀ i (hi : i < 4), args ≤ i → Stacked (f c).mem ((f c).esp + BitVec.ofNat 32 (4 * i))
      [[s.reg .ebx, s.reg .ecx, s.reg .edx, s.reg .edi][i]] := fun i hi hlow =>
    hc.stacked (Stacked.get hstack.append_left hi) hlow (by rw [List.length_singleton]; omega)
  have htail := hc.stacked hstack.append_right hargs (by
    simp only [List.length_append, List.length_cons, List.length_nil, List.length_reverse]
    omega)
  have hbelow : s.cpl = 0 → (f c).esp + 16 + 28 = s.esp ∧ (f c).seg .ss = s.seg .ss := by
    rw [hc.esp, hc.seg]
    exact hesp
  have huesi : (f c).reg .esi = s.reg .esi := hc.esi.trans hesi
  have huebp : (f c).reg .ebp = s.reg .ebp := hc.ebp.trans hebp
  have hcr3 : (f c).cr3 = s.cr3 := hc.cr3.trans (hpushed.cr3.trans (trap_cr3 ..))
  generalize f c = u at hcpl hword htail hbelow huesi huebp hcr3
  have hr := args_popped alu u
  rw [isr63, run_append]
  generalize run alu u [.pop .ebx, .pop .ecx, .pop .edx, .pop .edi] = r at hr
  have hresumes : Resumes (withRegs s r.reg) (iret (run alu r retSyscall)) := by
    refine retSyscall_resumes alu ?_ (fun x hx => (if_neg hx).symm) ?_ ?_ fun hkernel => ?_
    · rw [hr.mem, hr.esp]
      exact htail
    · rw [State.cpl, hr.seg]
      exact hcpl
    · rw [hr.cr3]
      exact hcr3
    · rw [hr.esp, hr.seg]
      exact hbelow hkernel
  have hreg : ∀ x, x ≠ .esp → (iret (run alu r retSyscall)).reg x = r.reg x := fun x hx =>
    (congrFun hresumes.reg x).trans (if_neg hx)
  exact {
    eax := (hreg .eax (by decide)).trans hr.eax
    ebx := fun h => (hreg .ebx (by decide)).trans (hr.ebx.trans (hword 0 (by decide) h.le).1)
    ecx := fun h => (hreg .ecx (by decide)).trans (hr.ecx.trans (hword 1 (by decide) h).1)
    edx := fun h => (hreg .edx (by decide)).trans (hr.edx.trans (hword 2 (by decide) h).1)
    edi := fun h => (hreg .edi (by decide)).trans (hr.edi.trans (hword 3 (by decide) h).1)
    esi := (hreg .esi (by decide)).trans (hr.esi.trans huesi)
    ebp := (hreg .ebp (by decide)).trans (hr.ebp.trans huebp)
    esp := congrFun hresumes.reg .esp
    seg := hresumes.seg
    eip := hresumes.eip
    eflags := hresumes.eflags
    cr3 := hresumes.cr3 }

/-! ## Through the table -/

/-- The table has the handlers that the calls have registered, and a system call does not touch it. -/
structure Tabled (l : Layout) (calls : List Registration) (tss : Tss) (s : State) : Prop where
  word : ∀ nr < syscallNum, load32 (bytes s.mem) (l.syscallTable + 4 * nr) = (lastHandler l calls nr).getD 0
  apart : ∀ a, l.syscallTable ≤ a → a < l.syscallTable + 4 * syscallNum →
    (BitVec.ofNat 32 a - kernelStack tss s).toNat < 2 ^ 32 - 52

/-- The table as `init_syscall` and `register_syscall` fill it. -/
theorem tabled_afterRegistrations {l : Layout} (mem : Mem) {calls : List Registration}
    (htable : ∀ a, l.syscallTable ≤ a → a < l.syscallTable + 4 * syscallNum →
      bytes s.mem a = afterRegistrations l mem calls a)
    (hapart : ∀ a, l.syscallTable ≤ a → a < l.syscallTable + 4 * syscallNum →
      (BitVec.ofNat 32 a - kernelStack tss s).toNat < 2 ^ 32 - 52) : Tabled l calls tss s := by
  refine ⟨fun nr hnr => ?_, hapart⟩
  have hword : load32 (afterRegistrations l mem calls) _ = _ := load32_afterRegistrations hnr
  rw [← hword]
  exact load_congr fun a hlow hhigh => htable a (by omega) (by omega)

/-- The word through which the stub calls. -/
theorem callTarget_toNat {l : Layout} {calls : List Registration} (htable : Tabled l calls tss s) {nr : Nat}
    (hnr : nr < syscallNum) (heax : s.reg .eax = BitVec.ofNat 32 nr) :
    (callTarget (atCall alu tss (isr63 (BitVec.ofNat 32 l.syscallTable)) offset none s)).toNat =
      (lastHandler l calls nr).getD 0 := by
  have hfits := l.fits
  have hnum : syscallNum = 64 := rfl
  have hlen := length_trapWords_le s
  have hpushed := isr63_pushed alu (BitVec.ofNat 32 l.syscallTable) (trap tss kernelCode offset none s)
  have hedi : (atCall alu tss (isr63 (BitVec.ofNat 32 l.syscallTable)) offset none s).reg .edi =
      s.reg .eax <<< 2 + BitVec.ofNat 32 l.syscallTable := by
    rw [atCall, isr63_edi, trap_reg _ _ _ _ s (by decide)]
  have hslot : (s.reg .eax <<< 2 + BitVec.ofNat 32 l.syscallTable).toNat = l.syscallTable + 4 * nr := by
    rw [heax, BitVec.toNat_add, BitVec.toNat_shiftLeft, BitVec.toNat_ofNat, BitVec.toNat_ofNat,
      Nat.shiftLeft_eq]
    omega
  rw [callTarget, readWord_toNat, hedi, hslot, ← htable.word nr hnr]
  refine load_congr fun a hlow hhigh => ?_
  have hfar := htable.apart a (by omega) (by omega)
  have htrap : (trap tss kernelCode offset none s).mem (BitVec.ofNat 32 a) = s.mem (BitVec.ofNat 32 a) := by
    refine trap_mem _ _ _ _ s ?_
    rw [List.length_append, Option.toList_none, List.length_nil]
    omega
  have hesp := trap_esp tss kernelCode offset none s
  rw [bytes, bytes, ← htrap]
  rw [← atCall] at hpushed
  rw [hpushed.mem]
  refine pushAll_mem (by simp [callPushes]) ?_
  rw [hesp, List.length_append, Option.toList_none, List.length_nil]
  simp only [callPushes, List.length_cons, List.length_nil]
  bv_omega

theorem callTarget_eq {l : Layout} {calls : List Registration} (htable : Tabled l calls tss s) {nr func : Nat}
    (hnr : nr < syscallNum) (heax : s.reg .eax = BitVec.ofNat 32 nr) (hfunc : lastHandler l calls nr = some func) :
    callTarget (atCall alu tss (isr63 (BitVec.ofNat 32 l.syscallTable)) offset none s) = BitVec.ofNat 32 func := by
  have hnat := callTarget_toNat alu tss offset htable hnr heax
  rw [hfunc, Option.getD_some] at hnat
  rw [← hnat, BitVec.ofNat_toNat, BitVec.setWidth_eq]

/-- The state in which the handler of a system call is called. -/
def atSystemCall (l : Layout) (s : State) : State :=
  atCall alu tss (isr63 (BitVec.ofNat 32 l.syscallTable)) offset none s

/-- A system call goes to the handler that was registered last for its number, with the registers as
arguments, and comes back with the result. -/
theorem systemCall_dispatches {l : Layout} {calls : List Registration} (htable : Tabled l calls tss s)
    {nr func args : Nat} (hnr : nr < syscallNum) (heax : s.reg .eax = BitVec.ofNat 32 nr)
    (hfunc : lastHandler l calls nr = some func) (hargs : args ≤ 4) {routine : Word → State → State}
    (hc : Cdecl args (8 + (trapWords s).length - args) (routine (BitVec.ofNat 32 func))
      (atSystemCall alu tss offset l s)) :
    callTarget (atSystemCall alu tss offset l s) = BitVec.ofNat 32 func ∧
      Stacked (atSystemCall alu tss offset l s).mem (atSystemCall alu tss offset l s).esp
        [s.reg .ebx, s.reg .ecx, s.reg .edx, s.reg .edi] ∧
      Returned args s (routine (BitVec.ofNat 32 func) (atSystemCall alu tss offset l s))
        (systemCall alu tss (BitVec.ofNat 32 l.syscallTable) offset routine s) := by
  have htarget := callTarget_eq alu tss offset htable hnr heax hfunc
  have hreturned := systemCall_returned alu tss (BitVec.ofNat 32 l.syscallTable) offset hargs hc
  refine ⟨htarget, Stacked.append_left (isr63_called alu tss (BitVec.ofNat 32 l.syscallTable) offset s), ?_⟩
  rw [systemCall, htarget]
  exact hreturned

/-- `sys_foo` with the handler `__foo` returns the sum of its arguments. -/
theorem sysFoo_adds {l : Layout} {calls : List Registration} {a b : Word}
    (htable : Tabled l calls tss (sysArgs s (BitVec.ofNat 32 sysFoo) a b))
    (hfoo : lastHandler l calls sysFoo = some l.foo) {routine : Word → State → State}
    (hc : ∀ c, Cdecl 2 (8 + (trapWords (sysArgs s (BitVec.ofNat 32 sysFoo) a b)).length - 2)
      (routine (BitVec.ofNat 32 l.foo)) c)
    (hsum : ∀ c, (routine (BitVec.ofNat 32 l.foo) c).reg .eax =
      readWord c.mem c.esp + readWord c.mem (c.esp + 4)) :
    (systemCall alu tss (BitVec.ofNat 32 l.syscallTable) offset routine
      (sysArgs s (BitVec.ofNat 32 sysFoo) a b)).reg .eax = a + b := by
  have htarget := callTarget_eq alu tss offset htable (by decide) rfl hfoo
  have hreturned := systemCall_returned alu tss (BitVec.ofNat 32 l.syscallTable) offset (by decide)
    (hc (atCall alu tss (isr63 (BitVec.ofNat 32 l.syscallTable)) offset none _))
  obtain ⟨ha, hb, -⟩ := isr63_called alu tss (BitVec.ofNat 32 l.syscallTable) offset
    (sysArgs s (BitVec.ofNat 32 sysFoo) a b)
  rw [systemCall, htarget, hreturned.eax, hsum, ha, hb]
  rfl

/-! ## A sample -/

/-- The compiled `__foo`. -/
def addArgs (_ : Word) (c : State) : State :=
  c.setReg .eax (readWord c.mem c.esp + readWord c.mem (c.esp + 4))

theorem addArgs_cdecl (a : Word) (args kept : Nat) (c : State) : Cdecl args kept (addArgs a) c :=
  ⟨rfl, rfl, rfl, rfl, rfl, rfl, rfl, fun _ _ => rfl⟩

theorem sampleUser_tabled (num p1 p2 : Word) : Tabled sampleLayout kernelRegistrations sampleTss
    (sysArgs (sampleUser fun a => afterRegistrations sampleLayout (fun _ => 0) kernelRegistrations a.toNat)
      num p1 p2) := by
  refine tabled_afterRegistrations sampleTss (fun _ => 0) (fun a hlow hhigh => ?_) fun a hlow hhigh => ?_
  · have hnum : a < 2 ^ 32 := hhigh.trans (by decide)
    change afterRegistrations sampleLayout (fun _ => 0) kernelRegistrations (BitVec.ofNat 32 a).toNat = _
    rw [BitVec.toNat_ofNat, Nat.mod_eq_of_lt hnum]
  · have hlow' : 0xC0900000 ≤ a := hlow
    have hhigh' : a < 0xC0900100 := hhigh
    have hstack : kernelStack sampleTss (sysArgs (sampleUser fun a =>
        afterRegistrations sampleLayout (fun _ => 0) kernelRegistrations a.toNat) num p1 p2) = 0xC0F00000 :=
      if_neg (by decide : ¬(0x1b : BitVec 16).toNat % 4 = 0)
    rw [hstack]
    bv_omega

/-- `sys_foo(4, 5)`. -/
theorem systemCall_dispatches_sample : (systemCall State.eflags sampleTss
    (BitVec.ofNat 32 sampleLayout.syscallTable) 0 addArgs (sysArgs (sampleUser fun a =>
      afterRegistrations sampleLayout (fun _ => 0) kernelRegistrations a.toNat)
        (BitVec.ofNat 32 sysFoo) 4 5)).reg .eax = 9 := by
  obtain ⟨-, ⟨ha, hb, -⟩, hreturned⟩ := systemCall_dispatches State.eflags sampleTss 0
    (sampleUser_tabled (BitVec.ofNat 32 sysFoo) 4 5) (by decide) rfl
    (by decide : lastHandler sampleLayout kernelRegistrations sysFoo = some sampleLayout.foo)
    (by decide : 2 ≤ 4) (addArgs_cdecl _ _ _ _)
  rw [hreturned.eax]
  generalize atSystemCall State.eflags sampleTss 0 sampleLayout _ = c at ha hb
  change readWord c.mem c.esp + readWord c.mem (c.esp + 4) = 9
  rw [ha, hb]
  rfl

end TsOs.Stubs
