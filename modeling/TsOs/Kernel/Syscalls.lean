import TsOs.Library.ByteMemory
import TsOs.Machine

/-!
# System calls

`syscall_table` has a word for each number below `SYSCALL_NUM`, null where no handler
is registered. `isr63` scales the number in `eax`, adds the address of the table and
calls through the word it finds there, without looking at either.
-/

namespace TsOs.Syscalls
open ByteMemory

/-- `SYSCALL_NUM`. -/
def syscallNum : Nat := 64

/-- `SYS_EXIT`. -/
def sysExit : Nat := 0

/-- `SYS_PRINTL`. -/
def sysPrintl : Nat := 0x10

/-- `SYS_FOO`. -/
def sysFoo : Nat := 0x20

/-- Where the linker puts the table and the two handlers of `init_syscall`. -/
structure Layout where
  syscallTable : Nat
  printl : Nat
  foo : Nat
  fits : syscallTable + 4 * syscallNum ≤ 2 ^ 32
  printl_lt : printl < 2 ^ 32
  foo_lt : foo < 2 ^ 32

variable (l : Layout)

/-- The initial contents of `syscall_table`. -/
def clearTable (mem : Mem) : Mem := fun x =>
  if l.syscallTable ≤ x ∧ x < l.syscallTable + 4 * syscallNum then 0 else mem x

def registerSyscall (mem : Mem) (nr func : Nat) : Mem :=
  store32 mem (l.syscallTable + 4 * nr) func

def initSyscall (mem : Mem) : Mem :=
  registerSyscall l (registerSyscall l mem sysPrintl l.printl) sysFoo l.foo

/-- A call that fills the table. The number is below `SYSCALL_NUM` and the handler an address. -/
inductive Registration where
  | init
  | register (nr func : Nat) (hnr : nr < syscallNum) (hfunc : func < 2 ^ 32)

def registration (mem : Mem) : Registration → Mem
  | .init => initSyscall l mem
  | .register nr func _ _ => registerSyscall l mem nr func

/-- The memory after a history of registrations. -/
def afterRegistrations (mem : Mem) (calls : List Registration) : Mem :=
  calls.foldl (registration l) (clearTable l mem)

/-- What `isr63` does at `int 0x3f`: the address that `call` reads and the address it calls. -/
structure Dispatch where
  slot : Nat
  target : Nat

def isr63 (mem : Mem) (eax : Nat) : Dispatch :=
  let edi := u32 (u32 (eax * 2 ^ 2) + l.syscallTable)
  ⟨edi, load32 mem edi⟩

/-! ## Which handler a number has -/

/-- The handler that a call registers for a number. -/
def Registration.handler (nr : Nat) : Registration → Option Nat
  | .init => if nr = sysFoo then some l.foo else if nr = sysPrintl then some l.printl else none
  | .register n func _ _ => if n = nr then some func else none

/-- The handler that was registered last. -/
def lastHandler (calls : List Registration) (nr : Nat) : Option Nat :=
  calls.foldl (fun h call => (call.handler l nr).or h) none

/-- The call goes to a handler that has been registered for the number, through the table. -/
structure Safe (calls : List Registration) (eax : Nat) (d : Dispatch) : Prop where
  inTable : l.syscallTable ≤ d.slot ∧ d.slot + 4 ≤ l.syscallTable + 4 * syscallNum
  nonNull : d.target ≠ 0
  registered : ∃ call ∈ calls, call.handler l eax = some d.target

variable {l} {mem : Mem} {calls : List Registration} {call : Registration} {nr eax func : Nat}

/-- A word of the table after an assignment to the table. -/
theorem load32_registerSyscall {n : Nat} (hfunc : func < 2 ^ 32) :
    load32 (registerSyscall l mem n func) (l.syscallTable + 4 * nr) =
      if n = nr then func else load32 mem (l.syscallTable + 4 * nr) := by
  split
  next heq =>
    subst heq
    exact load32_store32_same _ _ hfunc
  next hne => exact load_store_disjoint _ _ (by omega)

theorem load32_registration : load32 (registration l mem call) (l.syscallTable + 4 * nr) =
    (call.handler l nr).getD (load32 mem (l.syscallTable + 4 * nr)) := by
  cases call with
  | init =>
      rw [registration, initSyscall, load32_registerSyscall l.foo_lt, load32_registerSyscall l.printl_lt,
        Registration.handler]
      simp only [eq_comm (a := nr)]
      split
      next => rfl
      next => split <;> rfl
  | register n func hn hfunc =>
      rw [registration, load32_registerSyscall hfunc, Registration.handler]
      split <;> rfl

theorem load32_clearTable (hnr : nr < syscallNum) :
    load32 (clearTable l mem) (l.syscallTable + 4 * nr) = 0 := by
  have hzero : ∀ i < 4, clearTable l mem (l.syscallTable + 4 * nr + i) = UInt8.ofNat (0 / 256 ^ i) := by
    intro i hi
    rw [Nat.zero_div]
    exact if_pos (by omega)
  exact load_of_bytes hzero

theorem load32_foldl_registration {h : Option Nat} (hm : load32 mem (l.syscallTable + 4 * nr) = h.getD 0) :
    load32 (calls.foldl (registration l) mem) (l.syscallTable + 4 * nr) =
      (calls.foldl (fun h call => (call.handler l nr).or h) h).getD 0 := by
  induction calls generalizing mem h with
  | nil => exact hm
  | cons call calls ih =>
      apply ih
      change _ = ((call.handler l nr).or h).getD 0
      rw [load32_registration, hm]
      cases call.handler l nr <;> rfl

/-- The table holds for each number the handler registered last. -/
theorem load32_afterRegistrations (hnr : nr < syscallNum) :
    load32 (afterRegistrations l mem calls) (l.syscallTable + 4 * nr) =
      (lastHandler l calls nr).getD 0 :=
  load32_foldl_registration (load32_clearTable hnr)

/-- A handler that was registered last was registered. -/
theorem exists_of_lastHandler (h : lastHandler l calls nr = some func) :
    ∃ call ∈ calls, call.handler l nr = some func := by
  induction calls using List.reverseRecOn with
  | nil => exact absurd h (by simp [lastHandler])
  | append_singleton calls call ih =>
      rw [lastHandler, List.foldl_append, List.foldl_cons, List.foldl_nil] at h
      cases hcall : call.handler l nr with
      | none =>
          rw [hcall, Option.none_or] at h
          obtain ⟨c, hc, hfunc⟩ := ih h
          exact ⟨c, by simp [hc], hfunc⟩
      | some f =>
          rw [hcall, Option.some_or] at h
          exact ⟨call, by simp, hcall.trans h⟩

theorem handler_lt (h : call.handler l nr = some func) : nr < syscallNum := by
  cases call with
  | init =>
      rw [Registration.handler] at h
      split at h
      next hfoo => exact hfoo ▸ (by decide)
      next =>
        split at h
        next hprintl => exact hprintl ▸ (by decide)
        next => exact absurd h (by simp)
  | register n f hn hf =>
      rw [Registration.handler] at h
      split at h
      next heq => exact heq ▸ hn
      next => exact absurd h (by simp)

/-- A number below `SYSCALL_NUM` selects its own word. -/
theorem isr63_eq (heax : eax < syscallNum) : isr63 l mem eax =
    ⟨l.syscallTable + 4 * eax, load32 mem (l.syscallTable + 4 * eax)⟩ := by
  have hfits := l.fits
  have hnum : syscallNum = 64 := rfl
  have hscale : u32 (eax * 2 ^ 2) = 4 * eax := by
    rw [u32_of_lt (by omega)]
    omega
  have hedi : u32 (4 * eax + l.syscallTable) = l.syscallTable + 4 * eax := by
    rw [u32_of_lt (by omega)]
    omega
  simp only [isr63, hscale, hedi]

/-- The call is safe exactly for the numbers that have a handler. -/
theorem isr63_safe_iff (mem : Mem) (calls : List Registration) (eax : Nat) :
    Safe l calls eax (isr63 l (afterRegistrations l mem calls) eax) ↔
      eax < syscallNum ∧ ∃ func, lastHandler l calls eax = some func ∧ func ≠ 0 := by
  constructor
  · intro h
    obtain ⟨call, -, hcall⟩ := h.registered
    have heax := handler_lt hcall
    refine ⟨heax, ?_⟩
    have hne := h.nonNull
    rw [isr63_eq heax] at hne
    change load32 (afterRegistrations l mem calls) _ ≠ 0 at hne
    rw [load32_afterRegistrations heax] at hne
    cases hlast : lastHandler l calls eax with
    | none =>
        rw [hlast] at hne
        exact absurd rfl hne
    | some func =>
        rw [hlast] at hne
        exact ⟨func, rfl, hne⟩
  · rintro ⟨heax, func, hlast, hne⟩
    have hword : load32 (afterRegistrations l mem calls) (l.syscallTable + 4 * eax) = func := by
      rw [load32_afterRegistrations heax, hlast]
      rfl
    rw [isr63_eq heax, hword]
    refine ⟨⟨?_, ?_⟩, hne, exists_of_lastHandler hlast⟩
    · exact Nat.le_add_right _ _
    · change l.syscallTable + 4 * eax + 4 ≤ _
      omega

/-- A table above the kernel's code. -/
def sampleLayout : Layout where
  syscallTable := 0xC0900000
  printl := 0xC0800000
  foo := 0xC0800100
  fits := by decide
  printl_lt := by decide
  foo_lt := by decide

/-- The registrations of the kernel: `init_syscall` and the handler of `SYS_EXIT`. -/
def kernelRegistrations : List Registration :=
  [.init, .register sysExit 0xC0800200 (by decide) (by decide)]

/-- Number 1 calls the null address, number 64 goes through the word behind the table, and the
scaling takes `0x40000000` for `SYS_EXIT`. -/
theorem isr63_unchecked :
    let m := afterRegistrations sampleLayout (fun _ => 0) kernelRegistrations
    (isr63 sampleLayout m 1).target = 0 ∧
    (isr63 sampleLayout m 64).slot = sampleLayout.syscallTable + 4 * syscallNum ∧
    (isr63 sampleLayout m 0x40000000).target = 0xC0800200 ∧
    ∀ eax ∈ [1, 64, 0x40000000],
      ¬Safe sampleLayout kernelRegistrations eax (isr63 sampleLayout m eax) := by
  intro m
  have hnull : (isr63 sampleLayout m 1).target = 0 := by decide
  have hbehind : (isr63 sampleLayout m 64).slot = sampleLayout.syscallTable + 4 * syscallNum := by
    decide
  refine ⟨hnull, hbehind, by decide, fun eax heax hsafe => ?_⟩
  simp only [List.mem_cons, List.not_mem_nil, or_false] at heax
  rcases heax with rfl | rfl | rfl
  · exact hsafe.nonNull hnull
  · have hin := hsafe.inTable.2
    omega
  · obtain ⟨call, -, hcall⟩ := hsafe.registered
    exact absurd (handler_lt hcall) (by decide)

end TsOs.Syscalls
