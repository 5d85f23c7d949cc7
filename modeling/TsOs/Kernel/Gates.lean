import TsOs.Kernel.Stubs
import TsOs.Library.DescriptorTables
import TsOs.Paging.EarlyMap

/-!
# The tables of the processor

`mbr.asm` has the global table, whose address `kernel_entry.asm` changes to the one in the kernel's half.
`init_idt` fills the interrupt table, and `setup_tss` the last entry of the global one, through its
identity-mapped address. From then on the processor finds the stubs and the stack of the running task in
memory.

## Implementation notes

Pointers are translated by the tables of the early initialisation, which none of these stores touches. The
linker's places for the objects are parameters. `config_pic` is apart from the tables.
-/

namespace TsOs.Gates
open ByteMemory Ia32 Paging
open Stubs (kernelCode kernelData)

/-- Where the linker puts the objects, and the addresses of the stubs. -/
structure Places where
  gdtDesc2 : Nat
  idtTableDesc : Nat
  idt : Nat
  tssEntry : Nat
  isr : Nat → Word

/-! ## Stores of the kernel -/

/-- A store through the page tables, byte by byte, with `none` for a page fault. -/
def storeVirtual (s : Machine) (m : Mem) (va width v : Nat) : Option Mem :=
  (List.range width).foldlM (fun m i => (walk s pgDir0 (va + i)).map fun pa =>
    store8 m pa (UInt8.ofNat (v / 256 ^ i))) m

/-- Assignments to fields of a structure: offset, width and value. -/
def storeFields (s : Machine) (base : Nat) (m : Mem) (fields : List (Nat × Nat × Nat)) : Option Mem :=
  fields.foldlM (fun m field => storeVirtual s m (base + field.1) field.2.1 field.2.2) m

/-- What the processor sees of a physical memory. Only mapped addresses are read. -/
def linear (s : Machine) (m : Mem) : Memory := fun a => m ((walk s pgDir0 a.toNat).getD 0)

/-! ## The global table -/

/-- The six entries behind `GDT_BASE`. -/
def gdtBase : List UInt8 :=
  [0, 0, 0, 0, 0, 0, 0, 0,
    0xFF, 0xFF, 0, 0, 0, 0x9A, 0xCF, 0,
    0xFF, 0xFF, 0, 0, 0, 0x92, 0xCF, 0,
    0xFF, 0xFF, 0, 0, 0, 0xFA, 0xCF, 0,
    0xFF, 0xFF, 0, 0, 0, 0xF2, 0xCF, 0,
    0, 0, 0, 0, 0, 0, 0, 0]

/-- The start of `kernel_entry.asm`: the register is stored, its address replaced, and loaded again. -/
def startMain (s : Machine) (p : Places) (m : Mem) : Option (Mem × TableReg) := do
  let m ← storeFields s p.gdtDesc2 m [(0, 2, gdtBase.length - 1), (2, 4, loadedAddress)]
  let m ← storeFields s p.gdtDesc2 m [(2, 4, 0xC0009000)]
  return (m, tableAt (linear s m) (BitVec.ofNat 32 p.gdtDesc2))

/-- `gdt_set_gate`. -/
def gdtSetGate (s : Machine) (m : Mem) (entry base limit access gran : Nat) : Option Mem :=
  storeFields s entry m
    [(2, 2, base &&& 0xFFFF), (4, 1, (base >>> 16) &&& 0xFF), (7, 1, (base >>> 24) &&& 0xFF),
      (0, 2, limit &&& 0xFFFF), (6, 1, (limit >>> 16) &&& 0x0F),
      (6, 1, ((limit >>> 16) &&& 0x0F) ||| (gran &&& 0xF0)), (5, 1, access)]

/-- `TSS_SEGMENT`. -/
def tssSegment : Nat := 0x9028

/-- `sizeof(tss_entry)`. -/
def sizeofTss : Nat := 104

/-- `setup_tss`. The limit is the end of the segment, of which the entry keeps twenty bits. -/
def setupTss (s : Machine) (p : Places) (gdt : TableReg) (m : Mem) : Option (Mem × Segment) := do
  let m ← gdtSetGate s m tssSegment p.tssEntry (u32 (p.tssEntry + sizeofTss)) 0xE9 0x00
  let m ← storeFields s p.tssEntry m [(4, 4, 0xFFFFFF00), (8, 4, 0x10)]
  let task ← (ltr gdt (linear s m) 0x28).toOption
  -- the processor marks the segment busy
  let m ← storeVirtual s m (gdt.base.toNat + 0x28 + 5) 1 (task.access + 2)
  return (m, task)

/-! ## The interrupt table -/

/-- `init_trap_gate`. -/
def initTrapGate (s : Machine) (p : Places) (m : Mem) (irq handlerOffset selector flag : Nat) : Option Mem :=
  storeFields s (p.idt + 8 * irq) m
    [(0, 2, handlerOffset &&& 0xFFFF), (6, 2, (handlerOffset >>> 16) &&& 0xFFFF), (2, 2, selector), (4, 1, 0),
      (5, 1, flag)]

/-- `IRQ_MAX`. -/
def irqMax : Nat := 63

/-- `init_idt` up to `lidt`, which it ends with. -/
def initIdt (s : Machine) (p : Places) (m : Mem) : Option (Mem × TableReg) := do
  let m ← (List.range (irqMax + 1)).foldlM (fun m n => initTrapGate s p m n (p.isr n).toNat 0x08 0x8F) m
  let m ← storeFields s (p.idt + 8 * 63) m [(5, 1, 0xEF)]
  let m ← storeFields s p.idtTableDesc m [(0, 2, 8 * (irqMax + 1) - 1), (2, 4, p.idt)]
  return (m, tableAt (linear s m) (BitVec.ofNat 32 p.idtTableDesc))

/-- The three in the order of the boot. -/
def setUpTables (s : Machine) (p : Places) (m : Mem) : Option (Mem × Tables) := do
  let (m, gdt) ← startMain s p m
  let (m, idt) ← initIdt s p m
  let (m, task) ← setupTss s p gdt m
  return (m, ⟨gdt, idt, 0x28, task⟩)

/-! ## Stores at physical addresses -/

variable {s s₀ : Machine} {p : Places} {m m' : Mem} {va pa base width v : Nat}

/-- The page tables map `n` bytes from one address on to those from another one on. -/
def Maps (s : Machine) (va pa n : Nat) : Prop := ∀ i < n, walk s pgDir0 (va + i) = some (pa + i)

theorem Maps.sub {n k l : Nat} (h : Maps s va pa n) (hkl : k + l ≤ n) : Maps s (va + k) (pa + k) l := by
  intro i hi
  rw [Nat.add_assoc, Nat.add_assoc]
  exact h _ (by omega)

theorem store_byte (m : Mem) (a v : Nat) {i width : Nat} (hi : i < width) :
    store m a width v (a + i) = UInt8.ofNat (v / 256 ^ i) := by
  unfold store
  rw [if_pos (by omega), Nat.add_sub_cancel_left]

theorem store_succ (m : Mem) (a width v : Nat) : store8 (store m a width v) (a + width)
    (UInt8.ofNat (v / 256 ^ width)) = store m a (width + 1) v := by
  funext x
  rcases Nat.lt_trichotomy x (a + width) with hlt | rfl | hgt
  · rw [store8_of_ne _ _ _ (by omega)]
    unfold store
    by_cases hle : a ≤ x
    · rw [if_pos (by omega), if_pos (by omega)]
    · rw [if_neg (by omega), if_neg (by omega)]
  · rw [store8_same]
    unfold store
    rw [if_pos (by omega), Nat.add_sub_cancel_left]
  · rw [store8_of_ne _ _ _ (by omega), store_of_outside _ _ _ (by omega), store_of_outside _ _ _ (by omega)]

theorem storeVirtual_eq (h : Maps s va pa width) : storeVirtual s m va width v = some (store m pa width v) := by
  unfold storeVirtual
  induction width with
  | zero =>
      refine congrArg some (funext fun x => ?_)
      rw [store_of_outside _ _ _ (by omega)]
  | succ width ih =>
      have hrest : Maps s va pa width := fun i hi => h i (by omega)
      rw [List.range_succ, List.foldlM_append, ih hrest]
      change (Option.map _ (walk s pgDir0 (va + width))).bind _ = _
      rw [h width (by omega), ← store_succ]
      rfl

/-- Assignments to fields, at a physical address. -/
def putFields (pa : Nat) (m : Mem) (fields : List (Nat × Nat × Nat)) : Mem :=
  fields.foldl (fun m field => store m (pa + field.1) field.2.1 field.2.2) m

theorem storeFields_eq {n : Nat} (h : Maps s base pa n) {fields : List (Nat × Nat × Nat)}
    (hfields : ∀ field ∈ fields, field.1 + field.2.1 ≤ n) :
    storeFields s base m fields = some (putFields pa m fields) := by
  unfold storeFields putFields
  induction fields generalizing m with
  | nil => rfl
  | cons field fields ih =>
      have hfield := hfields field (List.mem_cons_self ..)
      rw [List.foldlM_cons, storeVirtual_eq (h.sub hfield)]
      exact ih fun f hf => hfields f (List.mem_cons_of_mem _ hf)

theorem putFields_outside {n x : Nat} {fields : List (Nat × Nat × Nat)}
    (hfields : ∀ field ∈ fields, field.1 + field.2.1 ≤ n) (hx : x < pa ∨ pa + n ≤ x) :
    putFields pa m fields x = m x := by
  unfold putFields
  induction fields generalizing m with
  | nil => rfl
  | cons field fields ih =>
      have hfield := hfields field (List.mem_cons_self ..)
      rw [List.foldl_cons, ih fun f hf => hfields f (List.mem_cons_of_mem _ hf)]
      exact store_of_outside _ _ _ (by omega)

theorem putFields_nil (pa : Nat) (m : Mem) : putFields pa m [] = m := rfl

theorem putFields_cons (pa : Nat) (m : Mem) (field : Nat × Nat × Nat) (fields : List (Nat × Nat × Nat)) :
    putFields pa m (field :: fields) = putFields pa (store m (pa + field.1) field.2.1 field.2.2) fields := rfl

/-! ## The mapped memory -/

/-- The page tables map the first megabyte to itself, and the kernel's half as the early initialisation does. -/
structure KernelMapped (s : Machine) : Prop where
  low : Maps s 0 0 oneMB
  kernel : Maps s kernelVStart 0 userPStart

theorem initPgDir0Vmap_kernelMapped (h : initPgDir0Vmap s₀ = some s) : KernelMapped s := by
  obtain ⟨s₁, hrun, hs⟩ := initPgDir0Vmap_shows s₀
  obtain rfl := Option.some.inj (hrun.symm.trans h)
  have hsizes : oneMB = 0x100000 ∧ userPStart = 0x1000000 ∧ kernelVStart = 0xC0000000 := ⟨rfl, rfl, rfl⟩
  have hindex : ∀ va, va < 1022 * 2 ^ 22 → pageDirIndex va < 1022 := fun va hva =>
    Nat.div_lt_of_lt_mul (by omega)
  refine ⟨fun i hi => ?_, fun i hi => ?_⟩
  · rw [Nat.zero_add, hs.walk (hindex i (by omega)), (earlyPages_addr i).1 hi, Option.map_some,
      (earlyPages_offset i).1]
  · rw [hs.walk (hindex _ (by omega)), (earlyPages_addr _).2.1 ⟨by omega, by omega⟩, Option.map_some,
      (earlyPages_offset _).2 (by omega), Nat.add_sub_cancel_left, Nat.zero_add]

/-- An object of the kernel's image, which starts at eight megabytes. -/
structure InImage (va n : Nat) : Prop where
  low : kernelVStart + 8 * oneMB ≤ va
  high : va + n ≤ kernelVStart + userPStart

theorem InImage.maps {n : Nat} (h : InImage va n) (hmap : KernelMapped s) : Maps s va (va - kernelVStart) n := by
  obtain ⟨hlow, hhigh⟩ := h
  intro i hi
  have hwalk := hmap.kernel (va - kernelVStart + i) (by omega)
  have hva : kernelVStart + (va - kernelVStart + i) = va + i := by omega
  rwa [hva, Nat.zero_add] at hwalk

theorem linear_apply (h : walk s pgDir0 va = some pa) (hva : va < 2 ^ 32) :
    linear s m (BitVec.ofNat 32 va) = m pa := by
  rw [linear, BitVec.toNat_ofNat, Nat.mod_eq_of_lt hva, h]
  rfl

theorem view_linear {n i : Nat} (h : Maps s va pa n) (hva : va + n ≤ 2 ^ 32) (hi : i < n) :
    view (linear s m) (BitVec.ofNat 32 va) i = m (pa + i) := by
  rw [view, ← BitVec.ofNat_add]
  exact linear_apply (h i hi) (by omega)

/-- What `lgdt` and `lidt` take from a mapped place. -/
theorem tableAt_linear (h : Maps s va pa 6) (hva : va + 6 ≤ 2 ^ 32) :
    tableAt (linear s m) (BitVec.ofNat 32 va) = ⟨BitVec.ofNat 32 (load32 m (pa + 2)), load16 m pa⟩ := by
  have hbase : load32 (view (linear s m) (BitVec.ofNat 32 va + 2)) 0 = load32 m (pa + 2) := by
    refine Eq.trans (load_congr fun i _ hi => ?_) (load_shift m (pa + 2) 0 4)
    have hplace : BitVec.ofNat 32 va + 2 = BitVec.ofNat 32 (va + 2) := (BitVec.ofNat_add ..).symm
    rw [hplace]
    exact view_linear (h.sub (k := 2) (l := 4) (by decide)) (by omega) (by omega)
  have hlimit : load16 (view (linear s m) (BitVec.ofNat 32 va)) 0 = load16 m pa :=
    Eq.trans (load_congr fun i _ hi => view_linear h hva (by omega)) (load_shift m pa 0 2)
  rw [tableAt, readWord, hbase, hlimit]

/-! ## One entry of each table -/

/-- The gate at a physical address. -/
structure GateIn (m : Mem) (pa : Nat) (handlerOffset selector flag : Nat) : Prop where
  low : load16 m pa = handlerOffset % 2 ^ 16
  selector : load16 m (pa + 2) = selector
  access : load m (pa + 5) 1 = flag
  high : load16 m (pa + 6) = handlerOffset / 2 ^ 16

def gateFields (handlerOffset selector flag : Nat) : List (Nat × Nat × Nat) :=
  [(0, 2, handlerOffset &&& 0xFFFF), (6, 2, (handlerOffset >>> 16) &&& 0xFFFF), (2, 2, selector), (4, 1, 0),
    (5, 1, flag)]

theorem and_low (n : Nat) : n &&& 0xFFFF = n % 2 ^ 16 := Nat.and_two_pow_sub_one_eq_mod n 16

theorem and_high (n : Nat) : (n >>> 16) &&& 0xFFFF = n / 2 ^ 16 % 2 ^ 16 := by
  rw [and_low, Nat.shiftRight_eq_div_pow]

theorem gateIn_put {handlerOffset selector flag : Nat} (hoffset : handlerOffset < 2 ^ 32)
    (hselector : selector < 2 ^ 16) (hflag : flag < 256) (pa : Nat) (m : Mem) :
    GateIn (putFields pa m (gateFields handlerOffset selector flag)) pa handlerOffset selector flag where
  low := by
    simp (disch := omega) only [gateFields, putFields_cons, putFields_nil, load_store_disjoint, Nat.add_zero,
      load_store_same, and_low]
    exact Nat.mod_mod _ _
  selector := by
    simp (disch := omega) only [gateFields, putFields_cons, putFields_nil, load_store_disjoint, load_store_same]
    exact Nat.mod_eq_of_lt hselector
  access := by
    simp only [gateFields, putFields_cons, putFields_nil, load_store_same]
    exact Nat.mod_eq_of_lt hflag
  high := by
    simp (disch := omega) only [gateFields, putFields_cons, putFields_nil, load_store_disjoint, load_store_same,
      and_high]
    omega

/-- The processor's reading of the gate. -/
theorem GateIn.gateOf {offset : Word} {selector flag : Nat} (h : GateIn m pa offset.toNat selector flag) :
    gateOf (fun i => m (pa + i)) = ⟨offset, BitVec.ofNat 16 selector, flag⟩ := by
  have hsplit : offset.toNat % 2 ^ 16 + 2 ^ 16 * (offset.toNat / 2 ^ 16) = offset.toNat := Nat.mod_add_div _ _
  obtain ⟨hlow, hselector, haccess, hhigh⟩ := h
  unfold load16 at hlow hselector hhigh
  simp only [Ia32.gateOf, load16, load_shift, Nat.add_zero]
  rw [hlow, hhigh, hselector, haccess, hsplit, BitVec.ofNat_toNat, BitVec.setWidth_eq]

theorem GateIn.congr {handlerOffset selector flag : Nat} (h : GateIn m pa handlerOffset selector flag)
    (hsame : ∀ i < 8, m' (pa + i) = m (pa + i)) : GateIn m' pa handlerOffset selector flag := by
  have hload : ∀ k w, k + w ≤ 8 → load m' (pa + k) w = load m (pa + k) w := fun k w hk =>
    load_congr fun x hlow hhigh => by
      have hx := hsame (x - pa) (by omega)
      rwa [Nat.add_sub_cancel' (by omega)] at hx
  exact ⟨(hload 0 2 (by decide)).trans h.low, (hload 2 2 (by decide)).trans h.selector,
    (hload 5 1 (by decide)).trans h.access, (hload 6 2 (by decide)).trans h.high⟩

/-- The stores of the loop in `init_idt`, at the physical address of `idt`. -/
def putGates (pa : Nat) (isr : Nat → Word) (m : Mem) (k : Nat) : Mem :=
  (List.range k).foldl (fun m n => putFields (pa + 8 * n) m (gateFields (isr n).toNat 0x08 0x8F)) m

variable {isr : Nat → Word} {k n x : Nat}

theorem gateFields_le {handlerOffset selector flag : Nat} :
    ∀ field ∈ gateFields handlerOffset selector flag, field.1 + field.2.1 ≤ 8 := by
  simp [gateFields]

theorem putGates_succ : putGates pa isr m (k + 1) =
    putFields (pa + 8 * k) (putGates pa isr m k) (gateFields (isr k).toNat 0x08 0x8F) := by
  rw [putGates, List.range_succ, List.foldl_append]
  rfl

theorem putGates_outside (hx : x < pa ∨ pa + 8 * k ≤ x) : putGates pa isr m k x = m x := by
  induction k with
  | zero => rfl
  | succ k ih => rw [putGates_succ, putFields_outside gateFields_le (by omega), ih (by omega)]

theorem putGates_gate (hn : n < k) : GateIn (putGates pa isr m k) (pa + 8 * n) (isr n).toNat 0x08 0x8F := by
  induction k with
  | zero => omega
  | succ k ih =>
      rw [putGates_succ]
      rcases Nat.lt_succ_iff_lt_or_eq.mp hn with hlt | rfl
      · exact (ih hlt).congr fun i hi => putFields_outside gateFields_le (by omega)
      · exact gateIn_put (isr n).isLt (by decide) (by decide) _ _

/-- The loop through the page tables. -/
theorem initTrapGates_eq (hmaps : Maps s p.idt pa (8 * k)) :
    (List.range k).foldlM (fun m n => initTrapGate s p m n (p.isr n).toNat 0x08 0x8F) m =
      some (putGates pa p.isr m k) := by
  induction k with
  | zero => rfl
  | succ k ih =>
      have hentry : Maps s (p.idt + 8 * k) (pa + 8 * k) 8 := hmaps.sub (by omega)
      rw [List.range_succ, List.foldlM_append, ih fun i hi => hmaps i (by omega), putGates_succ]
      simp only [Option.bind_eq_bind, Option.bind_some, List.foldlM_cons, List.foldlM_nil, initTrapGate]
      rw [← gateFields, storeFields_eq hentry gateFields_le]
      rfl

/-- What `gdt_set_gate` assigns. -/
def segmentFields (base limit access gran : Nat) : List (Nat × Nat × Nat) :=
  [(2, 2, base &&& 0xFFFF), (4, 1, (base >>> 16) &&& 0xFF), (7, 1, (base >>> 24) &&& 0xFF),
    (0, 2, limit &&& 0xFFFF), (6, 1, (limit >>> 16) &&& 0x0F),
    (6, 1, ((limit >>> 16) &&& 0x0F) ||| (gran &&& 0xF0)), (5, 1, access)]

theorem segmentFields_le {limit access gran : Nat} :
    ∀ field ∈ segmentFields base limit access gran, field.1 + field.2.1 ≤ 8 := by
  simp [segmentFields]

theorem load_three (b : Mem) (a : Nat) : load b a 3 = load16 b a + 2 ^ 16 * load b (a + 2) 1 := by
  simp only [load16, load]
  ring

theorem base_split (hbase : base < 2 ^ 32) :
    base % 2 ^ 16 + 2 ^ 16 * (base / 2 ^ 16 % 2 ^ 8) + 2 ^ 24 * (base / 2 ^ 24 % 2 ^ 8) = base := by
  omega

theorem limit_split (limit : Nat) :
    limit % 2 ^ 16 + 2 ^ 16 * (limit / 2 ^ 16 % 2 ^ 4 % 16) = limit % 2 ^ 20 := by
  omega

/-- The bytes of a segment descriptor give its base, twenty bits of its limit, and its access byte. -/
theorem segment_put {access : Nat} (hbase : base < 2 ^ 32) (limit : Nat) (haccess : access < 256) (pa : Nat) (m : Mem) :
    let b := putFields pa m (segmentFields base limit access 0)
    load b (pa + 2) 3 + 2 ^ 24 * load b (pa + 7) 1 = base ∧
      load16 b pa + 2 ^ 16 * (load b (pa + 6) 1 % 16) = limit % 2 ^ 20 ∧ load b (pa + 6) 1 < 16 ∧
        load b (pa + 5) 1 = access := by
  have hmask : ∀ n, n &&& 0xFF = n % 2 ^ 8 := fun n => Nat.and_two_pow_sub_one_eq_mod n 8
  have hnibble : ∀ n, n &&& 0x0F = n % 2 ^ 4 := fun n => Nat.and_two_pow_sub_one_eq_mod n 4
  intro b
  have hlow : load16 b (pa + 2) = base % 2 ^ 16 := by
    simp (disch := omega) only [b, segmentFields, putFields_cons, putFields_nil, load_store_disjoint,
      load_store_same, and_low]
    exact Nat.mod_mod _ _
  have hmiddle : load b (pa + 4) 1 = base / 2 ^ 16 % 2 ^ 8 := by
    simp (disch := omega) only [b, segmentFields, putFields_cons, putFields_nil, load_store_disjoint,
      load_store_same, hmask, Nat.shiftRight_eq_div_pow]
    exact Nat.mod_mod _ _
  have hhigh : load b (pa + 7) 1 = base / 2 ^ 24 % 2 ^ 8 := by
    simp (disch := omega) only [b, segmentFields, putFields_cons, putFields_nil, load_store_disjoint,
      load_store_same, hmask, Nat.shiftRight_eq_div_pow]
    exact Nat.mod_mod _ _
  have hlimit : load16 b pa = limit % 2 ^ 16 := by
    simp (disch := omega) only [b, segmentFields, putFields_cons, putFields_nil, load_store_disjoint, Nat.add_zero,
      load_store_same, and_low]
    exact Nat.mod_mod _ _
  have hgran : load b (pa + 6) 1 = limit / 2 ^ 16 % 2 ^ 4 := by
    simp (disch := omega) only [b, segmentFields, putFields_cons, putFields_nil, load_store_disjoint,
      load_store_same, hnibble, Nat.shiftRight_eq_div_pow, Nat.zero_and, Nat.or_zero]
    omega
  have haccess' : load b (pa + 5) 1 = access := by
    simp only [b, segmentFields, putFields_cons, putFields_nil, load_store_same]
    exact Nat.mod_eq_of_lt haccess
  refine ⟨?_, ?_, ?_, haccess'⟩
  · rw [load_three, hlow, hmiddle, hhigh, base_split hbase]
  · rw [hlimit, hgran, limit_split]
  · rw [hgran]
    exact Nat.mod_lt _ (by decide)

/-! ## What the three leave -/

/-- Two objects have no byte in common. -/
def Disjoint (a n b k : Nat) : Prop := a + n ≤ b ∨ b + k ≤ a

/-- The linker's places: in the image, and the interrupt table apart from what is written after it. -/
structure Placed (p : Places) : Prop where
  gdtDesc2 : InImage p.gdtDesc2 6
  idtTableDesc : InImage p.idtTableDesc 6
  idt : InImage p.idt 512
  tssEntry : InImage p.tssEntry sizeofTss
  idt_idtTableDesc : Disjoint p.idt 512 p.idtTableDesc 6
  idt_tssEntry : Disjoint p.idt 512 p.tssEntry sizeofTss
  tssEntry_idtTableDesc : Disjoint p.tssEntry sizeofTss p.idtTableDesc 6
  tssEntry_gdtDesc2 : Disjoint p.tssEntry sizeofTss p.gdtDesc2 6

/-- The register for the global table in the kernel's half. -/
def gdtr : TableReg := ⟨0xC0009000, 47⟩

/-- The six bytes for `lgdt` and `lidt`. -/
theorem table_put {limit : Nat} (hlimit : limit < 2 ^ 16) (hbase : base < 2 ^ 32) (pa : Nat) (m : Mem) :
    load32 (putFields pa m [(0, 2, limit), (2, 4, base)]) (pa + 2) = base ∧
      load16 (putFields pa m [(0, 2, limit), (2, 4, base)]) pa = limit := by
  simp (disch := omega) only [putFields_cons, putFields_nil, load_store_disjoint, Nat.add_zero, load_store_same]
  exact ⟨Nat.mod_eq_of_lt hbase, Nat.mod_eq_of_lt hlimit⟩

theorem tableBase_put (hbase : base < 2 ^ 32) (pa : Nat) (m : Mem) :
    load32 (putFields pa m [(2, 4, base)]) (pa + 2) = base ∧
      load16 (putFields pa m [(2, 4, base)]) pa = load16 m pa := by
  simp (disch := omega) only [putFields_cons, putFields_nil, load_store_disjoint, load_store_same]
  exact ⟨Nat.mod_eq_of_lt hbase, trivial⟩

theorem startMain_spec (hmap : KernelMapped s) (hp : InImage p.gdtDesc2 6) (m : Mem) :
    ∃ m', startMain s p m = some (m', gdtr) ∧ ∀ x, Disjoint p.gdtDesc2 6 (x + kernelVStart) 1 → m' x = m x := by
  have hmaps := hp.maps hmap
  obtain ⟨hlow, hhigh⟩ := hp
  have hsizes : userPStart = 0x1000000 ∧ kernelVStart = 0xC0000000 := ⟨rfl, rfl⟩
  generalize hpa : p.gdtDesc2 - kernelVStart = pa at hmaps
  have hle : ∀ field ∈ [(0, 2, gdtBase.length - 1), (2, 4, loadedAddress)], field.1 + field.2.1 ≤ 6 := by decide
  have hle' : ∀ field ∈ [(2, 4, 0xC0009000)], field.1 + field.2.1 ≤ 6 := by decide
  refine ⟨putFields pa (putFields pa m [(0, 2, gdtBase.length - 1), (2, 4, loadedAddress)]) [(2, 4, 0xC0009000)],
    ?_, fun x hx => ?_⟩
  · rw [startMain, storeFields_eq hmaps hle, Option.bind_eq_bind, Option.bind_some, storeFields_eq hmaps hle',
      Option.bind_some, tableAt_linear hmaps (by omega), (tableBase_put (by decide) pa _).1,
      (tableBase_put (by decide) pa _).2, (table_put (by decide) (by decide) pa m).2]
    rfl
  · unfold Disjoint at hx
    rw [putFields_outside hle' (by omega), putFields_outside hle (by omega)]

/-- The gate for system calls gets another access byte. -/
theorem GateIn.setAccess {handlerOffset selector flag flag' : Nat} (h : GateIn m pa handlerOffset selector flag)
    (hflag : flag' < 256) : GateIn (putFields pa m [(5, 1, flag')]) pa handlerOffset selector flag' := by
  obtain ⟨hlow, hselector, -, hhigh⟩ := h
  refine ⟨?_, ?_, ?_, ?_⟩ <;> simp (disch := omega) only [putFields_cons, putFields_nil, load_store_disjoint,
    load_store_same]
  · exact hlow
  · exact hselector
  · exact Nat.mod_eq_of_lt hflag
  · exact hhigh

/-- The loop, the gate for system calls, and the register. -/
theorem initIdt_spec (hmap : KernelMapped s) (hp : Placed p) (hpa : p.idt = kernelVStart + pa) (m : Mem) :
    ∃ m', initIdt s p m = some (m', ⟨BitVec.ofNat 32 p.idt, 511⟩) ∧
      (∀ n < 64, GateIn m' (pa + 8 * n) (p.isr n).toNat 0x08 (if n = 63 then 0xEF else 0x8F)) ∧
      ∀ x, Disjoint p.idt 512 (x + kernelVStart) 1 → Disjoint p.idtTableDesc 6 (x + kernelVStart) 1 →
        m' x = m x := by
  have hidt : Maps s p.idt (p.idt - kernelVStart) (8 * 64) := hp.idt.maps hmap
  have hdesc := hp.idtTableDesc.maps hmap
  obtain ⟨hlow, hhigh⟩ := hp.idt
  obtain ⟨hlow', hhigh'⟩ := hp.idtTableDesc
  have hapart := hp.idt_idtTableDesc
  have hsizes : userPStart = 0x1000000 ∧ kernelVStart = 0xC0000000 := ⟨rfl, rfl⟩
  have hbase : p.idt - kernelVStart = pa := by omega
  rw [hbase] at hidt
  have hlast : Maps s (p.idt + 8 * 63) (pa + 8 * 63) 8 := hidt.sub (by decide)
  generalize hpd : p.idtTableDesc - kernelVStart = pd at hdesc
  have hle : ∀ field ∈ [(5, 1, 0xEF)], field.1 + field.2.1 ≤ 8 := by decide
  have hle' : ∀ field ∈ [(0, 2, 8 * (irqMax + 1) - 1), (2, 4, p.idt)], field.1 + field.2.1 ≤ 6 := by simp
  unfold Disjoint at hapart ⊢
  refine ⟨putFields pd (putFields (pa + 8 * 63) (putGates pa p.isr m 64) [(5, 1, 0xEF)])
    [(0, 2, 8 * (irqMax + 1) - 1), (2, 4, p.idt)], ?_, fun n hn => ?_, fun x hx hx' => ?_⟩
  · have hloop : (List.range (irqMax + 1)).foldlM
        (fun m n => initTrapGate s p m n (p.isr n).toNat 0x08 0x8F) m = some (putGates pa p.isr m 64) :=
      initTrapGates_eq hidt
    obtain ⟨hbase', hlimit'⟩ := table_put (by decide : 8 * (irqMax + 1) - 1 < 2 ^ 16)
      (by omega : p.idt < 2 ^ 32) pd (putFields (pa + 8 * 63) (putGates pa p.isr m 64) [(5, 1, 0xEF)])
    rw [initIdt, hloop, Option.bind_eq_bind, Option.bind_some, storeFields_eq hlast hle,
      Option.bind_some, storeFields_eq hdesc hle', Option.bind_some, tableAt_linear hdesc (by omega), hbase',
      hlimit']
    rfl
  · have hgate : GateIn (putGates pa p.isr m 64) (pa + 8 * n) (p.isr n).toNat 0x08 0x8F := putGates_gate hn
    refine GateIn.congr ?_ fun i hi => putFields_outside hle' (by omega)
    by_cases hsyscall : n = 63
    · subst hsyscall
      exact hgate.setAccess (by decide)
    · rw [if_neg hsyscall]
      exact hgate.congr fun i hi => putFields_outside hle (by omega)
  · rw [putFields_outside hle' (by omega), putFields_outside hle (by omega), putGates_outside (by omega)]

/-- The descriptor of the task segment as the processor reads it. -/
def taskSegment (tssEntry : Nat) : Segment := ⟨BitVec.ofNat 32 tssEntry, (tssEntry + sizeofTss) % 2 ^ 20, 0xE9⟩

/-- A descriptor that the early map shows. -/
theorem segmentAt_linear (h : Maps s va pa 8) (hva : va + 8 ≤ 2 ^ 32) :
    segmentAt (linear s m) (BitVec.ofNat 32 va) = segmentOf fun i => m (pa + i) :=
  segmentOf_congr fun _ hi => view_linear h hva hi

theorem gdt_maps (hmap : KernelMapped s) : Maps s 0xC0009000 loadedAddress 48 := by
  have h := hmap.kernel.sub (k := loadedAddress) (l := 48) (by decide)
  rwa [Nat.zero_add] at h

/-- The segment in the last entry of the table. -/
theorem segmentOf_put (htss : p.tssEntry + sizeofTss < 2 ^ 32) (pa : Nat) (m : Mem) :
    segmentOf (fun i => putFields pa m (segmentFields p.tssEntry (u32 (p.tssEntry + sizeofTss)) 0xE9 0) (pa + i)) =
      taskSegment p.tssEntry := by
  rw [u32_of_lt htss]
  obtain ⟨hbase, hlimit, hgran, haccess⟩ := segment_put (by omega : p.tssEntry < 2 ^ 32)
    (p.tssEntry + sizeofTss) (by decide : 0xE9 < 256) pa m
  have hsmall : ∀ n, n < 16 → ¬n / 128 % 2 = 1 := fun n hn => by omega
  unfold load16 at hlimit
  simp only [segmentOf, load16, load_shift, Nat.add_zero]
  rw [hbase, if_neg (hsmall _ hgran), hlimit, haccess, taskSegment]

theorem setupTss_spec (hmap : KernelMapped s) (hp : InImage p.tssEntry sizeofTss) (hpa : p.tssEntry = kernelVStart + pa)
    (m : Mem) : ∃ m', setupTss s p gdtr m = some (m', taskSegment p.tssEntry) ∧
      (∀ i < 4, m' (pa + 8 + i) = UInt8.ofNat (0x10 / 256 ^ i)) ∧
      ∀ x, (x < pa + 4 ∨ pa + 12 ≤ x) → (x < tssSegment ∨ tssSegment + 8 ≤ x) → m' x = m x := by
  have htss := hp.maps hmap
  obtain ⟨hlow, hhigh⟩ := hp
  have hsizes : userPStart = 0x1000000 ∧ kernelVStart = 0xC0000000 ∧ oneMB = 0x100000 ∧ sizeofTss = 104 ∧
    tssSegment = 0x9028 := ⟨rfl, rfl, rfl, rfl, rfl⟩
  have hbase : p.tssEntry - kernelVStart = pa := by omega
  rw [hbase] at htss
  have hentry : Maps s tssSegment tssSegment 8 := by
    have h := hmap.low.sub (k := tssSegment) (l := 8) (by decide)
    rwa [Nat.zero_add] at h
  have hshown : Maps s 0xC0009028 tssSegment 8 := (gdt_maps hmap).sub (k := 40) (l := 8) (by decide)
  have hbusy : Maps s (0xC0009028 + 5) (tssSegment + 5) 1 := hshown.sub (by decide)
  have hle : ∀ field ∈ [(4, 4, 0xFFFFFF00), (8, 4, 0x10)], field.1 + field.2.1 ≤ sizeofTss := by decide
  generalize hfirst : putFields tssSegment m (segmentFields p.tssEntry (u32 (p.tssEntry + sizeofTss)) 0xE9 0) = m₁
  generalize hsecond : putFields pa m₁ [(4, 4, 0xFFFFFF00), (8, 4, 0x10)] = m₂
  -- the fields of the task segment are not in the table
  have hstores : putFields pa m₁ [(4, 4, 0xFFFFFF00), (8, 4, 0x10)] =
      store (store m₁ (pa + 4) 4 0xFFFFFF00) (pa + 8) 4 0x10 := rfl
  have hentry₂ : ∀ i < 8, m₂ (tssSegment + i) = m₁ (tssSegment + i) := by
    intro i hi
    rw [← hsecond]
    exact putFields_outside hle (by omega)
  have haddr : gdtr.base + BitVec.ofNat 32 ((0x28 : BitVec 16).toNat / 8 * 8) = BitVec.ofNat 32 0xC0009028 := by
    decide
  have hlookup : lookup gdtr (linear s m₂) 0x28 = some (taskSegment p.tssEntry) := by
    rw [lookup, if_neg (by decide), haddr, segmentAt_linear hshown (by decide), segmentOf_congr hentry₂, ← hfirst,
      segmentOf_put (by omega)]
  have hltr : ltr gdtr (linear s m₂) 0x28 = .ok (taskSegment p.tssEntry) := by
    have haccess : (taskSegment p.tssEntry).access = 0xE9 := rfl
    rw [ltr, hlookup]
    dsimp only
    rw [haccess, if_neg (by decide), if_pos (by decide)]
  refine ⟨store m₂ (tssSegment + 5) 1 0xEB, ?_, fun i hi => ?_, fun x hx hx' => ?_⟩
  · rw [setupTss, gdtSetGate, ← segmentFields, storeFields_eq hentry segmentFields_le, hfirst, Option.bind_eq_bind,
      Option.bind_some, storeFields_eq htss hle, hsecond, Option.bind_some, hltr]
    change (storeVirtual s m₂ (0xC0009028 + 5) 1 0xEB).bind _ = _
    rw [storeVirtual_eq hbusy]
    rfl
  · rw [store_of_outside _ _ _ (by omega), ← hsecond, hstores, store_byte _ _ _ hi]
  · rw [store_of_outside _ _ _ (by omega), ← hsecond, hstores, store_of_outside _ _ _ (by omega),
      store_of_outside _ _ _ (by omega), ← hfirst, putFields_outside segmentFields_le (by omega)]

/-! ## The tables at any later time -/

def physical (va : Nat) : Nat := va - kernelVStart

theorem add_physical (h : kernelVStart ≤ va) : va = kernelVStart + physical va := (Nat.add_sub_cancel' h).symm

/-- A byte of the global table, where the processor may have marked the segment as accessed. -/
def GdtByte (i : Nat) (b : UInt8) : Prop := b = gdtBase.getD i 0 ∨ i % 8 = 5 ∧ b = gdtBase.getD i 0 ||| 1

/-- What the boot leaves. -/
structure Installed (p : Places) (m : Mem) (t : Tables) : Prop where
  tables : t = ⟨gdtr, ⟨BitVec.ofNat 32 p.idt, 511⟩, 0x28, taskSegment p.tssEntry⟩
  gate : ∀ n < 64, GateIn m (physical p.idt + 8 * n) (p.isr n).toNat 0x08 (if n = 63 then 0xEF else 0x8F)
  ss0 : ∀ i < 4, m (physical p.tssEntry + 8 + i) = UInt8.ofNat (0x10 / 256 ^ i)

theorem setUpTables_installed (hmap : KernelMapped s) (hp : Placed p) (m : Mem) :
    ∃ m' t, setUpTables s p m = some (m', t) ∧ Installed p m' t ∧
      (∀ i < 40, m' (loadedAddress + i) = m (loadedAddress + i)) ∧
      ∀ i < sizeofTss, i < 4 ∨ 12 ≤ i → m' (physical p.tssEntry + i) = m (physical p.tssEntry + i) := by
  have hsizes : userPStart = 0x1000000 ∧ kernelVStart = 0xC0000000 ∧ oneMB = 0x100000 ∧ sizeofTss = 104 ∧
    tssSegment = 0x9028 ∧ loadedAddress = 0x9000 := ⟨rfl, rfl, rfl, rfl, rfl, rfl⟩
  have hidt : p.idt = kernelVStart + physical p.idt := add_physical ((Nat.le_add_right _ _).trans hp.idt.low)
  have htss : p.tssEntry = kernelVStart + physical p.tssEntry :=
    add_physical ((Nat.le_add_right _ _).trans hp.tssEntry.low)
  obtain ⟨m₁, hstart, hrest₁⟩ := startMain_spec hmap hp.gdtDesc2 m
  obtain ⟨m₂, hinit, hgate, hrest₂⟩ := initIdt_spec hmap hp hidt m₁
  obtain ⟨m₃, hsetup, hss0, hrest₃⟩ := setupTss_spec hmap hp.tssEntry htss m₂
  obtain ⟨hidtLow, -⟩ := hp.idt
  obtain ⟨htssLow, -⟩ := hp.tssEntry
  obtain ⟨hdescLow, -⟩ := hp.idtTableDesc
  obtain ⟨hgdtLow, -⟩ := hp.gdtDesc2
  obtain ⟨-, -, -, -, -, hapart, hdesc, hgdt⟩ := hp
  unfold Disjoint at hapart hdesc hgdt hrest₁ hrest₂
  refine ⟨m₃, _, ?_, ⟨rfl, fun n hn => (hgate n hn).congr fun i hi => hrest₃ _ (by omega) (by omega), hss0⟩,
    fun i hi => ?_, fun i hi hfree => ?_⟩
  · simp only [setUpTables, hstart, hinit, hsetup, Option.bind_eq_bind, Option.bind_some]
    rfl
  · rw [hrest₃ _ (by omega) (by omega), hrest₂ _ (by omega) (by omega), hrest₁ _ (by omega)]
  · rw [hrest₃ _ (by omega) (by omega), hrest₂ _ (by omega) (by omega), hrest₁ _ (by omega)]

/-- The tables in a later state, in any address space. The processor marks segments as accessed, and only the
first word of the stack for the kernel changes in the task segment. -/
structure Sees (p : Places) (m : Mem) (c : State) : Prop where
  gdt : ∀ i < 40, c.mem (BitVec.ofNat 32 (0xC0009000 + i)) = m (loadedAddress + i) ∨
    i % 8 = 5 ∧ c.mem (BitVec.ofNat 32 (0xC0009000 + i)) = m (loadedAddress + i) ||| 1
  idt : ∀ i < 512, c.mem (BitVec.ofNat 32 (p.idt + i)) = m (physical p.idt + i)
  tss : ∀ i < sizeofTss, i < 4 ∨ 8 ≤ i → c.mem (BitVec.ofNat 32 (p.tssEntry + i)) = m (physical p.tssEntry + i)

/-- The bytes of a flat segment of four gigabytes, accessed or not. -/
structure FlatBytes (b : Mem) (access : UInt8) : Prop where
  limitLow : b 0 = 0xFF
  limitHigh : b 1 = 0xFF
  base : b 2 = 0 ∧ b 3 = 0 ∧ b 4 = 0 ∧ b 7 = 0
  access : b 5 = access ∨ b 5 = access ||| 1
  granularity : b 6 = 0xCF

theorem FlatBytes.segment {b : Mem} {access : UInt8} (h : FlatBytes b access) :
    segmentOf b = ⟨0, 2 ^ 32 - 1, (b 5).toNat⟩ := by
  obtain ⟨h0, h1, ⟨h2, h3, h4, h7⟩, -, h6⟩ := h
  simp only [segmentOf, load16, load, Nat.reduceAdd, h0, h1, h2, h3, h4, h6, h7]
  rfl

/-- The segments behind the four selectors. -/
theorem Sees.flatBytes {c : State} (h : Sees p m c) (hgdt : ∀ i < 40, GdtByte i (m (loadedAddress + i))) {k : Nat}
    (hlow : 1 ≤ k) (hhigh : k ≤ 4) :
    FlatBytes (view c.mem (gdtr.base + BitVec.ofNat 32 (8 * k))) (gdtBase.getD (8 * k + 5) 0) := by
  have hbyte : ∀ i < 8, view c.mem (gdtr.base + BitVec.ofNat 32 (8 * k)) i = gdtBase.getD (8 * k + i) 0 ∨
      i = 5 ∧ view c.mem (gdtr.base + BitVec.ofNat 32 (8 * k)) i = gdtBase.getD (8 * k + i) 0 ||| 1 := by
    intro i hi
    have haddr : gdtr.base + BitVec.ofNat 32 (8 * k) + BitVec.ofNat 32 i =
        BitVec.ofNat 32 (0xC0009000 + (8 * k + i)) := by
      rw [BitVec.add_assoc, ← BitVec.ofNat_add, BitVec.ofNat_add (x := 0xC0009000)]
      rfl
    have hone := h.gdt (8 * k + i) (by omega)
    rw [← haddr] at hone
    rcases hone with hone | ⟨hi5, hone⟩ <;> rcases hgdt (8 * k + i) (by omega) with hb | ⟨hi5', hb⟩
    · exact .inl (hone.trans hb)
    · exact .inr ⟨by omega, hone.trans hb⟩
    · exact .inr ⟨by omega, hone.trans (congrArg (· ||| 1) hb)⟩
    · refine .inr ⟨by omega, ?_⟩
      change c.mem _ = _
      rw [hone, hb, UInt8.or_assoc, UInt8.or_self]
  have hexact : ∀ i < 8, i ≠ 5 →
      view c.mem (gdtr.base + BitVec.ofNat 32 (8 * k)) i = gdtBase.getD (8 * k + i) 0 :=
    fun i hi hne => (hbyte i hi).resolve_right fun hmark => hne hmark.1
  obtain rfl | rfl | rfl | rfl : k = 1 ∨ k = 2 ∨ k = 3 ∨ k = 4 := by omega
  all_goals exact ⟨hexact 0 (by decide) (by decide), hexact 1 (by decide) (by decide),
    ⟨hexact 2 (by decide) (by decide), hexact 3 (by decide) (by decide), hexact 4 (by decide) (by decide),
      hexact 7 (by decide) (by decide)⟩, (hbyte 5 (by decide)).imp id And.right, hexact 6 (by decide) (by decide)⟩

/-! ## Deliveries -/

variable {t : Tables} {c : State} {source : Source} {vector : Nat} {err : Option Word}

theorem Sees.lookup (h : Sees p m c) (hgdt : ∀ i < 40, GdtByte i (m (loadedAddress + i)))
    (selector : BitVec 16) {k : Nat} (hlow : 1 ≤ k) (hhigh : k ≤ 4) (hk : selector.toNat / 8 = k)
    (hlocal : selector.toNat / 4 % 2 = 0) :
    ∃ access, lookup gdtr c.mem selector = some ⟨0, 2 ^ 32 - 1, access.toNat⟩ ∧
      (access = gdtBase.getD (8 * k + 5) 0 ∨ access = gdtBase.getD (8 * k + 5) 0 ||| 1) := by
  have hflat := h.flatBytes hgdt hlow hhigh
  have hlimit : gdtr.limit = 47 := rfl
  refine ⟨_, ?_, hflat.access⟩
  rw [Ia32.lookup, if_neg (by omega), hk, Nat.mul_comm k 8, segmentAt, hflat.segment]

/-- The gate of a vector. -/
theorem Sees.gateAt (h : Sees p m c) (hi : Installed p m t) (hvector : vector < 64) :
    gateAt c.mem (BitVec.ofNat 32 p.idt + BitVec.ofNat 32 (8 * vector)) =
      ⟨p.isr vector, kernelCode, if vector = 63 then 0xEF else 0x8F⟩ := by
  have hsame : ∀ i < 8, view c.mem (BitVec.ofNat 32 p.idt + BitVec.ofNat 32 (8 * vector)) i =
      m (physical p.idt + 8 * vector + i) := by
    intro i hi
    rw [view, ← BitVec.ofNat_add, ← BitVec.ofNat_add, Nat.add_assoc, Nat.add_assoc]
    exact h.idt _ (by omega)
  rw [Ia32.gateAt, gateOf_congr hsame, (hi.gate vector hvector).gateOf]
  rfl

/-- The stack that a trap from user code changes to, if the limit of the task segment reaches over it. -/
theorem Sees.innerStack (h : Sees p m c) (hi : Installed p m t)
    (hgdt : ∀ i < 40, GdtByte i (m (loadedAddress + i))) : innerStack t c.mem 0 source =
      if (p.tssEntry + sizeofTss) % 2 ^ 20 < 9 then .error (.invalidTss (0x28 + source.ext))
      else .ok ⟨readWord c.mem (BitVec.ofNat 32 (p.tssEntry + 4)), kernelData⟩ := by
  obtain ⟨access, hlookup, haccess⟩ := h.lookup hgdt kernelData (k := 2) (by decide) (by decide)
    (by decide) (by decide)
  have hss0 : load16 (view c.mem (BitVec.ofNat 32 p.tssEntry + BitVec.ofNat 32 8)) 0 = 0x10 % 256 ^ 2 := by
    refine load_of_bytes fun i hlt => ?_
    have hsize : sizeofTss = 104 := rfl
    rw [view, Nat.zero_add, ← BitVec.ofNat_add, ← BitVec.ofNat_add, Nat.add_assoc, h.tss (8 + i) (by omega) (by omega),
      ← Nat.add_assoc]
    exact hi.ss0 i (by omega)
  have hselector : BitVec.ofNat 16 (load16 (view c.mem (BitVec.ofNat 32 p.tssEntry + BitVec.ofNat 32 8)) 0) =
      kernelData := by
    rw [hss0]
    decide
  have hcode : source.code 0x28 = 0x28 + source.ext := rfl
  obtain rfl := hi.tables
  rw [Ia32.innerStack]
  dsimp only [taskSegment]
  rw [Nat.mul_zero, Nat.zero_add, Nat.zero_add, Nat.zero_add, hcode, hselector, hlookup, ← BitVec.ofNat_add]
  refine if_congr Iff.rfl rfl ?_
  rcases haccess with rfl | rfl
  · exact (if_neg (by decide)).trans (if_pos (by decide))
  · exact (if_neg (by decide)).trans (if_pos (by decide))

/-- A trap to the stub of the vector, on the kernel's stack of the running task. Other vectors have no gate, and
user code may only use the one for system calls. -/
def delivered (p : Places) (source : Source) (vector : Nat) (err : Option Word) (c : State) : Except Fault State :=
  if irqMax < vector ∨ source = .software ∧ vector ≠ 63 ∧ c.cpl ≠ 0 then
    .error (.generalProtection (source.vectorCode vector))
  else if c.cpl ≠ 0 ∧ (p.tssEntry + sizeofTss) % 2 ^ 20 < 9 then .error (.invalidTss (0x28 + source.ext))
  else .ok (trap ⟨readWord c.mem (BitVec.ofNat 32 (p.tssEntry + 4)), kernelData⟩ kernelCode (p.isr vector) err c)

theorem cpl_lt (c : State) : c.cpl < 4 := Nat.mod_lt _ (by decide)

/-- Behind a gate of the kernel: the code segment, and then the stack. -/
theorem Sees.enter (h : Sees p m c) (hi : Installed p m t) (hgdt : ∀ i < 40, GdtByte i (m (loadedAddress + i)))
    (gate : Gate) (hselector : gate.selector = kernelCode) (hkind : kind gate.access = 0x0F) :
    throughGate t source gate err c =
      if c.cpl ≠ 0 ∧ (p.tssEntry + sizeofTss) % 2 ^ 20 < 9 then .error (.invalidTss (0x28 + source.ext))
      else .ok
        (trap ⟨readWord c.mem (BitVec.ofNat 32 (p.tssEntry + 4)), kernelData⟩ kernelCode gate.offset err c) := by
  obtain ⟨access, hlookup, haccess⟩ := h.lookup hgdt kernelCode (k := 1) (by decide) (by decide)
    (by decide) (by decide)
  have hstack : Ia32.innerStack t c.mem 0 source = _ := h.innerStack hi hgdt
  have htable : t.gdt = gdtr := congrArg Tables.gdt hi.tables
  have hbits : isCode access.toNat = true ∧ dpl access.toNat = 0 ∧ present access.toNat = true ∧
      nonconforming access.toNat = true := by
    rcases haccess with rfl | rfl <;> decide
  have hcs : BitVec.ofNat 16 (gate.selector.toNat / 4 * 4) = kernelCode := by
    rw [hselector]
    decide
  rw [throughGate, htable, hselector, hlookup]
  dsimp only
  rw [hbits.1, hbits.2.1, hbits.2.2.1, hbits.2.2.2, hstack, ← enterGate_eq_trap hkind hcs]
  rw [if_neg (by simp), if_neg (by simp)]
  rcases Nat.eq_zero_or_pos c.cpl with hkernel | huser
  · rw [if_neg (by omega), if_neg (by omega), if_pos hkernel, hkernel]
  · rw [if_pos ⟨rfl, huser⟩, if_neg (Nat.pos_iff_ne_zero.mp huser)]
    by_cases hshort : (p.tssEntry + sizeofTss) % 2 ^ 20 < 9
    · rw [if_pos hshort, if_pos ⟨by omega, hshort⟩]
      rfl
    · rw [if_neg hshort, if_neg fun hboth => hshort hboth.2]
      rfl

theorem Sees.deliver (h : Sees p m c) (hi : Installed p m t) (hgdt : ∀ i < 40, GdtByte i (m (loadedAddress + i))) :
    deliver t source vector err c = delivered p source vector err c := by
  have hmax : irqMax = 63 := rfl
  have hcpl := cpl_lt c
  have hbase : t.idt.base = BitVec.ofNat 32 p.idt := congrArg (fun t => t.idt.base) hi.tables
  have hlimit : t.idt.limit = 511 := congrArg (fun t => t.idt.limit) hi.tables
  rw [Ia32.deliver, delivered, hlimit, hbase]
  by_cases hvector : vector < 64
  · rw [h.gateAt hi hvector]
    have hbits : ∀ access, access = (if vector = 63 then 0xEF else 0x8F) → kind access = 0x0F ∧
        present access = true ∧ dpl access = if vector = 63 then 3 else 0 := by
      rintro access rfl
      split <;> decide
    obtain ⟨hkind, hpresent, hdpl⟩ := hbits _ rfl
    rw [if_neg (by omega), if_neg (by rw [hkind]; decide), hpresent, if_neg (by decide : ¬true = false), hdpl]
    by_cases huser : source = .software ∧ vector ≠ 63 ∧ c.cpl ≠ 0
    · rw [if_pos ⟨huser.1, by rw [if_neg huser.2.1]; omega⟩, if_pos (.inr huser)]
    · have hallowed : ¬(source = .software ∧ (if vector = 63 then 3 else 0) < c.cpl) := by
        rintro ⟨hsource, hlow⟩
        by_cases hsyscall : vector = 63
        · rw [if_pos hsyscall] at hlow
          omega
        · rw [if_neg hsyscall] at hlow
          exact huser ⟨hsource, hsyscall, by omega⟩
      have hgate : ¬(irqMax < vector ∨ source = .software ∧ vector ≠ 63 ∧ c.cpl ≠ 0) := fun hboth =>
        huser (hboth.resolve_left (by omega))
      rw [if_neg hallowed, if_neg hgate]
      exact h.enter hi hgdt ⟨p.isr vector, kernelCode, if vector = 63 then 0xEF else 0x8F⟩ rfl hkind
  · rw [if_pos (by omega), if_pos (.inl (by omega))]

/-- A byte of the task segment from the stack segment on. -/
theorem tss_byte (hc : Sees p m c) (hi : Installed p m t)
    (hzero : ∀ i < sizeofTss, i < 4 ∨ 12 ≤ i → m (physical p.tssEntry + i) = 0) {i : Nat} (hlow : 8 ≤ i)
    (hhigh : i < sizeofTss) : view c.mem (BitVec.ofNat 32 p.tssEntry) i = if i = 8 then 0x10 else 0 := by
  rw [view, ← BitVec.ofNat_add, hc.tss i hhigh (.inr hlow)]
  rcases Nat.lt_or_ge i 12 with hstack | hrest
  · obtain ⟨k, rfl⟩ := Nat.exists_eq_add_of_le hlow
    rw [← Nat.add_assoc, hi.ss0 k (by omega)]
    obtain rfl | rfl | rfl | rfl : k = 0 ∨ k = 1 ∨ k = 2 ∨ k = 3 := by omega
    all_goals rfl
  · rw [hzero i hhigh (.inr hrest), if_neg (by omega)]

/-- The place of the bits for ports is that of the segment itself. -/
theorem tss_map (hc : Sees p m c) (hi : Installed p m t)
    (hzero : ∀ i < sizeofTss, i < 4 ∨ 12 ≤ i → m (physical p.tssEntry + i) = 0) :
    load16 (view c.mem (BitVec.ofNat 32 p.tssEntry)) 0x66 = 0 := by
  rw [load16, load, load, load, tss_byte hc hi hzero (by decide) (by decide),
    tss_byte hc hi hzero (by decide) (by decide)]
  rfl

/-- The bit of a port. -/
theorem tss_bit (hc : Sees p m c) (hi : Installed p m t)
    (hzero : ∀ i < sizeofTss, i < 4 ∨ 12 ≤ i → m (physical p.tssEntry + i) = 0) {port : Nat} (hlow : 64 ≤ port)
    (hhigh : port < 824) :
    load16 (view c.mem (BitVec.ofNat 32 p.tssEntry)) (port / 8) / 2 ^ (port % 8) % 2 = 0 ↔ port ≠ 68 := by
  have hsize : sizeofTss = 104 := rfl
  rw [load16, load, load, load, tss_byte hc hi hzero (by omega) (by omega),
    tss_byte hc hi hzero (by omega) (by omega), if_neg (by omega : ¬port / 8 + 1 = 8)]
  by_cases hfirst : port / 8 = 8
  · rw [if_pos hfirst]
    obtain ⟨k, rfl⟩ := Nat.exists_eq_add_of_le hlow
    have hk : k < 8 := by omega
    have hmod : (64 + k) % 8 = k := by omega
    rw [hmod]
    clear hfirst hmod hhigh hlow
    revert k
    decide
  · have hne : port ≠ 68 := by omega
    rw [if_neg hfirst]
    simp [hne]

/-- After the boot, in any address space and at any privilege level, an interrupt, an exception or an `int` ends
in the stub of its vector, on the stack that the task segment then has, or in the exception that is due. All
segments are flat. -/
theorem setUpTables_delivers (hmap : KernelMapped s) (hp : Placed p)
    (hgdt : ∀ i < 40, GdtByte i (m (loadedAddress + i))) : ∃ m' t, setUpTables s p m = some (m', t) ∧
      ∀ c, Sees p m' c → (∀ selector ∈ [kernelCode, kernelData, 0x1b, 0x23], ∃ access,
        lookup t.gdt c.mem selector = some ⟨0, 2 ^ 32 - 1, access⟩) ∧
        ∀ source vector err, deliver t source vector err c = delivered p source vector err c := by
  obtain ⟨m', t, hrun, hinstalled, hkept, -⟩ := setUpTables_installed hmap hp m
  have hgdt' : ∀ i < 40, GdtByte i (m' (loadedAddress + i)) := fun i hi => by
    rw [hkept i hi]
    exact hgdt i hi
  have htable : t.gdt = gdtr := congrArg Tables.gdt hinstalled.tables
  refine ⟨m', t, hrun, fun c hc => ⟨fun selector hselector => ?_, fun source vector err =>
    hc.deliver hinstalled hgdt'⟩⟩
  have hindex : 1 ≤ selector.toNat / 8 ∧ selector.toNat / 8 ≤ 4 ∧ selector.toNat / 4 % 2 = 0 := by
    fin_cases hselector <;> decide
  obtain ⟨access, hlookup, -⟩ := hc.lookup hgdt' selector hindex.1 hindex.2.1 rfl hindex.2.2
  exact ⟨access.toNat, htable ▸ hlookup⟩

/-- The fields of the task segment behind the stack for the kernel are zero, also the one with the place of the
bits for ports, so the segment's own bytes are these bits. User code may use the ports from 64 on but for
one, if the limit of the segment reaches over its fields. -/
theorem setUpTables_userPorts (hmap : KernelMapped s) (hp : Placed p)
    (hzero : ∀ i < sizeofTss, m (physical p.tssEntry + i) = 0) : ∃ m' t, setUpTables s p m = some (m', t) ∧
      ∀ c, Sees p m' c → c.iopl < c.cpl → ∀ port, 64 ≤ port → port < 824 →
        (portAllowed t c port = true ↔ port ≠ 68 ∧ 0x67 ≤ (p.tssEntry + sizeofTss) % 2 ^ 20) := by
  obtain ⟨m', t, hrun, hinstalled, -, hkept⟩ := setUpTables_installed hmap hp m
  refine ⟨m', t, hrun, fun c hc huser port hlow hhigh => ?_⟩
  have hzero' : ∀ i < sizeofTss, i < 4 ∨ 12 ≤ i → m' (physical p.tssEntry + i) = 0 :=
    fun i hi hfree => (hkept i hi hfree).trans (hzero i hi)
  have hbit := tss_bit hc hinstalled hzero' hlow hhigh
  have htask : t.task = taskSegment p.tssEntry := congrArg Tables.task hinstalled.tables
  rw [portAllowed, if_neg (by omega)]
  dsimp only
  rw [Bool.and_eq_true, Bool.and_eq_true, decide_eq_true_iff, decide_eq_true_iff, decide_eq_true_iff, htask]
  dsimp only [taskSegment]
  rw [tss_map hc hinstalled hzero', Nat.zero_add, hbit]
  constructor
  · rintro ⟨⟨hlimit, -⟩, hport⟩
    exact ⟨hport, hlimit⟩
  · rintro ⟨hport, hlimit⟩
    exact ⟨⟨hlimit, by omega⟩, hport⟩

/-- Objects of a small kernel. -/
def samplePlaces : Places where
  gdtDesc2 := 0xC0800030
  idtTableDesc := 0xC0800036
  idt := 0xC0810000
  tssEntry := 0xC0811000
  isr := fun n => BitVec.ofNat 32 (0xC0800100 + 64 * n)

theorem samplePlaces_placed : Placed samplePlaces := by
  refine ⟨⟨?_, ?_⟩, ⟨?_, ?_⟩, ⟨?_, ?_⟩, ⟨?_, ?_⟩, ?_, ?_, ?_, ?_⟩
  all_goals first | exact Nat.le_of_ble_eq_true rfl | exact .inl (Nat.le_of_ble_eq_true rfl) |
    exact .inr (Nat.le_of_ble_eq_true rfl)

/-- The memory after the boot sector has loaded the table. -/
def sampleMemory : Mem := fun a => if 0x9000 ≤ a then gdtBase.getD (a - 0x9000) 0 else 0

theorem sampleMemory_gdt : ∀ i < 40, GdtByte i (sampleMemory (loadedAddress + i)) := by
  intro i hi
  refine .inl ?_
  have hload : loadedAddress = 0x9000 := rfl
  rw [sampleMemory, hload, if_pos (by omega), Nat.add_sub_cancel_left]

/-- User code over a physical memory. -/
def sampleState (m : Mem) : State := Stubs.sampleUser fun a => m (a - 0xC0000000).toNat

theorem sampleState_user (m : Mem) : (sampleState m).cpl = 3 ∧ (sampleState m).iopl = 0 := by
  simp [sampleState, Stubs.sampleUser, State.cpl, State.iopl]

theorem sampleState_sees (m : Mem) : Sees samplePlaces m (sampleState m) := by
  have hmem : ∀ va, 0xC0000000 ≤ va → va < 2 ^ 32 → ∀ pa, va = 0xC0000000 + pa →
      (sampleState m).mem (BitVec.ofNat 32 va) = m pa := by
    intro va hlow hhigh pa hpa
    refine congrArg m ?_
    subst hpa
    bv_omega
  have hplaces : loadedAddress = 0x9000 ∧ samplePlaces.idt = 0xC0810000 ∧ physical samplePlaces.idt = 0x810000 ∧
      samplePlaces.tssEntry = 0xC0811000 ∧ physical samplePlaces.tssEntry = 0x811000 ∧ sizeofTss = 104 := by
    decide
  refine ⟨fun i hi => .inl (hmem _ ?_ ?_ _ ?_), fun i hi => hmem _ ?_ ?_ _ ?_, fun i hi _ => hmem _ ?_ ?_ _ ?_⟩
  all_goals omega

/-- A system call, and an interrupt vector that user code may not use. -/
theorem setUpTables_delivers_sample : ∃ s m' t, setUpTables s samplePlaces sampleMemory = some (m', t) ∧
    deliver t .software 63 none (sampleState m') = .ok (trap
      ⟨readWord (sampleState m').mem 0xC0811004, kernelData⟩ kernelCode 0xC08010C0 none (sampleState m')) ∧
    deliver t .software 13 none (sampleState m') = .error (.generalProtection 106) := by
  obtain ⟨s, hboot, -⟩ := initPgDir0Vmap_shows ⟨fun _ _ => 0, fun _ => 0⟩
  obtain ⟨m', t, hrun, hall⟩ := setUpTables_delivers (initPgDir0Vmap_kernelMapped hboot) samplePlaces_placed
    sampleMemory_gdt
  obtain ⟨-, hdeliver⟩ := hall _ (sampleState_sees m')
  have hcpl := (sampleState_user m').1
  refine ⟨s, m', t, hrun, ?_, ?_⟩
  · rw [hdeliver, delivered, hcpl, if_neg (by decide), if_neg (by decide)]
    rfl
  · rw [hdeliver, delivered, hcpl, if_pos (by decide)]
    rfl

/-- A register of the disk is open to user code. -/
theorem setUpTables_userPorts_sample : ∃ s m' t, setUpTables s samplePlaces sampleMemory = some (m', t) ∧
    portAllowed t (sampleState m') 0x1F7 = true := by
  obtain ⟨s, hboot, -⟩ := initPgDir0Vmap_shows ⟨fun _ _ => 0, fun _ => 0⟩
  have hzero : ∀ i < sizeofTss, sampleMemory (physical samplePlaces.tssEntry + i) = 0 := by
    intro i hi
    have hplace : physical samplePlaces.tssEntry = 0x811000 ∧ gdtBase.length = 48 := by decide
    rw [sampleMemory, if_pos (by omega)]
    rw [List.getD_eq_getElem?_getD, List.getElem?_eq_none (by omega), Option.getD_none]
  obtain ⟨m', t, hrun, hall⟩ := setUpTables_userPorts (initPgDir0Vmap_kernelMapped hboot) samplePlaces_placed hzero
  obtain ⟨hcpl, hiopl⟩ := sampleState_user m'
  exact ⟨s, m', t, hrun, (hall _ (sampleState_sees m') (by omega) 0x1F7 (by decide) (by decide)).mpr
    ⟨by decide, by decide⟩⟩

end TsOs.Gates
