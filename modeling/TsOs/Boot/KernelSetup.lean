import TsOs.Boot.DiskLoading
import TsOs.Paging.EarlyMap
import TsOs.Tasking.Model

/-!
# From the disk to the kernel

The code in section `.kernel_setup` copies the text and the data of the kernel to the
addresses they are linked for, with one word for each byte. `_start` computes the address
of the first program, which lies behind the kernel in the image.

## Implementation notes

Addresses go through the map that `init_pg_dir0_vmap` makes, to a memory of physical bytes.
An access to an address that is not mapped is no result.
-/

namespace TsOs.Boot
open ByteMemory Paging

/-- The physical address of a word. -/
def earlyWord (va : Nat) : Option Nat := do
  let f ← earlyPages (va / frameSize)
  let _ ← earlyPages ((va + 3) / frameSize)
  return f * frameSize + va % frameSize

/-- The symbols of `linker.ld`. -/
structure Symbols where
  lstext : Nat
  letext : Nat
  stext : Nat
  lsdata : Nat
  ledata : Nat
  sdata : Nat
  kargPhy : Nat

/-- The loops `cp_text` and `cp_data`. -/
def copyLoop : Nat → Nat → Nat → Mem → Option Mem
  | 0, _, _, m => some m
  | ecx + 1, ebx, edx, m => do
      let src ← earlyWord ebx
      let dst ← earlyWord edx
      copyLoop ecx (u32 (ebx + 1)) (u32 (edx + 1)) (store32 m dst (load32 m src))

/-- The first word of the stack that `mbr.asm` sets up. -/
def bootStack : Nat := 0x90000 - 4

/-- The code of `.kernel_setup` and of `_start` up to the change of the descriptor table. -/
def kernelSetup (sym : Symbols) (ebx : Nat) (m : Mem) : Option Mem := do
  let esp ← earlyWord bootStack
  let m := store32 m esp ebx
  let m ← copyLoop (sub32 sym.letext sym.lstext) (u32 (ebx + sym.lstext)) sym.stext m
  let m ← copyLoop (sub32 sym.ledata sym.lsdata) (u32 (load32 m esp + sym.lsdata)) sym.sdata m
  let karg ← earlyWord sym.kargPhy
  return store32 m karg (u32 (load32 m esp + sym.ledata))

variable {m m' : Mem} {src dst n a b : Nat}

theorem earlyWord_low (h : a + 3 < oneMB) : earlyWord a = some a := by
  have hfirst := (earlyPages_addr a).1 (by omega)
  have hlast := (earlyPages_addr (a + 3)).1 h
  rw [earlyWord, hfirst, hlast]
  exact congrArg some (earlyPages_offset a).1

theorem earlyWord_kernel (hlow : kernelVStart ≤ a) (hhigh : a + 3 < kernelVStart + userPStart) :
    earlyWord a = some (a - kernelVStart) := by
  have hfirst := (earlyPages_addr a).2.1 ⟨hlow, by omega⟩
  have hlast := (earlyPages_addr (a + 3)).2.1 ⟨by omega, hhigh⟩
  rw [earlyWord, hfirst, hlast]
  exact congrArg some ((earlyPages_offset a).2 hlow)

theorem store32_outside {v x : Nat} (h : x < a ∨ a + 4 ≤ x) : store32 m a v x = m x := store_of_outside m a v h

/-! ## One loop -/

/-- `n` bytes from `src` on are copied to `dst`, and up to three bytes behind them are overwritten. -/
structure Copied (src dst n : Nat) (m m' : Mem) : Prop where
  bytes : ∀ i < n, m' (dst + i) = m (src + i)
  rest : ∀ a, a < dst ∨ dst + n + 3 ≤ a → m' a = m a

theorem copyLoop_copied (hsrc : src + n + 3 ≤ oneMB) (hdst : dst + n + 3 ≤ userPStart)
    (hapart : src + n + 3 ≤ dst) :
    ∃ m', copyLoop n src (kernelVStart + dst) m = some m' ∧ Copied src dst n m m' := by
  induction n generalizing src dst m with
  | zero => exact ⟨m, rfl, fun i hi => absurd hi (by omega), fun a _ => rfl⟩
  | succ n ih =>
      have hMB : oneMB = 0x100000 := rfl
      have hVStart : kernelVStart = 0xC0000000 := rfl
      have hPStart : userPStart = 0x1000000 := rfl
      have hload : earlyWord src = some src := earlyWord_low (by omega)
      have hstore : earlyWord (kernelVStart + dst) = some dst := by
        rw [earlyWord_kernel (by omega) (by omega), Nat.add_sub_cancel_left]
      have hnextSrc : u32 (src + 1) = src + 1 := Nat.mod_eq_of_lt (by omega)
      have hnextDst : u32 (kernelVStart + dst + 1) = kernelVStart + (dst + 1) := by
        rw [u32, Nat.add_assoc, Nat.mod_eq_of_lt (by omega)]
      obtain ⟨m₁, hm₁⟩ : ∃ m₁, store32 m dst (load32 m src) = m₁ := ⟨_, rfl⟩
      obtain ⟨m', hrun, hcopied⟩ : ∃ m', copyLoop n (src + 1) (kernelVStart + (dst + 1)) m₁ = some m' ∧
          Copied (src + 1) (dst + 1) n m₁ m' := ih (by omega) (by omega) (by omega)
      rw [← hm₁] at hrun hcopied
      refine ⟨m', ?_, fun i hi => ?_, fun a ha => ?_⟩
      · rw [copyLoop, hload, hstore]
        simp only [bind, Option.bind, hnextSrc, hnextDst]
        exact hrun
      · cases i with
        | zero =>
            have hbyte : store32 m dst (load32 m src) dst = m src := by
              have hfirst := load_byte m src (by decide : 0 < 4)
              rw [Nat.add_zero] at hfirst
              rw [store32, store, if_pos (by omega), Nat.sub_self]
              exact hfirst
            rw [Nat.add_zero, Nat.add_zero, hcopied.rest dst (by omega), hbyte]
        | succ i =>
            have hsrc' : src + 1 + i = src + (i + 1) := by omega
            have hdst' : dst + 1 + i = dst + (i + 1) := by omega
            have hnext := hcopied.bytes i (by omega)
            rwa [hsrc', hdst', store32_outside (by omega)] at hnext
      · rw [hcopied.rest a (by omega), store32_outside (by omega)]

/-! ## The image -/

/-- The parts of `kimage`. The first one has the boot sector and the descriptor table, and `setup` is the
section `.kernel_setup`. -/
structure KImage where
  boot : List UInt8
  earlySetup : List UInt8
  setup : List UInt8
  text : List UInt8
  data : List UInt8
  init : List UInt8
  boot_length : boot.length = 0x230

namespace KImage

def bytes (img : KImage) : List UInt8 :=
  img.boot ++ (img.earlySetup ++ (img.setup ++ (img.text ++ (img.data ++ img.init))))

/-- `_init_end`, where the kernel follows the early initialisation. -/
def initEnd (img : KImage) : Nat := loadedAddress + 0x30 + img.earlySetup.length

/-- The addresses that the linker gives. The data does not start before the text ends, and all of it is
in the range that is mapped. -/
structure Linked (img : KImage) (sym : Symbols) : Prop where
  lstext : sym.lstext = img.setup.length
  letext : sym.letext = sym.lstext + img.text.length
  stext : sym.stext = kernelVStart + 0x800000
  lsdata : sym.lsdata = sym.letext
  ledata : sym.ledata = sym.lsdata + img.data.length
  sdata : sym.stext + img.text.length ≤ sym.sdata
  fits : sym.sdata + img.data.length + 3 ≤ kernelVStart + userPStart
  kargPhy : sym.sdata ≤ sym.kargPhy ∧ sym.kargPhy + 4 ≤ sym.sdata + img.data.length

end KImage

/-- The bytes from `a` on. -/
def HasAt (m : Mem) (a : Nat) (l : List UInt8) : Prop := ∀ i (hi : i < l.length), m (a + i) = l[i]

theorem HasAt.append_left {l l' : List UInt8} (h : HasAt m a (l ++ l')) : HasAt m a l := by
  intro i hi
  rw [h i (by rw [List.length_append]; omega), List.getElem_append_left hi]

theorem HasAt.append_right {l l' : List UInt8} (h : HasAt m a (l ++ l')) : HasAt m (a + l.length) l' := by
  intro i hi
  have hbyte := h (l.length + i) (by rw [List.length_append]; omega)
  rw [List.getElem_append_right (by omega)] at hbyte
  rw [Nat.add_assoc, hbyte]
  congr 1
  omega

theorem HasAt.congr {l : List UInt8} (h : HasAt m a l) (hsame : ∀ i < l.length, m' (b + i) = m (a + i)) :
    HasAt m' b l := fun i hi => (hsame i hi).trans (h i hi)

/-- What is at the link addresses when the kernel starts. -/
structure Placed (img : KImage) (sym : Symbols) (m : Mem) : Prop where
  text : HasAt m 0x800000 img.text
  data : ∀ i (hi : i < img.data.length), (sym.sdata + i < sym.kargPhy ∨ sym.kargPhy + 4 ≤ sym.sdata + i) →
    m (sym.sdata - kernelVStart + i) = img.data[i]
  kargPhy : load32 m (sym.kargPhy - kernelVStart) = img.initEnd + sym.ledata
  init : HasAt m (img.initEnd + sym.ledata) img.init

theorem sub32_add (a n : Nat) (h : a + n < 2 ^ 32) : sub32 (a + n) a = n := by
  rw [sub32, Nat.mod_eq_of_lt (by omega : a < 2 ^ 32)]
  omega

/-- `.kernel_setup` puts the text and the data of the kernel to their link addresses, and `karg_phy` points
to the first program. -/
theorem kernelSetup_placed {img : KImage} {sym : Symbols} (hl : img.Linked sym)
    (hm : HasAt m img.initEnd (img.setup ++ (img.text ++ (img.data ++ img.init))))
    (hend : img.initEnd + sym.ledata + img.init.length ≤ bootStack) :
    ∃ m', kernelSetup sym img.initEnd m = some m' ∧ Placed img sym m' := by
  have hMB : oneMB = 0x100000 := rfl
  have hVStart : kernelVStart = 0xC0000000 := rfl
  have hPStart : userPStart = 0x1000000 := rfl
  have hstack : bootStack = 0x8FFFC := rfl
  obtain ⟨hlstext, hletext, hstext, hlsdata, hledata, hsdata, hfits, hkarg⟩ := hl
  have htext := hm.append_right.append_left
  have hdata := hm.append_right.append_right.append_left
  have hinit := hm.append_right.append_right.append_right
  -- the base address on the stack
  have hesp : earlyWord bootStack = some bootStack := earlyWord_low (by omega)
  have hm₁ : ∀ a < bootStack, store32 m bootStack img.initEnd a = m a := fun a ha => store32_outside (by omega)
  have hbase₁ : load32 (store32 m bootStack img.initEnd) bootStack = img.initEnd :=
    load32_store32_same m bootStack (by omega)
  obtain ⟨m₁, hpush⟩ : ∃ m₁, store32 m bootStack img.initEnd = m₁ := ⟨_, rfl⟩
  rw [hpush] at hm₁ hbase₁
  -- the text
  obtain ⟨m₂, hrun₂, hcopied₂⟩ :
      ∃ m₂, copyLoop img.text.length (img.initEnd + sym.lstext) (kernelVStart + 0x800000) m₁ = some m₂ ∧
        Copied (img.initEnd + sym.lstext) 0x800000 img.text.length m₁ m₂ :=
    copyLoop_copied (by omega) (by omega) (by omega)
  have hm₂ : ∀ a < bootStack + 4, m₂ a = m₁ a := fun a ha => hcopied₂.rest a (by omega)
  have hbase₂ : load32 m₂ bootStack = img.initEnd :=
    (load_congr fun a _ ha => hm₂ a ha).trans hbase₁
  -- the data
  obtain ⟨m₃, hrun₃, hcopied₃⟩ :
      ∃ m₃, copyLoop img.data.length (img.initEnd + sym.lsdata) (kernelVStart + (sym.sdata - kernelVStart)) m₂ =
          some m₃ ∧
        Copied (img.initEnd + sym.lsdata) (sym.sdata - kernelVStart) img.data.length m₂ m₃ :=
    copyLoop_copied (by omega) (by omega) (by omega)
  have hm₃ : ∀ a < sym.sdata - kernelVStart, m₃ a = m₂ a := fun a ha => hcopied₃.rest a (by omega)
  have hbase₃ : load32 m₃ bootStack = img.initEnd :=
    (load_congr fun a _ ha => hm₃ a (by omega)).trans hbase₂
  have hpa : earlyWord sym.kargPhy = some (sym.kargPhy - kernelVStart) := earlyWord_kernel (by omega) (by omega)
  have hvalue : u32 (img.initEnd + sym.ledata) = img.initEnd + sym.ledata := Nat.mod_eq_of_lt (by omega)
  have hm₄ : ∀ a v, a < sym.kargPhy - kernelVStart ∨ sym.kargPhy - kernelVStart + 4 ≤ a →
      store32 m₃ (sym.kargPhy - kernelVStart) v a = m₃ a := fun a v ha => store32_outside ha
  refine ⟨store32 m₃ (sym.kargPhy - kernelVStart) (img.initEnd + sym.ledata), ?_, ?_, fun i hi hne => ?_, ?_, ?_⟩
  · have hecx₂ : sub32 sym.letext sym.lstext = img.text.length := by
      rw [hletext]
      exact sub32_add _ _ (by omega)
    have hebx₂ : u32 (img.initEnd + sym.lstext) = img.initEnd + sym.lstext := Nat.mod_eq_of_lt (by omega)
    have hecx₃ : sub32 sym.ledata sym.lsdata = img.data.length := by
      rw [hledata]
      exact sub32_add _ _ (by omega)
    have hebx₃ : u32 (img.initEnd + sym.lsdata) = img.initEnd + sym.lsdata := Nat.mod_eq_of_lt (by omega)
    have hedx₃ : kernelVStart + (sym.sdata - kernelVStart) = sym.sdata := by omega
    rw [← hstext] at hrun₂
    rw [hedx₃] at hrun₃
    simp only [kernelSetup, hesp, bind, Option.bind, hpush, hecx₂, hebx₂, hrun₂, hbase₂, hecx₃, hebx₃, hrun₃,
      hbase₃, hpa, hvalue, pure]
  · refine htext.congr fun i hi => ?_
    rw [hm₄ _ _ (by omega), hm₃ _ (by omega), hcopied₂.bytes i hi, hm₁ _ (by omega), hlstext]
  · rw [hm₄ _ _ (by omega), hcopied₃.bytes i hi, hm₂ _ (by omega), hm₁ _ (by omega)]
    have hbyte := hdata i hi
    rwa [← hlstext, Nat.add_assoc img.initEnd, ← hletext, ← hlsdata] at hbyte
  · exact load32_store32_same m₃ _ (by omega)
  · refine hinit.congr fun i hi => ?_
    rw [hm₄ _ _ (by omega), hm₃ _ (by omega), hm₂ _ (by omega), hm₁ _ (by omega)]
    congr 1
    omega

/-- The image that `init_task0` gives to `spawn_ram`. -/
def firstProgram (sym : Symbols) (m : Mem) : Tasking.Image where
  base := kernelVStart + load32 m (sym.kargPhy - kernelVStart)
  mem a := m (a - kernelVStart)

theorem Placed.firstProgram {img : KImage} {sym : Symbols} (h : Placed img sym m) :
    HasAt (firstProgram sym m).mem (firstProgram sym m).base img.init := by
  intro i hi
  have hbyte := h.init i hi
  rw [← h.kargPhy] at hbyte
  rw [← hbyte]
  change m (kernelVStart + load32 m (sym.kargPhy - kernelVStart) + i - kernelVStart) = _
  rw [Nat.add_assoc, Nat.add_sub_cancel_left]

/-! ## The disk -/

/-- The image is at the start of the disk. -/
def OnDisk (img : KImage) (d : Floppy) : Prop := ∀ i (hi : i < img.bytes.length), d.byte i = img.bytes[i]

/-- What is loaded from the disk, behind the early initialisation. -/
theorem Filled.kernel {img : KImage} {d : Floppy} {m₀ : Mem} {P : Nat} (h : Filled d m₀ P m) (hd : OnDisk img d)
    (hP : img.bytes.length ≤ 512 * P) :
    HasAt m img.initEnd (img.setup ++ (img.text ++ (img.data ++ img.init))) := by
  intro i hi
  have hboot := img.boot_length
  have hsplit : img.bytes = (img.boot ++ img.earlySetup) ++ (img.setup ++ (img.text ++ (img.data ++ img.init))) := by
    rw [KImage.bytes, List.append_assoc]
  have hfront : (img.boot ++ img.earlySetup).length = 0x230 + img.earlySetup.length := by
    rw [List.length_append, hboot]
  have hlt : 0x230 + img.earlySetup.length + i < img.bytes.length := by
    rw [hsplit, List.length_append, hfront]
    omega
  have haddr : img.initEnd + i = 0x8E00 + (0x230 + img.earlySetup.length + i) := by
    have hload : loadedAddress = 0x9000 := rfl
    rw [KImage.initEnd]
    omega
  rw [haddr, h.bytes _ (by omega) (by omega), hd _ hlt]
  simp only [hsplit]
  rw [List.getElem_append_right (by omega)]
  congr 1
  omega

/-- From the disk to `main`: the loader, and then `.kernel_setup` in a memory in which the early
initialisation has left the kernel as it was loaded. -/
theorem boot_placed {b : Bios} {d : Floppy} {img : KImage} {sym : Symbols} (hb : Documented b d)
    (hS : 2 ≤ d.sectors ∧ d.sectors < 2 ^ 6) (hcyl : loadedCylNum d.sectors < d.cylinders) (hl : img.Linked sym)
    (hd : OnDisk img d) (hstart : NoBoundary d.sectors 0 (loadedTracks d.sectors))
    (hloaded : img.bytes.length ≤ 512 * (loadedTracks d.sectors * d.sectors))
    (hend : img.initEnd + sym.ledata + img.init.length ≤ bootStack) (m₀ : Mem) :
    ∃ s, loadKernel b m₀ = some (.ok s) ∧
      ∀ m, (∀ a, img.initEnd ≤ a → a < img.initEnd + sym.ledata + img.init.length → m a = s.mem a) →
        ∃ m', kernelSetup sym img.initEnd m = some m' ∧ Placed img sym m' ∧
          HasAt (firstProgram sym m').mem (firstProgram sym m').base img.init := by
  obtain ⟨s, hrun, hfilled⟩ := loadKernel_filled hb hS hcyl m₀ hstart
  refine ⟨s, hrun, fun m hm => ?_⟩
  have hkernel : HasAt m img.initEnd (img.setup ++ (img.text ++ (img.data ++ img.init))) := by
    refine (hfilled.kernel hd hloaded).congr fun i hi => hm _ (by omega) ?_
    obtain ⟨hlstext, hletext, -, hlsdata, hledata, -, -, -⟩ := hl
    simp only [List.length_append] at hi
    omega
  obtain ⟨m', hsetup, hplaced⟩ := kernelSetup_placed hl hkernel hend
  exact ⟨m', hsetup, hplaced, hplaced.firstProgram⟩

/-- A kernel of one instruction and of one word of data, and a program of two bytes. -/
def sampleKImage : KImage where
  boot := List.replicate 0x230 0
  earlySetup := [0x90]
  setup := [0x90, 0x90]
  text := [0xF4]
  data := [1, 2, 3, 4, 5, 6, 7, 8]
  init := [0x34, 0x12]
  boot_length := List.length_replicate

def sampleSymbols : Symbols := ⟨2, 3, 0xC0800000, 3, 11, 0xC0800010, 0xC0800014⟩

theorem sampleKImage_linked : sampleKImage.Linked sampleSymbols := by
  constructor <;> decide

def sampleDisk : Floppy := ⟨18, 80, fun i => sampleKImage.bytes.getD i 0⟩

theorem sampleDisk_has : OnDisk sampleKImage sampleDisk := by
  intro i hi
  change sampleKImage.bytes.getD i 0 = _
  rw [List.getD_eq_getElem?_getD, List.getElem?_eq_getElem hi, Option.getD_some]

theorem sampleKImage_length : sampleKImage.bytes.length = 574 := by
  rw [KImage.bytes, List.length_append, sampleKImage.boot_length]
  rfl

theorem boot_placed_sample : ∃ s m', loadKernel (biosFor sampleDisk) (fun _ => 0) = some (.ok s) ∧
    kernelSetup sampleSymbols sampleKImage.initEnd s.mem = some m' ∧ Placed sampleKImage sampleSymbols m' := by
  have hlength := sampleKImage_length
  obtain ⟨s, hrun, hsetup⟩ := boot_placed (biosFor_documented (by decide)) (by decide) (by decide)
    sampleKImage_linked sampleDisk_has (noBoundary_of_even (by decide) _ _) (by rw [hlength]; decide) (by decide)
    fun _ => 0
  obtain ⟨m', hm', hplaced, -⟩ := hsetup s.mem fun _ _ _ => rfl
  exact ⟨s, m', hrun, hm', hplaced⟩

end TsOs.Boot
