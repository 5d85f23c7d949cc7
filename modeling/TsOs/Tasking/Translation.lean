import TsOs.Kernel.Gates
import TsOs.Library.Ia32Paging
import TsOs.Tasking.NewSpaces
import TsOs.Tasking.Runs

/-!
# The processor's view of the directories

The page tables are frames of the machine, and the processor finds them in memory. The
tables of `pg_dir0` that the early initialisation has filled are those of the kernel's
image and of the first megabyte, and `load_task` leaves them alone.
-/

namespace TsOs.Tasking
open Paging Ia32
open Gates (InImage)

/-- The tables of `pg_dir0` for the first megabyte and the kernel's half. -/
structure EarlyTables (s : Machine) : Prop where
  slot : ∀ i < 1021, Used earlyPages i → word s pgDir0 i = pageEntry (dir0Pt i) pageFlgKernel
  table : ∀ i < 1021, Used earlyPages i → ∀ j < 1024, word s (dir0Pt i) j = smallEntry (earlyPages (i * 1024 + j))

/-- The memory has a word of a frame. -/
def Holds (m : Memory) (s : Machine) (f j : Nat) : Prop :=
  (readWord m (BitVec.ofNat 32 (f * frameSize + 4 * j))).toNat = word s f j

variable {k k' : Kernel} {ρ : Nat → Tag} {F D f g retSyscall va : Nat} {img : Image} {s s' : Machine} {m m' : Memory}
  {a b : Word}

theorem initPgDir0Vmap_earlyTables (h : initPgDir0Vmap s = some s') : EarlyTables s' := by
  obtain ⟨s₁, hrun, hs⟩ := initPgDir0Vmap_shows s
  obtain rfl := Option.some.inj (hrun.symm.trans h)
  exact ⟨fun i hi hused => (hs.used i (by omega) hused).1, fun i hi hused => (hs.used i (by omega) hused).2.2⟩

/-- A mapped page, and where its table is. -/
theorem EarlyTables.walk (h : EarlyTables s) (hva : va < 1021 * 2 ^ 22)
    (hpage : earlyPages (va / frameSize) = some f) :
    Paging.walk s pgDir0 va = some (f * frameSize + va % frameSize) ∧
      frameOf (word s pgDir0 (pageDirIndex va)) = dir0Pt (pageDirIndex va) := by
  have hdi : pageDirIndex va < 1021 := Nat.div_lt_of_lt_mul (by omega)
  have hti : pageTableIndex va < 1024 := Nat.mod_lt _ (by decide)
  have hused : Used earlyPages (pageDirIndex va) := ⟨_, hti, by rw [page_split, hpage]; simp⟩
  have hslot := h.slot _ hdi hused
  have hword := h.table _ hdi hused _ hti
  rw [page_split, hpage] at hword
  refine ⟨?_, by rw [hslot, frameOf_pageEntry (by decide)]⟩
  simp only [Paging.walk, hslot, hword, smallEntry,
    entrySet_pageEntry (by decide : pageFlgKernel < frameSize) (by decide),
    frameOf_pageEntry (by decide : pageFlgKernel < frameSize),
    entrySet_pageEntry (by decide : pageP < frameSize) (by decide),
    frameOf_pageEntry (by decide : pageP < frameSize), if_true]

/-- `load_task` writes to user frames and to the temporary mappings only, and to frame 0. -/
theorem loadTask_kept (hs : Sound ρ F k) (himg : img.BelowStack) (h : loadTask retSyscall pgDir0 k img = some k')
    (hg : g < userFrame) (hsys : g ≠ sysTb) (hzero : g ≠ 0) :
    ∀ j < 1024, word k'.machine g j = word k.machine g j := by
  rw [loadTask_eq (by decide)] at h
  obtain ⟨⟨d, s₁⟩, hprep, h⟩ := Option.bind_eq_some_iff.mp h
  obtain ⟨ρ₁, R, hlink⟩ := hs.linkedDir hprep
  have huntagged : ρ₁ g = .free := hlink.prepared.tagged.untagged hg
  have huser := (hlink.prepared.tagged.user d.newPgDirPhy (by simp [hlink.prepared.dirTag])).1
  obtain ⟨_, _, -, hprepared, -⟩ := prepareDir_spec (K := (· = g)) (P := fun _ => False) hs.tagged
    (by rintro _ rfl; exact ⟨hsys, Or.inl hg⟩) hprep
  obtain ⟨_, _, _, -, hfinished, -⟩ := finishTask_spec (K := (· = g)) hlink.prepared hlink.present hlink.table
    (by rintro _ rfl; exact ⟨Or.inl hg, by simp [huntagged], hsys, hzero, by simp [huntagged]⟩) himg h
  intro j hj
  have hlinked : word (linkRange s₁ pgDir0 d.newPgDirPhy (1022 - userSlots) userSlots) g j = word s₁ g j :=
    linkRange_word_ne fun hin => absurd hin.1 (by omega)
  rw [hfinished.kept g rfl j hj]
  exact hlinked.trans (hprepared.kept g rfl j hj)

/-- Task 0 changes slot 1021 of `pg_dir0` only. -/
theorem initTask0_earlyTables (hb : Booted k) (he : EarlyTables k.machine) (h : initTask0 k = some k') :
    EarlyTables k'.machine := by
  rw [initTask0] at h
  obtain ⟨⟨kstack, k₁⟩, halloc, h⟩ := Option.bind_eq_some_iff.mp h
  obtain ⟨tid, -, h⟩ := Option.bind_eq_some_iff.mp h
  obtain rfl := Option.some.inj h
  have hb' : Booted (clearTasks k) := ⟨hb.rev, hb.sys, hb.kstack⟩
  obtain ⟨_, _, _, _, -, hslots, hlow⟩ := initStack_spec hb' halloc
  refine ⟨fun i hi hused => ?_, fun i hi hused j hj => ?_⟩
  · exact (hslots i (by omega) hi.ne).trans (he.slot i hi hused)
  · obtain ⟨-, huser, hsys⟩ := NewDirectory.dir0Pt_low hi
    have hrev : dir0Pt i ≠ dir0Pt 1023 := fun heq => absurd (dir0Pt_inj heq) (by omega)
    exact (hlow (dir0Pt i) ⟨huser, dir0Pt_ne_pgDir0 i, hrev, hsys⟩ j hj).trans (he.table i hi hused j hj)

theorem loadTask_earlyTables (hs : Sound ρ F k) (he : EarlyTables k.machine) (himg : img.BelowStack)
    (h : loadTask retSyscall pgDir0 k img = some k') : EarlyTables k'.machine where
  slot i hi hused := by
    rw [loadTask_kept hs himg h (by decide) (by decide) (by decide) i (by omega)]
    exact he.slot i hi hused
  table i hi hused j hj := by
    obtain ⟨hpos, hlow, hsys⟩ := NewDirectory.dir0Pt_low hi
    rw [loadTask_kept hs himg h hlow hsys (by omega) j hj]
    exact he.table i hi hused j hj

/-- The tables are there after the early initialisation, `init_task0` and any number of loads. -/
theorem boot_earlyTables {images : List Image} {arr : Nat → Task} {current : Option Nat}
    (hmap : initPgDir0Vmap s = some s') (himgs : ∀ img ∈ images, img.BelowStack)
    (hrun : runTasks retSyscall ⟨s', arr, current⟩ images = some k) : Isolated k ∧ EarlyTables k.machine := by
  obtain ⟨k₀, hinit, hrun⟩ := Option.bind_eq_some_iff.mp hrun
  have hbooted := initPgDir0Vmap_booted hmap arr current
  obtain ⟨hs, -⟩ := initTask0_sound hbooted hinit
  have he := initTask0_earlyTables hbooted (initPgDir0Vmap_earlyTables hmap) hinit
  have hguard : Transition.Guarded (loadTask retSyscall pgDir0) (fun _ img => img.BelowStack) k₀ images :=
    Transition.guarded_of_forall fun img himg _ => himgs img himg
  have hkeep : ∀ k img k', Isolated k ∧ EarlyTables k.machine → img.BelowStack →
      loadTask retSyscall pgDir0 k img = some k' → Isolated k' ∧ EarlyTables k'.machine := by
    rintro k img k' ⟨⟨ρ, F, hs⟩, he⟩ himg hload
    obtain ⟨⟨ρ', hs'⟩, -⟩ := loadTask_sound hs himg hload
    exact ⟨⟨ρ', F, hs'⟩, loadTask_earlyTables hs he himg hload⟩
  have hlast := Transition.inv_of_run hkeep ⟨hs, he⟩ hguard hrun
  exact hlast

/-! ## The walk -/

/-- The walk finds in memory what the machine has. -/
theorem pageWalk_eq (hD : D < 2 ^ 20) (hdir : Holds m s D (pageDirIndex a.toNat))
    (htable : Holds m s (frameOf (word s D (pageDirIndex a.toNat))) (pageTableIndex a.toNat)) :
    pageWalk m (BitVec.ofNat 32 (D * frameSize)) a = (Paging.walk s D a.toNat).map (BitVec.ofNat 32) := by
  have hcr3 : (BitVec.ofNat 32 (D * frameSize)).toNat / 4096 * 4096 = D * frameSize := by
    have hsize : frameSize = 4096 := rfl
    rw [BitVec.toNat_ofNat, hsize]
    omega
  have hentry : (readWord m (BitVec.ofNat 32 (D * frameSize + 4 * (a.toNat / 2 ^ 22)))).toNat =
      word s D (pageDirIndex a.toNat) := hdir
  have hpage : (readWord m (BitVec.ofNat 32 (word s D (pageDirIndex a.toNat) / 4096 * 4096 +
      4 * (a.toNat / 2 ^ 12 % 1024)))).toNat =
        word s (frameOf (word s D (pageDirIndex a.toNat))) (pageTableIndex a.toNat) := htable
  rw [pageWalk, hcr3, hentry]
  have hset : ∀ e, entrySet e = true ↔ e % 2 = 1 := fun _ => decide_eq_true_iff
  simp only [hpage, Paging.walk, hset]
  split_ifs <;> rfl

theorem walk_mappedFrame (s : Machine) (D va : Nat) :
    Paging.walk s D va = (mappedFrame s D va).map fun f => f * frameSize + va % frameSize := by
  unfold Paging.walk mappedFrame
  dsimp only
  split_ifs <;> rfl

/-- A word stays while nothing is written to its frame. -/
theorem Holds.congr {j : Nat} (h : Holds m s f j) (hm : ∀ b : Word, b.toNat / frameSize = f → m' b = m b)
    (hf : f < 2 ^ 20) (hj : j < 1024) : Holds m' s f j := by
  rw [Holds, ← h]
  refine congrArg BitVec.toNat (readWord_of_span fun b hb => hm b ?_)
  have hsize : frameSize = 4096 := rfl
  change (b - BitVec.ofNat 32 (f * frameSize + 4 * j)).toNat < 4 at hb
  rw [hsize] at hb ⊢
  bv_omega

/-! ## The kernel's half -/

/-- The addresses of the image and of the heap, the kernel's first stack among them. -/
def kernelBytes : Set Word := {b | kernelVStart + 8 * oneMB ≤ b.toNat ∧ b.toNat < kernelVStart + userPStart}

/-- Their places in memory. -/
def kernelPlace (b : Word) : Word := b - BitVec.ofNat 32 kernelVStart

/-- A directory has the slots of `pg_dir0` for these addresses. -/
def KernelSlots (s : Machine) (D : Nat) : Prop :=
  ∀ b ∈ kernelBytes, word s D (pageDirIndex b.toNat) = word s pgDir0 (pageDirIndex b.toNat)

/-- The entries for them are in memory. -/
structure HoldsKernel (m : Memory) (s : Machine) (D : Nat) : Prop where
  slot : ∀ b ∈ kernelBytes, Holds m s D (pageDirIndex b.toNat)
  table : ∀ b ∈ kernelBytes, Holds m s (dir0Pt (pageDirIndex b.toNat)) (pageTableIndex b.toNat)

theorem kernelPlace_toNat (hb : b ∈ kernelBytes) : (kernelPlace b).toNat = b.toNat - kernelVStart ∧
    8 * oneMB ≤ (kernelPlace b).toNat ∧ (kernelPlace b).toNat < userPStart := by
  obtain ⟨hlow, hhigh⟩ := hb
  have hsizes : oneMB = 0x100000 ∧ userPStart = 0x1000000 ∧ kernelVStart = 0xC0000000 := ⟨rfl, rfl, rfl⟩
  have hplace : (kernelPlace b).toNat = b.toNat - kernelVStart := by
    rw [kernelPlace]
    bv_omega
  omega

theorem kernelPlace_injective : Function.Injective kernelPlace := by
  intro x y heq
  have hback := congrArg (· + BitVec.ofNat 32 kernelVStart) heq
  simpa only [kernelPlace, BitVec.sub_add_cancel] using hback

theorem kernelBytes_slot (hb : b ∈ kernelBytes) : userSlots < pageDirIndex b.toNat ∧ pageDirIndex b.toNat < 1021 := by
  obtain ⟨hlow, hhigh⟩ := hb
  have hsizes : oneMB = 0x100000 ∧ userPStart = 0x1000000 ∧ kernelVStart = 0xC0000000 := ⟨rfl, rfl, rfl⟩
  have hslots : userSlots = 768 := rfl
  rw [hslots]
  unfold pageDirIndex
  omega

/-- Every directory with the kernel's slots gives the image its places. -/
theorem EarlyTables.translates (he : EarlyTables s) (hslots : KernelSlots s D) (hD : D < 2 ^ 20)
    (h : HoldsKernel m s D) : Set.EqOn (twoLevel m (BitVec.ofNat 32 (D * frameSize))) kernelPlace kernelBytes := by
  intro b hb
  obtain ⟨hplace, -, -⟩ := kernelPlace_toNat hb
  obtain ⟨-, hdi⟩ := kernelBytes_slot hb
  obtain ⟨hlow, hhigh⟩ := id hb
  have hsizes : oneMB = 0x100000 ∧ userPStart = 0x1000000 ∧ kernelVStart = 0xC0000000 := ⟨rfl, rfl, rfl⟩
  have hpage := (earlyPages_addr b.toNat).2.1 ⟨by omega, hhigh⟩
  obtain ⟨hwalk, htable⟩ := he.walk (by omega) hpage
  have hword := hslots b hb
  have hheld : Holds m s (frameOf (word s D (pageDirIndex b.toNat))) (pageTableIndex b.toNat) := by
    rw [hword, htable]
    exact h.table b hb
  have hwalk' : Paging.walk s D b.toNat = Paging.walk s pgDir0 b.toNat := by
    simp only [Paging.walk, hword]
  rw [twoLevel, pageWalk_eq hD (h.slot b hb) hheld, hwalk', hwalk, Option.map_some, Option.getD_some,
    (earlyPages_offset b.toNat).2 (by omega)]
  exact BitVec.eq_of_toNat_eq (by rw [BitVec.toNat_ofNat, hplace]; omega)

theorem EarlyTables.shown (he : EarlyTables s) (hslots : KernelSlots s D) (hD : D < 2 ^ 20)
    (h : HoldsKernel m s D) (hb : b ∈ kernelBytes) :
    shown twoLevel m (BitVec.ofNat 32 (D * frameSize)) b = m (kernelPlace b) :=
  congrArg m (he.translates hslots hD h hb)

/-! ## The page of the kernel stack -/

def kstackPage : Set Word := {b | kstackFrame ≤ b.toNat ∧ b.toNat < kstackFrame + frameSize}

/-- The place of an address in the page, with the frame that a directory has there. -/
def kstackPlace (St : Nat) (b : Word) : Word := BitVec.ofNat 32 (St * frameSize + (b.toNat - kstackFrame))

/-- The entries for the page are in memory. -/
structure HoldsStack (m : Memory) (s : Machine) (D : Nat) : Prop where
  slot : Holds m s D (pageDirIndex kstackFrame)
  table : Holds m s (frameOf (word s D (pageDirIndex kstackFrame))) (pageTableIndex kstackFrame)

theorem kstackPage_index (hb : b ∈ kstackPage) : pageDirIndex b.toNat = pageDirIndex kstackFrame ∧
    pageTableIndex b.toNat = pageTableIndex kstackFrame ∧ b.toNat % frameSize = b.toNat - kstackFrame := by
  obtain ⟨hlow, hhigh⟩ := hb
  have hpage : kstackFrame = 0xFF7FF000 := rfl
  have hsize : frameSize = 4096 := rfl
  rw [hsize] at hhigh ⊢
  unfold pageDirIndex pageTableIndex
  omega

theorem translates_kstackPage {St : Nat} (hD : D < 2 ^ 20) (hmapped : mappedFrame s D kstackFrame = some St)
    (h : HoldsStack m s D) :
    Set.EqOn (twoLevel m (BitVec.ofNat 32 (D * frameSize))) (kstackPlace St) kstackPage := by
  intro b hb
  obtain ⟨hdi, hti, hoff⟩ := kstackPage_index hb
  have hsame : mappedFrame s D b.toNat = some St := by
    rw [← hmapped, mappedFrame, mappedFrame, hdi, hti]
  have hslot := h.slot
  have htable := h.table
  rw [← hdi] at hslot htable
  rw [← hti] at htable
  rw [twoLevel, pageWalk_eq hD hslot htable, walk_mappedFrame, hsame, Option.map_some, Option.map_some,
    Option.getD_some, hoff, kstackPlace]

/-! ## The machine in memory -/

/-- The frames of the tables of `pg_dir0`, and those of user memory, are in memory as the machine has them. -/
structure InMemory (m : Memory) (s : Machine) : Prop where
  tables : ∀ f, pgDir0 ≤ f → f ≤ dir0Pt 1023 → ∀ j < 1024, Holds m s f j
  user : ∀ f, userFrame ≤ f → f < maxFrameNum → ∀ j < 1024, Holds m s f j

theorem InMemory.holdsKernel (h : InMemory m s) (hD : D = pgDir0 ∨ userFrame ≤ D ∧ D < maxFrameNum) :
    HoldsKernel m s D where
  slot b hb := by
    obtain rfl | ⟨hlow, hhigh⟩ := hD
    · exact h.tables pgDir0 (le_refl _) (by decide) _ (pageDirIndex_lt b.isLt)
    · exact h.user D hlow hhigh _ (pageDirIndex_lt b.isLt)
  table b hb := by
    obtain ⟨-, hdi⟩ := kernelBytes_slot hb
    exact h.tables _ (by unfold dir0Pt; omega) (by unfold dir0Pt; omega) _ (pageTableIndex_lt _)

theorem InMemory.holdsStack (h : InMemory m s) (hD : userFrame ≤ D ∧ D < maxFrameNum)
    (htable : userFrame ≤ frameOf (word s D (pageDirIndex kstackFrame)) ∧
      frameOf (word s D (pageDirIndex kstackFrame)) < maxFrameNum) : HoldsStack m s D where
  slot := h.user D hD.1 hD.2 _ (by decide)
  table := h.user _ htable.1 htable.2 _ (by decide)

end TsOs.Tasking
