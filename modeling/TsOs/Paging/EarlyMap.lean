import TsOs.Paging.Access

/-!
# The map of the early initialisation

The part of `mem.c` that is built with `EARLY_INIT` runs before paging is on, so a
pointer is a physical address and the tables are reached directly. `init_pg_dir0_vmap`
maps the first megabyte to itself and sixteen megabytes at `KERNEL_V_START`. Every table
is also entered in the table of slot 1023, through which `get_phy_address` reads it
once paging is on.
-/

namespace TsOs.Paging

/-! ## The two-level walk -/

/-- The physical address that the directory in frame `D` gives an address. -/
def walk (s : Machine) (D va : Nat) : Option Nat :=
  let e := word s D (pageDirIndex va)
  if entrySet e then
    let p := word s (frameOf e) (pageTableIndex va)
    if entrySet p then some (frameOf p * frameSize + va % frameSize) else none
  else none

/-- The word at a virtual address, read with `pg_dir0` active. -/
def loadVirtual (s : Machine) (va : Nat) : Option Nat :=
  (walk s pgDir0 va).map fun pa => word s (pa / frameSize) (pa % frameSize / 4)

def getPhyAddress (s : Machine) (va : Nat) : Option Nat :=
  let pt := u32 (0xFFC00000 + pageDirIndex va * 2 ^ 12)
  (loadVirtual s (u32 (pt + 4 * pageTableIndex va))).map fun e =>
    u32 (pageAddr e + va % frameSize)

/-! ## Early routines -/

/-- `pt_phy_from_dir` on physical addresses. -/
def earlyPtPhyFromDir (s : Machine) (dir di : Nat) : Option Nat :=
  if entrySet (word s dir di) then some (frameOf (word s dir di)) else none

/-- `pg_dir_add` on physical addresses. -/
def earlyPgDirAdd (s : Machine) (dir revTb di f flag : Nat) : Machine :=
  if entrySet (word s dir di) then s
  else setWord (setWord s dir di (pageEntry f flag)) revTb di (pageEntry f pageP)

/-- `create_page_table` of the early build, with `none` for `NULL`. -/
def earlyCreatePageTable (s : Machine) (dir revTb va flag : Nat) : Option Nat × Machine :=
  let di := pageDirIndex va
  if entrySet (word s dir di) then (none, s)
  else
    let pt := dir0Pt di
    let s := setFrame s pt fun _ => 0
    let s := setWord s dir di (pageEntry pt flag)
    (some pt, setWord s revTb di (pageEntry pt pageP))

def initPgDir0 (s : Machine) : Machine :=
  let revTb := dir0Pt 1023
  let sysTb := dir0Pt 1022
  let s := setFrame s pgDir0 fun _ => 0
  let s := setFrame s revTb fun _ => 0
  let s := setFrame s sysTb fun _ => 0
  let s := earlyPgDirAdd s pgDir0 revTb 1023 revTb pageFlgKernel
  let s := earlyPgDirAdd s pgDir0 revTb 1022 sysTb pageFlgKernel
  setWord s sysTb 1023 (pageEntry pgDir0 pageFlgKernel)

/-- `set_pg_dir0_vmap`. The parameter `flag` of the source is not used, and the entry is found by
the index of the physical address. -/
def setPgDir0Vmap (s : Machine) (va pa : Nat) : Option Machine := do
  let revTb ← earlyPtPhyFromDir s pgDir0 1023
  let (new, s) := earlyCreatePageTable s pgDir0 revTb va pageFlgKernel
  let pt ← new.or (earlyPtPhyFromDir s pgDir0 (pageDirIndex va))
  return setWord s pt (pageTableIndex pa) (pa ||| pageP)

/-- The loops of `init_pg_dir0_vmap`: map the pages below `limit` at `offset`. -/
def mapPages (offset limit : Nat) : Nat → Machine → Nat → Option Machine
  | 0, _, _ => none
  | n + 1, s, pa =>
      if pa < limit then
        (setPgDir0Vmap s (u32 (pa + offset)) pa).bind fun s =>
          mapPages offset limit n s (u32 (pa + frameSize))
      else some s

/-- `init_pg_dir0_vmap` up to the set-up of the screen. -/
def initPgDir0Vmap (s : Machine) : Option Machine := do
  let s ← mapPages 0 oneMB pageFuel (initPgDir0 s) 0
  mapPages kernelVStart userPStart pageFuel s 0

/-! ## Tables and pages -/

/-- Some page of directory slot `i` is mapped. -/
def Used (pages : Nat → Option Nat) (i : Nat) : Prop := ∃ j < 1024, pages (i * 1024 + j) ≠ none

/-- The entry for a page that may be mapped. -/
def smallEntry : Option Nat → Nat
  | some f => pageEntry f pageP
  | none => 0

/-- The tables show the mapping `pages` of page numbers to frames, below the two system slots. -/
structure Shows (pages : Nat → Option Nat) (s : Machine) : Prop where
  used : ∀ i < 1022, Used pages i →
    word s pgDir0 i = pageEntry (dir0Pt i) pageFlgKernel ∧
    word s (dir0Pt 1023) i = pageEntry (dir0Pt i) pageP ∧
    ∀ j < 1024, word s (dir0Pt i) j = smallEntry (pages (i * 1024 + j))
  unused : ∀ i < 1022, ¬Used pages i → word s pgDir0 i = 0 ∧ word s (dir0Pt 1023) i = 0
  system : ∀ i, 1022 ≤ i → i < 1024 →
    word s pgDir0 i = pageEntry (dir0Pt i) pageFlgKernel ∧
    word s (dir0Pt 1023) i = pageEntry (dir0Pt i) pageP
  temp : ∀ j < 1024, word s (dir0Pt 1022) j =
    if j = 1023 then pageEntry pgDir0 pageFlgKernel else 0

variable {s s' : Machine} {pages : Nat → Option Nat} {i j va pa : Nat}

theorem dir0Pt_inj (h : dir0Pt i = dir0Pt j) : i = j := Nat.add_left_cancel h

theorem dir0Pt_ne_pgDir0 (i : Nat) : dir0Pt i ≠ pgDir0 := by
  unfold dir0Pt
  omega

theorem dir0Pt_lt (hi : i < 1024) : dir0Pt i < 2 ^ 20 := by
  have hdir : pgDir0 = 256 := by decide
  unfold dir0Pt
  omega

theorem word_setWord_apply (s : Machine) (f j v g i : Nat) :
    word (setWord s f j v) g i = if g = f ∧ i = j then u32 v else word s g i := by
  simp only [word, setWord]
  split
  next => rw [BitVec.toNat_ofNat, u32]
  next => rfl

theorem word_zeroFrame (s : Machine) (f g i : Nat) :
    word (setFrame s f fun _ => 0) g i = if g = f then 0 else word s g i := by
  simp only [word, setFrame]
  split <;> rfl

theorem u32_pageEntry {f flag : Nat} (hf : f < 2 ^ 20) (hflag : flag < frameSize) :
    u32 (pageEntry f flag) = pageEntry f flag :=
  u32_of_lt (pageEntry_lt hf hflag)

/-- A slot that is empty gets its two entries. -/
theorem word_earlyPgDirAdd {dir di f flag : Nat} (h : word s dir di = 0) (hf : f < 2 ^ 20)
    (hflag : flag < frameSize) (revTb g i : Nat) :
    word (earlyPgDirAdd s dir revTb di f flag) g i =
      if g = revTb ∧ i = di then pageEntry f pageP
      else if g = dir ∧ i = di then pageEntry f flag else word s g i := by
  rw [earlyPgDirAdd, h, if_neg (by decide), word_setWord_apply, word_setWord_apply,
    u32_pageEntry hf (by decide), u32_pageEntry hf hflag]

/-- The three tables that `init_pg_dir0` fills. -/
theorem word_initPgDir0 (s : Machine) (g i : Nat) : word (initPgDir0 s) g i =
    if g = dir0Pt 1022 then if i = 1023 then pageEntry pgDir0 pageFlgKernel else 0
    else if g = dir0Pt 1023 then
      if i = 1022 ∨ i = 1023 then pageEntry (dir0Pt i) pageP else 0
    else if g = pgDir0 then
      if i = 1022 ∨ i = 1023 then pageEntry (dir0Pt i) pageFlgKernel else 0
    else word s g i := by
  have hrd : dir0Pt 1023 ≠ pgDir0 := by decide
  have hsd : dir0Pt 1022 ≠ pgDir0 := by decide
  have hsr : dir0Pt 1022 ≠ dir0Pt 1023 := by decide
  have hzero : ∀ i, word (setFrame (setFrame (setFrame s pgDir0 fun _ => 0) (dir0Pt 1023) fun _ => 0)
      (dir0Pt 1022) fun _ => 0) pgDir0 i = 0 := by
    intro i
    rw [word_zeroFrame, if_neg hsd.symm, word_zeroFrame, if_neg hrd.symm, word_zeroFrame, if_pos rfl]
  have hfirst := word_earlyPgDirAdd (hzero 1023) (dir0Pt_lt (by decide : 1023 < 1024))
    (by decide : pageFlgKernel < frameSize) (dir0Pt 1023)
  have hempty := (hfirst pgDir0 1022).trans (by
    rw [if_neg (by simp [hrd.symm]), if_neg (by simp), hzero])
  have hsecond := word_earlyPgDirAdd hempty (dir0Pt_lt (by decide : 1022 < 1024))
    (by decide : pageFlgKernel < frameSize) (dir0Pt 1023)
  rw [initPgDir0, word_setWord_apply, hsecond, hfirst, word_zeroFrame, word_zeroFrame, word_zeroFrame,
    u32_pageEntry (by decide) (by decide)]
  by_cases hsys : g = dir0Pt 1022
  · subst hsys
    simp [hsr, hsd]
  · by_cases hrev : g = dir0Pt 1023
    · subst hrev
      by_cases h22 : i = 1022
      · simp [h22, hsys]
      · by_cases h23 : i = 1023
        · simp [h23, hsys]
        · simp [h22, h23, hsys]
    · by_cases hdir : g = pgDir0
      · subst hdir
        by_cases h22 : i = 1022
        · simp [h22, hsys, hrev]
        · by_cases h23 : i = 1023
          · simp [h23, hsys, hrev]
          · simp [h22, h23, hsys, hrev]
      · simp [hsys, hrev, hdir]

theorem initPgDir0_shows (s : Machine) : Shows (fun _ => none) (initPgDir0 s) := by
  have hdir : pgDir0 ≠ dir0Pt 1022 ∧ pgDir0 ≠ dir0Pt 1023 := by decide
  have hrev : dir0Pt 1023 ≠ dir0Pt 1022 := by decide
  refine ⟨?_, ?_, ?_, ?_⟩
  · rintro i - ⟨j, -, hj⟩
    exact absurd rfl hj
  · intro i hi _
    have hsys : ¬(i = 1022 ∨ i = 1023) := by omega
    rw [word_initPgDir0, word_initPgDir0, if_neg hdir.1, if_neg hdir.2, if_pos rfl, if_neg hsys,
      if_neg hrev, if_pos rfl, if_neg hsys]
    exact ⟨rfl, rfl⟩
  · intro i hi hi'
    have hsys : i = 1022 ∨ i = 1023 := by omega
    rw [word_initPgDir0, word_initPgDir0, if_neg hdir.1, if_neg hdir.2, if_pos rfl, if_pos hsys,
      if_neg hrev, if_pos rfl, if_pos hsys]
    exact ⟨rfl, rfl⟩
  · intro j _
    rw [word_initPgDir0, if_pos rfl]

/-- The state after the table of the slot has been found or made: the table shows the pages of
its slot, and the other words are as they were. -/
structure Opened (pages : Nat → Option Nat) (di : Nat) (s s' : Machine) : Prop where
  dir : word s' pgDir0 di = pageEntry (dir0Pt di) pageFlgKernel
  rev : word s' (dir0Pt 1023) di = pageEntry (dir0Pt di) pageP
  table : ∀ j < 1024, word s' (dir0Pt di) j = smallEntry (pages (di * 1024 + j))
  other : ∀ g i, g ≠ dir0Pt di → (g ≠ pgDir0 ∧ g ≠ dir0Pt 1023) ∨ i ≠ di → word s' g i = word s g i

theorem earlyCreatePageTable_spec (hs : Shows pages s) (hdi : pageDirIndex va < 1022) :
    ∃ new s', earlyCreatePageTable s pgDir0 (dir0Pt 1023) va pageFlgKernel = (new, s') ∧
      Opened pages (pageDirIndex va) s s' ∧ ∀ pt, new = some pt → pt = dir0Pt (pageDirIndex va) := by
  by_cases hused : Used pages (pageDirIndex va)
  · obtain ⟨hdir, hrev, htable⟩ := hs.used _ hdi hused
    have hset : entrySet (word s pgDir0 (pageDirIndex va)) = true := by
      rw [hdir]
      exact entrySet_pageEntry (by decide) (by decide)
    refine ⟨none, s, by simp [earlyCreatePageTable, hset], ⟨hdir, hrev, htable, ?_⟩, by simp⟩
    exact fun _ _ _ _ => rfl
  · obtain ⟨hdir, -⟩ := hs.unused _ hdi hused
    have hclear : entrySet (word s pgDir0 (pageDirIndex va)) = false := by
      rw [hdir]
      rfl
    have hlt := dir0Pt_lt (Nat.lt_trans hdi (by decide : 1022 < 1024))
    have hpt := dir0Pt_ne_pgDir0 (pageDirIndex va)
    have hptr : dir0Pt (pageDirIndex va) ≠ dir0Pt 1023 := fun h => by
      have := dir0Pt_inj h
      omega
    have hdr : dir0Pt 1023 ≠ pgDir0 := dir0Pt_ne_pgDir0 1023
    refine ⟨some (dir0Pt (pageDirIndex va)), _, by simp only [earlyCreatePageTable, hclear]; rfl,
      ⟨?_, ?_, ?_, ?_⟩, fun pt hpt => (Option.some.inj hpt).symm⟩
    · rw [word_setWord_apply, if_neg (by simp [hdr.symm]), word_setWord_apply, if_pos ⟨rfl, rfl⟩,
        u32_pageEntry hlt (by decide)]
    · rw [word_setWord_apply, if_pos ⟨rfl, rfl⟩, u32_pageEntry hlt (by decide)]
    · intro j hj
      have hnone : pages (pageDirIndex va * 1024 + j) = none := by
        by_contra hne
        exact hused ⟨j, hj, hne⟩
      rw [word_setWord_apply, if_neg (by simp [hptr]), word_setWord_apply, if_neg (by simp [hpt]),
        word_zeroFrame, if_pos rfl, hnone]
      rfl
    · intro g i hg hgi
      rw [word_setWord_apply, if_neg (by rintro ⟨rfl, rfl⟩; simp at hgi), word_setWord_apply,
        if_neg (by rintro ⟨rfl, rfl⟩; simp at hgi), word_zeroFrame, if_neg hg]

theorem page_split (va : Nat) : pageDirIndex va * 1024 + pageTableIndex va = va / frameSize := by
  unfold pageDirIndex pageTableIndex frameSize
  omega

theorem page_split_eq {i j k l : Nat} (hj : j < 1024) (hl : l < 1024) :
    i * 1024 + j = k * 1024 + l ↔ i = k ∧ j = l := by
  omega

/-- A page more: its slot is in use, and no other slot changes. -/
theorem used_update {di ti f : Nat} (hti : ti < 1024) (i : Nat) :
    Used (Function.update pages (di * 1024 + ti) (some f)) i ↔ i = di ∨ Used pages i := by
  constructor
  · rintro ⟨j, hj, hne⟩
    by_cases hi : i = di
    · exact Or.inl hi
    · rw [Function.update_of_ne (fun heq => hi ((page_split_eq hj hti).mp heq).1)] at hne
      exact Or.inr ⟨j, hj, hne⟩
  · rintro (rfl | ⟨j, hj, hne⟩)
    · exact ⟨ti, hti, by simp⟩
    · refine ⟨j, hj, ?_⟩
      by_cases heq : i * 1024 + j = di * 1024 + ti
      · rw [heq, Function.update_self]
        simp
      · rwa [Function.update_of_ne heq]

/-- Mapping a page keeps the tables in order. -/
theorem setPgDir0Vmap_spec {f : Nat} (hs : Shows pages s) (hdi : pageDirIndex va < 1022)
    (hti : pageTableIndex (f * frameSize) = pageTableIndex va) (hf : f < 2 ^ 20) :
    ∃ s', setPgDir0Vmap s va (f * frameSize) = some s' ∧
      Shows (Function.update pages (va / frameSize) (some f)) s' := by
  obtain ⟨new, s₁, hcreate, hopen, hnew⟩ := earlyCreatePageTable_spec hs hdi
  have hlt : pageTableIndex va < 1024 := Nat.mod_lt _ (by decide)
  have hrevTb : earlyPtPhyFromDir s pgDir0 1023 = some (dir0Pt 1023) := by
    rw [earlyPtPhyFromDir, (hs.system 1023 (by decide) (by decide)).1,
      if_pos (entrySet_pageEntry (by decide) (by decide)), frameOf_pageEntry (by decide)]
  have hpt : new.or (earlyPtPhyFromDir s₁ pgDir0 (pageDirIndex va)) =
      some (dir0Pt (pageDirIndex va)) := by
    cases new with
    | some pt => exact congrArg some (hnew pt rfl)
    | none =>
        rw [Option.none_or, earlyPtPhyFromDir, hopen.dir,
          if_pos (entrySet_pageEntry (by decide) (by decide)), frameOf_pageEntry (by decide)]
  have hentry : u32 (f * frameSize ||| pageP) = pageEntry f pageP := u32_pageEntry hf (by decide)
  refine ⟨setWord s₁ (dir0Pt (pageDirIndex va)) (pageTableIndex va) (f * frameSize ||| pageP), ?_, ?_⟩
  · rw [setPgDir0Vmap, hrevTb]
    simp only [Option.bind_eq_bind, Option.bind_some, hcreate, hpt, hti]
    rfl
  have hself : ∀ i, dir0Pt i ≠ dir0Pt (pageDirIndex va) → ∀ j, word (setWord s₁
      (dir0Pt (pageDirIndex va)) (pageTableIndex va) (f * frameSize ||| pageP)) (dir0Pt i) j =
      word s₁ (dir0Pt i) j := fun i hi j => word_setWord_ne s₁ _ (Or.inl hi)
  have hdir : ∀ j, word (setWord s₁ (dir0Pt (pageDirIndex va)) (pageTableIndex va)
      (f * frameSize ||| pageP)) pgDir0 j = word s₁ pgDir0 j :=
    fun j => word_setWord_ne s₁ _ (Or.inl (dir0Pt_ne_pgDir0 _).symm)
  have hne : ∀ i, i ≠ pageDirIndex va → dir0Pt i ≠ dir0Pt (pageDirIndex va) :=
    fun i hi heq => hi (dir0Pt_inj heq)
  have hrevne : dir0Pt 1023 ≠ dir0Pt (pageDirIndex va) := hne 1023 (by omega)
  have hsysne : dir0Pt 1022 ≠ dir0Pt (pageDirIndex va) := hne 1022 (by omega)
  -- entries of other slots
  have hkeepDir : ∀ i, i ≠ pageDirIndex va → word s₁ pgDir0 i = word s pgDir0 i :=
    fun i hi => hopen.other _ i (dir0Pt_ne_pgDir0 _).symm (Or.inr hi)
  have hkeepRev : ∀ i, i ≠ pageDirIndex va → word s₁ (dir0Pt 1023) i = word s (dir0Pt 1023) i :=
    fun i hi => hopen.other _ i hrevne (Or.inr hi)
  rw [← page_split va]
  refine ⟨fun i hi hused => ?_, fun i hi hused => ?_, fun i hi hi' => ?_, fun j hj => ?_⟩
  · rw [hdir, hself 1023 hrevne]
    by_cases hslot : i = pageDirIndex va
    · subst hslot
      refine ⟨hopen.dir, hopen.rev, fun j hj => ?_⟩
      rw [word_setWord_apply, hentry]
      by_cases hjt : j = pageTableIndex va
      · subst hjt
        rw [if_pos ⟨rfl, rfl⟩, Function.update_self]
        rfl
      · rw [if_neg (fun h => hjt h.2),
          Function.update_of_ne (fun heq => hjt ((page_split_eq hj hlt).mp heq).2)]
        exact hopen.table j hj
    · rw [used_update hlt] at hused
      obtain ⟨hd, hr, ht⟩ := hs.used i hi (hused.resolve_left hslot)
      rw [hkeepDir i hslot, hkeepRev i hslot]
      refine ⟨hd, hr, fun j hj => ?_⟩
      rw [hself i (hne i hslot),
        Function.update_of_ne (fun heq => hslot ((page_split_eq hj hlt).mp heq).1), ← ht j hj]
      refine hopen.other _ j (hne i hslot) (Or.inl ⟨dir0Pt_ne_pgDir0 i, fun heq => ?_⟩)
      have := dir0Pt_inj heq
      omega
  · rw [used_update hlt, not_or] at hused
    rw [hdir, hself 1023 hrevne, hkeepDir i hused.1, hkeepRev i hused.1]
    exact hs.unused i hi hused.2
  · have hslot : i ≠ pageDirIndex va := by omega
    rw [hdir, hself 1023 hrevne, hkeepDir i hslot, hkeepRev i hslot]
    exact hs.system i hi hi'
  · rw [hself 1022 hsysne, ← hs.temp j hj]
    exact hopen.other _ j hsysne (Or.inl ⟨dir0Pt_ne_pgDir0 _, by decide⟩)

/-- The pages from `k` to `m` of one of the loops, mapped at page number `o`. -/
def withPages (pages : Nat → Option Nat) (o k m : Nat) (vp : Nat) : Option Nat :=
  if o + k ≤ vp ∧ vp < o + m then some (vp - o) else pages vp

theorem withPages_succ {o k m : Nat} (hkm : k < m) :
    withPages (Function.update pages (o + k) (some k)) o (k + 1) m = withPages pages o k m := by
  funext vp
  unfold withPages
  by_cases hvp : vp = o + k
  · subst hvp
    rw [if_neg (by omega), if_pos (by omega), Function.update_self, Nat.add_sub_cancel_left]
  · have hiff : o + (k + 1) ≤ vp ∧ vp < o + m ↔ o + k ≤ vp ∧ vp < o + m := by omega
    rw [Function.update_of_ne hvp]
    simp only [hiff]

/-- A loop of `init_pg_dir0_vmap` maps its pages and ends. The loops start at the beginning of a
directory slot, so the index of the physical address is that of the virtual one. -/
theorem mapPages_spec {o m : Nat} (ho : o % 1024 = 0) (hm : o + m ≤ 1022 * 1024) :
    ∀ {n k : Nat} {pages : Nat → Option Nat} {s : Machine}, Shows pages s → k ≤ m → m - k < n →
      ∃ s', mapPages (o * frameSize) (m * frameSize) n s (k * frameSize) = some s' ∧
        Shows (withPages pages o k m) s' := by
  intro n
  induction n with
  | zero => intro k pages s _ _ hfuel; omega
  | succ n ih =>
      intro k pages s hs hkm hfuel
      rw [mapPages]
      by_cases hlt : k < m
      · have hva : u32 (k * frameSize + o * frameSize) = (o + k) * frameSize := by
          rw [u32_of_lt (by unfold frameSize; omega)]
          unfold frameSize
          omega
        have hnext : u32 (k * frameSize + frameSize) = (k + 1) * frameSize := by
          rw [u32_of_lt (by unfold frameSize; omega)]
          unfold frameSize
          omega
        have hdi : pageDirIndex ((o + k) * frameSize) < 1022 := by
          unfold pageDirIndex frameSize
          omega
        have hti : pageTableIndex (k * frameSize) = pageTableIndex ((o + k) * frameSize) := by
          unfold pageTableIndex frameSize
          omega
        obtain ⟨s₁, hset, hs₁⟩ := setPgDir0Vmap_spec hs hdi hti (by omega)
        rw [Nat.mul_div_cancel _ (by decide)] at hs₁
        obtain ⟨s', hrest, hs'⟩ := ih hs₁ hlt (by omega)
        refine ⟨s', ?_, ?_⟩
        · rw [if_pos (Nat.mul_lt_mul_of_pos_right hlt (by decide)), hva, hset, Option.bind_some, hnext]
          exact hrest
        · rwa [withPages_succ hlt] at hs'
      · obtain rfl : k = m := by omega
        refine ⟨s, if_neg (lt_irrefl _), ?_⟩
        have hsame : withPages pages o k k = pages := by
          funext vp
          exact if_neg (by omega)
        rwa [hsame]

/-! ## The walk through the tables -/

theorem Shows.walk (hs : Shows pages s) (hdi : pageDirIndex va < 1022) :
    walk s pgDir0 va = (pages (va / frameSize)).map fun f => f * frameSize + va % frameSize := by
  have hti : pageTableIndex va < 1024 := Nat.mod_lt _ (by decide)
  by_cases hused : Used pages (pageDirIndex va)
  · obtain ⟨hdir, -, htable⟩ := hs.used _ hdi hused
    have hword := htable _ hti
    rw [page_split] at hword
    simp only [Paging.walk, hdir, entrySet_pageEntry (by decide : pageFlgKernel < frameSize) (by decide),
      frameOf_pageEntry (by decide : pageFlgKernel < frameSize), hword, if_true]
    cases pages (va / frameSize) with
    | none => rfl
    | some f =>
        simp only [smallEntry, entrySet_pageEntry (by decide : pageP < frameSize) (by decide),
          frameOf_pageEntry (by decide : pageP < frameSize), if_true, Option.map_some]
  · have hnone : pages (va / frameSize) = none := by
      by_contra hne
      rw [← page_split] at hne
      exact hused ⟨_, hti, hne⟩
    simp only [Paging.walk, (hs.unused _ hdi hused).1, hnone]
    rfl

/-- The directory entry and the entry of the reverse table for a slot. -/
theorem Shows.entries (hs : Shows pages s) (hi : i < 1024) :
    entrySet (word s (dir0Pt 1023) i) = entrySet (word s pgDir0 i) ∧
    (entrySet (word s pgDir0 i) = true → frameOf (word s (dir0Pt 1023) i) = dir0Pt i ∧
      frameOf (word s pgDir0 i) = dir0Pt i) := by
  have hboth : word s pgDir0 i = pageEntry (dir0Pt i) pageFlgKernel ∧
      word s (dir0Pt 1023) i = pageEntry (dir0Pt i) pageP ∨
      word s pgDir0 i = 0 ∧ word s (dir0Pt 1023) i = 0 := by
    rcases Nat.lt_or_ge i 1022 with hlow | hhigh
    · by_cases hused : Used pages i
      · exact Or.inl ⟨(hs.used i hlow hused).1, (hs.used i hlow hused).2.1⟩
      · exact Or.inr (hs.unused i hlow hused)
    · exact Or.inl (hs.system i hhigh hi)
  rcases hboth with ⟨hdir, hrev⟩ | ⟨hdir, hrev⟩
  · rw [hdir, hrev, entrySet_pageEntry (by decide) (by decide), entrySet_pageEntry (by decide) (by decide),
      frameOf_pageEntry (by decide), frameOf_pageEntry (by decide)]
    exact ⟨rfl, fun _ => ⟨rfl, rfl⟩⟩
  · rw [hdir, hrev]
    exact ⟨rfl, fun h => absurd h (by decide)⟩

/-- Pages of slot 1023 are the page tables. -/
theorem Shows.walk_reverse (hs : Shows pages s) (hdi : pageDirIndex va = 1023) :
    Paging.walk s pgDir0 va =
      if entrySet (word s pgDir0 (pageTableIndex va)) then
        some (frameOf (word s pgDir0 (pageTableIndex va)) * frameSize + va % frameSize)
      else none := by
  obtain ⟨hset, hframe⟩ := hs.entries (Nat.mod_lt (va / 2 ^ 12) (by decide : 0 < 1024))
  have hdir := (hs.system 1023 (by decide) (by decide)).1
  simp only [Paging.walk, hdi, hdir, entrySet_pageEntry (by decide : pageFlgKernel < frameSize) (by decide),
    frameOf_pageEntry (by decide : pageFlgKernel < frameSize), if_true]
  rw [← pageTableIndex] at hset hframe
  rw [hset]
  split
  next h => rw [(hframe h).1, (hframe h).2]
  next => rfl

/-- The only permanent page of slot 1022 is the directory. -/
theorem Shows.walk_temp (hs : Shows pages s) (hdi : pageDirIndex va = 1022) :
    Paging.walk s pgDir0 va =
      if pageTableIndex va = 1023 then some (pgDir0 * frameSize + va % frameSize) else none := by
  have hdir := (hs.system 1022 (by decide) (by decide)).1
  have htemp := hs.temp _ (Nat.mod_lt (va / 2 ^ 12) (by decide : 0 < 1024))
  rw [← pageTableIndex] at htemp
  simp only [Paging.walk, hdi, hdir, entrySet_pageEntry (by decide : pageFlgKernel < frameSize) (by decide),
    frameOf_pageEntry (by decide : pageFlgKernel < frameSize), if_true, htemp]
  split
  next => rw [if_pos (entrySet_pageEntry (by decide) (by decide)), frameOf_pageEntry (by decide)]
  next => rfl

/-- Through the reverse table the entry of a mapped page is found at its place. -/
theorem Shows.getPhyAddress {f : Nat} (hs : Shows pages s) (hva : va < 1022 * 2 ^ 22)
    (hpage : pages (va / frameSize) = some f) (hf : f < 2 ^ 20) :
    getPhyAddress s va = some (f * frameSize + va % frameSize) := by
  have hdi : pageDirIndex va < 1022 := Nat.div_lt_of_lt_mul (by omega)
  have hti : pageTableIndex va < 1024 := Nat.mod_lt _ (by decide)
  have hused : Used pages (pageDirIndex va) := ⟨_, hti, by rw [page_split, hpage]; simp⟩
  obtain ⟨hdir, -, htable⟩ := hs.used _ hdi hused
  -- the address that is read, its place in slot 1023 and in the table
  have hpt : u32 (0xFFC00000 + pageDirIndex va * 2 ^ 12) = 0xFFC00000 + pageDirIndex va * 2 ^ 12 :=
    u32_of_lt (by omega)
  obtain ⟨addr, haddr⟩ : ∃ addr, addr = 0xFFC00000 + pageDirIndex va * 2 ^ 12 + 4 * pageTableIndex va :=
    ⟨_, rfl⟩
  have hdi' : pageDirIndex addr = 1023 := by
    rw [pageDirIndex]
    omega
  have hti' : pageTableIndex addr = pageDirIndex va := by
    rw [pageTableIndex]
    omega
  have hoff : addr % frameSize = 4 * pageTableIndex va := by
    unfold frameSize
    omega
  have hread : loadVirtual s addr = some (pageEntry f pageP) := by
    have hword := htable _ hti
    rw [page_split, hpage] at hword
    have hframe : (dir0Pt (pageDirIndex va) * frameSize + 4 * pageTableIndex va) / frameSize =
        dir0Pt (pageDirIndex va) := by
      unfold frameSize
      omega
    have hidx : (dir0Pt (pageDirIndex va) * frameSize + 4 * pageTableIndex va) % frameSize / 4 =
        pageTableIndex va := by
      unfold frameSize
      omega
    rw [loadVirtual, hs.walk_reverse hdi', hti', hdir,
      if_pos (entrySet_pageEntry (by decide) (by decide)), frameOf_pageEntry (by decide), hoff,
      Option.map_some, hframe, hidx, hword]
    rfl
  have hentry : pageAddr (pageEntry f pageP) = f * frameSize :=
    congrArg (· * frameSize) (frameOf_pageEntry (by decide))
  rw [Paging.getPhyAddress, hpt, ← haddr, u32_of_lt (by omega), hread, Option.map_some, hentry,
    u32_of_lt (by unfold frameSize; omega)]

/-! ## The documented map -/

/-- The map that the comments of `mem.c` describe: the first megabyte, the kernel's sixteen, the
directory as the last page of slot 1022, and behind slot 1023 a page for each table. -/
def documentedMap (s : Machine) (va : Nat) : Option Nat :=
  if va < oneMB then some va
  else if kernelVStart ≤ va ∧ va < kernelVStart + userPStart then some (va - kernelVStart)
  else if pageDirIndex va = 1022 ∧ pageTableIndex va = 1023 then
    some (pgDir0 * frameSize + va % frameSize)
  else if pageDirIndex va = 1023 ∧ entrySet (word s pgDir0 (pageTableIndex va)) then
    some (frameOf (word s pgDir0 (pageTableIndex va)) * frameSize + va % frameSize)
  else none

/-- The pages of the two loops. -/
def earlyPages : Nat → Option Nat := withPages (withPages (fun _ => none) 0 0 256) 0xC0000 0 4096

theorem initPgDir0Vmap_shows (s : Machine) :
    ∃ s', initPgDir0Vmap s = some s' ∧ Shows earlyPages s' := by
  have hzero : 0 = 0 * frameSize := by decide
  have hlow : oneMB = 256 * frameSize := by decide
  have hbase : kernelVStart = 0xC0000 * frameSize := by decide
  have hhigh : userPStart = 4096 * frameSize := by decide
  obtain ⟨s₁, hfirst, hs₁⟩ := mapPages_spec (o := 0) (m := 256) (n := pageFuel) (k := 0) (by decide)
    (by decide) (initPgDir0_shows s) (by decide) (by decide)
  obtain ⟨s₂, hsecond, hs₂⟩ := mapPages_spec (o := 0xC0000) (m := 4096) (n := pageFuel) (k := 0) (by decide)
    (by decide) hs₁ (by decide) (by decide)
  refine ⟨s₂, ?_, hs₂⟩
  rw [← hzero] at hfirst hsecond
  rw [initPgDir0Vmap, hlow, hbase, hhigh, hfirst, Option.bind_eq_bind, Option.bind_some, hsecond]

theorem earlyPages_eq (vp : Nat) : earlyPages vp =
    if 0xC0000 ≤ vp ∧ vp < 0xC0000 + 4096 then some (vp - 0xC0000)
    else if vp < 256 then some vp else none := by
  simp only [earlyPages, withPages, Nat.add_zero, Nat.zero_add, Nat.zero_le, true_and, Nat.sub_zero]

/-- The pages of the loops, by address. -/
theorem earlyPages_addr (va : Nat) :
    (va < oneMB → earlyPages (va / frameSize) = some (va / frameSize)) ∧
    (kernelVStart ≤ va ∧ va < kernelVStart + userPStart →
      earlyPages (va / frameSize) = some (va / frameSize - 0xC0000)) ∧
    (¬va < oneMB → ¬(kernelVStart ≤ va ∧ va < kernelVStart + userPStart) →
      earlyPages (va / frameSize) = none) := by
  rw [earlyPages_eq]
  unfold oneMB kernelVStart userPStart oneMB frameSize
  refine ⟨fun h => ?_, fun h => ?_, fun h h' => ?_⟩
  · rw [if_neg (by omega), if_pos (by omega)]
  · rw [if_pos (by omega)]
  · rw [if_neg (by omega), if_neg (by omega)]

/-- The physical addresses of the two ranges. -/
theorem earlyPages_offset (va : Nat) :
    va / frameSize * frameSize + va % frameSize = va ∧
    (kernelVStart ≤ va → (va / frameSize - 0xC0000) * frameSize + va % frameSize =
      va - kernelVStart) := by
  unfold frameSize kernelVStart
  omega

/-- After `init_pg_dir0_vmap` the walk gives every address what the comments say, and in the two
ranges `get_phy_address` gives the same. -/
theorem initPgDir0Vmap_documented (s : Machine) : ∃ s', initPgDir0Vmap s = some s' ∧
    (∀ va < 2 ^ 32, walk s' pgDir0 va = documentedMap s' va) ∧
    ∀ va, va < oneMB ∨ kernelVStart ≤ va ∧ va < kernelVStart + userPStart →
      getPhyAddress s' va = walk s' pgDir0 va := by
  obtain ⟨s', hrun, hs⟩ := initPgDir0Vmap_shows s
  have htop : kernelVStart + userPStart ≤ 1022 * 2 ^ 22 := by decide
  have hbelow : oneMB ≤ kernelVStart := by decide
  refine ⟨s', hrun, fun va hva => ?_, fun va hrange => ?_⟩
  · obtain ⟨hlow, hkernel, hnone⟩ := earlyPages_addr va
    obtain ⟨hsame, hshift⟩ := earlyPages_offset va
    have hlast : 1022 ≤ pageDirIndex va → ¬va < oneMB ∧
        ¬(kernelVStart ≤ va ∧ va < kernelVStart + userPStart) := by
      intro hdi
      rw [pageDirIndex] at hdi
      omega
    rw [documentedMap]
    rcases Nat.lt_trichotomy (pageDirIndex va) 1022 with hdi | hdi | hdi
    · rw [hs.walk hdi]
      split_ifs with h₁ h₂ h₃ h₄
      · rw [hlow h₁, Option.map_some, hsame]
      · rw [hkernel h₂, Option.map_some, hshift h₂.1]
      · omega
      · omega
      · rw [hnone h₁ h₂]
        rfl
    · obtain ⟨h₁, h₂⟩ := hlast (by omega)
      rw [hs.walk_temp hdi, if_neg h₁, if_neg h₂]
      simp [hdi]
    · have hdi' : pageDirIndex va = 1023 := by
        have : pageDirIndex va < 1024 := Nat.div_lt_of_lt_mul hva
        omega
      obtain ⟨h₁, h₂⟩ := hlast (by omega)
      rw [hs.walk_reverse hdi', if_neg h₁, if_neg h₂]
      simp [hdi']
  · obtain ⟨hlow, hkernel, -⟩ := earlyPages_addr va
    have hva : va < 1022 * 2 ^ 22 := by omega
    have hdi : pageDirIndex va < 1022 := Nat.div_lt_of_lt_mul (by omega)
    obtain ⟨f, hf, hpage⟩ : ∃ f < 2 ^ 20, earlyPages (va / frameSize) = some f := by
      have hframe : va / frameSize < 2 ^ 20 := Nat.div_lt_of_lt_mul (by unfold frameSize; omega)
      rcases hrange with h₁ | h₂
      · exact ⟨_, hframe, hlow h₁⟩
      · exact ⟨_, by omega, hkernel h₂⟩
    rw [hs.getPhyAddress hva hpage hf, hs.walk hdi, hpage, Option.map_some]

/-- The addresses that `test_page` looks at, and one that is not mapped. -/
theorem initPgDir0Vmap_documented_sample : ∃ s',
    initPgDir0Vmap ⟨fun _ _ => 0, fun _ => 0⟩ = some s' ∧ walk s' pgDir0 0x9030 = some 0x9030 ∧
    getPhyAddress s' (0x90050 + kernelVStart) = some 0x90050 ∧ walk s' pgDir0 oneMB = none := by
  obtain ⟨s', hrun, hwalk, hphy⟩ := initPgDir0Vmap_documented ⟨fun _ _ => 0, fun _ => 0⟩
  refine ⟨s', hrun, ?_, ?_, ?_⟩
  · rw [hwalk _ (by decide), documentedMap, if_pos (by decide)]
  · rw [hphy _ (by decide), hwalk _ (by decide), documentedMap, if_neg (by decide), if_pos (by decide)]
    rfl
  · rw [hwalk _ (by decide), documentedMap, if_neg (by decide), if_neg (by decide), if_neg (by decide),
      if_neg fun h => absurd h.1 (by decide)]

end TsOs.Paging
