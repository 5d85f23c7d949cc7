import TsOs.Fat.Deleting
import TsOs.Malloc.Runs

/-!
# The heap blocks of handles

A handle has three blocks of the heap: itself, its entry and its path. The functions that
make and drop handles are repeated here with the heap beside the disk, as calls of `kmalloc`
and `kfree`; without the heap they are those of the model. A call keeps the live blocks,
once the handle that it returns has been closed, exactly when its first lookup finds the
path: every other way out of `fat_open` forgets a handle.

## Implementation notes

The contents of the three blocks are the value of the handle. An allocation without a result
stops the call, since the source writes through the pointer at once.
-/

namespace TsOs.Fat.OnHeap
open ByteMemory Malloc

/-- `sizeof(Fat16File)`. -/
def fat16FileSize : Nat := 28

/-- A handle with the addresses of its blocks. -/
structure Handle where
  file : Fat16File
  self : Nat
  dirent : Nat
  path : Nat

/-- The blocks of a handle, the last one first. -/
def Handle.blocks (h : Handle) (path : List UInt8) : List (Nat × Nat) :=
  [(h.path, path.length + 1), (h.dirent, direntSize), (h.self, fat16FileSize)]

variable (v : Fat16Volume) (fuel : Nat)

/-- A call of `kmalloc` that has to succeed. -/
def kmalloc (c : Client) (n : Nat) : FatM (Nat × Client) :=
  match Malloc.kmalloc c.heap n with
  | none => FatM.stop .hang
  | some (h, p) => if p = 0 then FatM.stop .fault else return (p, ⟨h, (p, n) :: c.live⟩)

/-- `new_fat16_file` with a path and without an entry. -/
def newFat16File (c : Client) (path : List UInt8) (flag : Flags) : FatM (Handle × Client) := do
  let (self, c) ← kmalloc c fat16FileSize
  let (dirent, c) ← kmalloc c direntSize
  let (p, c) ← kmalloc c (path.length + 1)
  return (⟨Fat.newFat16File flag, self, dirent, p⟩, c)

/-- `fat_open` without `FAT16_CTL_CREATE`. -/
def fatOpenExisting (c : Client) (path : List UInt8) (flag : Flags) : FatM (Option Handle × Client) := do
  let (h, c) ← newFat16File c path flag
  match ← fat16Find v fuel h.file path with
  | none => return (none, c)
  | some file =>
      if flag.append then do
        let cluster ← lastCluster v fuel file.dirent.startCluster
        return (some { h with
          file := { file with
            flag := { file.flag with write := true }
            currentCluster := cluster
            byteOffset := file.dirent.fileSize } }, c)
      else return (some { h with file := file }, c)

/-- `fat_open`. -/
def fatOpen (c : Client) (path : List UInt8) (flag : Flags) : FatM (Option Handle × Client) :=
  if flag.create then do
    let (found, c) ← fatOpenExisting v fuel c path { flag with create := false }
    match found with
    | some h => return (some { h with file := { h.file with flag := flag } }, c)
    | none =>
        match getBasedir path, getFilename path with
        | none, _ => FatM.stop .fault
        | some _, none => return (none, c)
        | some baseDir, some filename =>
            if pathBufSize ≤ baseDir.length ∨ pathBufSize ≤ filename.length then FatM.stop .fault
            else do
              let (parent, c) ← fatOpenExisting v fuel c baseDir Flags.none
              match parent with
              | none => return (none, c)
              | some parent => do
                  fatCreateFile v fuel parent.file filename flag.dir
                  let (created, c) ← fatOpenExisting v fuel c path { flag with create := false }
                  match created with
                  | none => FatM.stop .fault
                  | some h => return (some { h with
                      file := { h.file with flag := { h.file.flag with create := true } } }, c)
  else fatOpenExisting v fuel c path flag

/-- `fat_close`. -/
def fatClose (c : Client) (h : Handle) : Option Client := do
  let c ← if h.path = 0 then some c else c.step (.kfree h.path)
  let c ← c.step (.kfree h.dirent)
  c.step (.kfree h.self)

/-! ## Allocations and releases -/

variable {v fuel} {c c' c₁ : Client} {d d' : Disk} {h : Handle} {r : Option Handle} {path : List UInt8}
  {flag : Flags} {n p : Nat} {L X : List (Nat × Nat)} {b : Nat × Nat}

theorem kmalloc_spec (hinv : c.Inv) (hn : n + rHeaderSize < 2 ^ 32)
    (hrun : kmalloc c n d = (.ok (p, c'), d')) : d' = d ∧ c'.Inv ∧ c'.live = (p, n) :: c.live := by
  obtain ⟨c₂, hstep, hinv'⟩ := inv_step c (.kmalloc n) hinv hn
  unfold kmalloc at hrun
  cases hk : Malloc.kmalloc c.heap n with
  | none =>
      rw [hk] at hrun
      exact absurd (congrArg Prod.fst hrun) (by simp [FatM.stop])
  | some r =>
      obtain ⟨h, q⟩ := r
      rw [hk] at hrun
      dsimp only at hrun
      split at hrun
      next => exact absurd (congrArg Prod.fst hrun) (by simp [FatM.stop])
      next hq =>
        have heq := FatM.ok_inj hrun
        obtain ⟨rfl, rfl⟩ : q = p ∧ (⟨h, (q, n) :: c.live⟩ : Client) = c' := Prod.mk.inj heq
        have hnew : c.step (.kmalloc n) = some ⟨h, (q, n) :: c.live⟩ := by
          simp [Client.step, hk, hq]
        obtain rfl := Option.some.inj (hstep.symm.trans hnew)
        exact ⟨(congrArg Prod.snd hrun).symm, hinv', rfl⟩

/-- The addresses of live blocks are different. -/
theorem inv_nodup (hinv : c.Inv) : (c.live.map Prod.fst).Nodup := by
  obtain ⟨rs, fl, ht⟩ := hinv
  exact ht.nodup

theorem ne_zero_of_live (hinv : c.Inv) (hlive : (p, n) ∈ c.live) : p ≠ 0 := by
  obtain ⟨rs, fl, ht⟩ := hinv
  obtain ⟨r, -, -, rfl, -⟩ := (ht.live_iff p n).mp hlive
  unfold rHeaderSize
  omega

/-- A release of the newest block leaves the others. -/
theorem kfree_head (hinv : c.Inv) (hlive : c.live = (p, n) :: L) :
    ∃ c', c.step (.kfree p) = some c' ∧ c'.Inv ∧ c'.live = L := by
  have hmem : p ∈ c.live.map Prod.fst := by
    rw [hlive]
    exact List.mem_cons_self
  obtain ⟨c', hstep, hinv'⟩ := inv_step c (.kfree p) hinv hmem
  refine ⟨c', hstep, hinv', ?_⟩
  have hnodup := inv_nodup hinv
  rw [hlive, List.map_cons, List.nodup_cons] at hnodup
  obtain ⟨h, -, rfl⟩ := Option.map_eq_some_iff.mp hstep
  change c.live.filter _ = L
  rw [hlive, List.filter_cons_of_neg (by simp), List.filter_eq_self]
  intro b hb
  have hne : b.1 ≠ p := fun heq => hnodup.1 (List.mem_map.mpr ⟨b, hb, heq⟩)
  simpa using hne

/-! ## Making and dropping handles -/

theorem newFat16File_spec (hinv : c.Inv) (hpath : path.length + 1 + rHeaderSize < 2 ^ 32)
    (hrun : newFat16File c path flag d = (.ok (h, c'), d')) :
    d' = d ∧ c'.Inv ∧ c'.live = h.blocks path ++ c.live ∧ h.file = Fat.newFat16File flag := by
  unfold newFat16File at hrun
  obtain ⟨⟨self, c₁⟩, d₁, hself, hrun₁⟩ := FatM.bind_eq_ok hrun
  obtain ⟨rfl, hinv₁, hlive₁⟩ := kmalloc_spec hinv (by decide) hself
  dsimp only at hrun₁
  obtain ⟨⟨dirent, c₂⟩, d₂, hdirent, hrun₂⟩ := FatM.bind_eq_ok hrun₁
  obtain ⟨rfl, hinv₂, hlive₂⟩ := kmalloc_spec hinv₁ (by decide) hdirent
  dsimp only at hrun₂
  obtain ⟨⟨p, c₃⟩, d₃, hp, hrun₃⟩ := FatM.bind_eq_ok hrun₂
  obtain ⟨rfl, hinv₃, hlive₃⟩ := kmalloc_spec hinv₂ hpath hp
  have heq := FatM.ok_inj hrun₃
  obtain ⟨rfl, rfl⟩ := Prod.mk.inj heq
  refine ⟨(congrArg Prod.snd hrun₃).symm, hinv₃, ?_, rfl⟩
  rw [hlive₃, hlive₂, hlive₁]
  rfl

/-- Closing a handle whose blocks are the newest ones leaves the others. -/
theorem fatClose_spec (hinv : c.Inv) (hlive : c.live = h.blocks path ++ L) :
    ∃ c', fatClose c h = some c' ∧ c'.Inv ∧ c'.live = L := by
  have hne : h.path ≠ 0 := by
    refine ne_zero_of_live hinv (n := path.length + 1) ?_
    rw [hlive]
    exact List.mem_cons_self
  obtain ⟨c₁, hpath, hinv₁, hlive₁⟩ := kfree_head hinv hlive
  obtain ⟨c₂, hdirent, hinv₂, hlive₂⟩ := kfree_head hinv₁ hlive₁
  obtain ⟨c₃, hself, hinv₃, hlive₃⟩ := kfree_head hinv₂ hlive₂
  refine ⟨c₃, ?_, hinv₃, hlive₃⟩
  unfold fatClose
  rw [if_neg hne, Option.bind_eq_bind, hpath, Option.bind_some]
  exact (Option.bind_eq_some_iff.mpr ⟨c₂, hdirent, hself⟩)

/-- The call has made one handle, and returned it if there is an entry. -/
theorem fatOpenExisting_spec (hinv : c.Inv) (hpath : path.length + 1 + rHeaderSize < 2 ^ 32)
    (hrun : fatOpenExisting v fuel c path flag d = (.ok (r, c'), d')) :
    d' = d ∧ c'.Inv ∧ Fat.fatOpenExisting v fuel path flag d = (.ok (r.map Handle.file), d) ∧
      ∃ h : Handle, c'.live = h.blocks path ++ c.live ∧ ∀ g, r = some g → g.blocks path = h.blocks path := by
  unfold fatOpenExisting at hrun
  obtain ⟨⟨h, c₁⟩, d₁, hnew, hrun₁⟩ := FatM.bind_eq_ok hrun
  obtain ⟨rfl, hinv₁, hlive, hfile⟩ := newFat16File_spec hinv hpath hnew
  dsimp only at hrun₁
  obtain ⟨found, d₂, hfind, hrun₂⟩ := FatM.bind_eq_ok hrun₁
  rw [hfile] at hfind
  obtain rfl := (fat16Find_quiet v fuel _ _).same hfind
  unfold Fat.fatOpenExisting
  rw [FatM.bind_ok hfind]
  cases found with
  | none =>
      obtain ⟨rfl, rfl⟩ := Prod.mk.inj (FatM.ok_inj hrun₂)
      exact ⟨(congrArg Prod.snd hrun₂).symm, hinv₁, rfl, h, hlive, fun g hg => absurd hg (by simp)⟩
  | some f =>
      dsimp only at hrun₂ ⊢
      split at hrun₂
      next happend =>
        obtain ⟨cluster, d₃, hlast, hrun₃⟩ := FatM.bind_eq_ok hrun₂
        obtain rfl := (lastCluster_quiet v fuel _).same hlast
        obtain ⟨rfl, rfl⟩ := Prod.mk.inj (FatM.ok_inj hrun₃)
        refine ⟨(congrArg Prod.snd hrun₃).symm, hinv₁, ?_, h, hlive, ?_⟩
        · rw [if_pos happend, FatM.bind_ok hlast]
          rfl
        · rintro g ⟨⟩
          rfl
      next happend =>
        obtain ⟨rfl, rfl⟩ := Prod.mk.inj (FatM.ok_inj hrun₂)
        refine ⟨(congrArg Prod.snd hrun₂).symm, hinv₁, ?_, h, hlive, ?_⟩
        · rw [if_neg happend]
          rfl
        · rintro g ⟨⟩
          rfl

variable (v fuel) in
/-- The lookup of the path finds an entry. -/
def Found (d : Disk) (path : List UInt8) (flag : Flags) : Prop :=
  ∃ f d', fat16Find v fuel (Fat.newFat16File flag) path d = (.ok (some f), d')

theorem found_iff {r : Option Fat16File} (hrun : Fat.fatOpenExisting v fuel path flag d = (.ok r, d')) :
    Found v fuel d path flag ↔ r ≠ none := by
  unfold Fat.fatOpenExisting at hrun
  obtain ⟨found, d₁, hfind, hrun⟩ := FatM.bind_eq_ok hrun
  cases found with
  | none =>
      obtain rfl : none = r := FatM.ok_inj hrun
      refine iff_of_false ?_ (fun hne => hne rfl)
      rintro ⟨f, d₂, hf⟩
      exact absurd (congrArg Prod.fst (hfind.symm.trans hf)) (by simp)
  | some f =>
      refine iff_of_true ⟨f, d₁, hfind⟩ ?_
      rintro rfl
      dsimp only at hrun
      split at hrun
      next =>
        obtain ⟨cluster, d₂, -, hrun⟩ := FatM.bind_eq_ok hrun
        exact absurd (congrArg Prod.fst hrun) (by simp)
      next => exact absurd (congrArg Prod.fst hrun) (by simp)

/-! ## Opening -/

/-- The live blocks after a call: those of the returned handle, those that the call has forgotten, and
those from before. The call forgets none exactly when its first lookup finds the path. -/
structure Leaves (c : Client) (path : List UInt8) (found : Prop) (r : Option Handle) (c' : Client)
    (X : List (Nat × Nat)) : Prop where
  inv : c'.Inv
  live : c'.live = (r.elim [] fun h => h.blocks path) ++ (X ++ c.live)
  forgotten : X = [] ↔ found

theorem fatOpenExisting_leaves (hinv : c.Inv) (hpath : path.length + 1 + rHeaderSize < 2 ^ 32)
    (hrun : fatOpenExisting v fuel c path flag d = (.ok (r, c'), d')) :
    ∃ X, Leaves c path (Found v fuel d path flag) r c' X := by
  obtain ⟨rfl, hinv', hproj, h, hlive, hblocks⟩ := fatOpenExisting_spec hinv hpath hrun
  cases r with
  | none =>
      refine ⟨h.blocks path, hinv', hlive, ?_⟩
      rw [found_iff hproj]
      exact iff_of_false (List.cons_ne_nil _ _) (fun hne => hne rfl)
  | some g =>
      refine ⟨[], hinv', ?_, ?_⟩
      · rw [hlive, ← hblocks g rfl]
        rfl
      · rw [found_iff hproj]
        exact iff_of_true rfl (Option.some_ne_none _)

/-- The ways through `fat_open` with `FAT16_CTL_CREATE`, after the first lookup. -/
inductive Way (v : Fat16Volume) (fuel : Nat) (path : List UInt8) (flag : Flags) (d : Disk) (c : Client) :
    Option Handle → Option Handle → Client → Disk → Prop
  | existing (g : Handle) :
      Way v fuel path flag d c (some g) (some { g with file := { g.file with flag := flag } }) c d
  | noName {base : List UInt8} : getBasedir path = some base → getFilename path = none →
      Way v fuel path flag d c none none c d
  | noParent {base name : List UInt8} {c' : Client} {d' : Disk} : getBasedir path = some base →
      getFilename path = some name → ¬(pathBufSize ≤ base.length ∨ pathBufSize ≤ name.length) →
      fatOpenExisting v fuel c base Flags.none d = (.ok (none, c'), d') →
      Way v fuel path flag d c none none c' d'
  | created {base name : List UInt8} {c₁ c' : Client} {d₁ d₂ d' : Disk} {parent g : Handle} :
      getBasedir path = some base → getFilename path = some name →
      ¬(pathBufSize ≤ base.length ∨ pathBufSize ≤ name.length) →
      fatOpenExisting v fuel c base Flags.none d = (.ok (some parent, c₁), d₁) →
      fatCreateFile v fuel parent.file name flag.dir d₁ = (.ok (), d₂) →
      fatOpenExisting v fuel c₁ path { flag with create := false } d₂ = (.ok (some g, c'), d') →
      Way v fuel path flag d c none
        (some { g with file := { g.file with flag := { g.file.flag with create := true } } }) c' d'

theorem fatOpen_way (hcreate : flag.create = true)
    (hrun : fatOpen v fuel c path flag d = (.ok (r, c'), d')) :
    ∃ found c₁ d₁, fatOpenExisting v fuel c path { flag with create := false } d = (.ok (found, c₁), d₁) ∧
      Way v fuel path flag d₁ c₁ found r c' d' := by
  unfold fatOpen at hrun
  rw [if_pos hcreate] at hrun
  obtain ⟨⟨found, c₁⟩, d₁, hfirst, hrun₁⟩ := FatM.bind_eq_ok hrun
  refine ⟨found, c₁, d₁, hfirst, ?_⟩
  dsimp only at hrun₁
  cases found with
  | some g =>
      obtain ⟨rfl, rfl⟩ := Prod.mk.inj (FatM.ok_inj hrun₁)
      obtain rfl := congrArg Prod.snd hrun₁
      exact Way.existing g
  | none =>
      cases hbase : getBasedir path with
      | none =>
          rw [hbase] at hrun₁
          exact absurd (congrArg Prod.fst hrun₁) (by simp [FatM.stop])
      | some base =>
          cases hname : getFilename path with
          | none =>
              rw [hbase, hname] at hrun₁
              obtain ⟨rfl, rfl⟩ := Prod.mk.inj (FatM.ok_inj hrun₁)
              obtain rfl := congrArg Prod.snd hrun₁
              exact Way.noName hbase hname
          | some name =>
              rw [hbase, hname] at hrun₁
              dsimp only at hrun₁
              split at hrun₁
              next => exact absurd (congrArg Prod.fst hrun₁) (by simp [FatM.stop])
              next hfits =>
                obtain ⟨⟨parent, c₂⟩, d₂, hparent, hrun₂⟩ := FatM.bind_eq_ok hrun₁
                cases parent with
                | none =>
                    obtain ⟨rfl, rfl⟩ := Prod.mk.inj (FatM.ok_inj hrun₂)
                    obtain rfl := congrArg Prod.snd hrun₂
                    exact Way.noParent hbase hname hfits hparent
                | some parent =>
                    obtain ⟨⟨⟩, d₃, hmade, hrun₃⟩ := FatM.bind_eq_ok hrun₂
                    obtain ⟨⟨again, c₃⟩, d₄, hagain, hrun₄⟩ := FatM.bind_eq_ok hrun₃
                    cases again with
                    | none => exact absurd (congrArg Prod.fst hrun₄) (by simp [FatM.stop])
                    | some g =>
                        obtain ⟨rfl, rfl⟩ := Prod.mk.inj (FatM.ok_inj hrun₄)
                        obtain rfl := congrArg Prod.snd hrun₄
                        exact Way.created hbase hname hfits hparent hmade hagain

theorem fits_of_base {base name : List UInt8} (h : ¬(pathBufSize ≤ base.length ∨ pathBufSize ≤ name.length)) :
    base.length + 1 + rHeaderSize < 2 ^ 32 := by
  unfold pathBufSize at h
  unfold rHeaderSize
  omega

/-- What a call of `fat_open` leaves, and that it is the call of the model. -/
theorem fatOpen_spec (hinv : c.Inv) (hpath : path.length + 1 + rHeaderSize < 2 ^ 32)
    (hrun : fatOpen v fuel c path flag d = (.ok (r, c'), d')) :
    Fat.fatOpen v fuel path flag d = (.ok (r.map Handle.file), d') ∧
      ∃ X, Leaves c path (Found v fuel d path { flag with create := false }) r c' X := by
  by_cases hcreate : flag.create = true
  · obtain ⟨found, c₁, d₁, hfirst, hway⟩ := fatOpen_way hcreate hrun
    obtain ⟨rfl, hinv₁, hproj₁, h₁, hlive₁, -⟩ := fatOpenExisting_spec hinv hpath hfirst
    unfold Fat.fatOpen
    rw [if_pos hcreate, FatM.bind_ok hproj₁]
    have hforgot : found = none → ∀ Y : List (Nat × Nat), Y ++ h₁.blocks path = [] ↔
        Found v fuel d₁ path { flag with create := false } := by
      intro hnone Y
      rw [found_iff hproj₁, hnone]
      exact iff_of_false (List.append_ne_nil_of_right_ne_nil _ (List.cons_ne_nil _ _)) fun hne => hne rfl
    cases hway with
    | existing g =>
        obtain ⟨X, hX⟩ := fatOpenExisting_leaves hinv hpath hfirst
        exact ⟨rfl, X, hX.inv, hX.live, hX.forgotten⟩
    | noName hbase hname =>
        rw [hbase, hname]
        exact ⟨rfl, [] ++ h₁.blocks path, hinv₁, hlive₁, hforgot rfl []⟩
    | @noParent base _ _ _ hbase hname hfits hparent =>
        obtain ⟨rfl, hinv₂, hproj₂, h₂, hlive₂, -⟩ :=
          fatOpenExisting_spec hinv₁ (fits_of_base hfits) hparent
        rw [hlive₁] at hlive₂
        rw [hbase, hname]
        dsimp only [Option.map_none]
        rw [if_neg hfits, FatM.bind_ok hproj₂]
        refine ⟨rfl, h₂.blocks base ++ h₁.blocks path, hinv₂, ?_, hforgot rfl _⟩
        rw [hlive₂, List.append_assoc]
        rfl
    | @created base _ _ _ _ _ _ _ _ hbase hname hfits hparent hmade hagain =>
        obtain ⟨rfl, hinv₂, hproj₂, h₂, hlive₂, -⟩ :=
          fatOpenExisting_spec hinv₁ (fits_of_base hfits) hparent
        obtain ⟨rfl, hinv₃, hproj₃, h₃, hlive₃, hblocks₃⟩ := fatOpenExisting_spec hinv₂ hpath hagain
        rw [hlive₂, hlive₁, ← hblocks₃ _ rfl] at hlive₃
        rw [hbase, hname]
        dsimp only [Option.map_none]
        rw [if_neg hfits, FatM.bind_ok hproj₂]
        dsimp only [Option.map_some]
        rw [FatM.bind_ok hmade, FatM.bind_ok hproj₃]
        refine ⟨rfl, h₂.blocks base ++ h₁.blocks path, hinv₃, ?_, hforgot rfl _⟩
        rw [hlive₃, List.append_assoc]
        rfl
  · have hopen : fatOpen v fuel c path flag = fatOpenExisting v fuel c path flag := by
      unfold fatOpen
      rw [if_neg hcreate]
    have hflag : { flag with create := false } = flag := by
      cases flag
      simpa using hcreate
    rw [hopen] at hrun
    obtain ⟨rfl, -, hproj, -⟩ := fatOpenExisting_spec hinv hpath hrun
    unfold Fat.fatOpen
    rw [if_neg hcreate, hflag]
    exact ⟨hproj, fatOpenExisting_leaves hinv hpath hrun⟩

/-! ## Leaks -/

/-- The same blocks are live. -/
def SameBlocks (c c' : Client) : Prop := ∀ b, b ∈ c'.live ↔ b ∈ c.live

/-- A call that returns `NULL` leaves the live blocks as they were, and one that returns a handle does so
once the handle has been closed. -/
def Balanced (c : Client) (r : Option Handle) (c' : Client) : Prop :=
  match r with
  | none => SameBlocks c c'
  | some h => ∃ c₂, fatClose c' h = some c₂ ∧ SameBlocks c c₂

theorem sameBlocks_iff (hinv : c'.Inv) (hlive : c'.live = X ++ c.live) : SameBlocks c c' ↔ X = [] := by
  constructor
  · intro hsame
    refine List.eq_nil_iff_forall_not_mem.mpr fun b hb => ?_
    have hold : b ∈ c.live := (hsame b).mp (hlive ▸ List.mem_append_left _ hb)
    have hnodup := inv_nodup hinv
    rw [hlive, List.map_append] at hnodup
    exact List.disjoint_of_nodup_append hnodup (List.mem_map_of_mem hb) (List.mem_map_of_mem hold)
  · rintro rfl b
    rw [hlive]
    rfl

theorem Leaves.balanced_iff {found : Prop} (h : Leaves c path found r c' X) : Balanced c r c' ↔ found := by
  rw [← h.forgotten]
  cases r with
  | none => exact sameBlocks_iff h.inv h.live
  | some g =>
      obtain ⟨c₂, hclose, hinv₂, hlive₂⟩ := fatClose_spec h.inv h.live
      rw [← sameBlocks_iff hinv₂ hlive₂]
      constructor
      · rintro ⟨c₃, hclose', hsame⟩
        obtain rfl := Option.some.inj (hclose.symm.trans hclose')
        exact hsame
      · exact fun hsame => ⟨c₂, hclose, hsame⟩

/-- A call that returns keeps the live blocks exactly when the path exists before the call. -/
theorem fatOpen_balanced_iff (hinv : c.Inv) (hpath : path.length + 1 + rHeaderSize < 2 ^ 32)
    (hrun : fatOpen v fuel c path flag d = (.ok (r, c'), d')) :
    Balanced c r c' ↔ Found v fuel d path { flag with create := false } := by
  obtain ⟨-, X, hX⟩ := fatOpen_spec hinv hpath hrun
  exact hX.balanced_iff

/-- The call returns and has the given result and the given live blocks. -/
def leavesLive (isSome : Bool) (n : Nat) : Except Stop (Option Handle × Client) → Bool
  | .ok (r, c) => r.isSome == isSome && c.live.length == n
  | .error _ => false

theorem exists_run (isSome : Bool) (n : Nat) {x : Except Stop (Option Handle × Client) × Disk}
    (h : leavesLive isSome n x.1 = true) : ∃ r c' d', x = (.ok (r, c'), d') ∧ r.isSome = isSome ∧
      c'.live.length = n := by
  match x, h with
  | (.ok (r, c'), d'), h =>
      obtain ⟨hr, hn⟩ := (Bool.and_eq_true _ _).mp h
      exact ⟨r, c', d', rfl, by simpa using hr, by simpa using hn⟩

/-- The file `F`. -/
theorem fatOpen_balanced_sample : ∃ r c' d', fatOpen smallVolume 2 (Client.init fun _ => 0) [slash, 70]
      Flags.none (deletedSlotDisk 5) = (.ok (r, c'), d') ∧ c'.live.length = 3 ∧
    Balanced (Client.init fun _ => 0) r c' := by
  obtain ⟨r, c', d', hrun, -, hlen⟩ := exists_run true 3
    (x := fatOpen smallVolume 2 (Client.init fun _ => 0) [slash, 70] Flags.none (deletedSlotDisk 5)) (by decide)
  obtain ⟨f, d₁, hfound⟩ := Fat.exists_run (x := fat16Find smallVolume 2 (Fat.newFat16File Flags.none) [slash, 70]
    (deletedSlotDisk 5)) (by decide)
  exact ⟨r, c', d', hrun, hlen, (fatOpen_balanced_iff ⟨_, _, tracks_init _⟩ (by decide) hrun).mpr ⟨f, d₁, hfound⟩⟩

/-- A call for a path that does not exist returns `NULL` and leaves three blocks. -/
theorem fatOpen_leak : ∃ c' d', fatOpen smallVolume 2 (Client.init fun _ => 0) [slash, 88] Flags.none
      (fun _ => 0) = (.ok (none, c'), d') ∧ c'.live.length = 3 ∧
    ¬Balanced (Client.init fun _ => 0) none c' := by
  obtain ⟨r, c', d', hrun, hr, hlen⟩ := exists_run false 3
    (x := fatOpen smallVolume 2 (Client.init fun _ => 0) [slash, 88] Flags.none fun _ => 0) (by decide)
  obtain rfl : r = none := by simpa using hr
  refine ⟨c', d', hrun, hlen, fun hsame => ?_⟩
  obtain ⟨b, hb⟩ := List.exists_mem_of_length_pos (l := c'.live) (by omega)
  exact absurd ((hsame b).mp hb) List.not_mem_nil

end TsOs.Fat.OnHeap
