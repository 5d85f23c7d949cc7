import TsOs.Fat.Chains
import TsOs.Fat.Lookup

/-!
# Deleting

`fat_delete_file` clears the entries of the FAT for every cluster of a file, and for a
directory those of everything below it. The walk through a directory takes every slot
with a cluster number for an entry, deleted slots included. What it clears is compared
here with the clusters of the live entries.
-/

namespace TsOs.Fat
open ByteMemory LinkPath

/-! ## Slots -/

variable (v : Fat16Volume)

/-- The slot number `i` of a cluster of a directory. -/
def slot (d : Disk) (c i : Nat) : DirEnt := readEnt d (clusterAddr v c + direntSize * i)

/-- The slots of a directory with the clusters `l`. -/
def dirSlots (d : Disk) (l : List Nat) : List DirEnt :=
  l.flatMap fun c => (List.range ((v.clusterBytes + 31) / direntSize)).map (slot v d c)

/-- The slot is one of the links `.` and `..` of a directory. -/
def IsLink (e : DirEnt) : Prop :=
  fatFilenameMatch e dotName = true ∨ fatFilenameMatch e dotDotName = true

instance (e : DirEnt) : Decidable (IsLink e) := inferInstanceAs (Decidable (_ ∨ _))

/-- The slot carries a cluster number that is not a link. -/
def HasCluster (e : DirEnt) : Prop := clusNormal e.startCluster = true ∧ ¬IsLink e

instance (e : DirEnt) : Decidable (HasCluster e) := inferInstanceAs (Decidable (_ ∧ _))

/-- The mark of a deleted slot. -/
def deletedMark : UInt8 := 0xE5

/-- The slot of a file or directory that exists. -/
def Live (e : DirEnt) : Prop := HasCluster e ∧ e 0 ≠ deletedMark

instance (e : DirEnt) : Decidable (Live e) := inferInstanceAs (Decidable (_ ∧ _))

/-- A deleted slot that still carries the cluster number of its former file. -/
def Stale (e : DirEnt) : Prop := HasCluster e ∧ e 0 = deletedMark

instance (e : DirEnt) : Decidable (Stale e) := inferInstanceAs (Decidable (_ ∧ _))

/-! ## Trees of clusters -/

mutual

/-- The clusters of a file or of a directory and of the live entries below it. -/
inductive Subtree (d : Disk) : Bool → Nat → List Nat → Prop
  | file {c : Nat} {l : List Nat} : IsChain v d c l → Subtree d false c l
  | dir {c : Nat} {l S : List Nat} :
      IsChain v d c l → Below d (dirSlots v d l) S → Subtree d true c (l ++ S)

/-- The clusters of the live entries among some slots. -/
inductive Below (d : Disk) : List DirEnt → List Nat → Prop
  | nil : Below d [] []
  | skip {e : DirEnt} {es : List DirEnt} {S : List Nat} :
      ¬Live e → Below d es S → Below d (e :: es) S
  | live {e : DirEnt} {es : List DirEnt} {T S : List Nat} :
      Live e → Subtree d (isDirectory e) e.startCluster T → Below d es S → Below d (e :: es) (T ++ S)

end

/-- A slot of a directory or of one of the live directories below it. -/
inductive SlotBelow (d : Disk) : Bool → Nat → DirEnt → Prop
  | here {c : Nat} {l : List Nat} {e : DirEnt} :
      IsChain v d c l → e ∈ dirSlots v d l → SlotBelow d true c e
  | deeper {c : Nat} {l : List Nat} {e' e : DirEnt} :
      IsChain v d c l → e' ∈ dirSlots v d l → Live e' →
      SlotBelow d (isDirectory e') e'.startCluster e → SlotBelow d true c e

/-- The cluster of a deleted slot is still free; where the slot was a directory, so are those
that its former contents name, down to depth `r`. -/
inductive Spent (d : Disk) : Nat → Bool → Nat → Prop
  | file {r c : Nat} : InRange v c → fatEntry v d c = 0 → Spent d r false c
  | dir {r c : Nat} : InRange v c → fatEntry v d c = 0 →
      (∀ e ∈ dirSlots v d [c], HasCluster e → Spent d r (isDirectory e) e.startCluster) →
      Spent d (r + 1) true c

variable {v} {d d' : Disk}

/-! ## The effect on the FAT -/

theorem dirSlots_cons (c : Nat) (l : List Nat) :
    dirSlots v d (c :: l) = dirSlots v d [c] ++ dirSlots v d l := by
  simp [dirSlots]

theorem slot_congr (hg : Geometry v) (h : ∀ x, sectorSize * v.rootDirStart ≤ x → d' x = d x) :
    slot v d' = slot v d := by
  funext c i
  refine readEnt_congr fun x hx _ => h x ?_
  exact (hg.root_le_clusterAddr c).trans ((Nat.le_add_right _ _).trans hx)

theorem Below.append {es es' : List DirEnt} {S : List Nat} (h : Below v d (es ++ es') S) :
    ∃ S₁ S₂, S = S₁ ++ S₂ ∧ Below v d es S₁ ∧ Below v d es' S₂ := by
  induction es generalizing S with
  | nil => exact ⟨[], S, rfl, Below.nil, h⟩
  | cons e es ih =>
      cases h with
      | skip he htail =>
          obtain ⟨S₁, S₂, rfl, h₁, h₂⟩ := ih htail
          exact ⟨S₁, S₂, rfl, Below.skip he h₁, h₂⟩
      | live he hT htail =>
          obtain ⟨S₁, S₂, rfl, h₁, h₂⟩ := ih htail
          exact ⟨_ ++ S₁, S₂, (List.append_assoc _ _ _).symm, Below.live he hT h₁, h₂⟩

/-- Clearing an entry that is zero changes nothing. -/
theorem freed_of_free {A : List Nat} {c : Nat} (h : fatEntry v d c = 0) :
    freed v d (A ++ [c]) = freed v d A := by
  have hload : (d (fatCell v c)).toNat + 256 * ((d (fatCell v c + 1)).toNat + 256 * 0) = 0 := h
  have h₀ : d (fatCell v c) = 0 := UInt8.toNat_inj.mp (by simp; omega)
  have h₁ : d (fatCell v c + 1) = 0 := UInt8.toNat_inj.mp (by simp; omega)
  funext a
  unfold freed
  by_cases hA : ∃ x ∈ A, fatCell v x ≤ a ∧ a < fatCell v x + 2
  · obtain ⟨x, hx, ha⟩ := hA
    rw [if_pos ⟨x, List.mem_append_left _ hx, ha⟩, if_pos ⟨x, hx, ha⟩]
  · rw [if_neg hA]
    split
    next hex =>
      obtain ⟨x, hx, hle, hlt⟩ := hex
      rcases List.mem_append.mp hx with hx | hx
      · exact absurd ⟨x, hx, hle, hlt⟩ hA
      · obtain rfl := List.mem_singleton.mp hx
        rcases Nat.eq_or_lt_of_le hle with rfl | hlt'
        · exact h₀.symm
        · obtain rfl : a = fatCell v x + 1 := by omega
          exact h₁.symm
    next => rfl

/-- What the walk does at one slot. -/
def freeSlot (v : Fat16Volume) (fuel : Nat) (freeDir : Nat → FatM Unit) (e : DirEnt) : FatM Unit :=
  if isDirectory e then freeDir e.startCluster else fatFreeClustersUntilEnd v fuel e.startCluster

section Walk

variable {fuel : Nat} {freeDir : Nat → FatM Unit} {b : Buf} {n i : Nat}

theorem freeEntries_skip (h : ¬HasCluster (readEnt b (direntSize * i))) :
    freeEntries v fuel freeDir b (n + 1) i = freeEntries v fuel freeDir b n (i + 1) := by
  rw [freeEntries]
  refine if_pos ?_
  unfold HasCluster IsLink at h
  grind

theorem freeEntries_walk (h : HasCluster (readEnt b (direntSize * i))) :
    freeEntries v fuel freeDir b (n + 1) i = (do
      freeSlot v fuel freeDir (readEnt b (direntSize * i))
      freeEntries v fuel freeDir b n (i + 1)) := by
  rw [freeEntries]
  rw [if_neg]
  · unfold freeSlot
    cases isDirectory (readEnt b (direntSize * i)) <;> rfl
  · unfold HasCluster IsLink at h
    grind

/-- Slots at which the walk does nothing. -/
theorem freeEntries_idle
    (h : ∀ e ∈ (List.range' i n).map fun j => readEnt b (direntSize * j), HasCluster e →
      freeSlot v fuel freeDir e d = (.ok (), d)) :
    freeEntries v fuel freeDir b n i d = (.ok (), d) := by
  induction n generalizing i with
  | zero => rfl
  | succ n ih =>
      rw [List.range'_succ, List.map_cons] at h
      have htail := ih fun e he => h e (List.mem_cons_of_mem _ he)
      by_cases hi : HasCluster (readEnt b (direntSize * i))
      · rw [freeEntries_walk hi, FatM.bind_ok (h _ List.mem_cons_self hi), htail]
      · rw [freeEntries_skip hi, htail]

/-- The walk clears the clusters of the live entries among the slots. -/
theorem freeEntries_below {A S : List Nat} {m : Nat}
    (hbelow : Below v d ((List.range' i n).map fun j => readEnt b (direntSize * j)) S)
    (hstale : ∀ e ∈ (List.range' i n).map fun j => readEnt b (direntSize * j), Stale e →
      ∀ A, (∀ x ∈ A, InRange v x) → freeSlot v fuel freeDir e (freed v d A) = (.ok (), freed v d A))
    (hlive : ∀ e ∈ (List.range' i n).map fun j => readEnt b (direntSize * j), Live e →
      ∀ A T, Subtree v d (isDirectory e) e.startCluster T → T.length ≤ m → T.Nodup →
        A.Disjoint T → (∀ x ∈ A, InRange v x) →
        freeSlot v fuel freeDir e (freed v d A) = (.ok (), freed v d (A ++ T)))
    (hrange : ∀ x ∈ S, InRange v x) (hA : ∀ x ∈ A, InRange v x) (hm : S.length ≤ m)
    (hnodup : S.Nodup) (hdisj : A.Disjoint S) :
    freeEntries v fuel freeDir b n i (freed v d A) = (.ok (), freed v d (A ++ S)) := by
  induction n generalizing i A S with
  | zero =>
      cases hbelow
      rw [List.append_nil]
      rfl
  | succ n ih =>
      rw [List.range'_succ, List.map_cons] at hbelow hstale hlive
      have htail := @ih (i + 1)
      have hstale' := fun e he => hstale e (List.mem_cons_of_mem _ he)
      have hlive' := fun e he => hlive e (List.mem_cons_of_mem _ he)
      cases hbelow with
      | skip he hrest =>
          by_cases hi : HasCluster (readEnt b (direntSize * i))
          · have hdel : Stale (readEnt b (direntSize * i)) := ⟨hi, not_not.mp fun h => he ⟨hi, h⟩⟩
            rw [freeEntries_walk hi, FatM.bind_ok (hstale _ List.mem_cons_self hdel A hA)]
            exact htail hrest hstale' hlive' hrange hA hm hnodup hdisj
          · rw [freeEntries_skip hi]
            exact htail hrest hstale' hlive' hrange hA hm hnodup hdisj
      | @live _ _ T S he hT hrest =>
          rw [List.length_append] at hm
          rw [List.disjoint_append_right] at hdisj
          obtain ⟨hnT, hnS, hTS⟩ := List.nodup_append'.mp hnodup
          have hT' := hlive _ List.mem_cons_self he A T hT (by omega) hnT hdisj.1 hA
          have hAT : ∀ x ∈ A ++ T, InRange v x := fun x hx =>
            (List.mem_append.mp hx).elim (hA x) fun h => hrange x (List.mem_append_left _ h)
          rw [freeEntries_walk he.1, FatM.bind_ok hT', ← List.append_assoc]
          exact htail hrest hstale' hlive' (fun x hx => hrange x (List.mem_append_right _ hx)) hAT
            (by omega) hnS (List.disjoint_append_left.mpr ⟨hdisj.2, hTS⟩)

end Walk

theorem Subtree.inRange {isDir : Bool} {c : Nat} {S : List Nat} (h : Subtree v d isDir c S) :
    ∀ x ∈ S, InRange v x := by
  refine @Subtree.rec v d (fun _ _ S _ => ∀ x ∈ S, InRange v x) (fun _ S _ => ∀ x ∈ S, InRange v x)
    ?file ?dir ?nil ?skip ?live _ _ _ h
  case file => exact fun hchain => hchain.inRange
  case dir =>
    intro c l S hchain _ hS x hx
    exact (List.mem_append.mp hx).elim (hchain.inRange x) (hS x)
  case nil => exact fun x hx => absurd hx List.not_mem_nil
  case skip => exact fun _ _ hS => hS
  case live =>
    intro e es T S _ _ _ hT hS x hx
    exact (List.mem_append.mp hx).elim (hT x) (hS x)

theorem Subtree.start_ne_zero {isDir : Bool} {c : Nat} {S : List Nat} (h : Subtree v d isDir c S) :
    c ≠ 0 := by
  cases h with
  | file hchain => exact hchain.start_ne_zero
  | dir hchain _ => exact hchain.start_ne_zero

theorem Below.inRange {es : List DirEnt} {S : List Nat} (h : Below v d es S) :
    ∀ x ∈ S, InRange v x := by
  induction es generalizing S with
  | nil =>
      cases h
      exact fun x hx => absurd hx List.not_mem_nil
  | cons e es ih =>
      cases h with
      | skip _ htail => exact ih htail
      | live _ hT htail =>
          intro x hx
          exact (List.mem_append.mp hx).elim (hT.inRange x) (ih htail x)

/-- The deleted slots of a directory and of everything below it do no harm. -/
def Clean (v : Fat16Volume) (d : Disk) (r : Nat) (l : List Nat) : Prop :=
  ∀ e ∈ dirSlots v d l, (Stale e → Spent v d r (isDirectory e) e.startCluster) ∧
    (Live e → ∀ e', SlotBelow v d (isDirectory e) e.startCluster e' → Stale e' →
      Spent v d r (isDirectory e') e'.startCluster)

theorem clean_of_slotBelow {r c : Nat} {l : List Nat} (hchain : IsChain v d c l)
    (h : ∀ e, SlotBelow v d true c e → Stale e → Spent v d r (isDirectory e) e.startCluster) :
    Clean v d r l := by
  intro e he
  refine ⟨h e (SlotBelow.here hchain he), ?_⟩
  intro hlive e' he'
  exact h e' (SlotBelow.deeper hchain he hlive he')

section Trees

variable (hg : Geometry v) {fuel r : Nat} (hfuel : 2 ^ 16 ≤ fuel)
include hg

/-- The slots that the walk reads are those of the disk at the start. -/
theorem slots_freed {A : List Nat} (hA : ∀ x ∈ A, InRange v x) (c : Nat) :
    ((List.range' 0 ((v.clusterBytes + 31) / direntSize)).map fun j =>
      readEnt (clusterBlock v (freed v d A) c) (direntSize * j)) = dirSlots v d [c] := by
  have hslot : slot v (freed v d A) = slot v d := slot_congr hg fun _ => freed_of_le hg hA
  unfold dirSlots
  rw [List.flatMap_singleton, ← hslot, List.range_eq_range']
  refine List.map_congr_left fun j hj => ?_
  have hj : j < (v.clusterBytes + 31) / direntSize := by
    simpa using (List.mem_range'_1.mp hj).2
  exact readEnt_block _ (hg.slot_le hj)

/-- The walk leaves a free cluster as it is. -/
theorem fatFreeClustersUntilEnd_free {c : Nat} {A : List Nat} (hfuel : 2 ≤ fuel) (hc : InRange v c)
    (hfree : fatEntry v d c = 0) :
    fatFreeClustersUntilEnd v fuel c (freed v d A) = (.ok (), freed v d A) := by
  obtain ⟨n, rfl⟩ : ∃ n, fuel = n + 1 + 1 := ⟨fuel - 2, by omega⟩
  have hnext : fatEntry v (freed v d A) c = 0 := by
    rw [fatEntry_freed]
    split
    · rfl
    · exact hfree
  rw [fatFreeClustersUntilEnd, if_pos hc.clusNormal,
    FatM.bind_ok (fatGetNextCluster_run hg _ hc.2.2), FatM.bind_ok (writeFat_run hg _ 0 hc.2.2),
    setFat_zero, freed_freed, freed_of_free hfree, hnext, fatFreeClustersUntilEnd]
  rfl

/-- One cluster of a directory: its slots first, then its own entry. -/
theorem fatFreeChildsUnderDir_step {c n : Nat} {d' : Disk} (hc : InRange v c)
    (hslots : freeEntries v fuel (fatFreeChildsUnderDir v fuel n) (clusterBlock v d c)
      ((v.clusterBytes + 31) / direntSize) 0 d = (.ok (), d')) :
    fatFreeChildsUnderDir v fuel (n + 1) c d =
      fatFreeChildsUnderDir v fuel n (fatEntry v d' c) (freed v d' [c]) := by
  rw [fatFreeChildsUnderDir, if_pos hc.clusNormal,
    FatM.bind_ok (fatReadCluster_run hg d hc.clusNormal)]
  dsimp only
  rw [FatM.bind_ok hslots, FatM.bind_ok (fatGetNextCluster_run hg d' hc.2.2),
    FatM.bind_ok (writeFat_run hg d' 0 hc.2.2), setFat_zero]

omit hg in
theorem fatFreeChildsUnderDir_end {c n : Nat} (hc : clusNormal c = false) :
    fatFreeChildsUnderDir v fuel (n + 1) c d = (.ok (), d) := by
  rw [fatFreeChildsUnderDir, hc]
  rfl

include hfuel

theorem freeSlot_spent {e : DirEnt} {A : List Nat} {n : Nat}
    (h : Spent v d r (isDirectory e) e.startCluster) (hn : r < n) (hA : ∀ x ∈ A, InRange v x) :
    freeSlot v fuel (fatFreeChildsUnderDir v fuel n) e (freed v d A) = (.ok (), freed v d A) := by
  induction r generalizing e n with
  | zero =>
      unfold freeSlot
      generalize isDirectory e = isDir at h
      cases h with
      | file hc hfree => exact fatFreeClustersUntilEnd_free hg (by omega) hc hfree
  | succ r ih =>
      unfold freeSlot
      generalize isDirectory e = isDir at h
      cases h with
      | file hc hfree => exact fatFreeClustersUntilEnd_free hg (by omega) hc hfree
      | dir hc hfree hslots =>
          obtain ⟨n, rfl⟩ : ∃ m, n = m + 1 + 1 := ⟨n - 2, by omega⟩
          have hidle : freeEntries v fuel (fatFreeChildsUnderDir v fuel (n + 1))
              (clusterBlock v (freed v d A) e.startCluster) ((v.clusterBytes + 31) / direntSize) 0
              (freed v d A) = (.ok (), freed v d A) := by
            apply freeEntries_idle
            rw [slots_freed hg hA]
            exact fun e' he' hcl => ih (hslots e' he' hcl) (by omega)
          have hnext : fatEntry v (freed v d A) e.startCluster = 0 := by
            rw [fatEntry_freed]
            exact ite_eq_left_iff.mpr fun _ => hfree
          rw [if_pos rfl, fatFreeChildsUnderDir_step hg hc hidle, hnext, freed_freed,
            freed_of_free hfree]
          exact fatFreeChildsUnderDir_end rfl

/-- One live slot, when the walk below it does what it should. -/
theorem freeSlot_live {e : DirEnt} {A T : List Nat} {n : Nat}
    (hclean : ∀ e', SlotBelow v d (isDirectory e) e.startCluster e' → Stale e' →
      Spent v d r (isDirectory e') e'.startCluster)
    (hT : Subtree v d (isDirectory e) e.startCluster T) (hnodup : T.Nodup) (hdisj : A.Disjoint T)
    (hA : ∀ x ∈ A, InRange v x) (hn : T.length + r < n)
    (hdir : ∀ {c : Nat} {l S A : List Nat}, IsChain v d c l → Below v d (dirSlots v d l) S →
      Clean v d r l → (l ++ S).Nodup → A.Disjoint (l ++ S) → (∀ x ∈ A, InRange v x) →
      (l ++ S).length + r < n →
      fatFreeChildsUnderDir v fuel n c (freed v d A) = (.ok (), freed v d (A ++ (l ++ S)))) :
    freeSlot v fuel (fatFreeChildsUnderDir v fuel n) e (freed v d A) =
      (.ok (), freed v d (A ++ T)) := by
  unfold freeSlot
  generalize isDirectory e = isDir at hclean hT
  cases hT with
  | file hchain =>
      have hlen := hchain.length_le
      rw [if_neg Bool.false_ne_true, fatFreeClustersUntilEnd_run hg (hchain.freed hdisj) (by omega),
        freed_freed]
  | dir hchain hbelow =>
      rw [if_pos rfl]
      exact hdir hchain hbelow (clean_of_slotBelow hchain hclean) hnodup hdisj hA hn

/-- The walk clears the clusters of a directory and of the live entries below it. -/
theorem fatFreeChildsUnderDir_run {c n : Nat} {l S A : List Nat} (hchain : IsChain v d c l)
    (hbelow : Below v d (dirSlots v d l) S) (hclean : Clean v d r l) (hnodup : (l ++ S).Nodup)
    (hdisj : A.Disjoint (l ++ S)) (hA : ∀ x ∈ A, InRange v x) (hn : (l ++ S).length + r < n) :
    fatFreeChildsUnderDir v fuel n c (freed v d A) = (.ok (), freed v d (A ++ (l ++ S))) := by
  induction n generalizing c l S A with
  | zero => omega
  | succ n ih =>
      cases l with
      | nil =>
          cases hbelow
          rw [List.append_nil, List.append_nil]
          exact fatFreeChildsUnderDir_end (not_clusNormal_of_eof hchain.eof_of_nil)
      | cons x l =>
          obtain rfl := hchain.head_eq
          rw [dirSlots_cons] at hbelow
          obtain ⟨S₁, S₂, rfl, hfirst, hrest⟩ := hbelow.append
          have hc := hchain.inRange c List.mem_cons_self
          have hclean₁ : Clean v d r [c] := fun e he =>
            hclean e (by rw [dirSlots_cons]; exact List.mem_append_left _ he)
          have hclean₂ : Clean v d r l := fun e he =>
            hclean e (by rw [dirSlots_cons]; exact List.mem_append_right _ he)
          simp only [List.cons_append, List.disjoint_cons_right, List.disjoint_append_right] at hdisj
          simp only [List.cons_append, List.nodup_cons, List.mem_append, not_or, List.nodup_append',
            List.disjoint_append_right] at hnodup
          simp only [List.cons_append, List.length_cons, List.length_append] at hn
          obtain ⟨hcA, hAl, hA₁, hA₂⟩ := hdisj
          obtain ⟨⟨hcl, hc₁, hc₂⟩, hl, ⟨hS₁, hS₂, h₁₂⟩, hl₁, hl₂⟩ := hnodup
          have hslots : freeEntries v fuel (fatFreeChildsUnderDir v fuel n)
              (clusterBlock v (freed v d A) c) ((v.clusterBytes + 31) / direntSize) 0 (freed v d A) =
                (.ok (), freed v d (A ++ S₁)) := by
            refine freeEntries_below (m := S₁.length) ?_ ?_ ?_ hfirst.inRange hA (le_refl _) hS₁ hA₁
            · rw [slots_freed hg hA]
              exact hfirst
            · rw [slots_freed hg hA]
              intro e he hstale A' hA'
              exact freeSlot_spent hg hfuel ((hclean₁ e he).1 hstale) (by omega) hA'
            · rw [slots_freed hg hA]
              intro e he hlive A' T hT hlen hT' hdisj' hA'
              exact freeSlot_live hg hfuel ((hclean₁ e he).2 hlive) hT hT' hdisj' hA' (by omega) ih
          have hnext : fatEntry v (freed v d (A ++ S₁)) c = fatEntry v d c := by
            rw [fatEntry_freed, if_neg]
            exact fun hmem => (List.mem_append.mp hmem).elim hcA hc₁
          have hrange : ∀ x ∈ A ++ S₁ ++ [c], InRange v x := by
            simp only [List.mem_append, List.mem_singleton]
            rintro x ((hx | hx) | rfl)
            · exact hA x hx
            · exact hfirst.inRange x hx
            · exact hc
          have hdisj' : (A ++ S₁ ++ [c]).Disjoint (l ++ S₂) := by
            simp only [List.disjoint_append_left, List.disjoint_append_right, List.singleton_disjoint]
            exact ⟨⟨⟨hAl, hl₁.symm⟩, hcl⟩, ⟨hA₂, h₁₂⟩, hc₂⟩
          rw [fatFreeChildsUnderDir_step hg hc hslots, hnext, freed_freed,
            ih hchain.tail hrest hclean₂ (List.nodup_append'.mpr ⟨hl, hS₂, hl₂⟩) hdisj' hrange
              (by rw [List.length_append]; omega)]
          congr 1
          refine freed_congr fun x => ?_
          simp only [List.mem_append, List.mem_cons]
          tauto

/-- `fat_delete_file` clears the clusters of the tree and then marks the slot. -/
theorem fatDeleteFile_run {path : List UInt8} {file : Fat16File} {S : List Nat}
    (hopen : (fatOpenExisting v fuel path Flags.none d).1 = .ok (some file))
    (htree : Subtree v d (isDirectory file.dirent) file.dirent.startCluster S) (hnodup : S.Nodup)
    (hclean : ∀ e, SlotBelow v d (isDirectory file.dirent) file.dirent.startCluster e → Stale e →
      Spent v d r (isDirectory e) e.startCluster) (hr : 2 ^ 16 + r ≤ fuel) :
    ∃ i, Located v d file i ∧ fatDeleteFile v fuel path d =
      (.ok 1, writeEnt (freed v d S) (direntAddr v file + direntSize * i)
        (deletedEnt file.dirent)) := by
  have hstart : file.dirent.startCluster ≠ 0 := htree.start_ne_zero
  have hopened := fatOpenExisting_opened hg hopen rfl hstart
  obtain ⟨i, hloc⟩ := hopened.located
  have hlen := length_le_of_nodup htree.inRange hnodup
  have hfree := freeSlot_live hg hfuel hclean htree hnodup (List.disjoint_nil_left S)
    (fun x hx => absurd hx List.not_mem_nil) (n := fuel) (by omega) (fatFreeChildsUnderDir_run hg hfuel)
  rw [freed_nil, List.nil_append] at hfree
  have hblock : block (freed v d S) (direntAddr v file) (direntLen v file) =
      block d (direntAddr v file) (direntLen v file) :=
    block_congr fun x hx _ => freed_of_le hg htree.inRange ((hloc.le_direntAddr hg).trans hx)
  have hfound := hloc.found
  rw [← hblock] at hfound
  refine ⟨i, hloc, ?_⟩
  unfold fatDeleteFile
  rw [FatM.bind_ok ((fatOpenExisting_quiet v fuel path Flags.none).eq hopen)]
  dsimp only
  rw [if_neg (by rw [hopened.current]; exact hstart)]
  have hmark : fatUpdateFileDirent v file (some (deletedEnt file.dirent)) (freed v d S) = _ :=
    fatUpdateFileDirent_run hg hfound hloc.fits hloc.cluster
  unfold freeSlot at hfree
  split
  next hdir =>
    rw [if_pos hdir] at hfree
    rw [FatM.bind_ok hfree, FatM.bind_ok hmark]
    rfl
  next hdir =>
    rw [if_neg hdir] at hfree
    rw [FatM.bind_ok hfree, FatM.bind_ok hmark]
    rfl

end Trees

/-- An entry from its fields. -/
def mkEnt (name : List UInt8) (attr : UInt8) (start size : Nat) : DirEnt :=
  DirEnt.setFileSize (DirEnt.setStartCluster
    (store8 (patch (fun _ => 0) 0 (name ++ List.replicate (8 - name.length) space)) 11 attr) start) size

/-- A volume with one sector of FAT, one of root directory, and clusters of one sector. -/
def smallVolume : Fat16Volume := fatGetVolume ⟨512, 1, 1, 1, 16, 1, 0⟩

/-- The root directory has the directory `P` and the file `F`, with the clusters 3 and 4. In `P`
there is a deleted slot with the cluster number `c`. -/
def deletedSlotDisk (c : Nat) : Disk :=
  let d := setFat smallVolume (setFat smallVolume (fun _ => 0) 3 0xFFFF) 4 0xFFFF
  let d := writeEnt (writeEnt d 1024 (mkEnt [80] entAttrDir 3 0)) 1056 (mkEnt [70] 0 4 1)
  let d := writeEnt (writeEnt d 2048 (mkEnt [46] entAttrDir 3 0)) 2080 (mkEnt [46, 46] entAttrDir 0 0)
  writeEnt d 2112 (mkEnt [0xE5, 76, 68] 0 c 1)

theorem smallVolume_geometry : Geometry smallVolume := by
  constructor <;> decide

theorem chain_singleton {c : Nat} (hc : InRange v c) (heof : fatEntry v d c = 0xFFFF) :
    IsChain v d c [c] := by
  refine ⟨fun x hx => ?_, 0xFFFF, rfl, rfl, heof⟩
  rw [List.mem_singleton.mp hx]
  exact hc

/-- A disk whose FAT has the given entries and which is zero elsewhere. -/
def tableDisk (v : Fat16Volume) (f : Nat → Nat) : Disk := fun a =>
  let i := a - sectorSize * v.fatStart
  if sectorSize * v.fatStart ≤ a ∧ a < sectorSize * (v.fatStart + v.sb.sectorsFat) then
    UInt8.ofNat (f (i / 2) / 256 ^ (i % 2))
  else 0

theorem fatEntry_tableDisk {f : Nat → Nat} {c : Nat} (hc : c < 256 * v.sb.sectorsFat)
    (hf : f c < 2 ^ 16) : fatEntry v (tableDisk v f) c = f c := by
  have hbytes : ∀ i < 2, tableDisk v f (fatCell v c + i) = UInt8.ofNat (f c / 256 ^ i) := by
    intro i hi
    have hsub : fatCell v c + i - sectorSize * v.fatStart = 2 * c + i := by
      unfold fatCell
      omega
    have hin : sectorSize * v.fatStart ≤ fatCell v c + i ∧
        fatCell v c + i < sectorSize * (v.fatStart + v.sb.sectorsFat) := by
      unfold fatCell sectorSize
      omega
    have hdiv : (2 * c + i) / 2 = c := by omega
    have hmod : (2 * c + i) % 2 = i := by omega
    unfold tableDisk
    dsimp only
    rw [hsub, if_pos hin, hdiv, hmod]
  exact (load_of_bytes hbytes).trans (Nat.mod_eq_of_lt hf)

/-- The lookup has found an entry that passes the test. -/
def foundWith (test : Fat16File → Bool) : Except Stop (Option Fat16File) → Bool
  | .ok (some f) => test f
  | _ => false

theorem exists_found {x : Except Stop (Option Fat16File)} {p : Fat16File → Bool}
    (h : foundWith p x = true) : ∃ file, x = .ok (some file) ∧ p file = true := by
  match x, h with
  | .ok (some f), h => exact ⟨f, rfl, h⟩

/-- The lookup has found no entry. -/
def notFound : Except Stop (Option Fat16File) → Bool
  | .ok none => true
  | _ => false

theorem eq_of_notFound {x : Except Stop (Option Fat16File)} (h : notFound x = true) : x = .ok none := by
  match x, h with
  | .ok none, _ => rfl

/-- A call that returns a handle. -/
theorem exists_run {x : Except Stop (Option Fat16File) × Disk} (h : foundWith (fun _ => true) x.1 = true) :
    ∃ g d', x = (.ok (some g), d') := by
  obtain ⟨g, hg, -⟩ := exists_found h
  exact ⟨g, x.2, Prod.ext hg rfl⟩

/-- A call that returns a handle that passes the test. -/
theorem exists_opened {x : Except Stop (Option Fat16File) × Disk} {p : Fat16File → Bool}
    (h : foundWith p x.1 = true) : ∃ f d', x = (.ok (some f), d') ∧ p f = true := by
  obtain ⟨f, hf, htest⟩ := exists_found h
  exact ⟨f, x.2, Prod.ext hf rfl, htest⟩

/-- The entry is of the given kind and has the given first cluster. -/
def headsAt (isDir : Bool) (c : Nat) (file : Fat16File) : Bool :=
  isDirectory file.dirent == isDir && file.dirent.startCluster == c

end TsOs.Fat
