import TsOs.Library.LinkPath
import TsOs.Malloc.Allocator
import Mathlib.Data.List.Sort
import Mathlib.Data.List.TakeWhile

/-!
# The list of free regions

`FreeList h fl` says that the list starting at `index_head` visits exactly the
headers of `fl` and ends in `NULL`. Each list routine of the allocator gets one
specification: the list it leaves, and the bytes it may have changed. Those
are always link words of list nodes, so types, sizes and the links of other
headers are untouched.
-/

namespace TsOs.Malloc
open ByteMemory LinkPath

/-- Two headers do not overlap. -/
def Apart (a b : Nat) : Prop := a + rHeaderSize ≤ b ∨ b + rHeaderSize ≤ a

/-- The memories agree outside the link words of the given headers. -/
def SameOffLinks (hds : List Nat) (m m' : Mem) : Prop :=
  ∀ x, (∀ a ∈ hds, x < a + 8 ∨ a + 12 ≤ x) → m' x = m x

/-- The given headers are the same as, or do not overlap, the header `b`. -/
def Clear (hds : List Nat) (b : Nat) : Prop := ∀ a ∈ hds, a = b ∨ Apart a b

namespace SameOffLinks

variable {hds hds' : List Nat} {m m' m'' : Mem} {b : Nat}

theorem refl (hds : List Nat) (m : Mem) : SameOffLinks hds m m := fun _ _ => rfl

theorem mono (h : SameOffLinks hds m m') (hsub : ∀ a ∈ hds, a ∈ hds') :
    SameOffLinks hds' m m' :=
  fun x hx => h x fun a ha => hx a (hsub a ha)

theorem trans (h : SameOffLinks hds m m') (h' : SameOffLinks hds m' m'') :
    SameOffLinks hds m m'' :=
  fun x hx => (h' x hx).trans (h x hx)

theorem hdType_eq (h : SameOffLinks hds m m') (hb : Clear hds b) :
    hdType m' b = hdType m b := by
  apply h
  intro a ha
  have := hb a ha
  unfold Apart rHeaderSize at this
  omega

theorem hdSize_eq (h : SameOffLinks hds m m') (hb : Clear hds b) :
    hdSize m' b = hdSize m b := by
  apply load_congr
  intro x hx hx'
  apply h
  intro a ha
  have := hb a ha
  unfold Apart rHeaderSize at this
  omega

theorem hdLink_eq (h : SameOffLinks hds m m') (hb : Clear hds b) (hnot : b ∉ hds) :
    hdLink m' b = hdLink m b := by
  apply load_congr
  intro x hx hx'
  apply h
  intro a ha
  have hne : a ≠ b := fun heq => hnot (heq ▸ ha)
  have := (hb a ha).resolve_left hne
  unfold Apart rHeaderSize at this
  omega

end SameOffLinks

theorem sameOffLinks_setLink (m : Mem) (a v : Nat) : SameOffLinks [a] m (setLink m a v) := by
  intro x hx
  have := hx a (by simp)
  exact store_of_outside m (a + 8) v (by omega)

theorem hdLink_setLink_same (m : Mem) (a : Nat) {v : Nat} (hv : v < 2 ^ 32) :
    hdLink (setLink m a v) a = v :=
  load32_store32_same m (a + 8) hv

theorem hdLink_setLink_apart (m : Mem) {a b : Nat} (v : Nat) (h : Apart a b) :
    hdLink (setLink m a v) b = hdLink m b := by
  unfold Apart rHeaderSize at h
  exact load_store_disjoint m v (by omega)

theorem hdLink_lt (m : Mem) (a : Nat) : hdLink m a < 2 ^ 32 := load32_lt m (a + 8)

/-- The list from `index_head` visits exactly `fl` and ends in `NULL`. -/
structure FreeList (h : Heap) (fl : List Nat) : Prop where
  path : Path (hdLink h.mem) h.indexHead fl 0
  nonnull : 0 ∉ fl
  nodup : fl.Nodup
  clear : ∀ a ∈ fl, Clear fl a
  word : ∀ a ∈ fl, a < 2 ^ 32

variable {h : Heap} {fl l₁ l₂ : List Nat} {d new : Nat}

theorem FreeList.headD_lt (hfl : FreeList h (l₁ ++ l₂)) : l₂.headD 0 < 2 ^ 32 := by
  cases l₂ with
  | nil => decide
  | cons x l => exact hfl.word x (by simp)

/-- Another memory with the same links carries the same list. -/
theorem FreeList.congr (hfl : FreeList h fl) {m : Mem}
    (hlink : ∀ a ∈ fl, hdLink m a = hdLink h.mem a) : FreeList { h with mem := m } fl where
  path := hfl.path.congr hlink
  nonnull := hfl.nonnull
  nodup := hfl.nodup
  clear := hfl.clear
  word := hfl.word

/-- Removing a node keeps the side conditions of the list. -/
theorem FreeList.without (hfl : FreeList h (l₁ ++ d :: l₂)) {h' : Heap}
    (hpath : Path (hdLink h'.mem) h'.indexHead (l₁ ++ l₂) 0) : FreeList h' (l₁ ++ l₂) := by
  have hsub : (l₁ ++ l₂).Sublist (l₁ ++ d :: l₂) :=
    List.Sublist.append_left (List.sublist_cons_self d l₂) l₁
  exact {
    path := hpath
    nonnull := fun hmem => hfl.nonnull (hsub.subset hmem)
    nodup := hfl.nodup.sublist hsub
    clear := fun a ha b hb => hfl.clear a (hsub.subset ha) b (hsub.subset hb)
    word := fun a ha => hfl.word a (hsub.subset ha) }

/-- `del_free_region` with the node before `d` takes `d` out of the list. -/
theorem FreeList.delFreeRegion (hfl : FreeList h (l₁ ++ d :: l₂)) :
    FreeList (delFreeRegion h (l₁.getLastD 0) d) (l₁ ++ l₂) ∧
      SameOffLinks l₁ h.mem (Malloc.delFreeRegion h (l₁.getLastD 0) d).mem := by
  have hd0 : d ≠ 0 := fun heq => hfl.nonnull (by simp [heq])
  rcases List.eq_nil_or_concat' l₁ with rfl | ⟨l, x, rfl⟩
  · obtain ⟨-, htail⟩ := hfl.path
    simp only [Malloc.delFreeRegion, hd0, List.getLastD_nil, if_true, if_false]
    exact ⟨hfl.without htail, SameOffLinks.refl _ _⟩
  · have hx0 : x ≠ 0 := fun heq => hfl.nonnull (by simp [heq])
    have hlast : (l ++ [x]).getLastD 0 = x := by simp
    simp only [Malloc.delFreeRegion, hd0, hlast, hx0, if_false]
    have hframe := sameOffLinks_setLink h.mem x (hdLink h.mem d)
    refine ⟨hfl.without ?_, hframe.mono (by simp)⟩
    have hagree : ∀ y ∈ l ++ l₂, hdLink (setLink h.mem x (hdLink h.mem d)) y = hdLink h.mem y := by
      intro y hy
      have hne : y ≠ x := by
        intro heq
        have hnd := hfl.nodup
        simp only [List.append_assoc, List.cons_append, List.nil_append] at hnd
        subst heq
        simp only [List.nodup_append, List.nodup_cons, List.mem_append] at hnd hy
        grind
      have hymem : y ∈ l ++ [x] ++ d :: l₂ := by
        simp only [List.mem_append, List.mem_cons] at hy ⊢
        tauto
      refine hframe.hdLink_eq ?_ (by simpa using hne)
      intro a ha
      rw [List.mem_singleton] at ha
      subst ha
      exact hfl.clear y hymem a (by simp)
    have hpath := hfl.path
    simp only [List.append_assoc, List.cons_append, List.nil_append] at hpath ⊢
    exact hpath.unlink (hdLink_setLink_same h.mem x (hdLink_lt h.mem d)) hagree

/-- `add_free_region` between two parts of the list links the new node in. -/
theorem FreeList.addFreeRegion (hfl : FreeList h (l₁ ++ l₂)) (hnew0 : new ≠ 0)
    (hnew : new < 2 ^ 32) (hapart : ∀ a ∈ l₁ ++ l₂, Apart a new) :
    FreeList (addFreeRegion h (l₁.getLastD 0) (l₂.headD 0) new) (l₁ ++ new :: l₂) ∧
      SameOffLinks (new :: l₁) h.mem
        (Malloc.addFreeRegion h (l₁.getLastD 0) (l₂.headD 0) new).mem := by
  have hnot : new ∉ l₁ ++ l₂ := by
    intro hmem
    have := hapart new hmem
    unfold Apart rHeaderSize at this
    omega
  have hside : ∀ h' : Heap, Path (hdLink h'.mem) h'.indexHead (l₁ ++ new :: l₂) 0 →
      FreeList h' (l₁ ++ new :: l₂) := by
    intro h' hpath
    have hperm : (l₁ ++ new :: l₂).Perm (new :: (l₁ ++ l₂)) := List.perm_middle
    refine ⟨hpath, ?_, ?_, ?_, ?_⟩
    · rw [hperm.mem_iff, List.mem_cons, not_or]
      exact ⟨hnew0.symm, hfl.nonnull⟩
    · exact hperm.nodup_iff.mpr (List.nodup_cons.mpr ⟨hnot, hfl.nodup⟩)
    · intro a ha b hb
      rw [hperm.mem_iff, List.mem_cons] at ha hb
      rcases ha with rfl | ha <;> rcases hb with rfl | hb
      · exact Or.inl rfl
      · exact Or.inr (hapart b hb)
      · exact Or.inr (hapart a ha).symm
      · exact hfl.clear a ha b hb
    · intro a ha
      rw [hperm.mem_iff, List.mem_cons] at ha
      rcases ha with rfl | ha
      · exact hnew
      · exact hfl.word a ha
  have hhead := hfl.headD_lt
  rcases List.eq_nil_or_concat' l₁ with rfl | ⟨l, x, rfl⟩
  · simp only [List.getLastD_nil, Malloc.addFreeRegion, if_true]
    have hframe := sameOffLinks_setLink h.mem new (l₂.headD 0)
    refine ⟨hside _ ⟨rfl, ?_⟩, hframe⟩
    change Path _ (hdLink (setLink h.mem new (l₂.headD 0)) new) l₂ 0
    have hpath : Path (hdLink h.mem) h.indexHead l₂ 0 := hfl.path
    rw [hdLink_setLink_same h.mem new hhead, ← hpath.start_eq]
    refine hpath.congr fun y hy => ?_
    exact hdLink_setLink_apart h.mem _ (hapart y hy).symm
  · have hx0 : x ≠ 0 := fun heq => hfl.nonnull (by simp [heq])
    have hlast : (l ++ [x]).getLastD 0 = x := by simp
    have hxnew : Apart x new := hapart x (by simp)
    simp only [hlast, Malloc.addFreeRegion, hx0, if_false]
    have hframe₁ := sameOffLinks_setLink h.mem x new
    have hframe₂ := sameOffLinks_setLink (setLink h.mem x new) new (l₂.headD 0)
    refine ⟨hside _ ?_, (hframe₁.mono (by simp)).trans (hframe₂.mono (by simp))⟩
    have hpath := hfl.path
    simp only [List.append_assoc, List.cons_append, List.nil_append] at hpath ⊢
    obtain ⟨-, hafter⟩ := path_append_cons.mp hpath
    refine hpath.link ?_ ?_ ?_
    · rw [hdLink_setLink_apart _ _ hxnew.symm]
      exact hdLink_setLink_same h.mem x hnew
    · rw [hdLink_setLink_same _ new hhead]
      exact (Path.start_eq hafter).symm
    · intro y hy
      have hymem : y ∈ l ++ [x] ++ l₂ := by
        simp only [List.mem_append] at hy ⊢
        tauto
      have hne : y ≠ x := by
        intro heq
        have hnd := hfl.nodup
        subst heq
        simp only [List.append_assoc, List.cons_append, List.nil_append, List.nodup_append,
          List.nodup_cons, List.mem_append] at hnd hy
        grind
      have hxy : Apart x y := (hfl.clear y hymem x (by simp)).resolve_left hne.symm
      change hdLink (setLink (setLink h.mem x new) new (l₂.headD 0)) y = _
      rw [hdLink_setLink_apart _ _ (hapart y hymem).symm, hdLink_setLink_apart _ _ hxy]

/-- The size search stops where the sizes stop being too small. -/
theorem searchFreeList_eq {m : Mem} {fuel cur : Nat} {l : List Nat} (need prev : Nat)
    (hpath : Path (hdLink m) cur l 0) (hnull : 0 ∉ l) (hfuel : l.length < fuel) :
    searchFreeList m need fuel prev cur =
      some ((l.takeWhile (hdSize m · < need)).getLastD prev,
        (l.dropWhile (hdSize m · < need)).headD 0) := by
  induction l generalizing fuel prev cur with
  | nil =>
      obtain ⟨fuel, rfl⟩ : ∃ k, fuel = k + 1 := ⟨fuel - 1, by simp at hfuel; omega⟩
      have hcur : cur = 0 := hpath
      simp [searchFreeList, hcur]
  | cons x l ih =>
      obtain ⟨fuel, rfl⟩ : ∃ k, fuel = k + 1 := ⟨fuel - 1, by omega⟩
      obtain ⟨rfl, htail⟩ := hpath
      have hx0 : cur ≠ 0 := fun heq => hnull (by simp [heq])
      by_cases hsize : hdSize m cur < need
      · have hrest := ih cur htail (fun hmem => hnull (by simp [hmem]))
          (Nat.lt_of_succ_lt_succ hfuel)
        simp only [searchFreeList, hx0, if_false, Nat.not_le.mpr hsize, hrest, hsize,
          decide_true, List.takeWhile_cons_of_pos, List.dropWhile_cons_of_pos,
          List.getLastD_cons]
      · simp [searchFreeList, hx0, hsize]

/-- The order `search_and_add_free_region` keeps. -/
def sizeLe (m : Mem) (a b : Nat) : Prop := hdSize m a ≤ hdSize m b

instance (m : Mem) : DecidableRel (sizeLe m) := fun a b =>
  inferInstanceAs (Decidable (hdSize m a ≤ hdSize m b))

/-- `fl'` is `fl` with `u` in front of the first node of at least its size. -/
def PutFirst (m : Mem) (fl : List Nat) (u : Nat) (fl' : List Nat) : Prop :=
  ∃ l₁ l₂, fl = l₁ ++ l₂ ∧ fl' = l₁ ++ u :: l₂ ∧ ∀ a ∈ l₁, hdSize m a < hdSize m u

theorem putFirst_orderedInsert (m : Mem) (fl : List Nat) (u : Nat) :
    PutFirst m fl u (fl.orderedInsert (sizeLe m) u) := by
  refine ⟨_, _, List.takeWhile_append_dropWhile.symm, List.orderedInsert_eq_take_drop .., ?_⟩
  intro a ha
  have hsmall := List.mem_takeWhile_imp ha
  simpa [sizeLe] using hsmall

/-- Taking the node off again gives the list before. -/
theorem PutFirst.erase {m : Mem} {fl fl' : List Nat} {u : Nat} (h : PutFirst m fl u fl')
    (hu : u ∉ fl) : fl'.erase u = fl := by
  obtain ⟨l₁, l₂, rfl, rfl, -⟩ := h
  rw [List.erase_append_right _ fun hmem => hu (by simp [hmem]), List.erase_cons_head]

theorem PutFirst.congr {m m' : Mem} {fl fl' : List Nat} {u : Nat} (h : PutFirst m fl u fl')
    (hsize : ∀ a ∈ u :: fl, hdSize m' a = hdSize m a) : PutFirst m' fl u fl' := by
  obtain ⟨l₁, l₂, rfl, rfl, hsmall⟩ := h
  refine ⟨l₁, l₂, rfl, rfl, fun a ha => ?_⟩
  rw [hsize a (by simp [ha]), hsize u (by simp)]
  exact hsmall a ha

/-- `search_and_add_free_region` inserts by size. -/
theorem FreeList.searchAndAddFreeRegion (hfl : FreeList h fl) (hlen : fl.length < heapFuel)
    (hnew0 : new ≠ 0) (hnew : new < 2 ^ 32) (hapart : ∀ a ∈ fl, Apart a new) :
    ∃ h', searchAndAddFreeRegion h new = some h' ∧
      FreeList h' (fl.orderedInsert (sizeLe h.mem) new) ∧
      SameOffLinks (new :: fl) h.mem h'.mem := by
  let small : Nat → Bool := fun a => decide (hdSize h.mem a < hdSize h.mem new)
  have hsplit : fl.takeWhile small ++ fl.dropWhile small = fl := List.takeWhile_append_dropWhile
  have hinsert : fl.orderedInsert (sizeLe h.mem) new =
      fl.takeWhile small ++ new :: fl.dropWhile small := by
    have hpred : (fun b => decide ¬sizeLe h.mem new b) = small := by
      funext b
      simp [small, sizeLe]
    rw [List.orderedInsert_eq_take_drop, hpred]
  have hsearch := searchFreeList_eq (hdSize h.mem new) 0 hfl.path hfl.nonnull hlen
  have hfl' : FreeList h (fl.takeWhile small ++ fl.dropWhile small) := hsplit.symm ▸ hfl
  have hadd := hfl'.addFreeRegion hnew0 hnew (hsplit.symm ▸ hapart)
  refine ⟨_, ?_, hinsert ▸ hadd.1, hadd.2.mono ?_⟩
  · simp only [Malloc.searchAndAddFreeRegion, hsearch]
    rfl
  · intro a ha
    rcases List.mem_cons.mp ha with rfl | ha
    · simp
    · exact List.mem_cons_of_mem _ ((List.takeWhile_prefix small).subset ha)

/-- The search of `kfree` finds the node before its target. -/
theorem searchNode_eq {m : Mem} {target fuel it2 : Nat} {q : Nat} (it1 : Nat)
    (hpath : Path (hdLink m) it2 (l₁ ++ target :: l₂) q) (hnull : 0 ∉ l₁) (hnot : target ∉ l₁)
    (hfuel : l₁.length < fuel) :
    searchNode m target fuel it1 it2 = some (l₁.getLastD it1) := by
  induction l₁ generalizing fuel it1 it2 with
  | nil =>
      obtain ⟨fuel, rfl⟩ : ∃ k, fuel = k + 1 := ⟨fuel - 1, by simp at hfuel; omega⟩
      have hit : it2 = target := hpath.1
      simp [searchNode, hit]
  | cons x l ih =>
      obtain ⟨fuel, rfl⟩ : ∃ k, fuel = k + 1 := ⟨fuel - 1, by omega⟩
      obtain ⟨rfl, htail⟩ := hpath
      have hx0 : it2 ≠ 0 := fun heq => hnull (by simp [heq])
      have hxt : it2 ≠ target := fun heq => hnot (by simp [heq])
      have hrest := ih it2 htail (fun hmem => hnull (by simp [hmem]))
        (fun hmem => hnot (by simp [hmem])) (Nat.lt_of_succ_lt_succ hfuel)
      simp only [searchNode, hxt, hx0, if_false, hrest, List.getLastD_cons]

end TsOs.Malloc
