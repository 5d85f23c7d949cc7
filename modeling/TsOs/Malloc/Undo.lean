import TsOs.Malloc.BestFit

/-!
# Taking an allocation back

`kfree` right after the `kmalloc` of a block restores the headers, the links of the
blocks and the list of free regions. The order of the list comes back as well: the
regions before the chosen one are too small for the request, so they are smaller than
the region that `kfree` inserts, and those behind it are not.
-/

namespace TsOs.Malloc
open ByteMemory LinkPath RegionTiling Transition

/-- The headers, their types and sizes, the links of the blocks and the list of free regions. -/
structure Restored (h h' : Heap) : Prop where
  headers : ∀ a, IsHeader h' a ↔ IsHeader h a
  regions : ∀ a, IsHeader h a →
    hdType h'.mem a = hdType h.mem a ∧ hdSize h'.mem a = hdSize h.mem a
  links : ∀ a, IsHeader h a → hdType h.mem a = regionAlloc → hdLink h'.mem a = hdLink h.mem a
  list : ∀ fl, 0 ∉ fl →
    (Path (hdLink h'.mem) h'.indexHead fl 0 ↔ Path (hdLink h.mem) h.indexHead fl 0)

/-- Every block can be given back with no trace, and the same request gets it again. -/
def TakesBack (c : Client) : Prop :=
  ∀ n h' p, n + rHeaderSize < 2 ^ 32 → kmalloc c.heap n = some (h', p) → p ≠ 0 →
    ∃ h'', kfree h' p = some h'' ∧ Restored c.heap h'' ∧ ∃ g, kmalloc h'' n = some (g, p)

variable {c : Client} {h h' : Heap} {rs pre post pre' post' : List Region}
  {fl fl' l₁ l₂ : List Nat} {r : Region} {p q : Option Region} {n : Nat}

/-! ## The order of the list -/

theorem takeWhile_append_split {α : Type*} {P : α → Bool} {a b : List α} (ha : ∀ x ∈ a, P x)
    (hb : ∀ x ∈ b, ¬P x) : (a ++ b).takeWhile P = a := by
  rw [List.takeWhile_append_of_pos ha]
  cases b with
  | nil => simp
  | cons x b => rw [List.takeWhile_cons_of_neg (hb x (by simp)), List.append_nil]

theorem takeWhile_dropWhile_congr {α : Type*} {P Q : α → Bool} {l : List α}
    (h : ∀ x ∈ l, P x = Q x) : l.takeWhile P = l.takeWhile Q ∧ l.dropWhile P = l.dropWhile Q := by
  induction l with
  | nil => exact ⟨rfl, rfl⟩
  | cons x l ih =>
      obtain ⟨htake, hdrop⟩ := ih fun y hy => h y (by simp [hy])
      have hx := h x (by simp)
      cases hq : Q x with
      | false => simp [hx, hq]
      | true => simp [hx, hq, htake, hdrop]

/-- A node goes back between the smaller nodes and the others. -/
theorem PutFirst.eq_of_sorted {m : Mem} {u : Nat} (h : PutFirst m (l₁ ++ l₂) u fl')
    (hsorted : fl'.Pairwise (sizeLe m)) (hsmall : ∀ a ∈ l₁, hdSize m a < hdSize m u)
    (hlarge : ∀ a ∈ l₂, hdSize m u ≤ hdSize m a) : fl' = l₁ ++ u :: l₂ := by
  obtain ⟨a, b, hsplit, rfl, ha⟩ := h
  have hb : ∀ x ∈ b, hdSize m u ≤ hdSize m x := fun x hx =>
    List.rel_of_pairwise_cons (List.pairwise_append.mp hsorted).2.1 hx
  let small : Nat → Bool := fun x => decide (hdSize m x < hdSize m u)
  have hfront : a = l₁ := by
    calc
      a = (a ++ b).takeWhile small := (takeWhile_append_split (by simpa [small] using ha)
        (by simpa [small] using hb)).symm
      _ = (l₁ ++ l₂).takeWhile small := by rw [hsplit]
      _ = l₁ := takeWhile_append_split (by simpa [small] using hsmall)
        (by simpa [small] using hlarge)
  subst hfront
  rw [List.append_cancel_left hsplit]

/-! ## The regions -/

/-- The rest and the block together are the region that was carved. -/
theorem unified_carved (hfree : r.free) (hsize : n + rHeaderSize ≤ r.size) :
    unified (some (restOf r n)) (blockOf r n) none = r := by
  obtain ⟨addr, size, free⟩ := r
  simp only [unified, joinLeft, joinRight, Region.join, restOf, blockOf, Option.elim_some,
    Option.elim_none, Region.mk.injEq] at hsize ⊢
  exact ⟨trivial, by omega, trivial⟩

/-- The free neighbour of a carved block is the rest of its region, and no other. -/
theorem Around.of_carved (hw : Wf h (pre ++ r :: post) fl) (hfree : r.free)
    (hw' : Wf h' (pre ++ [restOf r n, blockOf r n] ++ post) fl')
    (ha : Around (pre ++ [restOf r n, blockOf r n] ++ post) pre' post' (blockOf r n) p q) :
    pre' = pre ∧ post' = post ∧ p = some (restOf r n) ∧ q = none := by
  have hsplit : (pre ++ [restOf r n]) ++ blockOf r n :: post =
      (pre' ++ p.toList) ++ blockOf r n :: (q.toList ++ post') := by
    simpa using ha.split
  have hother : ∀ s ∈ pre ++ [restOf r n] ++ post, s ≠ blockOf r n := by
    rintro s hs rfl
    have hlist : pre ++ [restOf r n, blockOf r n] ++ post =
        (pre ++ [restOf r n]) ++ blockOf r n :: post := by simp
    have hap := (hlist ▸ hw'.spaced).apart_middle hs
    unfold Apart rHeaderSize at hap
    omega
  obtain ⟨hleft, -, hright⟩ := (List.append_cons_inj_of_notMem
    (fun hmem => hother _ (List.mem_append_left _ hmem) rfl)
    (fun hmem => hother _ (List.mem_append_right _ hmem) rfl)).mp hsplit
  -- the rest is free, and the region behind the block is not
  have hpsome : pre' = pre ∧ p = some (restOf r n) := by
    cases p with
    | none =>
        have hlast : restOf r n ∈ pre'.getLast? := by
          rw [show pre' = _ from (List.append_nil pre').symm.trans hleft.symm]
          simp
        have huse : (restOf r n).free = false := ha.left (restOf r n) hlast
        exact absurd (hfree.symm.trans huse) (by decide)
    | some s =>
        obtain ⟨rfl, hs⟩ := List.append_inj' hleft rfl
        exact ⟨rfl, by simpa using hs.symm⟩
  have hqnone : post' = post ∧ q = none := by
    cases q with
    | none => exact ⟨by simpa using hright.symm, rfl⟩
    | some s =>
        have hhead : s ∈ post.head? := by simp [hright]
        have huse := (hw.neighbours_use hfree).2 s hhead
        exact absurd ((ha.right_free s rfl).symm.trans huse) (by decide)
  exact ⟨hpsome.1, hqnone.1, hpsome.2, hqnone.2⟩

/-! ## A block given back -/

/-- Equal lists of equal regions are searched alike. -/
theorem Wf.searchFreeList_congr (hw : Wf h rs fl) (hw' : Wf h' rs fl) (k : Nat) :
    searchFreeList h'.mem k heapFuel 0 h'.indexHead =
      searchFreeList h.mem k heapFuel 0 h.indexHead := by
  have hsame : ∀ a ∈ fl, hdSize h'.mem a = hdSize h.mem a := by
    intro a ha
    obtain ⟨r, hr, rfl⟩ := hw.exists_of_mem_fl ha
    rw [(hw'.stored r hr).2, (hw.stored r hr).2]
  obtain ⟨htake, hdrop⟩ := takeWhile_dropWhile_congr (P := fun a => decide (hdSize h'.mem a < k))
    (Q := fun a => decide (hdSize h.mem a < k)) fun a ha => by rw [hsame a ha]
  rw [searchFreeList_eq k 0 hw.path hw.freeList.nonnull hw.length_lt,
    searchFreeList_eq k 0 hw'.path hw'.freeList.nonnull hw'.length_lt, htake, hdrop]

/-- Releasing the block that was carved off a region brings the list back as it was. -/
theorem Wf.kfree_carved (hw : Wf h (pre ++ r :: post) (l₁ ++ r.addr :: l₂)) (hfree : r.free)
    (hsize : n + rHeaderSize ≤ r.size) (hsmall : ∀ a ∈ l₁, hdSize h.mem a < r.size)
    (hw' : Wf h' (pre ++ [restOf r n, blockOf r n] ++ post) fl')
    (herase : fl'.erase r.addr = l₁ ++ l₂) :
    ∃ h'', Malloc.kfree h' ((blockOf r n).addr + rHeaderSize) = some h'' ∧
      Wf h'' (pre ++ r :: post) (l₁ ++ r.addr :: l₂) := by
  obtain ⟨pre', post', p, q, ha, hprev, hnext⟩ := hw'.around (x := blockOf r n) (by simp) rfl
  obtain ⟨rfl, rfl, rfl, rfl⟩ := ha.of_carved hw hfree hw'
  obtain ⟨h'', fl'', hrun, hw'', hput, -⟩ := ha.kfree hw' rfl hprev hnext
  rw [unified_carved hfree hsize] at hw'' hput
  have hnull : 0 ∉ l₁ ++ l₂ := fun hmem => hw.freeList.nonnull (by
    rcases List.mem_append.mp hmem with hmem | hmem <;> simp [hmem])
  have hlist : (fl'.erase (ptr (some (restOf r n)))).erase (ptr none) = l₁ ++ l₂ := by
    change (fl'.erase r.addr).erase 0 = _
    rw [herase, List.erase_of_not_mem hnull]
  rw [hlist] at hput
  -- the sizes are those before the allocation
  have hr : r ∈ pre' ++ r :: post' := by simp
  have hsame : ∀ a ∈ l₁ ++ r.addr :: l₂, hdSize h''.mem a = hdSize h.mem a := by
    intro a ha
    obtain ⟨s, hs, rfl⟩ := hw.exists_of_mem_fl ha
    rw [(hw''.stored s hs).2, (hw.stored s hs).2]
  have hrsize : hdSize h''.mem r.addr = r.size := (hw''.stored r hr).2
  have hlarge : ∀ a ∈ l₂, r.size ≤ hdSize h.mem a := fun a ha =>
    (hw.stored r hr).2 ▸ List.rel_of_pairwise_cons (List.pairwise_append.mp hw.sorted).2.1 ha
  have hback := hput.eq_of_sorted hw''.sorted
    (fun a ha => by rw [hrsize, hsame a (by simp [ha])]; exact hsmall a ha)
    (fun a ha => by rw [hrsize, hsame a (by simp [ha])]; exact hlarge a ha)
  exact ⟨h'', hrun, hback ▸ hw''⟩

/-- Two heaps with the same regions and the same list. -/
theorem Wf.restored (hw : Wf h rs fl) (hw' : Wf h' rs fl) : Restored h h' := by
  have hsame := hw.sameRegions hw'
  have hlist : ∀ {g : Heap}, Wf g rs fl → ∀ gl, 0 ∉ gl →
      (Path (hdLink g.mem) g.indexHead gl 0 ↔ gl = fl) := by
    intro g hg gl hnull
    constructor
    · exact fun hpath => hpath.eq_of_not_mem hg.path hnull hg.freeList.nonnull
    · rintro rfl
      exact hg.path
  exact ⟨fun a => hw'.isHeader_iff.trans hw.isHeader_iff.symm,
    fun a ha => hsame.header a (hw.layout.isHeader_iff.mp ha),
    fun a ha => hsame.link a (hw.layout.isHeader_iff.mp ha),
    fun gl hnull => (hlist hw' gl hnull).trans (hlist hw gl hnull).symm⟩

theorem Wf.takesBack {p : Nat} (hw : Wf h rs fl) (hn : n + rHeaderSize < 2 ^ 32)
    (hrun : Malloc.kmalloc h n = some (h', p)) (hp : p ≠ 0) :
    ∃ h'', Malloc.kfree h' p = some h'' ∧ Restored h h'' ∧ ∃ g, Malloc.kmalloc h'' n = some (g, p) := by
  rcases hw.searchFit (n + rHeaderSize) with ⟨-, hsearch⟩ |
    ⟨l₁, l₂, r, rfl, hsmall, hr, hfree, hsize, -, hsearch⟩
  · have hnull : Malloc.kmalloc h n = some (h, 0) := by
      simp only [Malloc.kmalloc, u32_of_lt hn, hsearch]
      rfl
    obtain ⟨-, rfl⟩ := Prod.mk.injEq .. ▸ Option.some.inj (hnull.symm.trans hrun)
    exact absurd rfl hp
  · obtain ⟨pre, post, rfl⟩ := List.append_of_mem hr
    obtain ⟨h₁, hcarve, ⟨fl', hw', herase⟩, -⟩ := hw.carve hn hfree hsize hsearch
    obtain ⟨rfl, rfl⟩ := Prod.mk.injEq .. ▸ Option.some.inj (hcarve.symm.trans hrun)
    obtain ⟨h'', hfreed, hw''⟩ := hw.kfree_carved hfree hsize
      (fun a ha => (hsmall a ha).trans_le hsize) hw' herase
    obtain ⟨g, hagain, -⟩ := hw''.carve hn hfree hsize
      ((hw.searchFreeList_congr hw'' _).trans hsearch)
    exact ⟨h'', hfreed, hw.restored hw'', g, hagain⟩

/-- In every state of a history in which no request wraps around, an allocation and the release of
its block right after it leave no trace. -/
theorem history_takesBack (m : Mem) (calls : List Call)
    (hcalls : Guarded Client.step Client.Valid (Client.init m) calls)
    (hnowrap : Guarded Client.step NoWrap (Client.init m) calls) :
    (∃ c, run Client.step (Client.init m) calls = some c) ∧
      Always Client.step TakesBack (Client.init m) calls := by
  refine history_always hcalls hnowrap ?_
  rintro c ⟨rs, fl, ht⟩ n h' p hn hrun hp
  exact ht.wf.takesBack hn hrun hp

theorem history_takesBack_sample :
    (∃ c, run Client.step (Client.init fun _ => 0) sampleCalls = some c) ∧
      Always Client.step TakesBack (Client.init fun _ => 0) sampleCalls :=
  history_takesBack (fun _ => 0) sampleCalls (by decide) sampleCalls_noWrap

/-- After a request that wraps around the first block and the second one have one header, which is
its own neighbour. A release on its left changes the link of that header. -/
theorem kmalloc_not_takesBack :
    Guarded Client.step Client.Valid (Client.init fun _ => 0) [.kmalloc 16, .kmalloc 0xFFFFFFF4] ∧
      ¬Always Client.step TakesBack (Client.init fun _ => 0) [.kmalloc 16, .kmalloc 0xFFFFFFF4] := by
  refine ⟨by decide, fun halways => ?_⟩
  have hstate : (run Client.step (Client.init fun _ => 0)
      [.kmalloc 16, .kmalloc 0xFFFFFFF4]).map (fun c =>
        (getNextHeader c.heap.mem heapStart, hdType c.heap.mem 0xC0FFFFE4,
          hdLink c.heap.mem 0xC0FFFFE4, (kmalloc c.heap 16).bind fun hp =>
            (kfree hp.1 hp.2).map fun h => (hp.2, hdLink h.mem 0xC0FFFFE4))) =
      some (0xC0FFFFE4, regionAlloc, 0xC0FFFFE4, some (0xC0FFFFD4, heapStart)) := by decide
  obtain ⟨c, hrun, hc⟩ := Option.map_eq_some_iff.mp hstate
  simp only [Prod.mk.injEq, Option.bind_eq_some_iff, Option.map_eq_some_iff] at hc
  obtain ⟨hfirst, htype, hlink, ⟨h', p⟩, hcall, g, hfree, rfl, hlink'⟩ := hc
  obtain ⟨g', hfree', hrestored, -⟩ :=
    always_last TakesBack halways hrun 16 h' 0xC0FFFFD4 (by decide) hcall (by decide)
  obtain rfl := Option.some.inj (hfree.symm.trans hfree')
  have hheader : IsHeader c.heap 0xC0FFFFE4 :=
    ⟨[heapStart], ⟨rfl, hfirst⟩, by decide, by decide⟩
  have hkept := hrestored.links _ hheader htype
  rw [hlink, hlink'] at hkept
  exact absurd hkept (by decide)

end TsOs.Malloc
