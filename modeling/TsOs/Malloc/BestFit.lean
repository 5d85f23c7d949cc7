import TsOs.Malloc.WrapAround

/-!
# Best fit

As long as no request has wrapped around, `kmalloc` refuses a request exactly when no
free region can hold it, and otherwise carves it off the end of a smallest region that
can. The statements speak about the headers of the heap alone.
-/

namespace TsOs.Malloc
open ByteMemory LinkPath RegionTiling Transition

/-- The block at `p` was carved off the end of the region at `a`, a smallest one that could hold
it, and the other regions stayed as they were. -/
structure CarvedFrom (h h' : Heap) (n p a : Nat) : Prop where
  free : IsFree h a
  enough : n + rHeaderSize ≤ hdSize h.mem a
  least : ∀ b, IsFree h b → n + rHeaderSize ≤ hdSize h.mem b → hdSize h.mem a ≤ hdSize h.mem b
  block : IsHeader h' (p - rHeaderSize) ∧ hdType h'.mem (p - rHeaderSize) = regionAlloc ∧
    hdSize h'.mem (p - rHeaderSize) = n
  stop : p + n = a + rHeaderSize + hdSize h.mem a
  rest : IsFree h' a ∧ hdSize h'.mem a + (n + rHeaderSize) = hdSize h.mem a
  others : ∀ b, IsHeader h b → b ≠ a →
    IsHeader h' b ∧ hdType h'.mem b = hdType h.mem b ∧ hdSize h'.mem b = hdSize h.mem b
  headers : ∀ b, IsHeader h' b → b = p - rHeaderSize ∨ IsHeader h b

/-- `kmalloc` returns `NULL` and changes nothing exactly when no free region can hold the request,
and otherwise carves a block from a best one. -/
def BestFit (h : Heap) (n : Nat) : Prop :=
  ∃ h' p, kmalloc h n = some (h', p) ∧
    ((p = 0 ∧ h' = h) ↔ ∀ a, IsFree h a → hdSize h.mem a < n + rHeaderSize) ∧
    ((∃ a, IsFree h a ∧ n + rHeaderSize ≤ hdSize h.mem a) → ∃ a, CarvedFrom h h' n p a)

/-- Every request whose sum with the header does not overflow is served by best fit. -/
def ServesBestFit (c : Client) : Prop := ∀ n, n + rHeaderSize < 2 ^ 32 → BestFit c.heap n

variable {c c' : Client} {h h' : Heap} {rs pre post : List Region} {fl : List Nat}
  {r s : Region} {n : Nat}

/-- The regions after a carving are the block, the rest and the others. -/
theorem mem_carved_cases (hs : s ∈ pre ++ [restOf r n, blockOf r n] ++ post) :
    s = restOf r n ∨ s = blockOf r n ∨ s ∈ pre ++ post := by
  simp only [List.mem_append, List.mem_cons, List.not_mem_nil, or_false] at hs ⊢
  tauto

theorem Carved.carvedFrom (hw : Wf h rs fl) (hc : Carved h h' rs pre post r n) :
    CarvedFrom h h' n ((blockOf r n).addr + rHeaderSize) r.addr := by
  obtain ⟨rfl, hfree, hsize, hbest, ⟨fl', hw'⟩, -⟩ := hc
  have hr : r ∈ pre ++ r :: post := by simp
  have hrsize := (hw.stored r hr).2
  have hblock : blockOf r n ∈ pre ++ [restOf r n, blockOf r n] ++ post := by simp
  have hrest : restOf r n ∈ pre ++ [restOf r n, blockOf r n] ++ post := by simp
  have hback : (blockOf r n).addr + rHeaderSize - rHeaderSize = (blockOf r n).addr :=
    Nat.add_sub_cancel ..
  refine ⟨hw.isFree_iff.mpr ⟨r, hr, hfree, rfl⟩, hrsize.symm ▸ hsize, ?_, ?_, ?_, ?_, ?_, ?_⟩
  · intro b hb hbsize
    obtain ⟨s, hs, hsfree, rfl⟩ := hw.isFree_iff.mp hb
    rw [(hw.stored s hs).2] at hbsize ⊢
    rw [hrsize]
    exact hbest s hs hsfree hbsize
  · rw [hback]
    exact ⟨hw'.isHeader_iff.mpr ⟨_, hblock, rfl⟩, (hw'.stored _ hblock).1, (hw'.stored _ hblock).2⟩
  · rw [hrsize]
    simp only [blockOf]
    omega
  · have hleft : hdSize h'.mem r.addr = r.size - n - rHeaderSize := (hw'.stored _ hrest).2
    refine ⟨hw'.isFree_iff.mpr ⟨_, hrest, hfree, rfl⟩, ?_⟩
    rw [hleft, hrsize]
    omega
  · intro b hb hne
    obtain ⟨s, hs, rfl⟩ := hw.isHeader_iff.mp hb
    have hs' : s ∈ pre ++ [restOf r n, blockOf r n] ++ post := by
      have hsr : s ≠ r := fun heq => hne (by rw [heq])
      simp only [List.mem_append, List.mem_cons, hsr, false_or] at hs ⊢
      tauto
    have hbefore := hw.stored s hs
    have hafter := hw'.stored s hs'
    exact ⟨hw'.isHeader_iff.mpr ⟨s, hs', rfl⟩, hafter.1.trans hbefore.1.symm,
      hafter.2.trans hbefore.2.symm⟩
  · intro b hb
    obtain ⟨s, hs, rfl⟩ := hw'.isHeader_iff.mp hb
    rw [hback, hw.isHeader_iff]
    rcases mem_carved_cases hs with rfl | rfl | hs
    · exact Or.inr ⟨r, hr, rfl⟩
    · exact Or.inl rfl
    · exact Or.inr ⟨s, by simp only [List.mem_append, List.mem_cons] at hs ⊢; tauto, rfl⟩

theorem Wf.bestFit (hw : Wf h rs fl) (hn : n + rHeaderSize < 2 ^ 32) : BestFit h n := by
  rw [BestFit, hw.all_small_iff]
  rcases hw.kmalloc hn with ⟨hnone, hrun⟩ | ⟨pre, r, post, h', hrun, hc⟩
  · refine ⟨h, 0, hrun, iff_of_true ⟨rfl, rfl⟩ hnone, ?_⟩
    rintro ⟨a, ha, hsize⟩
    exact absurd (hw.all_small_iff.mpr hnone a ha) (Nat.not_lt.mpr hsize)
  · refine ⟨h', _, hrun, iff_of_false ?_ ?_, fun _ => ⟨r.addr, hc.carvedFrom hw⟩⟩
    · rintro ⟨hp, -⟩
      unfold rHeaderSize at hp
      omega
    · intro hnone
      have hr : r ∈ rs := hc.split ▸ by simp
      exact absurd (hnone r hr hc.free) (Nat.not_lt.mpr hc.enough)

/-- In every state of a history in which no request wraps around, all further requests are served
by best fit. -/
theorem history_bestFit (m : Mem) (calls : List Call)
    (hcalls : Guarded Client.step Client.Valid (Client.init m) calls)
    (hnowrap : Guarded Client.step NoWrap (Client.init m) calls) :
    (∃ c, run Client.step (Client.init m) calls = some c) ∧
      Always Client.step ServesBestFit (Client.init m) calls := by
  refine history_always hcalls hnowrap ?_
  rintro c ⟨rs, fl, ht⟩ n hn
  exact ht.wf.bestFit hn

theorem history_bestFit_sample :
    (∃ c, run Client.step (Client.init fun _ => 0) sampleCalls = some c) ∧
      Always Client.step ServesBestFit (Client.init fun _ => 0) sampleCalls :=
  history_bestFit (fun _ => 0) sampleCalls (by decide) sampleCalls_noWrap

/-! ## After a request that wraps around -/

/-- The second request gets the first block again, with a header whose size leads back to it. -/
def wrapCalls : List Call := [.kmalloc 16, .kmalloc 0xFFFFFFF4, .kfree 0xC0FFFFF0]

/-- Stepping from the start of the heap never leaves the header of the block. -/
theorem isHeader_of_loop {a b : Nat} (hfirst : getNextHeader h.mem heapStart = b)
    (hloop : getNextHeader h.mem b = b) (ha : IsHeader h a) : a = heapStart ∨ a = b := by
  obtain ⟨before, hpath, -⟩ := ha
  have hfrom : ∀ l p, p = heapStart ∨ p = b → Path (getNextHeader h.mem) p l a →
      a = heapStart ∨ a = b := by
    intro l
    induction l with
    | nil => rintro p hp rfl; exact hp
    | cons x l ih =>
        rintro p hp ⟨rfl, htail⟩
        refine ih _ (Or.inr ?_) htail
        rcases hp with rfl | rfl
        · exact hfirst
        · exact hloop
  exact hfrom before heapStart (Or.inl rfl) hpath

/-- With the block released its header is a free region of four gigabytes. A request that the
rest of the heap cannot hold is carved off that region, over the header of the first one. -/
theorem kmalloc_not_bestFit :
    Guarded Client.step Client.Valid (Client.init fun _ => 0) wrapCalls ∧
      ¬Always Client.step ServesBestFit (Client.init fun _ => 0) wrapCalls := by
  refine ⟨by decide, fun halways => ?_⟩
  have hstate : (run Client.step (Client.init fun _ => 0) wrapCalls).map (fun c =>
      (getNextHeader c.heap.mem heapStart, getNextHeader c.heap.mem 0xC0FFFFE4,
        hdSize c.heap.mem heapStart,
        (kmalloc c.heap 0x3FFFD5).map fun hp => (hp.2, hdSize hp.1.mem heapStart))) =
      some (0xC0FFFFE4, 0xC0FFFFE4, 0x3FFFD8, some (0xC0C0000F, 0xD53FFF87)) := by decide
  obtain ⟨c, hrun, hc⟩ := Option.map_eq_some_iff.mp hstate
  simp only [Prod.mk.injEq, Option.map_eq_some_iff] at hc
  obtain ⟨hfirst, hloop, hsize, ⟨h', p⟩, hcall, rfl, hsize'⟩ := hc
  obtain ⟨g, q, hcall', hrefused, hserved⟩ :=
    always_last ServesBestFit halways hrun 0x3FFFD5 (by decide)
  obtain ⟨rfl, rfl⟩ := Prod.mk.injEq .. ▸ Option.some.inj (hcall.symm.trans hcall')
  -- the call has a result, so some region must have held it
  have hfits : ∃ a, IsFree c.heap a ∧ 0x3FFFD5 + rHeaderSize ≤ hdSize c.heap.mem a := by
    by_contra hnone
    push Not at hnone
    exact absurd (hrefused.mpr hnone).1 (by decide)
  obtain ⟨a, hcarved⟩ := hserved hfits
  have henough := hcarved.enough
  have hstart : IsHeader c.heap heapStart := ⟨[], rfl, List.not_mem_nil, by decide⟩
  rcases isHeader_of_loop hfirst hloop hcarved.free.1 with rfl | rfl
  · rw [hsize] at henough
    exact absurd henough (by decide)
  · have hkept := (hcarved.others heapStart hstart (by decide)).2.2
    rw [hsize, hsize'] at hkept
    exact absurd hkept (by decide)

end TsOs.Malloc
