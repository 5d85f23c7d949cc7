import TsOs.Malloc.Invariant

/-!
# Allocation

`kmalloc` either finds no free region large enough and changes nothing, or
carves the block off the end of a smallest sufficient free region. The region
that is carved keeps its header address and stays free, possibly with size
zero.
-/

namespace TsOs.Malloc
open ByteMemory LinkPath RegionTiling

/-- What remains of a region after carving `n` bytes and their header. -/
def restOf (r : Region) (n : Nat) : Region := { r with size := r.size - n - rHeaderSize }

/-- The block carved off the end of a region. -/
def blockOf (r : Region) (n : Nat) : Region :=
  ⟨r.addr + rHeaderSize + (r.size - n - rHeaderSize), n, false⟩

/-- The effect of a successful allocation on the heap's bytes and tiling. -/
structure Carved (h h' : Heap) (rs pre post : List Region) (r : Region) (n : Nat) : Prop where
  split : rs = pre ++ r :: post
  free : r.free
  enough : n + rHeaderSize ≤ r.size
  best : ∀ s ∈ rs, s.free → n + rHeaderSize ≤ s.size → r.size ≤ s.size
  wf : ∃ fl', Wf h' (pre ++ [restOf r n, blockOf r n] ++ post) fl'
  frame : Within ((blockOf r n).addr :: rs.map Region.addr) h.mem h'.mem

variable {h : Heap} {rs pre post : List Region} {fl l₁ l₂ : List Nat} {r s : Region} {n : Nat}

/-- A carved region splits into the rest and the block. -/
theorem tiles_carve {a b : Nat} (hsize : n + rHeaderSize ≤ r.size)
    (ht : Tiles rHeaderSize a [r] b) : Tiles rHeaderSize a [restOf r n, blockOf r n] b := by
  obtain ⟨ha, hb⟩ := ht
  refine ⟨ha, rfl, ?_⟩
  simp only [Tiles, Region.stop, blockOf] at hb ⊢
  omega

/-- The list node that the search of `kmalloc` stops at. -/
theorem Wf.searchFit (hw : Wf h rs fl) (n : Nat) :
    (∀ r ∈ rs, r.free → r.size < n) ∧ searchFreeList h.mem n heapFuel 0 h.indexHead = some
        (fl.getLastD 0, 0) ∨
      ∃ l₁ l₂ r, fl = l₁ ++ r.addr :: l₂ ∧ (∀ a ∈ l₁, hdSize h.mem a < n) ∧ r ∈ rs ∧ r.free ∧
        n ≤ r.size ∧ (∀ s ∈ rs, s.free → n ≤ s.size → r.size ≤ s.size) ∧
        searchFreeList h.mem n heapFuel 0 h.indexHead = some (l₁.getLastD 0, r.addr) := by
  let small : Nat → Bool := fun a => decide (hdSize h.mem a < n)
  have hsearch := searchFreeList_eq n 0 hw.path hw.freeList.nonnull hw.length_lt
  have hsplit : fl.takeWhile small ++ fl.dropWhile small = fl := List.takeWhile_append_dropWhile
  have hsmall : ∀ a ∈ fl.takeWhile small, hdSize h.mem a < n := by
    intro a ha
    simpa [small] using List.mem_takeWhile_imp ha
  cases hd : fl.dropWhile small with
  | nil =>
      rw [hd, List.append_nil] at hsplit
      refine Or.inl ⟨?_, ?_⟩
      · intro r hr hfree
        have hmem : r.addr ∈ fl := (hw.members r.addr).mpr ⟨r, hr, hfree, rfl⟩
        rw [← (hw.stored r hr).2]
        exact hsmall _ (hsplit.symm ▸ hmem)
      · change _ = some ((fl.takeWhile small).getLastD 0, (fl.dropWhile small).headD 0) at hsearch
        rw [hd, hsplit] at hsearch
        exact hsearch
  | cons c l₂ =>
      have hc : c ∈ fl := by
        rw [← hsplit, hd]
        simp
      obtain ⟨r, hr, hfree, rfl⟩ := (hw.members c).mp hc
      have hsize : n ≤ r.size := by
        have hnot : small r.addr = false := by
          simpa [hd] using List.head?_dropWhile_not small fl
        rw [← (hw.stored r hr).2]
        simpa [small] using hnot
      refine Or.inr ⟨fl.takeWhile small, l₂, r, by rw [← hd, hsplit], hsmall, hr, hfree, hsize,
        ?_, ?_⟩
      · intro s hs hsfree hsn
        have hmem : s.addr ∈ fl := (hw.members s.addr).mpr ⟨s, hs, hsfree, rfl⟩
        rw [← hsplit, hd, List.mem_append, List.mem_cons] at hmem
        rw [← (hw.stored r hr).2, ← (hw.stored s hs).2]
        rcases hmem with hmem | heq | hmem
        · have := hsmall _ hmem
          rw [(hw.stored s hs).2] at this
          omega
        · rw [heq]
        · have hsorted := hw.sorted
          rw [← hsplit, hd, List.pairwise_append] at hsorted
          exact (List.pairwise_cons.mp hsorted.2.1).1 _ hmem
      · change _ = some ((fl.takeWhile small).getLastD 0, (fl.dropWhile small).headD 0) at hsearch
        rw [hd] at hsearch
        exact hsearch

/-- The regions beside a split one do not touch it. -/
theorem Wf.beside (hw : Wf h (pre ++ r :: post) fl) (hs : s ∈ pre ++ post) :
    s.addr + rHeaderSize + s.size ≤ r.addr ∨ r.addr + rHeaderSize + r.size ≤ s.addr := by
  rcases List.mem_append.mp hs with hs | hs
  · exact Or.inl (hw.tiles.stop_le_of_mem_left hs)
  · exact Or.inr (hw.tiles.stop_le_of_mem_right hs)

/-- The neighbours of a free region are in use. -/
theorem Wf.neighbours_use (hw : Wf h (pre ++ r :: post) fl) (hfree : r.free) :
    (∀ s ∈ pre.getLast?, s.free = false) ∧ ∀ s ∈ post.head?, s.free = false := by
  obtain ⟨-, hright, hseam⟩ := List.isChain_append.mp hw.separated
  constructor
  · intro s hs
    simpa [hfree] using hseam s hs r rfl
  · intro s hs
    simpa [hfree] using (List.isChain_cons.mp hright).1 s hs

/-- `add_alloc_region` sets the back link of the region after a carved one. -/
theorem addAllocRegion_eq (hw : Wf h (pre ++ r :: post) fl) (hfree : r.free) {g : Heap}
    {b : Nat} (hnext : getNextHeader g.mem b = r.stop rHeaderSize)
    (hkeeps : Keeps (pre ++ post) h.mem g.mem) :
    addAllocRegion g b = ⟨backLink g.mem post b, g.indexHead⟩ := by
  simp only [addAllocRegion, hnext]
  cases post with
  | nil =>
      have hend := hw.stop_eq_end
      simp [reachHeapEnd, hend, backLink]
  | cons s post =>
      have hs : s ∈ pre ++ r :: s :: post := by simp
      have haddr := hw.head_addr
      have hnot : ¬heapEnd ≤ s.addr := by
        have hb := (hw.bounds hs).2
        unfold rHeaderSize at hb
        omega
      have hst : hdType g.mem s.addr ≠ regionFree := by
        rw [(hkeeps.header s (by simp)).1, (hw.stored s hs).1,
          (hw.neighbours_use hfree).2 s rfl]
        decide
      rw [← haddr]
      simp only [reachHeapEnd, hnot, decide_false, Bool.false_eq_true, if_false, hst, backLink]

/-- Taking a free region off the list, changing its size and putting it back. -/
theorem Wf.resize (hw : Wf h (pre ++ r :: post) (l₁ ++ r.addr :: l₂)) (hfree : r.free) {v : Nat}
    (hv : v < 2 ^ 32) :
    let h₁ := delFreeRegion h (l₁.getLastD 0) r.addr
    ∃ h' fl', searchAndAddFreeRegion ⟨setSize h₁.mem r.addr v, h₁.indexHead⟩ r.addr = some h' ∧
      Lists h' ({ r with size := v } :: (pre ++ post)) fl' ∧ fl'.erase r.addr = l₁ ++ l₂ ∧
      Keeps (pre ++ post) h.mem h'.mem ∧
      Stored h'.mem { r with size := v } ∧
      Within ((pre ++ r :: post).map Region.addr) h.mem h'.mem := by
  intro h₁
  have hr : r ∈ pre ++ r :: post := by simp
  have hr0 := hw.addr_pos hr
  have hrlt := hw.addr_lt hr
  have hbeside : ∀ s ∈ pre ++ post, Apart r.addr s.addr := fun s hs =>
    (hw.spaced.apart_middle hs).symm
  obtain ⟨hlists, hframe⟩ := hw.lists.delFreeRegion
  have hsize := within_setSize h₁.mem r.addr v
  have hlists₂ := hlists.congr_within hsize hbeside
  have hlen : (l₁ ++ l₂).length < heapFuel := by
    have := hw.length_lt
    simp only [List.length_append, List.length_cons] at this ⊢
    omega
  obtain ⟨h', fl', hrun, hlists', hput, hkeeps', hframe'⟩ :=
    hlists₂.searchAndAddFreeRegion (u := { r with size := v }) hlen hfree hr0 hrlt
      fun s hs => (hbeside s hs).symm
  have hnot : r.addr ∉ l₁ ++ l₂ :=
    (List.nodup_cons.mp (List.perm_middle.nodup_iff.mp hw.nodup)).1
  have hnodes : ∀ a ∈ l₁, a ∈ (pre ++ r :: post).map Region.addr := fun a ha =>
    hw.lists.mem_addr (by simp [ha])
  have hnodes' : ∀ a ∈ r.addr :: (l₁ ++ l₂), a ∈ (pre ++ r :: post).map Region.addr := by
    intro a ha
    refine hw.lists.mem_addr ?_
    simp only [List.mem_append, List.mem_cons] at ha ⊢
    tauto
  have hself : SameHeader (setSize h₁.mem r.addr v) h'.mem r.addr :=
    hframe'.sameHeader (hw.spaced.clear hnodes' hr)
  refine ⟨h', fl', hrun, hlists', hput.erase hnot, ?_, ?_, ?_⟩
  · have hkeeps₁ := hw.lists.keeps hframe (by simp; tauto)
    refine Keeps.trans ⟨fun s hs => hkeeps₁.header s ?_, fun s hs => hkeeps₁.link s ?_⟩
      ((hsize.keeps hbeside).trans hkeeps')
    all_goals
      simp only [List.mem_append, List.mem_cons] at hs ⊢
      exact hs.imp_right Or.inr
  · refine SameHeader.stored (r := { r with size := v }) hself
      ⟨?_, hdSize_setSize_same h₁.mem v hv⟩
    exact ((hdType_setSize h₁.mem v (Or.inl rfl)).trans
      (hframe.hdType_eq (hw.spaced.clear hnodes hr))).trans (hw.stored r hr).1
  · refine ((hframe.within.mono hnodes).trans (hsize.mono ?_)).trans (hframe'.within.mono hnodes')
    simp

/-- The block does not overlap the regions beside the one it is carved from. -/
theorem Wf.apart_blockOf (hw : Wf h (pre ++ r :: post) fl) (hsize : n + rHeaderSize ≤ r.size)
    (hs : s ∈ pre ++ post) : Apart (blockOf r n).addr s.addr := by
  have := hw.beside hs
  simp only [Apart, blockOf]
  omega

/-- The header of the block is written behind the rest of the region. -/
theorem Wf.createBlock (hw : Wf h (pre ++ r :: post) fl) (hn : n + rHeaderSize < 2 ^ 32)
    (hsize : n + rHeaderSize ≤ r.size) {g : Heap} {fl' : List Nat}
    (hlists : Lists g (restOf r n :: (pre ++ post)) fl') (hstored : Stored g.mem (restOf r n)) :
    let b := getNextHeader g.mem r.addr
    let m := createHeader g.mem b regionAlloc n r.addr
    b = (blockOf r n).addr ∧ Within [b] g.mem m ∧ Keeps (pre ++ post) g.mem m ∧
      Lists ⟨m, g.indexHead⟩ (restOf r n :: (pre ++ post)) fl' ∧
      (∀ s ∈ [restOf r n, blockOf r n], Stored m s) ∧ hdLink m b = r.addr ∧
      getNextHeader m b = r.stop rHeaderSize := by
  intro b m
  have hend : heapEnd < 2 ^ 32 := by decide
  have hr : r ∈ pre ++ r :: post := by simp
  have hrb := hw.bounds hr
  have hb : b = (blockOf r n).addr := by
    have hs : hdSize g.mem r.addr = r.size - n - rHeaderSize := hstored.2
    simp only [b]
    unfold getNextHeader
    rw [hs, u32_of_lt (by omega)]
    simp only [blockOf]
    omega
  have hapart : ∀ s ∈ pre ++ post, Apart b s.addr := fun s hs => hb ▸ hw.apart_blockOf hsize hs
  have hrest : Apart b (restOf r n).addr := by
    rw [hb]
    exact Or.inr (by simp only [blockOf, restOf]; omega)
  obtain ⟨htype, hbsize, hlink⟩ := createHeader_fields g.mem b regionAlloc n r.addr (by omega)
    (hw.addr_lt hr)
  have hwithin : Within [b] g.mem m := within_createHeader g.mem b regionAlloc n r.addr
  have hkeeps : Keeps [restOf r n] g.mem m := hwithin.keeps fun s hs => by
    rw [List.mem_singleton.mp hs]
    exact hrest
  refine ⟨hb, hwithin, hwithin.keeps hapart, ?_, ?_, hlink, ?_⟩
  · refine hlists.congr_within hwithin fun s hs => ?_
    rcases List.mem_cons.mp hs with rfl | hs
    · exact hrest
    · exact hapart s hs
  · intro s hs
    rcases List.mem_cons.mp hs with rfl | hs
    · exact (hkeeps.header _ (by simp)).stored hstored
    · obtain rfl := List.mem_singleton.mp hs
      exact ⟨hb ▸ htype, hb ▸ hbsize⟩
  · unfold getNextHeader Region.stop
    rw [show hdSize m b = n from hbsize, hb]
    simp only [blockOf]
    rw [u32_of_lt (by omega)]
    omega

/-- Carving the region at a list node keeps the invariant. -/
theorem Wf.carve (hw : Wf h (pre ++ r :: post) (l₁ ++ r.addr :: l₂))
    (hn : n + rHeaderSize < 2 ^ 32) (hfree : r.free) (hsize : n + rHeaderSize ≤ r.size)
    (hsearch : searchFreeList h.mem (n + rHeaderSize) heapFuel 0 h.indexHead =
      some (l₁.getLastD 0, r.addr)) :
    ∃ h', kmalloc h n = some (h', (blockOf r n).addr + rHeaderSize) ∧
      (∃ fl', Wf h' (pre ++ [restOf r n, blockOf r n] ++ post) fl' ∧
        fl'.erase r.addr = l₁ ++ l₂) ∧
      Within ((blockOf r n).addr :: (pre ++ r :: post).map Region.addr) h.mem h'.mem := by
  have hend : heapEnd < 2 ^ 32 := by decide
  have hr : r ∈ pre ++ r :: post := by simp
  have hrb := hw.bounds hr
  obtain ⟨hleft, hright⟩ := hw.neighbours_use hfree
  -- the size left over, computed without borrow
  set h₁ := delFreeRegion h (l₁.getLastD 0) r.addr with hh₁
  have hrest : sub32 (sub32 (hdSize h₁.mem r.addr) n) rHeaderSize = (restOf r n).size := by
    have hsame := hw.lists.delFreeRegion.2.hdSize_eq
      (hw.spaced.clear (fun a ha => hw.lists.mem_addr (by simp [ha])) hr)
    have hfirst : sub32 r.size n = r.size - n := sub32_of_le (by omega) (by omega)
    rw [hh₁, hsame, (hw.stored r hr).2, hfirst, sub32_of_le (by omega) (by omega)]
    rfl
  obtain ⟨h₃, fl', hrun, hlists, herase, hkeeps, hstored, hwithin⟩ :=
    hw.resize hfree (v := (restOf r n).size) (by change r.size - n - rHeaderSize < 2 ^ 32; omega)
  -- the new header
  obtain ⟨hblock, hwithin₄, hkeeps₄, hlists₄, hstored₄, hlink, hnext⟩ :=
    hw.createBlock hn hsize (g := h₃) hlists hstored
  rw [hblock] at hwithin₄ hkeeps₄ hlists₄ hstored₄ hlink hnext
  set m₄ := createHeader h₃.mem (blockOf r n).addr regionAlloc n r.addr with hm₄
  have hkeepsAll := hkeeps.trans hkeeps₄
  have hadd := addAllocRegion_eq hw hfree (g := ⟨m₄, h₃.indexHead⟩) hnext hkeepsAll
  refine ⟨⟨backLink m₄ post (blockOf r n).addr, h₃.indexHead⟩, ?_, ⟨fl', ?_, herase⟩, ?_⟩
  · have hr0 := hw.addr_pos hr
    have hword : u32 ((blockOf r n).addr + rHeaderSize) = (blockOf r n).addr + rHeaderSize :=
      u32_of_lt (by simp only [blockOf]; omega)
    simp only [← hh₁] at hrun
    simp only [kmalloc, u32_of_lt hn, hsearch, Option.bind_eq_bind, Option.bind_some, hr0,
      if_false, ← hh₁, hrest, hrun, hblock, ← hm₄, hword]
    exact congrArg (fun g => some (g, (blockOf r n).addr + rHeaderSize)) hadd
  · have hw' : Wf h (pre ++ [r] ++ post) (l₁ ++ r.addr :: l₂) := by simpa using hw
    refine hw'.splice ⟨m₄, h₃.indexHead⟩ (blockOf r n) [blockOf r n] (fun a b => tiles_carve hsize)
      hfree (by simp [blockOf]) hleft hright hstored₄ (List.isChain_pair.mpr fun _ => hlink) ?_
      hkeepsAll hlists₄ rfl
    intro s hs t ht
    have htb := hw.tiles.stop_le_of_mem_right ht
    unfold Region.stop at htb
    rcases List.mem_cons.mp hs with rfl | hs
    · exact Or.inl (by simp only [restOf]; omega)
    · obtain rfl := List.mem_singleton.mp hs
      exact hw.apart_blockOf hsize (by simp [ht])
  · refine ((hwithin.mono fun a ha => List.mem_cons_of_mem _ ha).trans
      (hwithin₄.mono (by simp))).trans ((sameOffLinks_backLink m₄ post _).within.mono ?_)
    intro a ha
    obtain ⟨s, hs, rfl⟩ := List.mem_map.mp ha
    have hspost : s ∈ post := List.mem_of_mem_head? (by simpa using hs)
    exact List.mem_cons_of_mem _ (List.mem_map_of_mem (by simp [hspost]))

/-- `kmalloc` fails without a trace or carves a best-fitting region. -/
theorem Wf.kmalloc (hw : Wf h rs fl) (hn : n + rHeaderSize < 2 ^ 32) :
    ((∀ r ∈ rs, r.free → r.size < n + rHeaderSize) ∧ kmalloc h n = some (h, 0)) ∨
      ∃ pre r post h', Malloc.kmalloc h n = some (h', (blockOf r n).addr + rHeaderSize) ∧
        Carved h h' rs pre post r n := by
  rcases hw.searchFit (n + rHeaderSize) with ⟨hnone, hsearch⟩ |
    ⟨l₁, l₂, r, hl, -, hr, hfree, hsize, hbest, hsearch⟩
  · refine Or.inl ⟨hnone, ?_⟩
    simp only [Malloc.kmalloc, u32_of_lt hn, hsearch]
    rfl
  · subst hl
    obtain ⟨pre, post, rfl⟩ := List.append_of_mem hr
    obtain ⟨h', hrun, ⟨fl', hwf, -⟩, hframe⟩ := hw.carve hn hfree hsize hsearch
    exact Or.inr ⟨pre, r, post, h', hrun, ⟨rfl, hfree, hsize, hbest, ⟨fl', hwf⟩, hframe⟩⟩

end TsOs.Malloc
