import TsOs.Malloc.Kmalloc

/-!
# Release

`kfree` marks a region free and joins it with a free left and a free right
neighbour. Both neighbours are found without a search: the left one through the
back link, the right one by stepping over the region. The list node of each is
searched for, and the search always ends at it.
-/

namespace TsOs.Malloc
open ByteMemory LinkPath RegionTiling

variable {h : Heap} {rs pre post side s₁ s₂ : List Region} {fl l₁ l₂ : List Nat}
  {r s x d : Region}

/-- `kfree` takes a free region off the list. -/
theorem Lists.unlinkNeighbour (hl : Lists h (s₁ ++ d :: s₂) fl) (hlen : fl.length < heapFuel)
    (hfree : d.free) :
    ∃ h', unlinkNeighbour h d.addr = some h' ∧ Lists h' (s₁ ++ s₂) (fl.erase d.addr) ∧
      Keeps (s₁ ++ d :: s₂) h.mem h'.mem ∧
      SameOffLinks ((s₁ ++ d :: s₂).map Region.addr) h.mem h'.mem := by
  have hmem : d.addr ∈ fl := (hl.mem_iff _).mpr ⟨d, by simp, hfree, rfl⟩
  obtain ⟨l₁, l₂, rfl⟩ := List.append_of_mem hmem
  have hnot : d.addr ∉ l₁ := by
    have hnd := hl.list.nodup
    rw [List.nodup_append] at hnd
    exact fun hin => hnd.2.2 d.addr hin d.addr (by simp) rfl
  have hd0 : d.addr ≠ 0 := fun heq => hl.list.nonnull (by simp [← heq])
  have hfuel : l₁.length < heapFuel := by
    simp only [List.length_append, List.length_cons] at hlen
    omega
  have hsearch := searchNode_eq 0 hl.list.path (fun h0 => hl.list.nonnull (by simp [h0])) hnot
    hfuel
  obtain ⟨hlists, hframe⟩ := hl.delFreeRegion
  rw [List.erase_append_right _ hnot, List.erase_cons_head]
  refine ⟨_, ?_, hlists, hl.keeps hframe (by simp; tauto), hframe.mono ?_⟩
  · simp only [Malloc.unlinkNeighbour, hd0, if_false, hsearch]
    rfl
  · exact fun a ha => hl.mem_addr (by simp [ha])

/-- The pointer `kfree` keeps for a neighbour that may be missing. -/
def ptr (o : Option Region) : Nat := o.elim 0 Region.addr

/-- `kfree` takes a neighbour off the list if there is a free one. -/
theorem Lists.unlinkOption {o : Option Region} (hl : Lists h (s₁ ++ o.toList ++ s₂) fl)
    (hlen : fl.length < heapFuel) (hfree : ∀ d ∈ o, d.free) :
    ∃ h', Malloc.unlinkNeighbour h (ptr o) = some h' ∧ Lists h' (s₁ ++ s₂) (fl.erase (ptr o)) ∧
      Keeps (s₁ ++ o.toList ++ s₂) h.mem h'.mem ∧
      SameOffLinks ((s₁ ++ o.toList ++ s₂).map Region.addr) h.mem h'.mem := by
  cases o with
  | none =>
      have hnull : fl.erase (ptr none) = fl := List.erase_of_not_mem hl.list.nonnull
      refine ⟨h, rfl, by rw [hnull]; simpa using hl, ?_, SameOffLinks.refl _ _⟩
      exact ⟨fun _ _ => ⟨rfl, rfl⟩, fun _ _ _ => rfl⟩
  | some d =>
      have hlist : s₁ ++ (some d).toList ++ s₂ = s₁ ++ d :: s₂ := by simp
      rw [hlist] at hl ⊢
      exact hl.unlinkNeighbour hlen (hfree d rfl)

/-- A region in use can be left out of the listed ones. -/
theorem Lists.drop_use (hl : Lists h (s₁ ++ d :: s₂) fl) (huse : d.free = false) :
    Lists h (s₁ ++ s₂) fl := by
  refine ⟨hl.spaced.drop_middle, hl.list, fun a => ?_, hl.sorted⟩
  rw [hl.mem_iff]
  constructor
  · rintro ⟨s, hs, hsfree, rfl⟩
    refine ⟨s, ?_, hsfree, rfl⟩
    simp only [List.mem_append, List.mem_cons] at hs ⊢
    rcases hs with hs | rfl | hs
    · exact Or.inl hs
    · rw [huse] at hsfree
      exact absurd hsfree (by decide)
    · exact Or.inr hs
  · rintro ⟨s, hs, hsfree, rfl⟩
    refine ⟨s, ?_, hsfree, rfl⟩
    simp only [List.mem_append, List.mem_cons] at hs ⊢
    exact hs.imp_right Or.inr

/-- The free neighbours of a region in use, and what surrounds them. -/
structure Around (rs pre post : List Region) (x : Region) (p q : Option Region) : Prop where
  split : rs = pre ++ (p.toList ++ x :: q.toList) ++ post
  left_free : ∀ s ∈ p, s.free
  right_free : ∀ s ∈ q, s.free
  left : ∀ s ∈ pre.getLast?, s.free = false
  right : ∀ s ∈ post.head?, s.free = false

/-- The two pointers that `kfree` computes name the free neighbours. -/
theorem Wf.around (hw : Wf h rs fl) (hx : x ∈ rs) (huse : x.free = false) :
    ∃ pre post p q, Around rs pre post x p q ∧
      (if hdType h.mem (hdLink h.mem x.addr) = regionAlloc then 0
        else hdLink h.mem x.addr) = ptr p ∧
      (if reachHeapEnd (getNextHeader h.mem x.addr) ||
          hdType h.mem (getNextHeader h.mem x.addr) = regionAlloc then 0
        else getNextHeader h.mem x.addr) = ptr q := by
  obtain ⟨pre, post, rfl⟩ := List.append_of_mem hx
  -- the region on the left exists, since the first region is free
  obtain ⟨pre, p, rfl⟩ : ∃ l y, pre = l ++ [y] := by
    rcases List.eq_nil_or_concat' pre with rfl | hp
    · have := hw.first x (by simp)
      rw [huse] at this
      exact absurd this (by decide)
    · exact hp
  have hp : p ∈ pre ++ [p] ++ x :: post := by simp
  have hlink : hdLink h.mem x.addr = p.addr := by
    have hseam := (List.isChain_append.mp hw.back).2.2
    exact hseam p (by simp) x rfl huse
  have hsep := List.isChain_append.mp hw.separated
  have hptype := (hw.stored p hp).1
  obtain ⟨pre', p', hpre, hpfree, hpleft, hpptr⟩ :
      ∃ pre' p', pre ++ [p] = pre' ++ Option.toList p' ∧ (∀ s ∈ p', s.free) ∧
        (∀ s ∈ pre'.getLast?, s.free = false) ∧
        (if hdType h.mem p.addr = regionAlloc then 0 else p.addr) = ptr p' := by
    cases hpf : p.free with
    | false => exact ⟨pre ++ [p], none, by simp, by simp, by simpa using hpf, by
        simp [hptype, hpf, ptr]⟩
    | true =>
        refine ⟨pre, some p, by simp, by simpa using hpf, ?_, ?_⟩
        · intro s hs
          have := (List.isChain_append.mp hsep.1).2.2 s hs p rfl
          simpa [hpf] using this
        · have hne : regionFree ≠ regionAlloc := by decide
          simp [hptype, hpf, ptr, hne]
  obtain ⟨post', q', hpost, hqfree, hqright, hqptr⟩ :
      ∃ post' q', post = Option.toList q' ++ post' ∧ (∀ s ∈ q', s.free) ∧
        (∀ s ∈ post'.head?, s.free = false) ∧
        (if reachHeapEnd (getNextHeader h.mem x.addr) ||
            hdType h.mem (getNextHeader h.mem x.addr) = regionAlloc then 0
          else getNextHeader h.mem x.addr) = ptr q' := by
    rw [hw.next_eq (r := x) (by simp)]
    cases post with
    | nil =>
        have hend := hw.stop_eq_end
        exact ⟨[], none, rfl, by simp, by simp, by simp [hend, reachHeapEnd, ptr]⟩
    | cons q post =>
        have hq : q ∈ pre ++ [p] ++ x :: q :: post := by simp
        have hqtype := (hw.stored q hq).1
        have hnot : ¬heapEnd ≤ q.addr := by
          have hb := (hw.bounds hq).2
          unfold rHeaderSize at hb
          omega
        rw [← hw.head_addr]
        cases hqf : q.free with
        | false => exact ⟨q :: post, none, rfl, by simp, by simpa using hqf, by
            simp [hqtype, hqf, ptr]⟩
        | true =>
            refine ⟨post, some q, rfl, by simpa using hqf, ?_, ?_⟩
            · intro s hs
              have hqs := (List.isChain_cons.mp (List.isChain_cons.mp hsep.2.1).2).1 s hs
              simpa [hqf] using hqs
            · have hne : regionFree ≠ regionAlloc := by decide
              simp [reachHeapEnd, hqtype, hqf, ptr, hnot, hne]
  refine ⟨pre', post', p', q', ⟨?_, hpfree, hqfree, hpleft, hqright⟩, ?_, hqptr⟩
  · rw [hpre, hpost]
    simp
  · rw [hlink]
    exact hpptr

/-- A region joined with a free left neighbour, if there is one. -/
def joinLeft (p : Option Region) (y : Region) : Region := p.elim y fun s => s.join rHeaderSize y

/-- A region joined with a free right neighbour, if there is one. -/
def joinRight (y : Region) (q : Option Region) : Region := q.elim y fun s => y.join rHeaderSize s

/-- The region that `kfree` leaves in place of `x` and its free neighbours. -/
def unified (p : Option Region) (x : Region) (q : Option Region) : Region :=
  joinRight (joinLeft p { x with free := true }) q

theorem unified_addr (p : Option Region) (x : Region) (q : Option Region) :
    (unified p x q).addr = p.elim x.addr Region.addr := by
  cases p <;> cases q <;> rfl

/-- The headers after the join are among those before it. -/
theorem mem_addr_unified {p q : Option Region} {b : Nat} (hb : b ∈ (pre ++ unified p x q :: post).map Region.addr) :
    b ∈ (pre ++ p.toList ++ x :: (q.toList ++ post)).map Region.addr := by
  have hu : (unified p x q).addr ∈ (p.toList ++ [x]).map Region.addr := by
    rw [unified_addr]
    cases p <;> simp
  obtain ⟨s, hs, rfl⟩ := List.mem_map.mp hb
  rcases List.mem_append.mp hs with hs | hs
  · exact List.mem_map_of_mem (by simp [hs])
  · rcases List.mem_cons.mp hs with rfl | hs
    · obtain ⟨t, ht, heq⟩ := List.mem_map.mp hu
      rw [← heq]
      rcases List.mem_append.mp ht with ht | ht
      · exact List.mem_map_of_mem (by simp [Option.mem_toList.mp ht])
      · exact List.mem_map_of_mem (by simp [List.mem_singleton.mp ht])
    · exact List.mem_map_of_mem (by simp [hs])

theorem unified_free {p q : Option Region} (hp : ∀ s ∈ p, s.free) : (unified p x q).free := by
  cases p with
  | none => cases q <;> rfl
  | some s => cases q <;> exact hp s rfl

/-- The unified region covers exactly the joined ones. -/
theorem tiles_unified {a b : Nat} {p q : Option Region}
    (ht : Tiles rHeaderSize a (p.toList ++ x :: q.toList) b) :
    Tiles rHeaderSize a [unified p x q] b := by
  cases p <;> cases q <;>
    simp only [Option.toList_none, Option.toList_some, List.nil_append, List.cons_append, Tiles,
      Region.stop] at ht <;>
    simp only [Tiles, Region.stop, unified, joinLeft, joinRight, Region.join, Option.elim_none,
      Option.elim_some] <;>
    omega

/-- Marking one region of a tiling changes that region only. -/
theorem mark_of_tiles {a b : Nat} (ht : Tiles rHeaderSize a (s₁ ++ x :: s₂) b) :
    mark [x.addr] (s₁ ++ x :: s₂) = s₁ ++ { x with free := true } :: s₂ := by
  have hid : ∀ l : List Region, (∀ s ∈ l, s.addr ≠ x.addr) → mark [x.addr] l = l := by
    intro l hl
    refine (List.map_congr_left fun s hs => ?_).trans (List.map_id l)
    simp [hl s hs]
  rw [mark_append, mark_cons, hid s₁, hid s₂]
  · simp
  · intro s hs
    have := ht.stop_le_of_mem_right hs
    unfold Region.stop rHeaderSize at this
    omega
  · intro s hs
    have := ht.stop_le_of_mem_left hs
    unfold Region.stop rHeaderSize at this
    omega

/-- `kfree`'s effect on the tiling is a release of the one region. -/
theorem Around.release_eq {p q : Option Region} (ha : Around rs pre post x p q)
    (hw : Wf h rs fl) : release rHeaderSize [x.addr] rs = pre ++ unified p x q :: post := by
  obtain ⟨rfl, hpfree, hqfree, hleft, hright⟩ := ha
  have hsplit : pre ++ (p.toList ++ x :: q.toList) ++ post =
      (pre ++ p.toList) ++ x :: (q.toList ++ post) := by simp
  have htiles := hw.tiles
  have hsep := hw.separated
  rw [hsplit] at htiles hsep ⊢
  have hpost : Separated post := by
    have := (List.isChain_cons.mp (List.isChain_append.mp hsep).2.1).2
    exact (List.isChain_append.mp this).2.1
  have hpre : Separated pre := (List.isChain_append.mp (List.isChain_append.mp hsep).1).1
  have huse : ∀ (y : Region) (s : Region), s ∈ post.head? → ¬(y.free ∧ s.free) := by
    intro y s hs hys
    rw [hright s hs] at hys
    exact absurd hys.2 (by decide)
  have hpush : ∀ y : Region, push rHeaderSize y post = y :: post := by
    intro y
    cases post with
    | nil => rfl
    | cons s post => exact push_of_not_free (huse y s rfl)
  -- everything right of the seam collapses into the unified region
  have hinner : coalesce rHeaderSize (p.toList ++ { x with free := true } :: (q.toList ++ post)) =
      unified p x q :: post := by
    cases p with
    | none =>
        cases q with
        | none =>
            simp only [Option.toList_none, List.nil_append, coalesce_cons,
              coalesce_of_separated hpost, hpush]
            rfl
        | some q =>
            simp only [Option.toList_none, Option.toList_some, List.nil_append, List.cons_append,
              coalesce_cons, coalesce_of_separated hpost, hpush]
            exact push_of_free rfl (hqfree q rfl)
    | some p =>
        cases q with
        | none =>
            simp only [Option.toList_none, Option.toList_some, List.nil_append, List.cons_append,
              coalesce_cons, coalesce_of_separated hpost, hpush]
            exact push_of_free (hpfree p rfl) rfl
        | some q =>
            simp only [Option.toList_some, List.nil_append, List.cons_append,
              coalesce_cons, coalesce_of_separated hpost, hpush]
            rw [push_of_free rfl (hqfree q rfl), push_of_free (hpfree p rfl) rfl]
            simp only [unified, joinLeft, joinRight, Region.join, Option.elim_some, Nat.add_assoc]
  unfold release
  rw [mark_of_tiles htiles, List.append_assoc, coalesce_append_of_separated hpre, hinner]
  intro r hr s _ hrs
  rw [hleft r hr] at hrs
  exact absurd hrs.1 (by decide)

/-- `kfree` up to the point where both free neighbours are off the list. -/
theorem Wf.unlinkBoth {p q : Option Region}
    (hw : Wf h (pre ++ p.toList ++ x :: (q.toList ++ post)) fl) (huse : x.free = false)
    (hpfree : ∀ s ∈ p, s.free) (hqfree : ∀ s ∈ q, s.free) :
    ∃ g g', unlinkNeighbour ⟨setType h.mem x.addr regionFree, h.indexHead⟩ (ptr p) = some g ∧
      unlinkNeighbour g (ptr q) = some g' ∧
      Lists g' (pre ++ post) ((fl.erase (ptr p)).erase (ptr q)) ∧ Keeps (pre ++ post) h.mem g'.mem ∧
      (∀ s ∈ p.toList ++ q.toList, SameHeader h.mem g'.mem s.addr) ∧
      Stored g'.mem { x with free := true } ∧
      Within ((pre ++ p.toList ++ x :: (q.toList ++ post)).map Region.addr) h.mem g'.mem := by
  have hx : x ∈ pre ++ p.toList ++ x :: (q.toList ++ post) := by simp
  have hbeside := fun s hs => (hw.spaced.apart_middle (s := s) hs).symm
  have hlists₀ := hw.lists.drop_use huse
  have htype := within_setType h.mem x.addr regionFree
  have hlists₁ := hlists₀.congr_within htype hbeside
  obtain ⟨g, hrun₂, hlists₂, hkeeps₂, hframe₂⟩ := hlists₁.unlinkOption hw.length_lt hpfree
  rw [← List.append_assoc] at hlists₂
  have hlen₂ : (fl.erase (ptr p)).length < heapFuel :=
    List.length_erase_le.trans_lt hw.length_lt
  obtain ⟨g', hrun₃, hlists₃, hkeeps₃, hframe₃⟩ := hlists₂.unlinkOption hlen₂ hqfree
  -- every list node lies among the regions, so the frames reach no other header
  have hsub₂ : ∀ a ∈ (pre ++ p.toList ++ (q.toList ++ post)).map Region.addr,
      a ∈ (pre ++ p.toList ++ x :: (q.toList ++ post)).map Region.addr := by
    intro a ha
    simp only [List.map_append, List.map_cons, List.mem_append, List.mem_cons] at ha ⊢
    tauto
  have hsub₃ : ∀ a ∈ (pre ++ q.toList ++ post).map Region.addr,
      a ∈ (pre ++ p.toList ++ x :: (q.toList ++ post)).map Region.addr := by
    intro a ha
    simp only [List.map_append, List.map_cons, List.mem_append, List.mem_cons] at ha ⊢
    tauto
  have hboth : ∀ s ∈ pre ++ p.toList ++ x :: (q.toList ++ post),
      SameHeader (setType h.mem x.addr regionFree) g'.mem s.addr := fun s hs =>
    (hframe₂.sameHeader (hw.spaced.clear hsub₂ hs)).trans
      (hframe₃.sameHeader (hw.spaced.clear hsub₃ hs))
  have hkeeps₁ := htype.keeps hbeside
  refine ⟨g, g', hrun₂, hrun₃, hlists₃, ⟨fun s hs => ?_, fun s hs hsuse => ?_⟩, ?_, ?_, ?_⟩
  · have hs₁ : s ∈ pre ++ p.toList ++ (q.toList ++ post) := by
      simp only [List.mem_append] at hs ⊢
      tauto
    have hs₂ : s ∈ pre ++ p.toList ++ x :: (q.toList ++ post) := by
      simp only [List.mem_append, List.mem_cons] at hs ⊢
      tauto
    exact (hkeeps₁.header s hs₁).trans (hboth s hs₂)
  · have hs₁ : s ∈ pre ++ p.toList ++ (q.toList ++ post) := by
      simp only [List.mem_append] at hs ⊢
      tauto
    have hs₂ : s ∈ pre ++ q.toList ++ post := by
      simp only [List.mem_append] at hs ⊢
      tauto
    exact ((hkeeps₃.link s hs₂ hsuse).trans (hkeeps₂.link s hs₁ hsuse)).trans
      (hkeeps₁.link s hs₁ hsuse)
  · intro s hs
    have hs₁ : s ∈ pre ++ p.toList ++ (q.toList ++ post) := by
      simp only [List.mem_append] at hs ⊢
      tauto
    have hs₂ : s ∈ pre ++ p.toList ++ x :: (q.toList ++ post) := by
      simp only [List.mem_append, List.mem_cons] at hs ⊢
      tauto
    exact (hkeeps₁.header s hs₁).trans (hboth s hs₂)
  · refine SameHeader.stored (r := { x with free := true }) (hboth x hx) ⟨?_, ?_⟩
    · exact store8_same h.mem x.addr regionFree
    · exact (hdSize_setType h.mem regionFree (Or.inl rfl)).trans (hw.stored x hx).2
  · exact ((htype.mono (by simp)).trans (hframe₂.within.mono hsub₂)).trans
      (hframe₃.within.mono hsub₃)

/-- Absorbing a region joins it to the absorbing one. -/
theorem absorb_stored {m : Mem} (hr : Stored m r) (hs : hdSize m s.addr = s.size)
    (hsize : (r.join rHeaderSize s).size < 2 ^ 32) :
    Stored (absorb m r.addr s.addr) (r.join rHeaderSize s) := by
  have hsum : u32 (hdSize m r.addr + rHeaderSize + hdSize m s.addr) =
      (r.join rHeaderSize s).size := by
    rw [hr.2, hs]
    exact u32_of_lt hsize
  refine ⟨(hdType_setSize m _ (Or.inl rfl)).trans hr.1, ?_⟩
  unfold absorb
  rw [hsum]
  exact hdSize_setSize_same m _ hsize

/-- The two size updates of `kfree` leave the size of the unified region. -/
theorem absorbBoth_spec {m : Mem} {p q : Option Region} {a b : Nat} (hx : Stored m { x with free := true })
    (hp : ∀ s ∈ p, Stored m s ∧ s.addr ≠ 0) (hq : ∀ s ∈ q, Stored m s ∧ s.addr ≠ 0)
    (ht : Tiles rHeaderSize a (p.toList ++ x :: q.toList) b) (hb : b < 2 ^ 32) :
    Stored (absorbBoth m (ptr p) x.addr (ptr q)) (unified p x q) ∧
      Within [(unified p x q).addr] m (absorbBoth m (ptr p) x.addr (ptr q)) := by
  obtain ⟨haddr, hstop⟩ := tiles_unified ht
  have hsize : (unified p x q).size < 2 ^ 32 := by
    have hle : (unified p x q).stop rHeaderSize = b := hstop
    simp only [Region.stop] at hle
    omega
  have hqu : ∀ s ∈ q, Apart (unified p x q).addr s.addr := by
    intro s hs
    obtain rfl : q = some s := hs
    obtain ⟨hpx, hxs⟩ := tiles_append_cons.mp ht
    have hle := hpx.le
    have hnext : s.addr = x.stop rHeaderSize := hxs.1
    simp only [Region.stop] at hnext
    exact Or.inl (by omega)
  cases p with
  | none =>
      cases q with
      | none => exact ⟨hx, fun _ _ => rfl⟩
      | some t =>
          obtain ⟨ht, ht0⟩ := hq t rfl
          simp only [absorbBoth, ptr, Option.elim_none, Option.elim_some, if_true, ht0, if_false]
          exact ⟨absorb_stored hx ht.2 hsize, within_setSize m x.addr _⟩
  | some s =>
      obtain ⟨hs, hs0⟩ := hp s rfl
      have hleft : (s.join rHeaderSize { x with free := true }).size < 2 ^ 32 := by
        cases q with
        | none => exact hsize
        | some t => exact Nat.lt_of_le_of_lt (by
            simp only [unified, joinLeft, joinRight, Region.join, Option.elim_some]; omega) hsize
      have hstored := absorb_stored hs hx.2 hleft
      have hwithin : Within [s.addr] m (absorb m s.addr x.addr) := within_setSize m s.addr _
      cases q with
      | none =>
          simp only [absorbBoth, ptr, Option.elim_none, Option.elim_some, if_true, hs0, if_false]
          exact ⟨hstored, hwithin⟩
      | some t =>
          obtain ⟨ht, ht0⟩ := hq t rfl
          simp only [absorbBoth, ptr, Option.elim_some, hs0, ht0, if_false]
          have hkeep : Keeps [t] _ _ := hwithin.keeps fun y hy => by
            rw [List.mem_singleton.mp hy]
            exact hqu t rfl
          refine ⟨absorb_stored hstored ((hkeep.header t (by simp)).2.trans ht.2) hsize, ?_⟩
          exact hwithin.trans (within_setSize _ s.addr _)

/-- The end of `kfree`: the next region, if any, gets the unified one as back link. -/
theorem finish_eq {g : Heap} {u : Region} (ht : Tiles rHeaderSize heapStart (pre ++ u :: post) heapEnd)
    (hu : Stored g.mem u) :
    (if reachHeapEnd (getNextHeader g.mem u.addr) = true then some g
      else some { g with mem := setLink g.mem (getNextHeader g.mem u.addr) u.addr }) =
      some ⟨backLink g.mem post u.addr, g.indexHead⟩ := by
  obtain ⟨-, hright⟩ := tiles_append_cons.mp ht
  have hend : heapEnd < 2 ^ 32 := by decide
  have hle := hright.le
  have hnext : getNextHeader g.mem u.addr = u.stop rHeaderSize := by
    unfold getNextHeader Region.stop at *
    rw [hu.2, u32_of_lt (by omega)]
    omega
  rw [hnext]
  cases post with
  | nil =>
      have hstop : u.stop rHeaderSize = heapEnd := hright
      simp [hstop, reachHeapEnd, backLink]
  | cons s post =>
      have haddr : s.addr = u.stop rHeaderSize := hright.1
      have hroom := hright.2.le
      have hnot : ¬heapEnd ≤ s.addr := by
        unfold Region.stop rHeaderSize at hroom
        omega
      rw [← haddr]
      simp only [reachHeapEnd, hnot, decide_false, Bool.false_eq_true, if_false, backLink]

/-- `kfree` leaves the unified region in place of the released one and its free neighbours, and
touches headers only. -/
theorem Around.kfree {p q : Option Region} (ha : Around rs pre post x p q) (hw : Wf h rs fl)
    (huse : x.free = false)
    (hprev : (if hdType h.mem (hdLink h.mem x.addr) = regionAlloc then 0
      else hdLink h.mem x.addr) = ptr p)
    (hnext : (if reachHeapEnd (getNextHeader h.mem x.addr) ||
        hdType h.mem (getNextHeader h.mem x.addr) = regionAlloc then 0
      else getNextHeader h.mem x.addr) = ptr q) :
    ∃ h' fl', kfree h (x.addr + rHeaderSize) = some h' ∧ Wf h' (pre ++ unified p x q :: post) fl' ∧
      PutFirst h'.mem ((fl.erase (ptr p)).erase (ptr q)) (unified p x q).addr fl' ∧
      Within (rs.map Region.addr) h.mem h'.mem := by
  obtain ⟨rfl, hpfree, hqfree, hleft, hright⟩ := ha
  have hend : heapEnd < 2 ^ 32 := by decide
  have hheader : sub32 (x.addr + rHeaderSize) rHeaderSize = x.addr := by
    have hxb := hw.bounds (r := x) (by simp)
    rw [sub32_of_le (by omega) (by omega)]
    omega
  have hsplit : pre ++ (p.toList ++ x :: q.toList) ++ post =
      pre ++ p.toList ++ x :: (q.toList ++ post) := by simp
  obtain ⟨g, g', hrun₁, hrun₂, hlists, hkeeps, hnear, hstored, hwithin⟩ :=
    Wf.unlinkBoth (hsplit ▸ hw) huse hpfree hqfree
  have hlen : ((fl.erase (ptr p)).erase (ptr q)).length < heapFuel :=
    (List.length_erase_le.trans List.length_erase_le).trans_lt hw.length_lt
  obtain ⟨c, hc, hpostTiles⟩ := tiles_append.mp hw.tiles
  obtain ⟨a, -, hmidTiles⟩ := tiles_append.mp hc
  have hclt : c < 2 ^ 32 := Nat.lt_of_le_of_lt hpostTiles.le hend
  have hnewTiles : Tiles rHeaderSize heapStart (pre ++ unified p x q :: post) heapEnd := by
    simpa using hw.tiles.replace fun _ _ => tiles_unified
  have hspaced := spaced_of_tiles hnewTiles
  have hub := hnewTiles.bounds (r := unified p x q) (by simp)
  simp only [Region.stop] at hub
  have hstart : 0 < heapStart := by decide
  -- the sizes are added in the header of the unified region
  have hmem : ∀ s ∈ p.toList ++ q.toList, s ∈ pre ++ (p.toList ++ x :: q.toList) ++ post := by
    intro s hs
    rcases List.mem_append.mp hs with hs | hs <;> simp [Option.mem_toList.mp hs]
  have hold : ∀ s ∈ p.toList ++ q.toList, Stored g'.mem s ∧ s.addr ≠ 0 := fun s hs =>
    ⟨(hnear s hs).stored (hw.stored s (hmem s hs)), hw.addr_pos (hmem s hs)⟩
  obtain ⟨hustored, huwithin⟩ := absorbBoth_spec (p := p) (q := q) hstored
    (fun s hs => hold s (by simp [Option.mem_def.mp hs]))
    (fun s hs => hold s (by simp [Option.mem_def.mp hs])) hmidTiles hclt
  have hbeside : ∀ s ∈ pre ++ post, Apart (unified p x q).addr s.addr := fun s hs =>
    (hspaced.apart_middle hs).symm
  obtain ⟨h', fl'', hrun₃, hlists', hput, hkeeps', hframe'⟩ :=
    (hlists.congr_within huwithin hbeside).searchAndAddFreeRegion (u := unified p x q) hlen
      (unified_free hpfree) (by omega) (by omega) fun s hs => hspaced.apart_middle hs
  have hsub : ∀ b ∈ (unified p x q).addr :: (fl.erase (ptr p)).erase (ptr q),
      b ∈ (pre ++ unified p x q :: post).map Region.addr := by
    intro b hb
    rcases List.mem_cons.mp hb with rfl | hb
    · simp
    · obtain ⟨s, hs, rfl⟩ := List.mem_map.mp (hlists.mem_addr hb)
      refine List.mem_map_of_mem ?_
      rcases List.mem_append.mp hs with hs | hs <;> simp [hs]
  have hustored' : Stored h'.mem (unified p x q) :=
    (hframe'.sameHeader (hspaced.clear hsub (by simp))).stored hustored
  have hunified : (if ptr p = 0 then x.addr else ptr p) = (unified p x q).addr := by
    rw [unified_addr]
    cases p with
    | none => rfl
    | some s => simp [ptr, (hold s (by simp)).2]
  refine ⟨⟨backLink h'.mem post (unified p x q).addr, h'.indexHead⟩, fl'', ?_, ?_, ?_, ?_⟩
  · simp only [Malloc.kfree, hheader, hprev, hnext, hrun₁, hrun₂, hunified, hrun₃,
      Option.bind_eq_bind, Option.bind_some]
    exact finish_eq hnewTiles hustored'
  · have hall : Keeps (pre ++ post) h.mem h'.mem :=
      (hkeeps.trans (huwithin.keeps hbeside)).trans hkeeps'
    have := hw.splice h' (unified p x q) []
      (fun a b => tiles_unified) (unified_free hpfree) (by simp) hleft hright
      (fun s hs => by rw [List.mem_singleton.mp hs]; exact hustored') (List.isChain_singleton _)
      (fun s hs t ht => by
        rw [List.mem_singleton.mp hs]
        exact hbeside t (by simp [ht])) hall hlists' rfl
    simpa using this
  · refine hput.congr fun b hb => ?_
    obtain ⟨s, hs, rfl⟩ := List.mem_map.mp (hsub b hb)
    refine (sameHeader_backLink _ fun t ht => ?_).2
    exact hspaced.eq_or_apart (by simp [List.mem_of_mem_head? ht]) hs
  · rw [hsplit]
    refine ((hwithin.trans (huwithin.mono ?_)).trans (hframe'.within.mono fun b hb =>
      mem_addr_unified (hsub b hb))).trans ((sameOffLinks_backLink h'.mem post _).within.mono ?_)
    · intro b hb
      rw [List.mem_singleton.mp hb]
      exact mem_addr_unified (by simp)
    · intro b hb
      obtain ⟨s, hs, rfl⟩ := List.mem_map.mp hb
      have hspost : s ∈ post := List.mem_of_mem_head? (by simpa using hs)
      exact mem_addr_unified (List.mem_map_of_mem (by simp [hspost]))

/-- `kfree` of a region in use releases it. -/
theorem Wf.kfree (hw : Wf h rs fl) (hx : x ∈ rs) (huse : x.free = false) :
    ∃ h' fl', kfree h (x.addr + rHeaderSize) = some h' ∧
      Wf h' (release rHeaderSize [x.addr] rs) fl' ∧ Within (rs.map Region.addr) h.mem h'.mem := by
  obtain ⟨pre, post, p, q, ha, hprev, hnext⟩ := hw.around hx huse
  obtain ⟨h', fl', hrun, hwf, -, hwithin⟩ := ha.kfree hw huse hprev hnext
  exact ⟨h', fl', hrun, ha.release_eq hw ▸ hwf, hwithin⟩

end TsOs.Malloc
