import TsOs.Malloc.Runs

/-!
# What the heap guarantees

`Layout` states the structure of the heap in terms of its bytes alone: the headers
met when stepping through the heap, the free list, and the links. Every history of
allowed calls ends in a heap with a layout. On top of it stand the safety of the
payloads and the fact that the order of releases does not matter.
-/

namespace TsOs.Malloc
open ByteMemory LinkPath RegionTiling Transition

/-- The heap's bytes form headers `hds` from start to end, with free list `fl`. -/
structure Layout (h : Heap) (hds fl : List Nat) : Prop where
  walk : Path (getNextHeader h.mem) heapStart hds heapEnd
  inside : ∀ a ∈ hds, heapStart ≤ a ∧ a + rHeaderSize + hdSize h.mem a ≤ heapEnd
  types : ∀ a ∈ hds, hdType h.mem a = regionFree ∨ hdType h.mem a = regionAlloc
  separated : hds.IsChain fun a b => ¬(hdType h.mem a = regionFree ∧ hdType h.mem b = regionFree)
  list : Path (hdLink h.mem) h.indexHead fl 0
  once : fl.Nodup
  members : ∀ a, a ∈ fl ↔ a ∈ hds ∧ hdType h.mem a = regionFree
  sorted : fl.Pairwise fun a b => hdSize h.mem a ≤ hdSize h.mem b
  first : ∀ a ∈ hds.head?, hdType h.mem a = regionFree
  back : hds.IsChain fun a b => hdType h.mem b = regionAlloc → hdLink h.mem b = a

variable {c c' : Client} {h : Heap} {rs : List Region} {fl : List Nat} {r : Region}

theorem Stored.free_iff {m : Mem} (hr : Stored m r) : hdType m r.addr = regionFree ↔ r.free := by
  rw [hr.1]
  cases r.free <;> decide

theorem Stored.use_iff {m : Mem} (hr : Stored m r) :
    hdType m r.addr = regionAlloc ↔ r.free = false := by
  rw [hr.1]
  cases r.free <;> decide

/-- Stepping over the regions of a tiling visits their headers. -/
theorem walk_of_tiles {a b : Nat} {m : Mem} (ht : Tiles rHeaderSize a rs b)
    (hnext : ∀ r ∈ rs, getNextHeader m r.addr = r.stop rHeaderSize) :
    Path (getNextHeader m) a (rs.map Region.addr) b := by
  induction rs generalizing a with
  | nil => exact ht
  | cons r rs ih =>
      obtain ⟨rfl, htail⟩ := ht
      refine ⟨rfl, ?_⟩
      rw [hnext r (by simp)]
      exact ih htail fun s hs => hnext s (by simp [hs])

/-- The invariant gives the layout. -/
theorem Wf.layout (hw : Wf h rs fl) : Layout h (rs.map Region.addr) fl where
  walk := walk_of_tiles hw.tiles fun r hr => hw.next_eq hr
  inside := by
    intro a ha
    obtain ⟨r, hr, rfl⟩ := List.mem_map.mp ha
    rw [(hw.stored r hr).2]
    exact hw.bounds hr
  types := by
    intro a ha
    obtain ⟨r, hr, rfl⟩ := List.mem_map.mp ha
    rw [(hw.stored r hr).1]
    cases r.free <;> simp
  separated := by
    rw [List.isChain_map]
    refine hw.separated.imp_of_mem_imp fun r s hr hs hrs => ?_
    rw [(hw.stored r hr).free_iff, (hw.stored s hs).free_iff]
    exact hrs
  list := hw.path
  once := hw.nodup
  members := by
    intro a
    rw [hw.members]
    constructor
    · rintro ⟨r, hr, hfree, rfl⟩
      exact ⟨List.mem_map_of_mem hr, (hw.stored r hr).free_iff.mpr hfree⟩
    · rintro ⟨ha, hfree⟩
      obtain ⟨r, hr, rfl⟩ := List.mem_map.mp ha
      exact ⟨r, hr, (hw.stored r hr).free_iff.mp hfree, rfl⟩
  sorted := hw.sorted
  first := by
    intro a ha
    rw [List.head?_map] at ha
    obtain ⟨r, hr, rfl⟩ := Option.mem_map.mp ha
    exact (hw.stored r (List.mem_of_mem_head? hr)).free_iff.mpr (hw.first r hr)
  back := by
    rw [List.isChain_map]
    refine hw.back.imp_of_mem_imp fun r s _ hs hrs huse => ?_
    exact hrs ((hw.stored s hs).use_iff.mp huse)

/-- Every history of allocations and releases completes and leaves a heap whose
headers, free list and back links are in order. -/
theorem history_layout (m : Mem) (calls : List Call)
    (hcalls : Guarded Client.step Client.Allowed (Client.init m) calls) :
    ∃ c, run Client.step (Client.init m) calls = some c ∧ ∃ hds fl, Layout c.heap hds fl := by
  obtain ⟨c, hrun, rs, fl, ht⟩ := inv_run hcalls
  exact ⟨c, hrun, _, fl, ht.wf.layout⟩

/-- Two blocks, a write, a release and an allocation inside the hole it leaves. -/
def sampleCalls : List Call :=
  [.kmalloc 16, .kmalloc 8, .write 0xC0FFFFF5 7, .kfree 0xC0FFFFF0, .kmalloc 4]

theorem history_layout_sample :
    ∃ c, run Client.step (Client.init fun _ => 0) sampleCalls = some c ∧
      ∃ hds fl, Layout c.heap hds fl :=
  history_layout (fun _ => 0) sampleCalls (by decide)

/-- The blocks handed out lie inside the heap and meet neither each other nor a header. -/
structure PayloadsApart (c : Client) (hds : List Nat) : Prop where
  blocks : c.live.Pairwise fun b d => b.1 + b.2 ≤ d.1 ∨ d.1 + d.2 ≤ b.1
  headers : ∀ b ∈ c.live, ∀ a ∈ hds, b.1 + b.2 ≤ a ∨ a + rHeaderSize ≤ b.1
  inside : ∀ b ∈ c.live, heapStart + rHeaderSize ≤ b.1 ∧ b.1 + b.2 ≤ heapEnd

/-- The call is one of the allocator, not a write of the client. -/
def Call.ofHeap : Call → Bool
  | .write _ _ => false
  | _ => true

theorem Tracks.payloadsApart (ht : Tracks c rs fl) : PayloadsApart c (rs.map Region.addr) where
  blocks := by
    refine (List.pairwise_map.mp ht.nodup).imp_of_mem fun {b d} hb hd hne => ?_
    obtain ⟨x, hx, -, hxp, hxn⟩ := (ht.live_iff b.1 b.2).mp hb
    obtain ⟨y, hy, -, hyp, hyn⟩ := (ht.live_iff d.1 d.2).mp hd
    rcases ht.wf.tiles.disjoint hx hy with rfl | hle | hle
    · exact absurd (hxp.symm.trans hyp) hne
    · unfold Region.stop at hle
      exact Or.inl (by omega)
    · unfold Region.stop at hle
      exact Or.inr (by omega)
  headers := by
    intro b hb a ha
    obtain ⟨x, hx, -, hxp, hxn⟩ := (ht.live_iff b.1 b.2).mp hb
    obtain ⟨s, hs, rfl⟩ := List.mem_map.mp ha
    rcases ht.wf.tiles.disjoint hx hs with rfl | hle | hle
    · exact Or.inr (by omega)
    · unfold Region.stop at hle
      exact Or.inl (by omega)
    · unfold Region.stop at hle
      exact Or.inr (by omega)
  inside := by
    intro b hb
    obtain ⟨x, hx, -, hxp, hxn⟩ := (ht.live_iff b.1 b.2).mp hb
    have := ht.wf.bounds hx
    omega

/-- Changes inside headers do not reach a live payload. -/
theorem Tracks.payload_eq (ht : Tracks c rs fl) {hds : List Nat} {m' : Mem}
    (hframe : Within hds c.heap.mem m') {b : Nat × Nat} (hb : b ∈ c.live)
    (hout : ∀ a ∈ hds, (∃ s ∈ rs, s.addr = a) ∨ b.1 + b.2 ≤ a ∨ a + rHeaderSize ≤ b.1)
    {x : Nat} (hge : b.1 ≤ x) (hlt : x < b.1 + b.2) : m' x = c.heap.mem x := by
  obtain ⟨y, hy, -, hyp, hyn⟩ := (ht.live_iff b.1 b.2).mp hb
  refine hframe x fun a ha => ?_
  rcases hout a ha with ⟨s, hs, rfl⟩ | hle | hle
  · exact ht.wf.payload_apart hy hs (by omega) (by omega)
  · exact Or.inl (by omega)
  · exact Or.inr (by omega)

/-- No call of the allocator changes the bytes of a block that stays live. -/
theorem Tracks.keeps_payloads (ht : Tracks c rs fl) {call : Call} (hcall : c.Allowed call)
    (hheap : call.ofHeap) :
    ∃ c', c.step call = some c' ∧ ∀ b ∈ c.live, b ∈ c'.live →
      ∀ x, b.1 ≤ x → x < b.1 + b.2 → c'.heap.mem x = c.heap.mem x := by
  cases call with
  | write a v => exact absurd hheap (by simp [Call.ofHeap])
  | kmalloc n =>
      rcases ht.kmalloc hcall with ⟨-, hrun⟩ | ⟨pre, r, post, h', hc, hrun⟩
      · exact ⟨c, hrun, fun _ _ _ _ _ _ => rfl⟩
      · refine ⟨_, hrun, fun b hb _ x hge hlt => ht.payload_eq hc.frame hb ?_ hge hlt⟩
        intro a ha
        rcases List.mem_cons.mp ha with rfl | ha
        · -- the new header lies in what was free
          obtain ⟨y, hy, huse, hyp, hyn⟩ := (ht.live_iff b.1 b.2).mp hb
          have hr : r ∈ rs := by simp [hc.split]
          have hsize := hc.enough
          refine Or.inr ?_
          rcases ht.wf.tiles.disjoint hy hr with rfl | hle | hle
          · exact absurd (hc.free.symm.trans huse) (by decide)
          · simp only [Region.stop, blockOf] at hle ⊢
            exact Or.inl (by omega)
          · simp only [Region.stop, blockOf] at hle ⊢
            exact Or.inr (by omega)
        · exact Or.inl (by simpa using ha)
  | kfree p =>
      obtain ⟨h', fl', x, -, -, -, hrun, -, hframe⟩ := ht.kfree hcall
      refine ⟨_, hrun, fun b hb _ y hge hlt => ht.payload_eq hframe hb ?_ hge hlt⟩
      exact fun a ha => Or.inl (by simpa using ha)

/-- In every history the live payloads are apart from each other and from the headers,
and the allocator's next call leaves every byte of them alone. -/
theorem history_payloads (m : Mem) (calls : List Call)
    (hcalls : Guarded Client.step Client.Allowed (Client.init m) calls) :
    ∃ c, run Client.step (Client.init m) calls = some c ∧
      (∃ hds fl, Layout c.heap hds fl ∧ PayloadsApart c hds) ∧
      ∀ call, c.Allowed call → call.ofHeap → ∃ c', c.step call = some c' ∧
        ∀ b ∈ c.live, b ∈ c'.live →
          ∀ x, b.1 ≤ x → x < b.1 + b.2 → c'.heap.mem x = c.heap.mem x := by
  obtain ⟨c, hrun, rs, fl, ht⟩ := inv_run hcalls
  exact ⟨c, hrun, ⟨_, fl, ht.wf.layout, ht.payloadsApart⟩,
    fun call hcall hheap => ht.keeps_payloads hcall hheap⟩

theorem history_payloads_sample :
    ∃ c, run Client.step (Client.init fun _ => 0) sampleCalls = some c ∧
      (∃ hds fl, Layout c.heap hds fl ∧ PayloadsApart c hds) ∧
      ∀ call, c.Allowed call → call.ofHeap → ∃ c', c.step call = some c' ∧
        ∀ b ∈ c.live, b ∈ c'.live →
          ∀ x, b.1 ≤ x → x < b.1 + b.2 → c'.heap.mem x = c.heap.mem x :=
  history_payloads (fun _ => 0) sampleCalls (by decide)

/-- Two heaps with the same regions: headers, types, sizes, back links and the set of
regions on the free list. -/
structure SameRegions (h h' : Heap) (hds fl fl' : List Nat) : Prop where
  left : Layout h hds fl
  right : Layout h' hds fl'
  header : ∀ a ∈ hds, hdType h'.mem a = hdType h.mem a ∧ hdSize h'.mem a = hdSize h.mem a
  link : ∀ a ∈ hds, hdType h.mem a = regionAlloc → hdLink h'.mem a = hdLink h.mem a
  listed : ∀ a, a ∈ fl' ↔ a ∈ fl

theorem Wf.sameRegions {h' : Heap} {fl' : List Nat} (hw : Wf h rs fl) (hw' : Wf h' rs fl') :
    SameRegions h h' (rs.map Region.addr) fl fl' where
  left := hw.layout
  right := hw'.layout
  header := by
    intro a ha
    obtain ⟨r, hr, rfl⟩ := List.mem_map.mp ha
    have hs := hw.stored r hr
    have hs' := hw'.stored r hr
    exact ⟨hs'.1.trans hs.1.symm, hs'.2.trans hs.2.symm⟩
  link := by
    intro a ha huse
    obtain ⟨r, hr, rfl⟩ := List.mem_map.mp ha
    have hfree := (hw.stored r hr).use_iff.mp huse
    obtain ⟨pre, post, rfl⟩ := List.append_of_mem hr
    rcases List.eq_nil_or_concat' pre with rfl | ⟨pre, s, rfl⟩
    · exact absurd ((hw.first r rfl).symm.trans hfree) (by decide)
    · have hlink : ∀ {g gl}, Wf g (pre ++ [s] ++ r :: post) gl → hdLink g.mem r.addr = s.addr :=
        fun hg => (List.isChain_append.mp hg.back).2.2 s (by simp) r rfl hfree
      exact (hlink hw').trans (hlink hw).symm
  listed := fun a => by rw [hw.members, hw'.members]

/-- Releasing distinct live blocks one after the other releases their regions. -/
theorem Tracks.release_all (ht : Tracks c rs fl) {ps : List Nat} (hnd : ps.Nodup)
    (hlive : ∀ p ∈ ps, p ∈ c.live.map Prod.fst) :
    ∃ c' xs fl', run Client.step c (ps.map Call.kfree) = some c' ∧
      (∀ a, a ∈ xs ↔ a + rHeaderSize ∈ ps) ∧
      Tracks c' (release rHeaderSize xs rs) fl' := by
  induction ps generalizing c rs fl with
  | nil =>
      refine ⟨c, [], fl, rfl, by simp, ?_⟩
      have hmark : mark [] rs = rs := by simp [mark]
      rw [release, hmark, coalesce_of_separated ht.wf.separated]
      exact ht
  | cons p ps ih =>
      obtain ⟨hnot, hnd'⟩ := List.nodup_cons.mp hnd
      obtain ⟨h₁, fl₁, x, -, -, rfl, hstep, ht₁, -⟩ := ht.kfree (hlive p (by simp))
      have hstill : ∀ q ∈ ps, q ∈ (c.live.filter fun b => b.1 ≠ x.addr + rHeaderSize).map
          Prod.fst := by
        intro q hq
        obtain ⟨b, hb, rfl⟩ := List.mem_map.mp (hlive q (by simp [hq]))
        refine List.mem_map_of_mem (List.mem_filter.mpr ⟨hb, ?_⟩)
        have hne : b.1 ≠ x.addr + rHeaderSize := fun heq => hnot (heq ▸ hq)
        simpa using hne
      obtain ⟨c', xs, fl', hrun, hxs, ht'⟩ := ih ht₁ hnd' hstill
      rw [release_release] at ht'
      refine ⟨c', [x.addr] ++ xs, fl', ?_, fun a => ?_, ht'⟩
      · rw [List.map_cons, run_cons, hstep]
        exact hrun
      · rw [List.mem_append, hxs, List.mem_singleton, List.mem_cons]
        constructor
        · exact fun hmem => hmem.imp_left fun heq => by rw [heq]
        · exact fun hmem => hmem.imp_left fun heq => Nat.add_right_cancel heq

/-- With every live block released one free region remains. -/
theorem Tracks.release_live (ht : Tracks c rs fl) (xs : List Nat)
    (hall : ∀ p ∈ c.live.map Prod.fst, ∃ a ∈ xs, a + rHeaderSize = p) :
    release rHeaderSize xs rs = [⟨heapStart, heapEnd - heapStart - rHeaderSize, true⟩] := by
  have hfree : ∀ s ∈ mark xs rs, s.free := by
    intro s hs
    obtain ⟨r, hr, rfl⟩ := List.mem_map.mp hs
    by_cases huse : r.free = false
    · have hp : r.addr + rHeaderSize ∈ c.live.map Prod.fst :=
        List.mem_map_of_mem ((ht.live_iff _ _).mpr ⟨r, hr, huse, rfl, rfl⟩)
      obtain ⟨a, ha, heq⟩ := hall _ hp
      have hmem : r.addr ∈ xs := Nat.add_right_cancel heq ▸ ha
      simp [hmem]
    · have hrf : r.free := by simpa using huse
      split <;> first | rfl | exact hrf
  have htiles : Tiles rHeaderSize heapStart (mark xs rs) heapEnd := ht.wf.tiles.mark
  cases hm : mark xs rs with
  | nil =>
      rw [hm] at htiles
      have hspan : heapStart ≠ heapEnd := by decide
      exact absurd htiles hspan
  | cons s rest =>
      rw [hm] at htiles hfree
      rw [release, hm]
      exact coalesce_of_all_free htiles hfree

/-- The order in which live blocks are released does not matter, and releasing all of
them restores the single region of `init_heap`. -/
theorem history_release_order (m : Mem) (calls : List Call)
    (hcalls : Guarded Client.step Client.Allowed (Client.init m) calls) :
    ∃ c, run Client.step (Client.init m) calls = some c ∧
      ∀ ps qs : List Nat, ps.Nodup → ps.Perm qs → (∀ p ∈ ps, p ∈ c.live.map Prod.fst) →
        ∃ d e hds fl fl', run Client.step c (ps.map Call.kfree) = some d ∧
          run Client.step c (qs.map Call.kfree) = some e ∧ SameRegions d.heap e.heap hds fl fl' ∧
          ((∀ p ∈ c.live.map Prod.fst, p ∈ ps) → hds = [heapStart] ∧
            hdSize d.heap.mem heapStart = heapEnd - heapStart - rHeaderSize) := by
  obtain ⟨c, hrun, rs, fl, ht⟩ := inv_run hcalls
  refine ⟨c, hrun, fun ps qs hnd hperm hlive => ?_⟩
  obtain ⟨d, xs, gl, hd, hxs, htd⟩ := ht.release_all hnd hlive
  obtain ⟨e, ys, gl', he, hys, hte⟩ := ht.release_all (hperm.nodup hnd)
    fun q hq => hlive q (hperm.mem_iff.mpr hq)
  have hsame : release rHeaderSize ys rs = release rHeaderSize xs rs :=
    release_congr fun a => by rw [hxs, hys, hperm.mem_iff]
  rw [hsame] at hte
  refine ⟨d, e, _, gl, gl', hd, he, htd.wf.sameRegions hte.wf, fun hall => ?_⟩
  have hone := ht.release_live xs fun p hp => by
    obtain ⟨⟨q, n⟩, hmem, rfl⟩ := List.mem_map.mp hp
    obtain ⟨r, -, -, rfl, -⟩ := (ht.live_iff q n).mp hmem
    exact ⟨r.addr, (hxs _).mpr (hall _ hp), rfl⟩
  rw [hone] at htd ⊢
  exact ⟨rfl, (htd.wf.stored _ (List.mem_singleton.mpr rfl)).2⟩

theorem history_release_order_sample :
    ∃ c, run Client.step (Client.init fun _ => 0) sampleCalls = some c ∧
      ∀ ps qs : List Nat, ps.Nodup → ps.Perm qs → (∀ p ∈ ps, p ∈ c.live.map Prod.fst) →
        ∃ d e hds fl fl', run Client.step c (ps.map Call.kfree) = some d ∧
          run Client.step c (qs.map Call.kfree) = some e ∧ SameRegions d.heap e.heap hds fl fl' ∧
          ((∀ p ∈ c.live.map Prod.fst, p ∈ ps) → hds = [heapStart] ∧
            hdSize d.heap.mem heapStart = heapEnd - heapStart - rHeaderSize) :=
  history_release_order (fun _ => 0) sampleCalls (by decide)

end TsOs.Malloc
