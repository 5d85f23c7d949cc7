import TsOs.Library.Transition
import TsOs.Malloc.Kfree

/-!
# Histories of allocations

A client of the heap calls `kmalloc` and `kfree` and writes into the blocks it
holds. `Client` records the blocks that are live. The step lemmas say what each
call does to the tiling and to the live blocks, and the run rule carries the
invariant through histories of any length.
-/

namespace TsOs.Malloc
open ByteMemory LinkPath RegionTiling Transition

/-- The heap and the live blocks, as pairs of returned address and requested size. -/
structure Client where
  heap : Heap
  live : List (Nat × Nat)

/-- The calls and writes of a client. -/
inductive Call
  | kmalloc (n : Nat)
  | kfree (p : Nat)
  | write (a : Nat) (v : UInt8)
  deriving DecidableEq

def Client.step (c : Client) : Call → Option Client
  | .kmalloc n => (Malloc.kmalloc c.heap n).map fun hp =>
      ⟨hp.1, if hp.2 = 0 then c.live else (hp.2, n) :: c.live⟩
  | .kfree p => (Malloc.kfree c.heap p).map fun h => ⟨h, c.live.filter fun b => b.1 ≠ p⟩
  | .write a v => some ⟨{ c.heap with mem := store8 c.heap.mem a v }, c.live⟩

/-- Requests whose size does not overflow, frees of live blocks, writes into live payloads. -/
def Client.Allowed (c : Client) : Call → Prop
  | .kmalloc n => n + rHeaderSize < 2 ^ 32
  | .kfree p => p ∈ c.live.map Prod.fst
  | .write a _ => ∃ b ∈ c.live, b.1 ≤ a ∧ a < b.1 + b.2

instance (c : Client) : ∀ call, Decidable (c.Allowed call)
  | .kmalloc n => inferInstanceAs (Decidable (n + rHeaderSize < 2 ^ 32))
  | .kfree p => inferInstanceAs (Decidable (p ∈ c.live.map Prod.fst))
  | .write a _ => inferInstanceAs (Decidable (∃ b ∈ c.live, b.1 ≤ a ∧ a < b.1 + b.2))

/-- A client that has just called `init_heap` on some memory. -/
def Client.init (m : Mem) : Client := ⟨initHeap m, []⟩

/-- The live blocks are exactly the regions in use. -/
structure Tracks (c : Client) (rs : List Region) (fl : List Nat) : Prop where
  wf : Wf c.heap rs fl
  live_iff : ∀ p n, (p, n) ∈ c.live ↔
    ∃ r ∈ rs, r.free = false ∧ r.addr + rHeaderSize = p ∧ r.size = n
  nodup : (c.live.map Prod.fst).Nodup

/-- The invariant of a client. -/
def Client.Inv (c : Client) : Prop := ∃ rs fl, Tracks c rs fl

variable {c c' : Client} {rs pre post : List Region} {fl : List Nat} {r : Region} {n p : Nat}

theorem tracks_init (m : Mem) : Tracks (Client.init m)
    [⟨heapStart, heapEnd - heapStart - rHeaderSize, true⟩] [heapStart] := by
  refine ⟨wf_initHeap m, fun p n => ?_, List.nodup_nil⟩
  constructor
  · intro hmem
    exact absurd hmem List.not_mem_nil
  · rintro ⟨r, hr, huse, -⟩
    rw [List.mem_singleton.mp hr] at huse
    exact absurd huse (by decide)

/-- The new block of a carved region is the only new region in use. -/
theorem mem_carved_iff (hfree : r.free) (s : Region) (huse : s.free = false) :
    s ∈ pre ++ [restOf r n, blockOf r n] ++ post ↔ s = blockOf r n ∨ s ∈ pre ++ r :: post := by
  have hrest : s ≠ restOf r n := ne_of_free hfree huse
  have hr : s ≠ r := ne_of_free hfree huse
  simp only [List.mem_append, List.mem_cons, List.not_mem_nil, or_false, hrest, hr, false_or]
  tauto

/-- A successful allocation adds its block to the live ones. -/
theorem Tracks.carved {h' : Heap} (ht : Tracks c rs fl) (hc : Carved c.heap h' rs pre post r n) :
    ∃ fl', Tracks ⟨h', ((blockOf r n).addr + rHeaderSize, n) :: c.live⟩
      (pre ++ [restOf r n, blockOf r n] ++ post) fl' := by
  obtain ⟨rfl, hfree, hsize, -, ⟨fl', hwf⟩, -⟩ := hc
  have hbfree : (blockOf r n).free = false := rfl
  refine ⟨fl', hwf, fun p k => ?_, ?_⟩
  · rw [List.mem_cons, ht.live_iff]
    constructor
    · rintro (heq | ⟨s, hs, huse, hp, hk⟩)
      · obtain ⟨rfl, rfl⟩ := Prod.mk.injEq .. ▸ heq
        exact ⟨blockOf r k, (mem_carved_iff hfree _ hbfree).mpr (Or.inl rfl), rfl, rfl, rfl⟩
      · exact ⟨s, (mem_carved_iff hfree s huse).mpr (Or.inr hs), huse, hp, hk⟩
    · rintro ⟨s, hs, huse, rfl, rfl⟩
      rcases (mem_carved_iff hfree s huse).mp hs with rfl | hs
      · exact Or.inl rfl
      · exact Or.inr ⟨s, hs, huse, rfl, rfl⟩
  · refine List.nodup_cons.mpr ⟨?_, ht.nodup⟩
    intro hmem
    obtain ⟨b, hb, heq⟩ := List.mem_map.mp hmem
    obtain ⟨s, hs, huse, hp, -⟩ := (ht.live_iff b.1 b.2).mp hb
    have hs' : s ∈ pre ++ post := by
      have hne : s ≠ r := ne_of_free hfree huse
      simp only [List.mem_append, List.mem_cons, hne, false_or] at hs ⊢
      exact hs
    have := ht.wf.beside hs'
    simp only [blockOf] at heq
    unfold rHeaderSize at *
    omega

/-- What a `kmalloc` call does. -/
theorem Tracks.kmalloc (ht : Tracks c rs fl) (hn : n + rHeaderSize < 2 ^ 32) :
    ((∀ r ∈ rs, r.free → r.size < n + rHeaderSize) ∧ c.step (.kmalloc n) = some c) ∨
      ∃ pre r post h', Carved c.heap h' rs pre post r n ∧ c.step (.kmalloc n) =
        some ⟨h', ((blockOf r n).addr + rHeaderSize, n) :: c.live⟩ := by
  rcases ht.wf.kmalloc hn with ⟨hnone, hrun⟩ | ⟨pre, r, post, h', hrun, hc⟩
  · refine Or.inl ⟨hnone, ?_⟩
    simp [Client.step, hrun]
  · refine Or.inr ⟨pre, r, post, h', hc, ?_⟩
    have hne : (blockOf r n).addr + rHeaderSize ≠ 0 := by
      unfold rHeaderSize
      omega
    simp only [Client.step, hrun, Option.map_some, hne, if_false]

/-- A `kfree` of a live block takes it off the live ones. -/
theorem Tracks.kfree (ht : Tracks c rs fl) (hlive : p ∈ c.live.map Prod.fst) :
    ∃ h' fl' x, x ∈ rs ∧ x.free = false ∧ x.addr + rHeaderSize = p ∧
      c.step (.kfree p) = some ⟨h', c.live.filter fun b => b.1 ≠ p⟩ ∧
      Tracks ⟨h', c.live.filter fun b => b.1 ≠ p⟩ (release rHeaderSize [x.addr] rs) fl' ∧
      Within (rs.map Region.addr) c.heap.mem h'.mem := by
  obtain ⟨⟨p, n⟩, hmem, rfl⟩ := List.mem_map.mp hlive
  obtain ⟨x, hx, huse, rfl, rfl⟩ := (ht.live_iff p n).mp hmem
  obtain ⟨h', fl', hrun, hwf, hframe⟩ := ht.wf.kfree hx huse
  refine ⟨h', fl', x, hx, huse, rfl, by simp [Client.step, hrun], ⟨hwf, fun p k => ?_, ?_⟩, hframe⟩
  · rw [List.mem_filter, ht.live_iff]
    constructor
    · rintro ⟨⟨s, hs, hsuse, rfl, rfl⟩, hne⟩
      have hnot : s.addr ∉ [x.addr] := by
        intro hmem
        rw [List.mem_singleton.mp hmem] at hne
        simp at hne
      exact ⟨s, (mem_release_of_use hsuse).mpr ⟨hs, hnot⟩, hsuse, rfl, rfl⟩
    · rintro ⟨s, hs, hsuse, rfl, rfl⟩
      obtain ⟨hmem, hnot⟩ := (mem_release_of_use hsuse).mp hs
      refine ⟨⟨s, hmem, hsuse, rfl, rfl⟩, ?_⟩
      simpa using hnot
  · exact ht.nodup.sublist (List.filter_sublist.map _)

/-- The invariant reads only the headers. -/
theorem Wf.congr {h : Heap} {m : Mem} (hw : Wf h rs fl)
    (hm : ∀ r ∈ rs, ∀ x, r.addr ≤ x → x < r.addr + rHeaderSize → m x = h.mem x) :
    Wf ⟨m, h.indexHead⟩ rs fl := by
  have hkeeps : ∀ r ∈ rs, SameHeader h.mem m r.addr ∧ hdLink m r.addr = hdLink h.mem r.addr := by
    intro r hr
    refine ⟨⟨hm r hr _ (le_refl _) (by unfold rHeaderSize; omega), ?_⟩, ?_⟩
    · exact load_congr fun x hx hx' => hm r hr x (by omega) (by unfold rHeaderSize; omega)
    · exact load_congr fun x hx hx' => hm r hr x (by omega) (by unfold rHeaderSize; omega)
  have hlink : ∀ a ∈ fl, hdLink m a = hdLink h.mem a := by
    intro a ha
    obtain ⟨s, hs, rfl⟩ := hw.exists_of_mem_fl ha
    exact (hkeeps s hs).2
  refine ⟨hw.tiles, fun r hr => (hkeeps r hr).1.stored (hw.stored r hr), hw.first, hw.separated,
    ?_, hw.path.congr hlink, hw.nodup, hw.members, pairwise_sizeLe_congr hw.sorted fun a ha => ?_⟩
  · refine hw.back.imp_of_mem_imp fun r s _ hs hrs huse => ?_
    rw [(hkeeps s hs).2]
    exact hrs huse
  · obtain ⟨s, hs, rfl⟩ := hw.exists_of_mem_fl ha
    exact (hkeeps s hs).1.2

/-- The payload of a region meets no header. -/
theorem Wf.payload_apart {h : Heap} {x s : Region} {a : Nat} (hw : Wf h rs fl) (hx : x ∈ rs)
    (hs : s ∈ rs) (hge : x.addr + rHeaderSize ≤ a) (hlt : a < x.addr + rHeaderSize + x.size) :
    a < s.addr ∨ s.addr + rHeaderSize ≤ a := by
  rcases hw.tiles.disjoint hx hs with rfl | hle | hle
  · exact Or.inr hge
  · unfold Region.stop at hle
    exact Or.inl (by omega)
  · unfold Region.stop at hle
    exact Or.inr (by omega)

/-- A write into a live payload leaves the invariant alone. -/
theorem Tracks.write (ht : Tracks c rs fl) {a : Nat} {v : UInt8}
    (ha : ∃ b ∈ c.live, b.1 ≤ a ∧ a < b.1 + b.2) :
    Tracks ⟨{ c.heap with mem := store8 c.heap.mem a v }, c.live⟩ rs fl := by
  obtain ⟨b, hb, hge, hlt⟩ := ha
  obtain ⟨x, hx, -, hp, hn⟩ := (ht.live_iff b.1 b.2).mp hb
  refine ⟨ht.wf.congr fun r hr y hy hy' => store8_of_ne _ _ _ ?_, ht.live_iff, ht.nodup⟩
  have := ht.wf.payload_apart hx hr (a := a) (by omega) (by omega)
  omega

/-- Every allowed call completes and keeps the invariant. -/
theorem inv_step (c : Client) (call : Call) (hinv : c.Inv) (hcall : c.Allowed call) :
    ∃ c', c.step call = some c' ∧ c'.Inv := by
  obtain ⟨rs, fl, ht⟩ := hinv
  cases call with
  | kmalloc n =>
      rcases ht.kmalloc hcall with ⟨-, hrun⟩ | ⟨pre, r, post, h', hc, hrun⟩
      · exact ⟨c, hrun, rs, fl, ht⟩
      · obtain ⟨fl', ht'⟩ := ht.carved hc
        exact ⟨_, hrun, _, fl', ht'⟩
  | kfree p =>
      obtain ⟨h', fl', x, -, -, -, hrun, ht', -⟩ := ht.kfree hcall
      exact ⟨_, hrun, _, fl', ht'⟩
  | write a v => exact ⟨_, rfl, rs, fl, ht.write hcall⟩

/-- Every allowed history completes and keeps the invariant. -/
theorem inv_run {m : Mem} {calls : List Call}
    (hcalls : Guarded Client.step Client.Allowed (Client.init m) calls) :
    ∃ c, run Client.step (Client.init m) calls = some c ∧ c.Inv :=
  exists_run inv_step ⟨_, _, tracks_init m⟩ hcalls

end TsOs.Malloc
