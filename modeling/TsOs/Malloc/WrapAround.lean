import TsOs.Malloc.BootStack

/-!
# Requests near the end of the number range

`kmalloc` adds the header size to the request in thirty-two bits. A request of more
than `2 ^ 32 - rHeaderSize` bytes passes the test against any free region that holds
what is left of the sum, at most eleven bytes, and a block is handed out that reaches
past the end of the heap. `NoWrap` is the condition on each call that excludes it.
-/

namespace TsOs.Malloc
open ByteMemory LinkPath RegionTiling Transition

/-- `a` is a header met when stepping from the start of the heap to its end. -/
def IsHeader (h : Heap) (a : Nat) : Prop :=
  ∃ before, Path (getNextHeader h.mem) heapStart before a ∧ heapEnd ∉ before ∧ a ≠ heapEnd

/-- `a` is the header of a free region. -/
def IsFree (h : Heap) (a : Nat) : Prop := IsHeader h a ∧ hdType h.mem a = regionFree

/-- Requests of any size, frees of live blocks, writes into live payloads. -/
def Client.Valid (c : Client) : Call → Prop
  | .kmalloc n => n < 2 ^ 32
  | .kfree p => p ∈ c.live.map Prod.fst
  | .write a _ => ∃ b ∈ c.live, b.1 ≤ a ∧ a < b.1 + b.2

instance (c : Client) : ∀ call, Decidable (c.Valid call)
  | .kmalloc n => inferInstanceAs (Decidable (n < 2 ^ 32))
  | .kfree p => inferInstanceAs (Decidable (p ∈ c.live.map Prod.fst))
  | .write a _ => inferInstanceAs (Decidable (∃ b ∈ c.live, b.1 ≤ a ∧ a < b.1 + b.2))

/-- The sum with the header size does not overflow, or no free region holds what is left of it. -/
def NoWrap (c : Client) : Call → Prop
  | .kmalloc n => n + rHeaderSize < 2 ^ 32 ∨
      ∀ a, IsFree c.heap a → hdSize c.heap.mem a < n + rHeaderSize - 2 ^ 32
  | _ => True

/-- A block that `kmalloc` returns lies inside the heap, and the heap is in order after it. -/
def AllocatesInside (c : Client) : Call → Prop
  | .kmalloc n => ∀ h' p, kmalloc c.heap n = some (h', p) → p ≠ 0 →
      heapStart ≤ p ∧ p + n ≤ heapEnd ∧ ∃ hds fl, Layout h' hds fl
  | _ => True

variable {c c' : Client} {h : Heap} {rs : List Region} {fl hds : List Nat} {r : Region} {n : Nat}

/-- The headers of a heap in order are those of its layout. -/
theorem Layout.isHeader_iff (hl : Layout h hds fl) {a : Nat} : IsHeader h a ↔ a ∈ hds := by
  have hend : heapEnd ∉ hds := by
    intro hmem
    have := (hl.inside _ hmem).2
    unfold rHeaderSize at this
    omega
  constructor
  · rintro ⟨before, hpath, hnot, hne⟩
    exact hpath.mem_of_not_mem hl.walk hnot hne
  · intro ha
    obtain ⟨l₁, l₂, rfl⟩ := List.append_of_mem ha
    exact ⟨l₁, (path_append_cons.mp hl.walk).1, fun hmem => hend (by simp [hmem]),
      fun heq => hend (by simp [← heq])⟩

theorem Wf.isHeader_iff (hw : Wf h rs fl) {a : Nat} : IsHeader h a ↔ ∃ r ∈ rs, r.addr = a := by
  rw [hw.layout.isHeader_iff, List.mem_map]

/-- Every free header has its region. -/
theorem Wf.isFree_iff (hw : Wf h rs fl) {a : Nat} :
    IsFree h a ↔ ∃ r ∈ rs, r.free ∧ r.addr = a := by
  rw [IsFree, hw.isHeader_iff]
  constructor
  · rintro ⟨⟨r, hr, rfl⟩, hfree⟩
    exact ⟨r, hr, (hw.stored r hr).free_iff.mp hfree, rfl⟩
  · rintro ⟨r, hr, hfree, rfl⟩
    exact ⟨⟨r, hr, rfl⟩, (hw.stored r hr).free_iff.mpr hfree⟩

/-- No free region holds `k` bytes. -/
theorem Wf.all_small_iff (hw : Wf h rs fl) {k : Nat} :
    (∀ a, IsFree h a → hdSize h.mem a < k) ↔ ∀ r ∈ rs, r.free → r.size < k := by
  constructor
  · intro hall r hr hfree
    rw [← (hw.stored r hr).2]
    exact hall _ (hw.isFree_iff.mpr ⟨r, hr, hfree, rfl⟩)
  · intro hall a ha
    obtain ⟨r, hr, hfree, rfl⟩ := hw.isFree_iff.mp ha
    rw [(hw.stored r hr).2]
    exact hall r hr hfree

/-- A request whose sum overflows takes a block as soon as a free region holds what is left of
the sum. -/
theorem Wf.kmalloc_wrapped (hw : Wf h rs fl) (hn : n < 2 ^ 32) (hover : 2 ^ 32 ≤ n + rHeaderSize)
    (hr : r ∈ rs) (hfree : r.free) (hsize : n + rHeaderSize - 2 ^ 32 ≤ r.size) :
    ∃ h' p, Malloc.kmalloc h n = some (h', p) ∧ p ≠ 0 := by
  have hend : heapEnd + rHeaderSize < 2 ^ 32 := by decide
  have hneed : u32 (n + rHeaderSize) = n + rHeaderSize - 2 ^ 32 := by
    unfold u32 rHeaderSize at *
    omega
  rcases hw.searchFit (n + rHeaderSize - 2 ^ 32) with ⟨hnone, -⟩ |
    ⟨l₁, l₂, s, rfl, -, hs, hsfree, hssize, -, hsearch⟩
  · exact absurd (hnone r hr hfree) (Nat.not_lt.mpr hsize)
  obtain ⟨pre, post, rfl⟩ := List.append_of_mem hs
  have hsb := hw.bounds hs
  set h₁ := delFreeRegion h (l₁.getLastD 0) s.addr with hh₁
  -- the two subtractions come to that of what is left of the sum
  have hrest : sub32 (sub32 (hdSize h₁.mem s.addr) n) rHeaderSize =
      s.size - (n + rHeaderSize - 2 ^ 32) := by
    have hsame := hw.lists.delFreeRegion.2.hdSize_eq
      (hw.spaced.clear (fun a ha => hw.lists.mem_addr (by simp [ha])) hs)
    rw [hh₁, hsame, (hw.stored s hs).2]
    unfold sub32 rHeaderSize at *
    omega
  obtain ⟨g, fl', hrun, -, -, -, hstored, -⟩ :=
    hw.resize hsfree (v := s.size - (n + rHeaderSize - 2 ^ 32)) (by omega)
  have hblock : getNextHeader g.mem s.addr =
      s.addr + (s.size - (n + rHeaderSize - 2 ^ 32)) + rHeaderSize := by
    have hstop : hdSize g.mem s.addr = s.size - (n + rHeaderSize - 2 ^ 32) := hstored.2
    unfold getNextHeader
    rw [hstop]
    exact u32_of_lt (by omega)
  have hcall : Malloc.kmalloc h n = some (addAllocRegion
      ⟨createHeader g.mem (getNextHeader g.mem s.addr) regionAlloc n s.addr, g.indexHead⟩
        (getNextHeader g.mem s.addr), u32 (getNextHeader g.mem s.addr + rHeaderSize)) := by
    simp only [← hh₁] at hrun
    simp only [Malloc.kmalloc, hneed, hsearch, Option.bind_eq_bind, Option.bind_some,
      hw.addr_pos hs, if_false, ← hh₁, hrest, hrun]
    rfl
  refine ⟨_, _, hcall, ?_⟩
  rw [hblock, u32_of_lt (by omega)]
  unfold rHeaderSize
  omega

/-- A request whose sum overflows is refused when no free region holds what is left of the sum. -/
theorem Wf.kmalloc_refused (hw : Wf h rs fl) (hn : n < 2 ^ 32) (hover : 2 ^ 32 ≤ n + rHeaderSize)
    (hsmall : ∀ r ∈ rs, r.free → r.size < n + rHeaderSize - 2 ^ 32) :
    Malloc.kmalloc h n = some (h, 0) := by
  have hneed : u32 (n + rHeaderSize) = n + rHeaderSize - 2 ^ 32 := by
    unfold u32 rHeaderSize at *
    omega
  rcases hw.searchFit (n + rHeaderSize - 2 ^ 32) with ⟨-, hsearch⟩ |
    ⟨l₁, l₂, s, rfl, -, hs, hsfree, hssize, -, -⟩
  · simp only [Malloc.kmalloc, hneed, hsearch]
    rfl
  · exact absurd (hsmall s hs hsfree) (Nat.not_lt.mpr hssize)

/-- A block of a sum that overflows reaches past the end of the heap. -/
theorem Tracks.allocatesInside_iff (ht : Tracks c rs fl) {call : Call} (hcall : c.Valid call) :
    AllocatesInside c call ↔ NoWrap c call := by
  cases call with
  | kfree p => exact Iff.rfl
  | write a v => exact Iff.rfl
  | kmalloc n =>
      rw [NoWrap, ht.wf.all_small_iff]
      have hn : n < 2 ^ 32 := hcall
      by_cases hover : n + rHeaderSize < 2 ^ 32
      · refine iff_of_true (fun h' p hrun hp => ?_) (Or.inl hover)
        rcases ht.wf.kmalloc hover with ⟨-, hrun'⟩ | ⟨pre, r, post, g, hrun', hc⟩
        · obtain ⟨-, rfl⟩ := Prod.mk.injEq .. ▸ Option.some.inj (hrun'.symm.trans hrun)
          exact absurd rfl hp
        · obtain ⟨rfl, rfl⟩ := Prod.mk.injEq .. ▸ Option.some.inj (hrun'.symm.trans hrun)
          obtain ⟨fl', hwf⟩ := hc.wf
          have hb := hwf.bounds (r := blockOf r n) (by simp)
          have hsize : (blockOf r n).size = n := rfl
          exact ⟨by omega, by omega, _, fl', hwf.layout⟩
      · have hover' : 2 ^ 32 ≤ n + rHeaderSize := Nat.not_lt.mp hover
        constructor
        · intro hinside
          refine Or.inr fun r hr hfree => ?_
          by_contra hsize
          obtain ⟨h', p, hrun, hp⟩ :=
            ht.wf.kmalloc_wrapped hn hover' hr hfree (Nat.not_lt.mp hsize)
          have hstop := (hinside h' p hrun hp).2.1
          have hend : heapEnd + rHeaderSize < 2 ^ 32 := by decide
          omega
        · intro h
          have hsmall := h.resolve_left hover
          have hrefused := ht.wf.kmalloc_refused hn hover' hsmall
          intro h' p hrun hp
          obtain ⟨-, rfl⟩ := Prod.mk.injEq .. ▸ Option.some.inj (hrefused.symm.trans hrun)
          exact absurd rfl hp

/-- A valid call that does not wrap around completes and keeps the invariant. -/
theorem inv_step_noWrap (c : Client) (call : Call) (hinv : c.Inv)
    (hcall : c.Valid call ∧ NoWrap c call) : ∃ c', c.step call = some c' ∧ c'.Inv := by
  obtain ⟨hvalid, hnowrap⟩ := hcall
  cases call with
  | kfree p => exact inv_step c (.kfree p) hinv hvalid
  | write a v => exact inv_step c (.write a v) hinv hvalid
  | kmalloc n =>
      by_cases hover : n + rHeaderSize < 2 ^ 32
      · exact inv_step c (.kmalloc n) hinv hover
      · obtain ⟨rs, fl, ht⟩ := hinv
        have hsmall := ht.wf.all_small_iff.mp (hnowrap.resolve_left hover)
        have hrun := ht.wf.kmalloc_refused hvalid (Nat.not_lt.mp hover) hsmall
        exact ⟨c, by simp [Client.step, hrun], rs, fl, ht⟩

theorem Client.Inv.of_step (hinv : c.Inv) {call : Call} (hvalid : c.Valid call)
    (hnowrap : NoWrap c call) (hstep : c.step call = some c') : c'.Inv := by
  obtain ⟨d, hd, hdinv⟩ := inv_step_noWrap c call hinv ⟨hvalid, hnowrap⟩
  obtain rfl := Option.some.inj (hd.symm.trans hstep)
  exact hdinv

/-- What the invariant gives holds in every state of a history that does not wrap around. -/
theorem history_always {m : Mem} {calls : List Call} {P : Client → Prop}
    (hcalls : Guarded Client.step Client.Valid (Client.init m) calls)
    (hnowrap : Guarded Client.step NoWrap (Client.init m) calls) (hP : ∀ c, c.Inv → P c) :
    (∃ c, run Client.step (Client.init m) calls = some c) ∧
      Always Client.step P (Client.init m) calls := by
  have hguard := guarded_and hcalls hnowrap
  have hinit : (Client.init m).Inv := ⟨_, _, tracks_init m⟩
  obtain ⟨c, hrun, -⟩ := exists_run inv_step_noWrap hinit hguard
  exact ⟨⟨c, hrun⟩, always_of_step (fun _ _ _ hinv hcall => hinv.of_step hcall.1 hcall.2) hP hinit
    hguard⟩

/-- Requests that do not overflow do not wrap around. -/
theorem guarded_noWrap {calls : List Call}
    (hcalls : ∀ n, Call.kmalloc n ∈ calls → n + rHeaderSize < 2 ^ 32) :
    Guarded Client.step NoWrap c calls := by
  refine guarded_of_forall fun call hcall d => ?_
  cases call with
  | kmalloc n => exact Or.inl (hcalls n hcall)
  | kfree p => trivial
  | write a v => trivial

theorem sampleCalls_noWrap : Guarded Client.step NoWrap c sampleCalls := by
  refine guarded_noWrap fun n hn => ?_
  simp only [sampleCalls, List.mem_cons, List.not_mem_nil, or_false, Call.kmalloc.injEq,
    reduceCtorEq, false_or] at hn
  unfold rHeaderSize
  omega

/-- In every history with requests of any size, each call hands out a block inside the heap and
leaves the heap in order exactly when no request of the history wraps around. -/
theorem history_inside_iff (m : Mem) (calls : List Call)
    (hcalls : Guarded Client.step Client.Valid (Client.init m) calls) :
    Guarded Client.step AllocatesInside (Client.init m) calls ↔
      Guarded Client.step NoWrap (Client.init m) calls := by
  have hinit : (Client.init m).Inv := ⟨_, _, tracks_init m⟩
  refine guarded_iff ?_ (fun c call c' hinv => Client.Inv.of_step hinv) hinit hcalls
  rintro c call ⟨rs, fl, ht⟩ hvalid
  exact ht.allocatesInside_iff hvalid

theorem history_inside_iff_sample :
    Guarded Client.step AllocatesInside (Client.init fun _ => 0) [.kmalloc 16, .kmalloc 0xFFFFFFFF] ↔
      Guarded Client.step NoWrap (Client.init fun _ => 0) [.kmalloc 16, .kmalloc 0xFFFFFFFF] :=
  history_inside_iff (fun _ => 0) [.kmalloc 16, .kmalloc 0xFFFFFFFF] (by decide)

/-- The second request gets the block of the first one again, with a header over that of the first
block. -/
theorem kmalloc_wraps :
    Guarded Client.step Client.Valid (Client.init fun _ => 0) [.kmalloc 16, .kmalloc 0xFFFFFFF4] ∧
      ¬Guarded Client.step AllocatesInside (Client.init fun _ => 0) [.kmalloc 16, .kmalloc 0xFFFFFFF4] ∧
      ((run Client.step (Client.init fun _ => 0) [.kmalloc 16, .kmalloc 0xFFFFFFF4]).map fun c =>
        (c.live, hdSize c.heap.mem 0xC0FFFFE4)) =
          some ([(0xC0FFFFF0, 0xFFFFFFF4), (0xC0FFFFF0, 16)], 0xFFFFFFF4) := by
  refine ⟨by decide, fun hinside => ?_, by decide⟩
  have hblock : ((Client.init fun _ => 0).step (.kmalloc 16)).bind (fun c =>
      (kmalloc c.heap 0xFFFFFFF4).map Prod.snd) = some 0xC0FFFFF0 := by decide
  obtain ⟨c, hstep, hcall⟩ := Option.bind_eq_some_iff.mp hblock
  obtain ⟨⟨h', p⟩, hrun, rfl⟩ := Option.map_eq_some_iff.mp hcall
  exact absurd ((hinside.2 c hstep).1 h' _ hrun (by decide)).2.1 (by decide)

end TsOs.Malloc
