import TsOs.Malloc.Safety

/-!
# The heap and the boot stack

`kernel_entry.asm` loads `esp` with an address inside the heap, and task 0 keeps
running on that stack. Allocation proceeds from the end of the heap downwards, so
the stack is safe as long as the first region, which is never handed out as a
whole, still reaches up to the stack's top. `FitsAbove` is the condition on each
`kmalloc` call that keeps it so.
-/

namespace TsOs.Malloc
open ByteMemory LinkPath RegionTiling Transition

/-- The address that `kernel_entry.asm` loads into `esp`. -/
def bootStackTop : Nat := 0xC0F00000

/-- No header and no live payload covers one of the `depth` bytes below the stack's top. -/
def ClearOfStack (depth : Nat) (c : Client) : Prop :=
  ∃ hds fl, Layout c.heap hds fl ∧ ∀ x, bootStackTop - depth ≤ x → x < bootStackTop →
    (∀ a ∈ hds, ¬(a ≤ x ∧ x < a + rHeaderSize)) ∧ ∀ b ∈ c.live, ¬(b.1 ≤ x ∧ x < b.1 + b.2)

/-- A request that a free region above the stack can hold, that the first region can hold
above the stack, or that does not fit into the first region at all. -/
def FitsAbove (c : Client) : Call → Prop
  | .kmalloc n =>
      (∃ hds fl, Layout c.heap hds fl ∧
        ∃ a ∈ fl, bootStackTop ≤ a ∧ n + rHeaderSize ≤ hdSize c.heap.mem a) ∨
      n + (bootStackTop - heapStart) ≤ hdSize c.heap.mem heapStart ∨
      hdSize c.heap.mem heapStart < n + rHeaderSize
  | _ => True

/-- The first region reaches up to the stack's top. -/
def Reserve (rs : List Region) : Prop := ∃ r ∈ rs.head?, bootStackTop ≤ r.stop rHeaderSize

variable {c c' : Client} {rs post : List Region} {fl : List Nat} {r s : Region} {depth n : Nat}

/-- A heap has one list of headers. -/
theorem Layout.headers_eq {h : Heap} {hds hds' fl fl' : List Nat} (hl : Layout h hds fl)
    (hl' : Layout h hds' fl') : hds = hds' := by
  have hnot : ∀ {hds fl}, Layout h hds fl → heapEnd ∉ hds := by
    intro hds fl hl hmem
    have := (hl.inside _ hmem).2
    unfold rHeaderSize at this
    omega
  exact hl.walk.eq_of_not_mem hl'.walk (hnot hl) (hnot hl')

theorem Tracks.headers_eq (ht : Tracks c rs fl) {hds gl : List Nat} (hl : Layout c.heap hds gl) :
    hds = rs.map Region.addr :=
  hl.headers_eq ht.wf.layout

/-- The first region starts the heap and is free. -/
theorem Tracks.first_eq (ht : Tracks c (r :: post) fl) : r.addr = heapStart ∧ r.free :=
  ⟨ht.wf.tiles.1, ht.wf.first r rfl⟩

/-- A first region that reaches the stack's top keeps the stack clear. -/
theorem Tracks.clear_of_reserve (ht : Tracks c rs fl) (hres : Reserve rs)
    (hdepth : depth + heapStart + rHeaderSize ≤ bootStackTop) : ClearOfStack depth c := by
  obtain ⟨r, hr, htop⟩ := hres
  obtain ⟨post, rfl⟩ : ∃ post, rs = r :: post := List.head?_eq_some_iff.mp hr
  obtain ⟨haddr, hfree⟩ := ht.first_eq
  have hpost : ∀ s ∈ post, bootStackTop ≤ s.addr := fun s hs =>
    htop.trans (List.rel_of_pairwise_cons ht.wf.tiles.pairwise hs)
  refine ⟨_, fl, ht.wf.layout, fun x hx hx' => ⟨fun a ha hcover => ?_, fun b hb hcover => ?_⟩⟩
  · obtain ⟨s, hs, rfl⟩ := List.mem_map.mp ha
    rcases List.mem_cons.mp hs with rfl | hs
    · omega
    · have := hpost s hs
      omega
  · obtain ⟨s, hs, huse, hp, -⟩ := (ht.live_iff b.1 b.2).mp hb
    rcases List.mem_cons.mp hs with rfl | hs
    · exact absurd (hfree.symm.trans huse) (by decide)
    · have := hpost s hs
      omega

/-- A region in use across the stack's top covers the byte below it. -/
theorem Tracks.not_clear (ht : Tracks c rs fl) (hs : s ∈ rs) (huse : s.free = false)
    (hbelow : s.addr < bootStackTop) (habove : bootStackTop ≤ s.stop rHeaderSize)
    (hdepth : 0 < depth) : ¬ClearOfStack depth c := by
  rintro ⟨hds, gl, hl, hclear⟩
  obtain ⟨hheaders, hpayloads⟩ := hclear (bootStackTop - 1) (by omega) (by omega)
  have hheader := hheaders s.addr (by rw [ht.headers_eq hl]; exact List.mem_map_of_mem hs)
  have hpayload := hpayloads (s.addr + rHeaderSize, s.size)
    ((ht.live_iff _ _).mpr ⟨s, hs, huse, rfl, rfl⟩)
  unfold Region.stop at habove
  simp only at hpayload
  omega

/-- A release does not shorten the first region. -/
theorem Tracks.reserve_release (ht : Tracks c rs fl) (hres : Reserve rs) (freed : List Nat) :
    Reserve (release rHeaderSize freed rs) := by
  obtain ⟨r, hr, htop⟩ := hres
  obtain ⟨post, rfl⟩ : ∃ post, rs = r :: post := List.head?_eq_some_iff.mp hr
  have hfree := ht.first_eq.2
  rw [release, mark_cons_free hfree, coalesce_cons]
  cases coalesce rHeaderSize (mark freed post) with
  | nil => exact ⟨r, rfl, htop⟩
  | cons s rest =>
      by_cases hs : s.free
      · rw [push_of_free hfree hs]
        refine ⟨_, rfl, ?_⟩
        simp only [Region.stop, Region.join] at htop ⊢
        omega
      · rw [push_of_not_free (by simp [hs])]
        exact ⟨r, rfl, htop⟩

/-- Carving another region than the first one is safe, and allowed for that reason. -/
theorem Tracks.carve_later {pre : List Region} {h' : Heap}
    (ht : Tracks c (s :: pre ++ r :: post) fl) (htop : bootStackTop ≤ s.stop rHeaderSize)
    (hc : Carved c.heap h' (s :: pre ++ r :: post) (s :: pre) post r n) :
    FitsAbove c (.kmalloc n) ∧ Reserve (s :: pre ++ [restOf r n, blockOf r n] ++ post) := by
  have hr : r ∈ s :: pre ++ r :: post := by simp
  refine ⟨Or.inl ⟨_, fl, ht.wf.layout, r.addr, ?_, ?_, ?_⟩, s, rfl, htop⟩
  · exact (ht.wf.members _).mpr ⟨r, hr, hc.free, rfl⟩
  · exact htop.trans (ht.wf.tiles.stop_le_of_mem_left (by simp))
  · rw [(ht.wf.stored r hr).2]
    exact hc.enough

/-- When the first region is carved, no other free region could hold the request. -/
theorem Tracks.fits_first_iff {h' : Heap} (ht : Tracks c (r :: post) fl)
    (htop : bootStackTop ≤ r.stop rHeaderSize) (hc : Carved c.heap h' (r :: post) [] post r n) :
    FitsAbove c (.kmalloc n) ↔ n + (bootStackTop - heapStart) ≤ r.size := by
  obtain ⟨haddr, hfree⟩ := ht.first_eq
  have hsize : hdSize c.heap.mem heapStart = r.size :=
    haddr ▸ (ht.wf.stored r (by simp)).2
  have henough := hc.enough
  have hspan : heapEnd - bootStackTop < bootStackTop - heapStart - rHeaderSize := by decide
  unfold FitsAbove
  rw [hsize]
  constructor
  · rintro (⟨hds, gl, hl, a, ha, habove, hfit⟩ | hfit | hfit)
    · obtain ⟨hmem, hafree⟩ := (hl.members a).mp ha
      rw [ht.headers_eq hl] at hmem
      obtain ⟨s, hs, rfl⟩ := List.mem_map.mp hmem
      rw [(ht.wf.stored s hs).2] at hfit
      have hbest := hc.best s hs ((ht.wf.stored s hs).free_iff.mp hafree) hfit
      have hsb := (ht.wf.bounds hs).2
      unfold Region.stop at htop
      omega
    · exact hfit
    · omega
  · exact fun hfit => Or.inr (Or.inl hfit)

/-- One call keeps the first region up to the stack's top or collides with the stack. -/
theorem Tracks.reserve_step (ht : Tracks c rs fl) (hres : Reserve rs) (hdepth : 0 < depth)
    {call : Call} (hcall : c.Allowed call) :
    ∃ c' rs' fl', c.step call = some c' ∧ Tracks c' rs' fl' ∧
      (FitsAbove c call ∧ Reserve rs' ∨ ¬FitsAbove c call ∧ ¬ClearOfStack depth c') := by
  cases call with
  | write a v => exact ⟨_, rs, fl, rfl, ht.write hcall, Or.inl ⟨trivial, hres⟩⟩
  | kfree p =>
      obtain ⟨h', fl', x, -, -, -, hrun, ht', -⟩ := ht.kfree hcall
      exact ⟨_, _, fl', hrun, ht', Or.inl ⟨trivial, ht.reserve_release hres _⟩⟩
  | kmalloc n =>
      obtain ⟨r, hr, htop⟩ := hres
      obtain ⟨post, rfl⟩ : ∃ post, rs = r :: post := List.head?_eq_some_iff.mp hr
      obtain ⟨haddr, hfree⟩ := ht.first_eq
      rcases ht.kmalloc hcall with ⟨hnone, hrun⟩ | ⟨pre, s, post', h', hc, hrun⟩
      · refine ⟨c, _, fl, hrun, ht, Or.inl ⟨Or.inr (Or.inr ?_), r, rfl, htop⟩⟩
        rw [← haddr, (ht.wf.stored r (by simp)).2]
        exact hnone r (by simp) hfree
      · obtain ⟨fl', ht'⟩ := ht.carved hc
        refine ⟨_, _, fl', hrun, ht', ?_⟩
        cases pre with
        | cons q pre =>
            obtain ⟨rfl, rfl⟩ : r = q ∧ post = pre ++ s :: post' := by simpa using hc.split
            exact Or.inl (ht.carve_later htop hc)
        | nil =>
            obtain ⟨rfl, rfl⟩ : r = s ∧ post = post' := by simpa using hc.split
            have henough := hc.enough
            have hfits := ht.fits_first_iff htop hc
            by_cases hfit : n + (bootStackTop - heapStart) ≤ r.size
            · refine Or.inl ⟨hfits.mpr hfit, restOf r n, rfl, ?_⟩
              simp only [Region.stop, restOf]
              omega
            · refine Or.inr ⟨fun h => hfit (hfits.mp h), ?_⟩
              refine ht'.not_clear (s := blockOf r n) (by simp) rfl ?_ ?_ hdepth
              · simp only [blockOf]
                omega
              · simp only [Region.stop, blockOf] at htop ⊢
                omega

/-- The stack stays clear along a run exactly when every request fits above it. -/
theorem Tracks.always_clear_iff (ht : Tracks c rs fl) (hres : Reserve rs) (hdepth : 0 < depth)
    (hroom : depth + heapStart + rHeaderSize ≤ bootStackTop) {calls : List Call}
    (hcalls : Guarded Client.step Client.Allowed c calls) :
    Always Client.step (ClearOfStack depth) c calls ↔ Guarded Client.step FitsAbove c calls := by
  have hclear := ht.clear_of_reserve hres hroom
  induction calls generalizing c rs fl with
  | nil => exact ⟨fun _ => trivial, fun _ => hclear⟩
  | cons call calls ih =>
      obtain ⟨c', rs', fl', hstep, ht', hcase⟩ := ht.reserve_step hres hdepth hcalls.1
      have htail := hcalls.2 c' hstep
      simp only [Always, Guarded, hstep, Option.some.injEq, forall_eq']
      rcases hcase with ⟨hfits, hres'⟩ | ⟨hfits, hhit⟩
      · have hiff := ih ht' hres' htail (ht'.clear_of_reserve hres' hroom)
        simp only [hfits, hclear, true_and]
        exact hiff
      · have hnot : ¬Always Client.step (ClearOfStack depth) c' calls := by
          cases calls with
          | nil => exact hhit
          | cons _ _ => exact fun h => hhit h.1
        simp [hfits, hnot]

/-- Every history completes, and the boot stack stays clear of headers and payloads in all
its states exactly when every request of it fits above the stack. -/
theorem history_clear_of_stack_iff (m : Mem) (calls : List Call) (depth : Nat) (hdepth : 0 < depth)
    (hroom : depth + heapStart + rHeaderSize ≤ bootStackTop)
    (hcalls : Guarded Client.step Client.Allowed (Client.init m) calls) :
    (∃ c, run Client.step (Client.init m) calls = some c) ∧
      (Always Client.step (ClearOfStack depth) (Client.init m) calls ↔
        Guarded Client.step FitsAbove (Client.init m) calls) := by
  obtain ⟨c, hrun, -⟩ := inv_run hcalls
  have htop : bootStackTop ≤
      Region.stop rHeaderSize ⟨heapStart, heapEnd - heapStart - rHeaderSize, true⟩ := by decide
  exact ⟨⟨c, hrun⟩, (tracks_init m).always_clear_iff ⟨_, rfl, htop⟩ hdepth hroom hcalls⟩

theorem history_clear_of_stack_iff_word :
    (∃ c, run Client.step (Client.init fun _ => 0) [.kmalloc 16, .kmalloc 8] = some c) ∧
      (Always Client.step (ClearOfStack 4) (Client.init fun _ => 0) [.kmalloc 16, .kmalloc 8] ↔
        Guarded Client.step FitsAbove (Client.init fun _ => 0) [.kmalloc 16, .kmalloc 8]) :=
  history_clear_of_stack_iff (fun _ => 0) [.kmalloc 16, .kmalloc 8] 4 (by decide) (by decide)
    (by decide)

/-- One allowed request hands out the word that the first push on the stack writes. -/
theorem kmalloc_hits_stack :
    Guarded Client.step Client.Allowed (Client.init fun _ => 0) [.kmalloc 0x100004] ∧
      ¬Always Client.step (ClearOfStack 4) (Client.init fun _ => 0) [.kmalloc 0x100004] := by
  refine ⟨by decide, fun halways => ?_⟩
  have hlive : ((Client.init fun _ => 0).step (.kmalloc 0x100004)).map Client.live =
      some [(0xC0EFFFFC, 0x100004)] := by decide
  obtain ⟨c, hstep, hc⟩ := Option.map_eq_some_iff.mp hlive
  obtain ⟨hds, fl, -, hclear⟩ := halways.2 c hstep
  have hhit := (hclear 0xC0EFFFFC (by decide) (by decide)).2 (0xC0EFFFFC, 0x100004)
  rw [hc] at hhit
  exact hhit (List.mem_singleton.mpr rfl) ⟨by decide, by decide⟩

end TsOs.Malloc
