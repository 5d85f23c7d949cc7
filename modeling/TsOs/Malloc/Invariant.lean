import TsOs.Library.RegionTiling
import TsOs.Malloc.FreeList

/-!
# The heap invariant

`Wf h rs fl` relates the bytes of the heap to a tiling `rs` of the heap by
regions and to the list `fl` of free headers. The four parts are the tiling, the
absence of two adjacent free regions, the sorted free list, and the back links of
regions in use. `Wf.splice` rebuilds all of them after an edit that replaces a
few neighbouring regions, which is how both `kmalloc` and `kfree` act.
-/

namespace TsOs.Malloc
open ByteMemory LinkPath RegionTiling

/-- The header of the region holds its status and size. -/
def Stored (m : Mem) (r : Region) : Prop :=
  hdType m r.addr = (if r.free then regionFree else regionAlloc) ∧ hdSize m r.addr = r.size

/-- The link of a region in use is the header of the region before it. -/
def BackLinked (m : Mem) (rs : List Region) : Prop :=
  rs.IsChain fun r s => s.free = false → hdLink m s.addr = r.addr

/-- The heap's bytes carry the tiling `rs` and the free list `fl`. -/
structure Wf (h : Heap) (rs : List Region) (fl : List Nat) : Prop where
  tiles : Tiles rHeaderSize heapStart rs heapEnd
  stored : ∀ r ∈ rs, Stored h.mem r
  first : ∀ r ∈ rs.head?, r.free
  separated : Separated rs
  back : BackLinked h.mem rs
  path : Path (hdLink h.mem) h.indexHead fl 0
  nodup : fl.Nodup
  members : ∀ a, a ∈ fl ↔ ∃ r ∈ rs, r.free ∧ r.addr = a
  sorted : fl.Pairwise (sizeLe h.mem)

section Fields

variable (m : Mem) {a b : Nat} (v : Nat)

theorem hdType_setSize (h : a = b ∨ Apart a b) : hdType (setSize m a v) b = hdType m b := by
  unfold Apart rHeaderSize at h
  exact store_of_outside m (a + 4) v (by omega)

theorem hdSize_setSize_same (hv : v < 2 ^ 32) : hdSize (setSize m a v) a = v :=
  load32_store32_same m (a + 4) hv

theorem hdSize_setType (t : UInt8) (h : a = b ∨ Apart a b) :
    hdSize (setType m a t) b = hdSize m b := by
  unfold Apart rHeaderSize at h
  exact load_store8_disjoint m t (by omega)

/-- A new header changes only its own twelve bytes. -/
theorem createHeader_of_outside (t : UInt8) (size link : Nat) {x : Nat}
    (h : x < a ∨ a + rHeaderSize ≤ x) : createHeader m a t size link x = m x := by
  unfold rHeaderSize at h
  unfold createHeader setLink setSize setType setMagic store32
  rw [store_of_outside _ _ _ (by omega), store_of_outside _ _ _ (by omega),
    store8_of_ne _ _ _ (by omega), store8_of_ne _ _ _ (by omega)]

theorem createHeader_fields (a : Nat) (t : UInt8) (size link : Nat) (hsize : size < 2 ^ 32)
    (hlink : link < 2 ^ 32) :
    hdType (createHeader m a t size link) a = t ∧
      hdSize (createHeader m a t size link) a = size ∧
      hdLink (createHeader m a t size link) a = link := by
  have hframe : ∀ m' : Mem, hdSize (setLink m' a link) a = hdSize m' a :=
    fun m' => load_store_disjoint m' link (by omega)
  refine ⟨?_, ?_, hdLink_setLink_same _ a hlink⟩
  · change store32 (store32 (setType (setMagic m a 0x87) a t) (a + 4) size) (a + 8) link a = t
    unfold store32 setType
    rw [store_of_outside _ _ _ (by omega), store_of_outside _ _ _ (by omega), store8_same]
  · exact (hframe _).trans (hdSize_setSize_same _ _ hsize)

end Fields

/-- The memories agree outside the given headers. -/
def Within (hds : List Nat) (m m' : Mem) : Prop :=
  ∀ x, (∀ a ∈ hds, x < a ∨ a + rHeaderSize ≤ x) → m' x = m x

/-- The memories agree on type and size in the header `b`. -/
def SameHeader (m m' : Mem) (b : Nat) : Prop :=
  hdType m' b = hdType m b ∧ hdSize m' b = hdSize m b

/-- The regions keep their types and sizes, and those in use their links. -/
structure Keeps (side : List Region) (m m' : Mem) : Prop where
  header : ∀ s ∈ side, SameHeader m m' s.addr
  link : ∀ s ∈ side, s.free = false → hdLink m' s.addr = hdLink m s.addr

section Frames

variable {hds hds' : List Nat} {m m' m'' : Mem} {side : List Region} {b : Nat}

theorem Within.mono (h : Within hds m m') (hsub : ∀ a ∈ hds, a ∈ hds') : Within hds' m m' :=
  fun x hx => h x fun a ha => hx a (hsub a ha)

theorem Within.trans (h : Within hds m m') (h' : Within hds m' m'') : Within hds m m'' :=
  fun x hx => (h' x hx).trans (h x hx)

theorem SameOffLinks.within (h : SameOffLinks hds m m') : Within hds m m' := by
  intro x hx
  apply h
  intro a ha
  have := hx a ha
  unfold rHeaderSize at this
  omega

theorem within_setSize (m : Mem) (a v : Nat) : Within [a] m (setSize m a v) := by
  intro x hx
  have := hx a (by simp)
  unfold rHeaderSize at this
  exact store_of_outside m (a + 4) v (by omega)

theorem within_setType (m : Mem) (a : Nat) (t : UInt8) : Within [a] m (setType m a t) := by
  intro x hx
  have := hx a (by simp)
  unfold rHeaderSize at this
  exact store8_of_ne m a t (by omega)

theorem within_createHeader (m : Mem) (a : Nat) (t : UInt8) (size link : Nat) :
    Within [a] m (createHeader m a t size link) :=
  fun _ hx => createHeader_of_outside m t size link (hx a (by simp))

theorem SameHeader.trans (h : SameHeader m m' b) (h' : SameHeader m' m'' b) :
    SameHeader m m'' b :=
  ⟨h'.1.trans h.1, h'.2.trans h.2⟩

theorem SameHeader.stored {r : Region} (h : SameHeader m m' r.addr) (hr : Stored m r) :
    Stored m' r :=
  ⟨h.1.trans hr.1, h.2.trans hr.2⟩

theorem SameOffLinks.sameHeader (h : SameOffLinks hds m m') (hb : Clear hds b) :
    SameHeader m m' b :=
  ⟨h.hdType_eq hb, h.hdSize_eq hb⟩

theorem Keeps.trans (h : Keeps side m m') (h' : Keeps side m' m'') : Keeps side m m'' where
  header := fun s hs => (h.header s hs).trans (h'.header s hs)
  link := fun s hs huse => (h'.link s hs huse).trans (h.link s hs huse)

/-- Changes inside one header keep the regions apart from it. -/
theorem Within.keeps {a : Nat} (h : Within [a] m m') (hapart : ∀ s ∈ side, Apart a s.addr) :
    Keeps side m m' := by
  have hbytes : ∀ s ∈ side, ∀ x, s.addr ≤ x → x < s.addr + rHeaderSize → m' x = m x := by
    intro s hs x hx hx'
    have := hapart s hs
    unfold Apart at this
    apply h
    intro c hc
    obtain rfl := List.mem_singleton.mp hc
    omega
  refine ⟨fun s hs => ⟨hbytes s hs _ (le_refl _) (by unfold rHeaderSize; omega), ?_⟩,
    fun s hs _ => ?_⟩
  · exact load_congr fun x hx hx' =>
      hbytes s hs x (by omega) (by unfold rHeaderSize; omega)
  · exact load_congr fun x hx hx' =>
      hbytes s hs x (by omega) (by unfold rHeaderSize; omega)

/-- Changed links of free regions keep every region. -/
theorem SameOffLinks.keeps (h : SameOffLinks hds m m')
    (hclear : ∀ s ∈ side, Clear hds s.addr) (huse : ∀ s ∈ side, s.free = false → s.addr ∉ hds) :
    Keeps side m m' where
  header := fun s hs => h.sameHeader (hclear s hs)
  link := fun s hs hs' => h.hdLink_eq (hclear s hs) (huse s hs hs')

end Frames

instance (m : Mem) : Std.Total (sizeLe m) := ⟨fun a b => Nat.le_total (hdSize m a) (hdSize m b)⟩

instance (m : Mem) : IsTrans Nat (sizeLe m) := ⟨fun _ _ _ hab hbc => Nat.le_trans hab hbc⟩

/-- Sizes kept on a list keep it sorted. -/
theorem pairwise_sizeLe_congr {m m' : Mem} {l : List Nat} (h : l.Pairwise (sizeLe m))
    (hsize : ∀ a ∈ l, hdSize m' a = hdSize m a) : l.Pairwise (sizeLe m') := by
  refine h.imp_of_mem fun ha hb hab => ?_
  unfold sizeLe at hab ⊢
  rw [hsize _ ha, hsize _ hb]
  exact hab

/-- The headers of the regions do not overlap. -/
def Spaced (side : List Region) : Prop := side.Pairwise fun s t => Apart s.addr t.addr

namespace Spaced

variable {side s₁ s₂ : List Region} {s t d : Region}

theorem eq_or_apart (h : Spaced side) (hs : s ∈ side) (ht : t ∈ side) :
    s = t ∨ Apart s.addr t.addr := by
  by_cases heq : s = t
  · exact Or.inl heq
  · have hsymm : Std.Symm fun s t : Region => Apart s.addr t.addr := ⟨fun _ _ h => h.symm⟩
    exact Or.inr (List.Pairwise.forall h hs ht heq)

theorem eq_of_addr_eq (h : Spaced side) (hs : s ∈ side) (ht : t ∈ side)
    (haddr : s.addr = t.addr) : s = t := by
  refine (h.eq_or_apart hs ht).resolve_right fun hap => ?_
  unfold Apart rHeaderSize at hap
  omega

theorem clear (h : Spaced side) {hds : List Nat} (hsub : ∀ a ∈ hds, a ∈ side.map Region.addr)
    (hs : s ∈ side) : Clear hds s.addr := by
  intro a ha
  obtain ⟨t, ht, rfl⟩ := List.mem_map.mp (hsub a ha)
  exact (h.eq_or_apart ht hs).imp_left fun heq => by rw [heq]

/-- A region beside the others is apart from them. -/
theorem apart_middle (h : Spaced (s₁ ++ d :: s₂)) (hs : s ∈ s₁ ++ s₂) : Apart s.addr d.addr := by
  obtain ⟨-, hright, hcross⟩ := List.pairwise_append.mp h
  rcases List.mem_append.mp hs with hs | hs
  · exact hcross s hs d (by simp)
  · exact ((List.pairwise_cons.mp hright).1 s hs).symm

theorem drop_middle (h : Spaced (s₁ ++ d :: s₂)) : Spaced (s₁ ++ s₂) :=
  List.Pairwise.sublist (List.Sublist.append_left (List.sublist_cons_self d s₂) s₁) h

end Spaced

theorem spaced_of_tiles {rs : List Region} {a b : Nat} (ht : Tiles rHeaderSize a rs b) :
    Spaced rs := by
  refine ht.pairwise.imp fun hst => Or.inl ?_
  unfold Region.stop at hst
  omega

/-- The list `fl` of `h` holds exactly the free regions of `side`, by size. -/
structure Lists (h : Heap) (side : List Region) (fl : List Nat) : Prop where
  spaced : Spaced side
  list : FreeList h fl
  mem_iff : ∀ a, a ∈ fl ↔ ∃ s ∈ side, s.free ∧ s.addr = a
  sorted : fl.Pairwise (sizeLe h.mem)

namespace Lists

variable {h h' : Heap} {side s₁ s₂ : List Region} {fl l₁ l₂ : List Nat} {u d : Region}

theorem mem_addr (hl : Lists h side fl) {a : Nat} (ha : a ∈ fl) : a ∈ side.map Region.addr := by
  obtain ⟨s, hs, -, rfl⟩ := (hl.mem_iff a).mp ha
  exact List.mem_map_of_mem hs

/-- A region in use is not on the list. -/
theorem not_mem_of_use (hl : Lists h side fl) {s : Region} (hs : s ∈ side)
    (huse : s.free = false) : s.addr ∉ fl := by
  intro hmem
  obtain ⟨t, ht, htfree, heq⟩ := (hl.mem_iff _).mp hmem
  rw [hl.spaced.eq_of_addr_eq ht hs heq, huse] at htfree
  exact absurd htfree (by decide)

/-- A change of list links keeps every region. -/
theorem keeps (hl : Lists h side fl) {hds : List Nat} {m m' : Mem} (hframe : SameOffLinks hds m m')
    (hsub : ∀ a ∈ hds, a ∈ fl) : Keeps side m m' :=
  hframe.keeps (fun _ hs => hl.spaced.clear (fun a ha => hl.mem_addr (hsub a ha)) hs)
    fun _ hs huse hmem => hl.not_mem_of_use hs huse (hsub _ hmem)

/-- A change inside one header keeps the list of regions apart from it. -/
theorem congr_within (hl : Lists h side fl) {m : Mem} {a : Nat} (hm : Within [a] h.mem m)
    (hapart : ∀ s ∈ side, Apart a s.addr) : Lists ⟨m, h.indexHead⟩ side fl where
  spaced := hl.spaced
  list := by
    refine hl.list.congr fun b hb => ?_
    obtain ⟨s, hs, -, rfl⟩ := (hl.mem_iff b).mp hb
    have := hapart s hs
    unfold Apart rHeaderSize at this
    refine load_congr fun x hx hx' => hm x fun c hc => ?_
    obtain rfl := List.mem_singleton.mp hc
    unfold rHeaderSize
    omega
  mem_iff := hl.mem_iff
  sorted := by
    refine pairwise_sizeLe_congr hl.sorted fun b hb => ?_
    obtain ⟨s, hs, -, rfl⟩ := (hl.mem_iff b).mp hb
    exact ((hm.keeps hapart).header s hs).2

/-- Taking one node off the list leaves the free regions beside it. -/
theorem delFreeRegion (hl : Lists h (s₁ ++ d :: s₂) (l₁ ++ d.addr :: l₂)) :
    Lists (delFreeRegion h (l₁.getLastD 0) d.addr) (s₁ ++ s₂) (l₁ ++ l₂) ∧
      SameOffLinks l₁ h.mem (Malloc.delFreeRegion h (l₁.getLastD 0) d.addr).mem := by
  obtain ⟨hlist, hframe⟩ := hl.list.delFreeRegion
  have hperm : (l₁ ++ d.addr :: l₂).Perm (d.addr :: (l₁ ++ l₂)) := List.perm_middle
  have hnot : d.addr ∉ l₁ ++ l₂ := (List.nodup_cons.mp (hperm.nodup_iff.mp hl.list.nodup)).1
  have hkeeps := hl.keeps hframe (by simp; tauto)
  have hmem : ∀ s ∈ s₁ ++ s₂, s ∈ s₁ ++ d :: s₂ := by
    intro s hs
    simp only [List.mem_append, List.mem_cons] at hs ⊢
    exact hs.imp_right Or.inr
  have hiff : ∀ a, a ∈ l₁ ++ l₂ ↔ ∃ s ∈ s₁ ++ s₂, s.free ∧ s.addr = a := by
    refine fun a => ⟨fun ha => ?_, ?_⟩
    · obtain ⟨s, hs, hfree, rfl⟩ := (hl.mem_iff a).mp (hperm.mem_iff.mpr (by simp [ha]))
      refine ⟨s, ?_, hfree, rfl⟩
      simp only [List.mem_append, List.mem_cons] at hs ⊢
      rcases hs with hs | rfl | hs
      · exact Or.inl hs
      · exact absurd ha hnot
      · exact Or.inr hs
    · rintro ⟨s, hs, hfree, rfl⟩
      have hall := hperm.mem_iff.mp ((hl.mem_iff _).mpr ⟨s, hmem s hs, hfree, rfl⟩)
      refine (List.mem_cons.mp hall).resolve_left fun heq => ?_
      have := hl.spaced.apart_middle hs
      unfold Apart rHeaderSize at this
      omega
  refine ⟨⟨hl.spaced.drop_middle, hlist, hiff, ?_⟩, hframe⟩
  have hsub : (l₁ ++ l₂).Sublist (l₁ ++ d.addr :: l₂) :=
    List.Sublist.append_left (List.sublist_cons_self _ l₂) l₁
  refine pairwise_sizeLe_congr (hl.sorted.sublist hsub) fun a ha => ?_
  obtain ⟨s, hs, -, rfl⟩ := (hiff a).mp ha
  exact (hkeeps.header s (hmem s hs)).2

/-- Adding a region apart from the listed ones extends the list by it. -/
theorem searchAndAddFreeRegion (hl : Lists h side fl) (hlen : fl.length < heapFuel)
    (hfree : u.free) (hu0 : u.addr ≠ 0) (hu : u.addr < 2 ^ 32)
    (hapart : ∀ s ∈ side, Apart s.addr u.addr) :
    ∃ h' fl', searchAndAddFreeRegion h u.addr = some h' ∧ Lists h' (u :: side) fl' ∧
      PutFirst h'.mem fl u.addr fl' ∧ Keeps side h.mem h'.mem ∧
      SameOffLinks (u.addr :: fl) h.mem h'.mem := by
  have hfapart : ∀ a ∈ fl, Apart a u.addr := by
    intro a ha
    obtain ⟨s, hs, rfl⟩ := List.mem_map.mp (hl.mem_addr ha)
    exact hapart s hs
  obtain ⟨h', hrun, hfl', hframe⟩ := hl.list.searchAndAddFreeRegion hlen hu0 hu hfapart
  have hspaced : Spaced (u :: side) :=
    List.pairwise_cons.mpr ⟨fun s hs => (hapart s hs).symm, hl.spaced⟩
  have hsub : ∀ a ∈ u.addr :: fl, a ∈ (u :: side).map Region.addr := by
    intro a ha
    rcases List.mem_cons.mp ha with rfl | ha
    · simp
    · exact List.mem_cons_of_mem _ (hl.mem_addr ha)
  have hkeeps : Keeps side h.mem h'.mem := by
    refine hframe.keeps (fun s hs => hspaced.clear hsub (by simp [hs])) fun s hs huse hmem => ?_
    rcases List.mem_cons.mp hmem with heq | hmem
    · have := hapart s hs
      unfold Apart rHeaderSize at this
      omega
    · exact hl.not_mem_of_use hs huse hmem
  have hput := (putFirst_orderedInsert h.mem fl u.addr).congr fun a ha => by
    obtain ⟨s, hs, rfl⟩ := List.mem_map.mp (hsub a ha)
    exact hframe.hdSize_eq (hspaced.clear hsub hs)
  refine ⟨h', _, hrun, ⟨hspaced, hfl', ?_, ?_⟩, hput, hkeeps, hframe⟩
  · intro a
    rw [List.mem_orderedInsert, hl.mem_iff]
    constructor
    · rintro (rfl | ⟨s, hs, hsfree, rfl⟩)
      · exact ⟨u, by simp, hfree, rfl⟩
      · exact ⟨s, by simp [hs], hsfree, rfl⟩
    · rintro ⟨s, hs, hsfree, rfl⟩
      rcases List.mem_cons.mp hs with rfl | hs
      · exact Or.inl rfl
      · exact Or.inr ⟨s, hs, hsfree, rfl⟩
  · refine pairwise_sizeLe_congr (hl.sorted.orderedInsert u.addr fl) fun a ha => ?_
    obtain ⟨s, hs, heq⟩ : ∃ s ∈ u :: side, s.addr = a := by
      rcases (List.mem_orderedInsert _).mp ha with rfl | ha
      · exact ⟨u, by simp, rfl⟩
      · obtain ⟨s, hs, rfl⟩ := List.mem_map.mp (hl.mem_addr ha)
        exact ⟨s, by simp [hs], rfl⟩
    rw [← heq]
    exact hframe.hdSize_eq (hspaced.clear hsub hs)

end Lists

/-- Set the link of the first of the given regions, if there is one. -/
def backLink (m : Mem) (post : List Region) (a : Nat) : Mem :=
  match post with
  | [] => m
  | s :: _ => setLink m s.addr a

theorem sameOffLinks_backLink (m : Mem) (post : List Region) (a : Nat) :
    SameOffLinks (post.head?.toList.map Region.addr) m (backLink m post a) := by
  cases post with
  | nil => exact SameOffLinks.refl _ _
  | cons s post => exact sameOffLinks_setLink m s.addr a

section BackLink

variable {m : Mem} {post side : List Region} {fl : List Nat} {s : Region} (a : Nat)

theorem sameHeader_backLink (hs : ∀ t ∈ post.head?, t = s ∨ Apart t.addr s.addr) :
    SameHeader m (backLink m post a) s.addr := by
  refine (sameOffLinks_backLink m post a).sameHeader fun b hb => ?_
  obtain ⟨t, ht, rfl⟩ := List.mem_map.mp hb
  exact (hs t (by simpa using ht)).imp (congrArg Region.addr) id

theorem hdLink_backLink (hs : ∀ t ∈ post.head?, Apart t.addr s.addr) :
    hdLink (backLink m post a) s.addr = hdLink m s.addr := by
  have hhead : ∀ b ∈ post.head?.toList.map Region.addr, Apart b s.addr := by
    intro b hb
    obtain ⟨t, ht, rfl⟩ := List.mem_map.mp hb
    exact hs t (by simpa using ht)
  refine (sameOffLinks_backLink m post a).hdLink_eq (fun b hb => Or.inr (hhead b hb)) fun hmem => ?_
  have hself := hhead s.addr hmem
  unfold Apart rHeaderSize at hself
  omega

/-- The list of free regions survives when the first of the given regions is in use. -/
theorem Lists.backLink {h : Heap} (hl : Lists h side fl)
    (hside : ∀ s ∈ side, ∀ t ∈ post.head?, t = s ∨ Apart t.addr s.addr)
    (hright : ∀ t ∈ post.head?, t.free = false) :
    Lists ⟨Malloc.backLink h.mem post a, h.indexHead⟩ side fl := by
  refine ⟨hl.spaced, hl.list.congr fun b hb => ?_, hl.mem_iff, pairwise_sizeLe_congr hl.sorted fun b hb => ?_⟩
  · obtain ⟨s, hs, hfree, rfl⟩ := (hl.mem_iff b).mp hb
    refine hdLink_backLink a fun t ht => (hside s hs t ht).resolve_left ?_
    rintro rfl
    rw [hright t ht] at hfree
    exact absurd hfree (by decide)
  · obtain ⟨s, hs, -, rfl⟩ := (hl.mem_iff b).mp hb
    exact (sameHeader_backLink a (hside s hs)).2

end BackLink

namespace Wf

variable {h h' : Heap} {rs pre mid mid' post : List Region} {fl fl' : List Nat} {r s u : Region}

theorem bounds (hw : Wf h rs fl) (hr : r ∈ rs) :
    heapStart ≤ r.addr ∧ r.addr + rHeaderSize + r.size ≤ heapEnd :=
  hw.tiles.bounds hr

theorem addr_lt (hw : Wf h rs fl) (hr : r ∈ rs) : r.addr < 2 ^ 32 := by
  have hb := (hw.bounds hr).2
  have hend : heapEnd < 2 ^ 32 := by decide
  omega

theorem addr_pos (hw : Wf h rs fl) (hr : r ∈ rs) : r.addr ≠ 0 := by
  have hb := (hw.bounds hr).1
  have hstart : 0 < heapStart := by decide
  omega

/-- Distinct headers of the heap do not overlap. -/
theorem apart (hw : Wf h rs fl) (hr : r ∈ rs) (hs : s ∈ rs) : r = s ∨ Apart r.addr s.addr := by
  rcases hw.tiles.disjoint hr hs with heq | hlt | hlt
  · exact Or.inl heq
  · unfold Region.stop at hlt
    exact Or.inr (Or.inl (by omega))
  · unfold Region.stop at hlt
    exact Or.inr (Or.inr (by omega))

theorem clear_of_mem (hw : Wf h rs fl) {hds : List Nat} (hsub : ∀ a ∈ hds, ∃ s ∈ rs, s.addr = a)
    (hr : r ∈ rs) : Clear hds r.addr := by
  intro a ha
  obtain ⟨s, hs, rfl⟩ := hsub a ha
  rcases hw.apart hs hr with heq | hap
  · exact Or.inl (by rw [heq])
  · exact Or.inr hap

theorem exists_of_mem_fl (hw : Wf h rs fl) {a : Nat} (ha : a ∈ fl) : ∃ s ∈ rs, s.addr = a := by
  obtain ⟨s, hs, -, rfl⟩ := (hw.members a).mp ha
  exact ⟨s, hs, rfl⟩

theorem freeList (hw : Wf h rs fl) : FreeList h fl where
  path := hw.path
  nonnull := by
    intro h0
    obtain ⟨s, hs, heq⟩ := hw.exists_of_mem_fl h0
    exact hw.addr_pos hs heq
  nodup := hw.nodup
  clear := by
    intro a ha
    obtain ⟨s, hs, rfl⟩ := hw.exists_of_mem_fl ha
    exact hw.clear_of_mem (fun b hb => hw.exists_of_mem_fl hb) hs
  word := by
    intro a ha
    obtain ⟨s, hs, rfl⟩ := hw.exists_of_mem_fl ha
    exact hw.addr_lt hs

theorem spaced (hw : Wf h rs fl) : Spaced rs := spaced_of_tiles hw.tiles

/-- All regions together carry the whole list. -/
theorem lists (hw : Wf h rs fl) : Lists h rs fl :=
  ⟨hw.spaced, hw.freeList, hw.members, hw.sorted⟩

/-- The searches have enough fuel for every list inside the heap. -/
theorem length_lt (hw : Wf h rs fl) : fl.length < heapFuel := by
  have hsub : fl ⊆ rs.map Region.addr := by
    intro a ha
    obtain ⟨s, hs, rfl⟩ := hw.exists_of_mem_fl ha
    exact List.mem_map_of_mem hs
  have hle : fl.length ≤ rs.length := by
    simpa using (hw.nodup.subperm hsub).length_le
  have hroom := hw.tiles.length_mul_le
  have hfuel : heapFuel = 349526 := by decide
  have hspan : heapEnd - heapStart = 0x400000 := by decide
  have hhd : rHeaderSize = 12 := rfl
  rw [hhd] at hroom
  omega

theorem next_eq (hw : Wf h rs fl) (hr : r ∈ rs) :
    getNextHeader h.mem r.addr = r.stop rHeaderSize := by
  have hb := (hw.bounds hr).2
  have hend : heapEnd < 2 ^ 32 := by decide
  unfold getNextHeader Region.stop
  rw [(hw.stored r hr).2, u32_of_lt (by omega)]
  omega

/-- The first region after a split starts where the split region stops. -/
theorem head_addr (hw : Wf h (pre ++ r :: s :: post) fl) : s.addr = r.stop rHeaderSize :=
  ((tiles_append_cons.mp hw.tiles).2).1

theorem stop_eq_end (hw : Wf h (pre ++ [r]) fl) : r.stop rHeaderSize = heapEnd :=
  (tiles_append_cons.mp hw.tiles).2

/-- The regions of a tiling with a middle part cut out. -/
theorem mem_of_mem_sides (hs : s ∈ pre ++ post) : s ∈ pre ++ mid ++ post := by
  simp only [List.mem_append] at hs ⊢
  rcases hs with hs | hs
  · exact Or.inl (Or.inl hs)
  · exact Or.inr hs

/-- A free region in front of regions in use is separated from them. -/
theorem separated_cons_of_use (huse : ∀ s ∈ mid', s.free = false) : Separated (u :: mid') := by
  have hnot : ∀ s t : Region, t ∈ mid' → ¬(s.free ∧ t.free) := by
    intro s t ht hst
    rw [huse t ht] at hst
    exact absurd hst.2 (by decide)
  refine List.isChain_cons.mpr ⟨fun t ht => hnot u t (List.mem_of_mem_head? ht), ?_⟩
  exact (List.pairwise_of_forall_mem_list fun s _ t ht => hnot s t ht).isChain

/-- Regions in use on both sides keep the free ones separated. -/
theorem separated_splice (hsep : Separated (pre ++ mid ++ post)) (huse : ∀ s ∈ mid', s.free = false)
    (hleft : ∀ s ∈ pre.getLast?, s.free = false) (hright : ∀ s ∈ post.head?, s.free = false) :
    Separated (pre ++ u :: mid' ++ post) := by
  obtain ⟨h₁₂, h₃, -⟩ := List.isChain_append.mp hsep
  obtain ⟨h₁, -, -⟩ := List.isChain_append.mp h₁₂
  refine List.isChain_append.mpr
    ⟨List.isChain_append.mpr ⟨h₁, separated_cons_of_use huse, ?_⟩, h₃, ?_⟩
  · intro s hs t _ hst
    rw [hleft s hs] at hst
    exact absurd hst.1 (by decide)
  · intro s _ t ht hst
    rw [hright t ht] at hst
    exact absurd hst.2 (by decide)

/-- The free regions after the replacement are `u` and those on both sides. -/
theorem exists_free_splice (huse : ∀ s ∈ mid', s.free = false) {a : Nat} :
    (∃ s ∈ u :: (pre ++ post), s.free ∧ s.addr = a) ↔ ∃ s ∈ pre ++ u :: mid' ++ post, s.free ∧ s.addr = a := by
  constructor
  · rintro ⟨s, hs, hf, rfl⟩
    refine ⟨s, ?_, hf, rfl⟩
    simp only [List.mem_append, List.mem_cons] at hs ⊢
    rcases hs with hs | hs | hs
    · exact Or.inl (Or.inr (Or.inl hs))
    · exact Or.inl (Or.inl hs)
    · exact Or.inr hs
  · rintro ⟨s, hs, hf, rfl⟩
    refine ⟨s, ?_, hf, rfl⟩
    simp only [List.mem_append, List.mem_cons] at hs ⊢
    rcases hs with (hs | hs | hs) | hs
    · exact Or.inr (Or.inl hs)
    · exact Or.inl hs
    · rw [huse s hs] at hf
      exact absurd hf (by decide)
    · exact Or.inr (Or.inr hs)

section Sides

variable (hw : Wf h (pre ++ mid ++ post) fl)
include hw

theorem head_apart (hs : s ∈ pre ++ post) : ∀ t ∈ post.head?, t = s ∨ Apart t.addr s.addr := fun _ ht =>
  hw.apart (by simp [List.mem_of_mem_head? ht]) (mem_of_mem_sides hs)

/-- The regions in front of the replaced ones, and those behind them, keep their back links. -/
theorem backLinked_sides {m : Mem} (hkeeps : Keeps (pre ++ post) h.mem m) (a : Nat) :
    BackLinked (backLink m post a) pre ∧ BackLinked (backLink m post a) post := by
  obtain ⟨h₁₂, h₃, -⟩ := List.isChain_append.mp hw.back
  obtain ⟨h₁, -, -⟩ := List.isChain_append.mp h₁₂
  have hpairs := hw.tiles.pairwise
  have hlink : ∀ s ∈ pre ++ post, s ∉ post.head? → s.free = false →
      hdLink (backLink m post a) s.addr = hdLink h.mem s.addr := by
    intro s hs hnot huse
    rw [hdLink_backLink a fun t ht => (hw.head_apart hs t ht).resolve_left fun heq => hnot (heq ▸ ht)]
    exact hkeeps.link s hs huse
  constructor
  · refine h₁.imp_of_mem_imp fun b c _ hc hbc hfree => ?_
    rw [hlink c (by simp [hc]) (fun hhead => ?_) hfree]
    · exact hbc hfree
    · have hcc := (List.pairwise_append.mp hpairs).2.2 c (by simp [hc]) c (List.mem_of_mem_head? hhead)
      unfold Region.stop rHeaderSize at hcc
      omega
  · refine List.IsChain.imp_of_mem_tail_imp ?_ h₃
    intro b c _ hc hbc hfree
    have hpost := List.mem_of_mem_tail hc
    rw [hlink c (by simp [hpost]) (fun hhead => ?_) hfree]
    · exact hbc hfree
    · cases post with
      | nil => simp at hc
      | cons p post =>
          obtain rfl : p = c := by simpa using hhead
          have hcc := (List.pairwise_cons.mp (List.pairwise_append.mp hpairs).2.1).1 p hc
          unfold Region.stop rHeaderSize at hcc
          omega

/-- The back links after the replacement, with that of the next region to the last of the new ones. -/
theorem backLinked_splice {m : Mem} {last : Region} (hkeeps : Keeps (pre ++ post) h.mem m)
    (hufree : u.free) (hback : BackLinked m (u :: mid'))
    (hapart : ∀ s ∈ u :: mid', ∀ t ∈ post, Apart s.addr t.addr)
    (hlast : (u :: mid').getLast? = some last) (hlt : last.addr < 2 ^ 32) :
    BackLinked (backLink m post last.addr) (pre ++ u :: mid' ++ post) := by
  obtain ⟨hpre, hpost⟩ := hw.backLinked_sides hkeeps last.addr
  have hmid : BackLinked (backLink m post last.addr) (u :: mid') := by
    refine hback.imp_of_mem_imp fun a b _ hb hab hfree => ?_
    rw [hdLink_backLink _ fun t ht => (hapart b hb t (List.mem_of_mem_head? ht)).symm]
    exact hab hfree
  refine List.isChain_append.mpr ⟨List.isChain_append.mpr ⟨hpre, hmid, ?_⟩, hpost, ?_⟩
  · intro s _ t ht hfree
    obtain rfl : u = t := by simpa using ht
    rw [hufree] at hfree
    exact absurd hfree (by decide)
  · intro s hs t ht _
    have hsl : last = s := by
      rw [List.getLast?_append, hlast] at hs
      simpa using hs
    cases post with
    | nil => simp at ht
    | cons p post =>
        obtain rfl : p = t := by simpa using ht
        rw [← hsl]
        exact hdLink_setLink_same m p.addr hlt

end Sides

/-- Replacing neighbouring regions `mid` by `u :: mid'` with `u` free keeps the
invariant. The heap `h'` is the one in which only the link of the next region is
still missing; that link names the last of the new regions. -/
theorem splice (hw : Wf h (pre ++ mid ++ post) fl) (h' : Heap) (last : Region)
    (mid' : List Region)
    (htiles : ∀ a b, Tiles rHeaderSize a mid b → Tiles rHeaderSize a (u :: mid') b)
    (hufree : u.free) (huse : ∀ s ∈ mid', s.free = false)
    (hleft : ∀ s ∈ pre.getLast?, s.free = false) (hright : ∀ s ∈ post.head?, s.free = false)
    (hnew : ∀ s ∈ u :: mid', Stored h'.mem s) (hback : BackLinked h'.mem (u :: mid'))
    (hapart : ∀ s ∈ u :: mid', ∀ t ∈ post, Apart s.addr t.addr)
    (hkeeps : Keeps (pre ++ post) h.mem h'.mem) (hlists : Lists h' (u :: (pre ++ post)) fl')
    (hlast : (u :: mid').getLast? = some last) :
    Wf ⟨backLink h'.mem post last.addr, h'.indexHead⟩ (pre ++ u :: mid' ++ post) fl' := by
  have hnewapart : ∀ s ∈ u :: mid', ∀ t ∈ post.head?, t = s ∨ Apart t.addr s.addr := fun s hs t ht =>
    Or.inr (hapart s hs t (List.mem_of_mem_head? ht)).symm
  have hlists' : Lists ⟨backLink h'.mem post last.addr, h'.indexHead⟩ (u :: (pre ++ post)) fl' := by
    refine hlists.backLink last.addr (fun s hs => ?_) hright
    rcases List.mem_cons.mp hs with rfl | hs
    · exact hnewapart s List.mem_cons_self
    · exact hw.head_apart hs
  have htiles' : Tiles rHeaderSize heapStart (pre ++ u :: mid' ++ post) heapEnd := hw.tiles.replace htiles
  have hlt : last.addr < 2 ^ 32 := by
    have hmem : last ∈ pre ++ u :: mid' ++ post :=
      List.mem_append_left _ (List.mem_append_right _ (List.mem_of_getLast? hlast))
    have hb := (htiles'.bounds hmem).2
    have hend : heapEnd < 2 ^ 32 := by decide
    unfold Region.stop at hb
    omega
  refine ⟨htiles', ?_, ?_, separated_splice hw.separated huse hleft hright,
    hw.backLinked_splice hkeeps hufree hback hapart hlast hlt, hlists'.list.path, hlists'.list.nodup, fun a => ?_,
    hlists'.sorted⟩
  · intro s hs
    have hcases : s ∈ pre ++ post ∨ s ∈ u :: mid' := by
      simp only [List.mem_append] at hs ⊢
      rcases hs with (hs | hs) | hs
      · exact Or.inl (Or.inl hs)
      · exact Or.inr hs
      · exact Or.inl (Or.inr hs)
    rcases hcases with hs | hs
    · exact (sameHeader_backLink _ (hw.head_apart hs)).stored
        ((hkeeps.header s hs).stored (hw.stored s (mem_of_mem_sides hs)))
    · exact (sameHeader_backLink _ (hnewapart s hs)).stored (hnew s hs)
  · cases pre with
    | nil => simpa using hufree
    | cons p pre => simpa using hw.first
  · exact (hlists'.mem_iff a).trans (exists_free_splice huse)

end Wf

/-- `init_heap` makes one free region of the whole heap. -/
theorem wf_initHeap (m : Mem) :
    Wf (initHeap m) [⟨heapStart, heapEnd - heapStart - rHeaderSize, true⟩] [heapStart] := by
  have hfields := createHeader_fields m heapStart regionFree
    (heapEnd - heapStart - rHeaderSize) 0 (by decide) (by decide)
  refine ⟨⟨rfl, ?_⟩, ?_, ?_, ?_, ?_, ⟨rfl, hfields.2.2⟩, by simp, ?_, by simp⟩
  · change heapStart + rHeaderSize + (heapEnd - heapStart - rHeaderSize) = heapEnd
    decide
  · intro r hr
    obtain rfl := List.mem_singleton.mp hr
    exact ⟨hfields.1, hfields.2.1⟩
  · simp
  · exact List.isChain_singleton _
  · exact List.isChain_singleton _
  · intro a
    constructor
    · intro ha
      exact ⟨_, List.mem_singleton.mpr rfl, rfl, (List.mem_singleton.mp ha).symm⟩
    · rintro ⟨r, hr, -, rfl⟩
      rw [List.mem_singleton.mp hr]
      exact List.mem_singleton.mpr rfl

end TsOs.Malloc
