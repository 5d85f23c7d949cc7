import TsOs.Fat.Tree

/-!
# Edits of the tree

The driver changes a volume in four ways: a chain grows, an entry is rewritten under its
name, an entry is added for a new cluster, and a tree of clusters is freed. Each of them
is an edit of the tree that the disk holds, and leaves the other nodes alone.
-/

namespace TsOs.Fat
open ByteMemory

variable {v : Fat16Volume} {d d' : Disk} {t : Tree} {ks ks' P : List (List UInt8)} {k : List UInt8}
  {n n' : Node} {A l l' : List Nat} {a : Nat}

/-! ## What stays -/

/-- A slot is in the root directory or in one cluster of its directory. -/
theorem Tree.Slots.region (hg : Geometry v) (hA : t.Slots v ks A) (ha : a ∈ A) :
    (sectorSize * v.rootDirStart ≤ a ∧ a + direntSize ≤ sectorSize * v.dataStart) ∨
      ∃ n c, t ks = some n ∧ c ∈ n.chain ∧ clusterAddr v c ≤ a ∧
        a + direntSize ≤ clusterAddr v c + v.clusterBytes := by
  rcases hA.cases_mem ha with ⟨-, i, hi, rfl⟩ | ⟨n, c, hn, -, hc, hmem⟩
  · left
    have := hg.root_le_data
    unfold sectorSize direntSize
    omega
  · right
    obtain ⟨i, hi, rfl⟩ := mem_clusterSlots.mp hmem
    have := hg.slot_le hi
    exact ⟨n, c, hn, hc, Nat.le_add_right _ _, by omega⟩

theorem Tree.Slots.root_le (hg : Geometry v) (hA : t.Slots v ks A) (ha : a ∈ A) :
    sectorSize * v.rootDirStart ≤ a := by
  rcases hA.region hg ha with ⟨hle, -⟩ | ⟨n, c, -, -, hle, -⟩
  · exact hle
  · exact (hg.root_le_clusterAddr c).trans hle

/-- A change in other clusters leaves a slot alone. -/
theorem Tree.Slots.readEnt_eq (hg : Geometry v) (h : Represents v d t) (hA : t.Slots v ks A)
    (ha : a ∈ A) (hl : ∀ x ∈ l, InRange v x) (hsame : SameOff v l d d')
    (hdisj : ∀ n, t ks = some n → n.chain.Disjoint l) : readEnt d' a = readEnt d a := by
  refine readEnt_congr fun x hx hx' => ?_
  rcases hA.region hg ha with ⟨hle, hlt⟩ | ⟨n, c, hn, hc, hle, hlt⟩
  · exact hsame.root_eq hg hl (by omega) (by omega)
  · have hr := (h.isChain hn).inRange c hc
    have heq := hsame.cluster_eq hg hl (c := c) (i := x - clusterAddr v c) (by have := hr.1; omega)
      (fun hmem => hdisj n hn hc hmem) (by omega)
    rwa [Nat.add_sub_cancel' (by omega)] at heq

/-- A node stays stored while its entry does, also with another chain. -/
theorem Node.Stored.withChain (hs : n.Stored v d k) (hent : readEnt d' n.addr = readEnt d n.addr)
    (hchain : IsChain v d' (readEnt d n.addr).startCluster l) : { n with chain := l }.Stored v d' k := by
  refine ⟨?_, (congrArg isDirectory hent).trans hs.kind, (congrArg entKey hent).trans hs.named, ?_⟩
  · change IsChain v d' (readEnt d' n.addr).startCluster l
    rwa [hent]
  · change Live (readEnt d' n.addr)
    rw [hent]
    exact hs.live

theorem Node.Stored.congr (hs : n.Stored v d k) (hent : readEnt d' n.addr = readEnt d n.addr)
    (hfat : ∀ x ∈ n.chain, fatEntry v d' x = fatEntry v d x) : n.Stored v d' k :=
  hs.withChain hent (hs.chain.congr hfat)

/-- The slots of the other directories are those before the edit of a node. -/
theorem Tree.Slots.of_update (hA : Tree.Slots v (Function.update t P (some n)) ks A) (hne : ks ≠ P) :
    t.Slots v ks A := by
  cases hA with
  | root => exact Tree.Slots.root
  | dir hm hdir =>
      rw [Function.update_of_ne hne] at hm
      exact Tree.Slots.dir hm hdir

theorem Tree.Slots.update (hA : t.Slots v ks A) (hne : ks ≠ P) :
    Tree.Slots v (Function.update t P (some n)) ks A := by
  cases hA with
  | root => exact Tree.Slots.root
  | dir hm hdir =>
      rw [← Function.update_of_ne hne (some n) t] at hm
      exact Tree.Slots.dir hm hdir

theorem Tree.Slots.of_update_self (hP : P ≠ []) (hA : Tree.Slots v (Function.update t P (some n)) P A) :
    n.isDir = true ∧ A = chainSlots v n.chain := by
  cases hA with
  | root => exact absurd rfl hP
  | dir hm hdir =>
      rw [Function.update_self] at hm
      obtain rfl := Option.some.inj hm
      exact ⟨hdir, rfl⟩

theorem Tree.Slots.path_ne (hA : t.Slots v ks A) (hP : P ≠ []) (hnone : t P = none) : ks ≠ P := by
  rintro rfl
  cases hA with
  | root => exact hP rfl
  | dir hn _ =>
      rw [hnone] at hn
      exact absurd hn (by simp)

/-- A node whose clusters no other node has keeps the chains disjoint. -/
theorem Represents.disjoint_update (h : Represents v d t)
    (hnew : ∀ ks m, t ks = some m → ks ≠ P → m.chain.Disjoint n.chain) {Q Q' : List (List UInt8)} {m m' : Node}
    (hm : Function.update t P (some n) Q = some m) (hm' : Function.update t P (some n) Q' = some m')
    (hne : Q ≠ Q') : m.chain.Disjoint m'.chain := by
  by_cases hQ : Q = P
  · subst hQ
    rw [Function.update_self] at hm
    rw [Function.update_of_ne hne.symm] at hm'
    obtain rfl := Option.some.inj hm
    exact (hnew Q' m' hm' hne.symm).symm
  · rw [Function.update_of_ne hQ] at hm
    by_cases hQ' : Q' = P
    · subst hQ'
      rw [Function.update_self] at hm'
      obtain rfl := Option.some.inj hm'
      exact hnew Q m hm hQ
    · rw [Function.update_of_ne hQ'] at hm'
      exact h.disjoint _ _ _ _ hm hm' hne

/-- An edit of a chain keeps the addresses of the nodes. -/
theorem exists_update_addr {Q : List (List UInt8)} (hn : t P = some n) (hm : t Q = some n') :
    ∃ m, Function.update t P (some { n with chain := l }) Q = some m ∧ m.addr = n'.addr := by
  by_cases hQ : Q = P
  · subst hQ
    obtain rfl := Option.some.inj (hn.symm.trans hm)
    exact ⟨_, Function.update_self .., rfl⟩
  · rw [Function.update_of_ne hQ]
    exact ⟨n', hm, rfl⟩

/-! ## Growing a chain -/

/-- The slots of a directory stay slots when its chain grows. -/
theorem Tree.Slots.grow (hn : t P = some n) (hsub : n.chain ⊆ l) (hA : t.Slots v ks A) (ha : a ∈ A) :
    ∃ A', Tree.Slots v (Function.update t P (some { n with chain := l })) ks A' ∧ a ∈ A' := by
  by_cases hks : ks = P
  · subst hks
    cases hA with
    | root => exact ⟨_, Tree.Slots.root, ha⟩
    | dir hm hdir =>
        obtain rfl := Option.some.inj (hm.symm.trans hn)
        obtain ⟨c, hc, hslot⟩ := mem_chainSlots.mp ha
        exact ⟨_, Tree.Slots.dir (Function.update_self ..) hdir, mem_chainSlots.mpr ⟨c, hsub hc, hslot⟩⟩
  · exact ⟨A, hA.update hks, ha⟩

/-- A slot that is not in a new cluster was one before. -/
theorem Tree.Slots.of_grow (hn : t P = some n) (hP : P ≠ [])
    (hnew : n.isDir = true → ∀ c ∈ l, c ∉ n.chain → a ∉ clusterSlots v c)
    (hA : Tree.Slots v (Function.update t P (some { n with chain := l })) ks A) (ha : a ∈ A) :
    ∃ A₀, t.Slots v ks A₀ ∧ a ∈ A₀ := by
  by_cases hks : ks = P
  · subst hks
    obtain ⟨hdir, rfl⟩ := hA.of_update_self hP
    obtain ⟨c, hc, hslot⟩ := mem_chainSlots.mp ha
    have hcn : c ∈ n.chain := by
      by_contra hcn
      exact hnew hdir c hc hcn hslot
    exact ⟨_, Tree.Slots.dir hn hdir, mem_chainSlots.mpr ⟨c, hcn, hslot⟩⟩
  · exact ⟨A, hA.of_update hks, ha⟩

section Grow

variable (hg : Geometry v) (h : Represents v d t) (hn : t P = some n)
  (hext : Extends v (readEnt d n.addr).startCluster n.chain l' d d')
include hg h hn hext

omit hg in
/-- The other chains have none of the clusters. -/
theorem Represents.grow_disjoint (hn' : t ks = some n') (hne : ks ≠ P) : n'.chain.Disjoint l' := by
  intro c hc hc'
  by_cases hold : c ∈ n.chain
  · exact h.disjoint ks P n' n hn' hn hne hc hold
  · exact h.fatEntry_ne_zero hn' hc (mem_freeClusters.mp (hext.fresh c hc' hold)).2

/-- The slots keep their entries. -/
theorem Represents.readEnt_grow
    (hold : n.isDir = true → ∀ a ∈ chainSlots v n.chain, readEnt d' a = readEnt d a)
    (hA : t.Slots v ks A) (ha : a ∈ A) : readEnt d' a = readEnt d a := by
  by_cases hks : ks = P
  · subst hks
    cases hA with
    | root => exact absurd rfl (h.path_ne_nil hn)
    | dir hm hdir =>
        obtain rfl := Option.some.inj (hm.symm.trans hn)
        exact hold hdir a ha
  · exact hA.readEnt_eq hg h ha hext.chain.inRange hext.frame fun m hm =>
      h.grow_disjoint hn hext hm hks

theorem Represents.grow (hold : n.isDir = true → ∀ a ∈ chainSlots v n.chain, readEnt d' a = readEnt d a)
    (hnew : n.isDir = true → ∀ c ∈ l', c ∉ n.chain → ∀ a ∈ clusterSlots v c,
      (readEnt d' a).startCluster = 0) :
    Represents v d' (Function.update t P (some { n with chain := l' })) := by
  have hP := h.path_ne_nil hn
  have hdisj : ∀ {ks n'}, t ks = some n' → ks ≠ P → n'.chain.Disjoint l' :=
    fun hn' hne => h.grow_disjoint hn hext hn' hne
  have hent : ∀ {ks A a}, t.Slots v ks A → a ∈ A → readEnt d' a = readEnt d a := fun hA ha =>
    h.readEnt_grow hg hn hext hold hA ha
  have hnode : ∀ {ks k m}, t (ks ++ [k]) = some m → readEnt d' m.addr = readEnt d m.addr := by
    intro ks k m hm
    obtain ⟨A, hA, hmem⟩ := h.placed _ _ _ hm
    exact hent hA hmem
  have hfat : ∀ {c}, c < 256 * v.sb.sectorsFat → c ∉ l' → fatEntry v d' c = fatEntry v d c :=
    fun hc hmem => hext.frame.fatEntry_eq hg hc hmem
  refine ⟨?_, ?_, ?_, ?_, ?_, ?_⟩
  · rw [Function.update_of_ne hP.symm]
    exact h.root
  · intro ks k m hm
    by_cases hks : ks ++ [k] = P
    · subst hks
      rw [Function.update_self] at hm
      obtain rfl := Option.some.inj hm
      exact (h.stored _ _ _ hn).withChain (hnode hn) hext.chain
    · rw [Function.update_of_ne hks] at hm
      refine (h.stored _ _ _ hm).congr (hnode hm) fun x hx => ?_
      exact hfat ((h.isChain hm).inRange x hx).2.2 fun hx' => hdisj hm hks hx hx'
  · intro ks k m hm
    obtain ⟨m', hm', haddr⟩ : ∃ m', t (ks ++ [k]) = some m' ∧ m.addr = m'.addr := by
      by_cases hks : ks ++ [k] = P
      · rw [hks, Function.update_self] at hm
        obtain rfl := Option.some.inj hm
        exact ⟨n, hks ▸ hn, rfl⟩
      · rw [Function.update_of_ne hks] at hm
        exact ⟨m, hm, rfl⟩
    obtain ⟨A, hA, hmem⟩ := h.placed _ _ _ hm'
    rw [haddr]
    exact hA.grow hn hext.grows.subset hmem
  · intro ks A hA a ha hstart hlink
    -- The slots of new clusters are free.
    obtain ⟨A₀, hA₀, ha₀⟩ := hA.of_grow hn hP (fun hdir c hc hcn hslot => hstart (hnew hdir c hc hcn a hslot)) ha
    rw [hent hA₀ ha₀] at hstart hlink ⊢
    obtain ⟨m, hm, rfl⟩ := h.complete _ _ hA₀ a ha₀ hstart hlink
    exact exists_update_addr hn hm
  · exact fun _ _ _ _ hm hm' hne => h.disjoint_update (fun _ _ hm hks => hdisj hm hks) hm hm' hne
  · intro c hc hlt hused
    by_cases hmem : c ∈ l'
    · exact ⟨P, _, Function.update_self .., hmem⟩
    · rw [hfat hlt hmem] at hused
      obtain ⟨ks, m, hm, hcm⟩ := h.covered c hc hlt hused
      have hks : ks ≠ P := by
        rintro rfl
        obtain rfl := Option.some.inj (hm.symm.trans hn)
        exact hmem (hext.grows.subset hcm)
      exact ⟨ks, m, (Function.update_of_ne hks ..).trans hm, hcm⟩

end Grow

/-! ## Rewriting an entry -/

theorem Represents.placed_of (h : Represents v d t) (hn : t P = some n) :
    ∃ ks A, t.Slots v ks A ∧ n.addr ∈ A := by
  obtain ⟨init, k, rfl⟩ := h.exists_snoc hn
  obtain ⟨A, hA, hmem⟩ := h.placed _ _ _ hn
  exact ⟨init, A, hA, hmem⟩

theorem readEnt_writeEnt_slot {e : DirEnt} {b : Nat} (ha : direntSize ∣ a) (hb : direntSize ∣ b)
    (htrim : ∀ i, direntSize ≤ i → e i = 0) :
    readEnt (writeEnt d a e) b = if b = a then e else readEnt d b := by
  by_cases hab : b = a
  · subst hab
    rw [if_pos rfl, readEnt_writeEnt_eq htrim]
  · rw [if_neg hab, readEnt_writeEnt_of_apart (slots_apart hb ha hab)]

theorem Geometry.fatEntry_writeEnt (hg : Geometry v) {e : DirEnt} {c : Nat}
    (hc : c < 256 * v.sb.sectorsFat) (ha : sectorSize * v.rootDirStart ≤ a) :
    fatEntry v (writeEnt d a e) c = fatEntry v d c :=
  hg.fatEntry_congr hc fun _ hx => writeEnt_of_outside d (Or.inl (by omega))

/-- The entry of a node may change in what the tree does not depend on. -/
theorem Represents.rewrite (hg : Geometry v) (h : Represents v d t) (hn : t P = some n) {e : DirEnt}
    (htrim : ∀ i, direntSize ≤ i → e i = 0) (hkey : entKey e = entKey (readEnt d n.addr))
    (hstart : e.startCluster = (readEnt d n.addr).startCluster)
    (hdir : isDirectory e = isDirectory (readEnt d n.addr)) :
    Represents v (writeEnt d n.addr e) t := by
  obtain ⟨ks₀, A₀, hA₀, ha₀⟩ := h.placed_of hn
  have hroot := hA₀.root_le hg ha₀
  have hent : ∀ {ks A a}, t.Slots v ks A → a ∈ A →
      readEnt (writeEnt d n.addr e) a = if a = n.addr then e else readEnt d a := fun hA ha =>
    readEnt_writeEnt_slot (hA₀.dvd ha₀) (hA.dvd ha) htrim
  have hfat : ∀ c < 256 * v.sb.sectorsFat,
      fatEntry v (writeEnt d n.addr e) c = fatEntry v d c := fun c hc =>
    hg.fatEntry_writeEnt hc hroot
  have hkeys : ∀ {ks A a}, t.Slots v ks A → a ∈ A →
      entKey (readEnt (writeEnt d n.addr e) a) = entKey (readEnt d a) ∧
        (readEnt (writeEnt d n.addr e) a).startCluster = (readEnt d a).startCluster ∧
        isDirectory (readEnt (writeEnt d n.addr e) a) = isDirectory (readEnt d a) := by
    intro ks A a hA ha
    rw [hent hA ha]
    by_cases heq : a = n.addr
    · subst heq
      rw [if_pos rfl]
      exact ⟨hkey, hstart, hdir⟩
    · rw [if_neg heq]
      exact ⟨rfl, rfl, rfl⟩
  refine ⟨h.root, ?_, h.placed, ?_, h.disjoint, ?_⟩
  · intro ks k m hm
    obtain ⟨A, hA, hmem⟩ := h.placed _ _ _ hm
    obtain ⟨hkey', hstart', hdir'⟩ := hkeys hA hmem
    have hs := h.stored _ _ _ hm
    refine ⟨?_, hdir'.trans hs.kind, hkey'.trans hs.named, ?_⟩
    · rw [hstart']
      exact hs.chain.congr fun x hx => hfat x (hs.chain.inRange x hx).2.2
    · have hfirst := entKey_eq_iff.mp hkey' 0 (by decide)
      refine ⟨⟨?_, ?_⟩, ?_⟩
      · rw [hstart']
        exact hs.live.1.1
      · rw [isLink_iff, hkey', ← isLink_iff]
        exact hs.live.1.2
      · rw [hfirst]
        exact hs.live.2
  · intro ks A hA a ha hne hlink
    obtain ⟨hkey', hstart', -⟩ := hkeys hA ha
    rw [hstart'] at hne
    rw [isLink_iff, hkey', ← isLink_iff] at hlink
    rw [hkey']
    exact h.complete _ _ hA a ha hne hlink
  · intro c hc hlt hused
    rw [hfat c hlt] at hused
    exact h.covered c hc hlt hused

/-! ## Adding an entry -/

/-- A new entry with its cluster changes no other slot outside of the cluster. -/
theorem readEnt_newEntry (hg : Geometry v) {b y : Nat} {e : DirEnt} {blk : Buf} (ha : direntSize ∣ a)
    (hb : direntSize ∣ b) (hroot : sectorSize * v.rootDirStart ≤ b) (hyr : InRange v y)
    (hout : b + direntSize ≤ clusterAddr v y ∨ clusterAddr v y + v.clusterBytes ≤ b)
    (htrim : ∀ i, direntSize ≤ i → e i = 0) :
    readEnt (setCluster v (setFat v (writeEnt d a e) y 0xFFFF) y blk) b =
      if b = a then e else readEnt d b := by
  rw [← readEnt_writeEnt_slot ha hb htrim]
  refine readEnt_congr fun x hx hx' => ?_
  rw [setCluster, setBlock_of_outside _ (by omega), hg.setFat_of_le hyr.2.2 (by omega)]

/-- A new entry with its cluster changes one entry of the FAT. -/
theorem fatEntry_newEntry (hg : Geometry v) {c y : Nat} {e : DirEnt} {blk : Buf}
    (hc : c < 256 * v.sb.sectorsFat) (ha : sectorSize * v.rootDirStart ≤ a) :
    fatEntry v (setCluster v (setFat v (writeEnt d a e) y 0xFFFF) y blk) c =
      if c = y then 0xFFFF else fatEntry v d c := by
  have hroot := hg.root_le_clusterAddr y
  have hcluster : fatEntry v (setCluster v (setFat v (writeEnt d a e) y 0xFFFF) y blk) c =
      fatEntry v (setFat v (writeEnt d a e) y 0xFFFF) c :=
    hg.fatEntry_congr hc fun x hx => setBlock_of_outside _ (Or.inl (by omega))
  rw [hcluster]
  by_cases hcy : c = y
  · subst hcy
    rw [if_pos rfl, fatEntry_setFat_same (by decide)]
  · rw [if_neg hcy, fatEntry_setFat_of_ne hcy, hg.fatEntry_writeEnt hc ha]

section Add

variable (hg : Geometry v) (h : Represents v d t) (hA : t.Slots v ks A) (ha : a ∈ A)
  {y : Nat} (hy : y ∈ freeClusters v d) {e : DirEnt} {blk : Buf}
include hg hA ha hy

include h in
theorem Represents.readEnt_add (htrim : ∀ i, direntSize ≤ i → e i = 0) {A' : List Nat} {b : Nat}
    (hA' : t.Slots v ks' A') (hb : b ∈ A') :
    readEnt (setCluster v (setFat v (writeEnt d a e) y 0xFFFF) y blk) b =
      if b = a then e else readEnt d b := by
  obtain ⟨hyr, hyf⟩ := mem_freeClusters.mp hy
  refine readEnt_newEntry hg (hA.dvd ha) (hA'.dvd hb) (hA'.root_le hg hb) hyr ?_ htrim
  -- The slot is not in the new cluster, which was free.
  rcases hA'.region hg hb with ⟨-, hlt⟩ | ⟨m, c, hm, hc, hle, hlt⟩
  · have := le_clusterAddr (v := v) y
    omega
  · have hne : c ≠ y := by
      rintro rfl
      exact h.fatEntry_ne_zero hm hc hyf
    have hr := (h.isChain hm).inRange c hc
    have := hg.clusterAddr_apart (by have := hr.1; omega) (by have := hyr.1; omega) hne
    omega

/-- The slots, the FAT and the new cluster after the entry `e` has been added at `a` with the cluster `y`. -/
structure Added (v : Fat16Volume) (d d' : Disk) (t : Tree) (a : Nat) (e : DirEnt) (y : Nat) (blk : Buf) : Prop where
  slots : ∀ {ks' A' b}, t.Slots v ks' A' → b ∈ A' → readEnt d' b = if b = a then e else readEnt d b
  fat : ∀ c < 256 * v.sb.sectorsFat, fatEntry v d' c = if c = y then 0xFFFF else fatEntry v d c
  cluster : ∀ i < (v.clusterBytes + 31) / direntSize,
    readEnt d' (clusterAddr v y + direntSize * i) = readEnt blk (direntSize * i)

include h in
theorem Represents.added (htrim : ∀ i, direntSize ≤ i → e i = 0) :
    Added v d (setCluster v (setFat v (writeEnt d a e) y 0xFFFF) y blk) t a e y blk where
  slots := fun hA' hb => h.readEnt_add hg hA ha hy htrim hA' hb
  fat := fun _ hc => fatEntry_newEntry hg hc (hA.root_le hg ha)
  cluster := fun _ hi => readEnt_setCluster (hg.slot_le hi)

section Nodes

variable {d' : Disk} (hadd : Added v d d' t a e y blk)
include h hadd

omit hg hA ha hy hadd in
theorem Represents.addr_ne_free (hfree : (readEnt d a).startCluster = 0) {m : Node} (hm : t ks' = some m) :
    m.addr ≠ a := by
  rintro rfl
  exact (h.isChain hm).start_ne_zero hfree

omit hg hA ha hadd in
theorem Represents.not_mem_chain {m : Node} (hm : t ks' = some m) : y ∉ m.chain :=
  fun hmem => h.fatEntry_ne_zero hm hmem (mem_freeClusters.mp hy).2

omit hg h in
/-- The new node is stored. -/
theorem Added.stored (hkey : entKey e = k) (hstart : e.startCluster = y) (hlive : Live e) :
    Node.Stored v d' k ⟨a, isDirectory e, [y]⟩ := by
  have hyr := (mem_freeClusters.mp hy).1
  have hself : readEnt d' a = e := by
    rw [hadd.slots hA ha, if_pos rfl]
  refine ⟨?_, congrArg isDirectory hself, (congrArg entKey hself).trans hkey, ?_⟩
  · change IsChain v d' (readEnt d' a).startCluster [y]
    rw [hself, hstart]
    refine chain_singleton hyr ?_
    rw [hadd.fat y hyr.2.2, if_pos rfl]
  · change Live (readEnt d' a)
    rw [hself]
    exact hlive

omit hg hA ha in
/-- The other nodes are stored as before. -/
theorem Represents.stored_add (hfree : (readEnt d a).startCluster = 0) {k' : List UInt8} {m : Node}
    (hm : t (ks' ++ [k']) = some m) : Node.Stored v d' k' m := by
  obtain ⟨A', hA', hmem⟩ := h.placed _ _ _ hm
  refine (h.stored _ _ _ hm).congr ?_ fun x hx => ?_
  · rw [hadd.slots hA' hmem, if_neg (h.addr_ne_free hfree hm)]
  · rw [hadd.fat x ((h.isChain hm).inRange x hx).2.2, if_neg]
    rintro rfl
    exact h.not_mem_chain hy hm hx

omit hg hA ha hy h in
/-- The slots of the new directory hold no nodes. -/
theorem Added.fresh_slots (hblk : isDirectory e = true → ∀ i < (v.clusterBytes + 31) / direntSize,
      (readEnt blk (direntSize * i)).startCluster = 0 ∨ IsLink (readEnt blk (direntSize * i)))
    (hdir : isDirectory e = true) {b : Nat} (hb : b ∈ chainSlots v [y]) :
    (readEnt d' b).startCluster = 0 ∨ IsLink (readEnt d' b) := by
  obtain ⟨c, hc, hslot⟩ := mem_chainSlots.mp hb
  obtain rfl := List.mem_singleton.mp hc
  obtain ⟨i, hi, rfl⟩ := mem_clusterSlots.mp hslot
  rw [hadd.cluster i hi]
  exact hblk hdir i hi

end Nodes

include h in
/-- A free slot takes the entry of a new file or directory with one cluster. -/
theorem Represents.add (hfree : (readEnt d a).startCluster = 0) (habsent : t (ks ++ [k]) = none)
    (htrim : ∀ i, direntSize ≤ i → e i = 0) (hkey : entKey e = k) (hstart : e.startCluster = y)
    (hlive : Live e) (hblk : isDirectory e = true → ∀ i < (v.clusterBytes + 31) / direntSize,
      (readEnt blk (direntSize * i)).startCluster = 0 ∨ IsLink (readEnt blk (direntSize * i))) :
    Represents v (setCluster v (setFat v (writeEnt d a e) y 0xFFFF) y blk)
      (Function.update t (ks ++ [k]) (some ⟨a, isDirectory e, [y]⟩)) := by
  have hP : ks ++ [k] ≠ [] := by simp
  have hne : ∀ {ks' m}, t ks' = some m → ks' ≠ ks ++ [k] := by
    rintro ks' m hm rfl
    rw [habsent] at hm
    exact absurd hm (by simp)
  have hadd : Added v d _ t a e y blk := h.added hg hA ha hy htrim
  generalize setCluster v (setFat v (writeEnt d a e) y 0xFFFF) y blk = d' at hadd
  refine ⟨?_, ?_, ?_, ?_, ?_, ?_⟩
  · rw [Function.update_of_ne hP.symm]
    exact h.root
  · intro ks' k' m hm
    by_cases hks : ks' ++ [k'] = ks ++ [k]
    · rw [hks, Function.update_self] at hm
      obtain rfl := Option.some.inj hm
      obtain ⟨-, hk⟩ := List.append_inj' hks rfl
      obtain rfl : k' = k := by simpa using hk
      exact hadd.stored hA ha hy hkey hstart hlive
    · rw [Function.update_of_ne hks] at hm
      exact h.stored_add hy hadd hfree hm
  · intro ks' k' m hm
    by_cases hks : ks' ++ [k'] = ks ++ [k]
    · rw [hks, Function.update_self] at hm
      obtain rfl := Option.some.inj hm
      obtain ⟨rfl, -⟩ := List.append_inj' hks rfl
      exact ⟨A, hA.update (by simp), ha⟩
    · rw [Function.update_of_ne hks] at hm
      obtain ⟨A', hA', hmem⟩ := h.placed _ _ _ hm
      exact ⟨A', hA'.update (hA'.path_ne hP habsent), hmem⟩
  · intro ks' A' hA' b hb hused hlink
    by_cases hks : ks' = ks ++ [k]
    · subst hks
      obtain ⟨hdir, rfl⟩ := hA'.of_update_self hP
      rcases hadd.fresh_slots hblk hdir hb with hzero | hlink'
      · exact absurd hzero hused
      · exact absurd hlink' hlink
    · have hA₀ := hA'.of_update hks
      rw [hadd.slots hA₀ hb] at hused hlink ⊢
      by_cases hba : b = a
      · subst hba
        obtain rfl := h.slots_path_eq hg hA₀ hA hb ha
        rw [if_pos rfl, hkey]
        exact ⟨_, Function.update_self .., rfl⟩
      · rw [if_neg hba] at hused hlink ⊢
        obtain ⟨m, hm, rfl⟩ := h.complete _ _ hA₀ b hb hused hlink
        exact ⟨m, (Function.update_of_ne (hne hm) ..).trans hm, rfl⟩
  · exact fun _ _ _ _ hm hm' hne =>
      h.disjoint_update (fun _ _ hm _ => List.disjoint_singleton.mpr (h.not_mem_chain hy hm)) hm hm' hne
  · intro c hc hlt hused
    rw [hadd.fat c hlt] at hused
    by_cases hcy : c = y
    · exact ⟨_, _, Function.update_self .., by rw [hcy]; exact List.mem_singleton_self y⟩
    · rw [if_neg hcy] at hused
      obtain ⟨ks', m, hm, hcm⟩ := h.covered c hc hlt hused
      exact ⟨ks', m, (Function.update_of_ne (hne hm) ..).trans hm, hcm⟩

end Add

/-! ## Removing a subtree -/

/-- The tree without a path and everything below it. -/
def Tree.prune (t : Tree) (P : List (List UInt8)) : Tree := fun ks => if P <+: ks then none else t ks

/-- The clusters of a path and of everything below it. -/
def Tree.Under (t : Tree) (P : List (List UInt8)) (c : Nat) : Prop :=
  ∃ ks n, P <+: ks ∧ t ks = some n ∧ c ∈ n.chain

theorem Tree.prune_eq_some : t.prune P ks = some n ↔ ¬P <+: ks ∧ t ks = some n := by
  unfold Tree.prune
  split
  next hpre => simp [hpre]
  next hpre => simp [hpre]

theorem Tree.Slots.of_prune (hP : P ≠ []) (hA : (t.prune P).Slots v ks A) :
    ¬P <+: ks ∧ t.Slots v ks A := by
  cases hA with
  | root => exact ⟨fun hpre => hP (List.prefix_nil.mp hpre), Tree.Slots.root⟩
  | dir hn hdir =>
      obtain ⟨hpre, hn⟩ := Tree.prune_eq_some.mp hn
      exact ⟨hpre, Tree.Slots.dir hn hdir⟩

theorem Tree.Slots.prune (hA : t.Slots v ks A) (hpre : ¬P <+: ks) : (t.prune P).Slots v ks A := by
  cases hA with
  | root => exact Tree.Slots.root
  | dir hn hdir => exact Tree.Slots.dir (Tree.prune_eq_some.mpr ⟨hpre, hn⟩) hdir

section Prune

variable (hg : Geometry v) (h : Represents v d t) (hn : t P = some n) {S : List Nat} {e : DirEnt}
  (htrim : ∀ i, direntSize ≤ i → e i = 0)
include hg h hn htrim

theorem Represents.readEnt_prune (hS : ∀ x ∈ S, InRange v x) (hA : t.Slots v ks A) (ha : a ∈ A) :
    readEnt (writeEnt (freed v d S) n.addr e) a = if a = n.addr then e else readEnt d a := by
  obtain ⟨ks₀, A₀, hA₀, ha₀⟩ := h.placed_of hn
  have hroot := hA.root_le hg ha
  have hfreed : readEnt (freed v d S) a = readEnt d a :=
    readEnt_congr fun x hx _ => freed_of_le hg hS (by omega)
  rw [readEnt_writeEnt_slot (hA₀.dvd ha₀) (hA.dvd ha) htrim, hfreed]

omit hg hn htrim in
theorem Represents.under_inRange {c : Nat} (hc : t.Under P c) : InRange v c := by
  obtain ⟨ks, m, -, hm, hmem⟩ := hc
  exact (h.isChain hm).inRange c hmem

/-- Freeing the clusters of a subtree and clearing the slot of its top removes it. -/
theorem Represents.prune (hS : ∀ c, c ∈ S ↔ t.Under P c) (hstart : e.startCluster = 0) :
    Represents v (writeEnt (freed v d S) n.addr e) (t.prune P) := by
  have hP := h.path_ne_nil hn
  obtain ⟨ks₀, A₀, hA₀, ha₀⟩ := h.placed_of hn
  have hent : ∀ {ks A a}, t.Slots v ks A → a ∈ A →
      readEnt (writeEnt (freed v d S) n.addr e) a = if a = n.addr then e else readEnt d a :=
    fun hA ha => h.readEnt_prune hg hn htrim (fun x hx => h.under_inRange ((hS x).mp hx)) hA ha
  have hfat : ∀ c < 256 * v.sb.sectorsFat, fatEntry v (writeEnt (freed v d S) n.addr e) c =
      if c ∈ S then 0 else fatEntry v d c := by
    intro c hc
    rw [hg.fatEntry_writeEnt hc (hA₀.root_le hg ha₀), fatEntry_freed]
  have hnot : ∀ {ks m c}, t ks = some m → ¬P <+: ks → c ∈ m.chain → c ∉ S := by
    intro ks m c hm hpre hc hcS
    obtain ⟨ks', m', hpre', hm', hc'⟩ := (hS c).mp hcS
    rw [h.path_eq_of_mem hm hm' hc hc'] at hpre
    exact hpre hpre'
  have haddr : ∀ {ks m}, t ks = some m → ¬P <+: ks → m.addr ≠ n.addr := by
    intro ks m hm hpre heq
    rw [h.path_eq_of_addr hm hn heq] at hpre
    exact hpre (List.prefix_refl P)
  have hup : ∀ {ks k}, ¬P <+: ks ++ [k] → ¬P <+: ks := fun hpre hpre' =>
    hpre (hpre'.trans (List.prefix_append _ _))
  refine ⟨?_, ?_, ?_, ?_, ?_, ?_⟩
  · unfold Tree.prune
    rw [if_neg fun hpre => hP (List.prefix_nil.mp hpre)]
    exact h.root
  · intro ks k m hm
    obtain ⟨hpre, hm⟩ := Tree.prune_eq_some.mp hm
    obtain ⟨A, hA, hmem⟩ := h.placed _ _ _ hm
    refine (h.stored _ _ _ hm).congr ?_ fun x hx => ?_
    · rw [hent hA hmem, if_neg (haddr hm hpre)]
    · rw [hfat x ((h.isChain hm).inRange x hx).2.2, if_neg (hnot hm hpre hx)]
  · intro ks k m hm
    obtain ⟨hpre, hm⟩ := Tree.prune_eq_some.mp hm
    obtain ⟨A, hA, hmem⟩ := h.placed _ _ _ hm
    exact ⟨A, hA.prune (hup hpre), hmem⟩
  · intro ks A hA a ha hne hlink
    obtain ⟨hpre, hA⟩ := hA.of_prune hP
    rw [hent hA ha] at hne hlink ⊢
    by_cases heq : a = n.addr
    · rw [if_pos heq] at hne
      exact absurd hstart hne
    · rw [if_neg heq] at hne hlink ⊢
      obtain ⟨m, hm, rfl⟩ := h.complete _ _ hA a ha hne hlink
      refine ⟨m, Tree.prune_eq_some.mpr ⟨fun hpre' => ?_, hm⟩, rfl⟩
      -- A slot outside of the subtree whose path is in it would be the slot of its top.
      rcases List.prefix_concat_iff.mp hpre' with hP' | hP'
      · rw [← hP', hn] at hm
        exact heq (congrArg Node.addr (Option.some.inj hm)).symm
      · exact hpre hP'
  · intro ks ks' m m' hm hm' hne
    exact h.disjoint _ _ _ _ (Tree.prune_eq_some.mp hm).2 (Tree.prune_eq_some.mp hm').2 hne
  · intro c hc hlt hused
    rw [hfat c hlt] at hused
    have hcS : c ∉ S := fun hmem => hused (if_pos hmem)
    rw [if_neg hcS] at hused
    obtain ⟨ks, m, hm, hcm⟩ := h.covered c hc hlt hused
    refine ⟨ks, m, Tree.prune_eq_some.mpr ⟨fun hpre => hcS ((hS c).mpr ⟨ks, m, hpre, hm, hcm⟩), hm⟩, hcm⟩

end Prune

end TsOs.Fat
