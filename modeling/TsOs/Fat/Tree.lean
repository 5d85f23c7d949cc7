import TsOs.Fat.Search
import TsOs.Fat.Writing

/-!
# The tree of a volume

A volume in good order is a tree of files and directories. A node is found by the keys
of its path, and has the address of its entry and the clusters of its chain. This module
says when a disk holds a tree, that a lookup on such a disk is a walk in the tree, and
what the handle knows that the walk arrives at.
-/

namespace TsOs.Fat
open ByteMemory

/-- A file or directory: the address of its entry, its kind and its clusters. -/
structure Node where
  addr : Nat
  isDir : Bool
  chain : List Nat

/-- The files and directories of a volume, by the keys of their paths. -/
abbrev Tree := List (List UInt8) → Option Node

variable (v : Fat16Volume)

/-- The directory with the path `ks` has the slots `A`. -/
inductive Tree.Slots (t : Tree) : List (List UInt8) → List Nat → Prop
  | root : Slots t [] (rootSlots v)
  | dir {ks : List (List UInt8)} {n : Node} : t ks = some n → n.isDir = true →
      Slots t ks (chainSlots v n.chain)

/-- The disk has the entry of a node under the key, and its chain. -/
structure Node.Stored (d : Disk) (k : List UInt8) (n : Node) : Prop where
  chain : IsChain v d (readEnt d n.addr).startCluster n.chain
  kind : isDirectory (readEnt d n.addr) = n.isDir
  named : entKey (readEnt d n.addr) = k
  live : Live (readEnt d n.addr)

/-- The disk holds the tree and nothing else. -/
structure Represents (d : Disk) (t : Tree) : Prop where
  root : t [] = none
  stored : ∀ ks k n, t (ks ++ [k]) = some n → n.Stored v d k
  placed : ∀ ks k n, t (ks ++ [k]) = some n → ∃ A, t.Slots v ks A ∧ n.addr ∈ A
  complete : ∀ ks A, t.Slots v ks A → ∀ a ∈ A, (readEnt d a).startCluster ≠ 0 →
    ¬IsLink (readEnt d a) → ∃ n, t (ks ++ [entKey (readEnt d a)]) = some n ∧ n.addr = a
  disjoint : ∀ ks ks' n n', t ks = some n → t ks' = some n' → ks ≠ ks' →
    n.chain.Disjoint n'.chain
  covered : ∀ c, 3 ≤ c → c < 256 * v.sb.sectorsFat → fatEntry v d c ≠ 0 →
    ∃ ks n, t ks = some n ∧ c ∈ n.chain

variable {v} {d : Disk} {t : Tree} {ks ks' : List (List UInt8)} {k : List UInt8} {n n' : Node}
  {A A' : List Nat} {a : Nat}

/-! ## Slots of a tree -/

theorem isLink_iff {e : DirEnt} : IsLink e ↔ entKey e = key [dot] ∨ entKey e = key [dot, dot] := by
  have hdot : entKey dotName = key [dot] := by decide
  have hdotDot : entKey dotDotName = key [dot, dot] := by decide
  unfold IsLink
  rw [fatFilenameMatch_iff_entKey, fatFilenameMatch_iff_entKey, hdot, hdotDot]

namespace Represents

variable (h : Represents v d t)
include h

/-- The root is no node. -/
theorem path_ne_nil (hn : t ks = some n) : ks ≠ [] := by
  rintro rfl
  rw [h.root] at hn
  exact absurd hn (by simp)

theorem exists_snoc (hn : t ks = some n) : ∃ init k, ks = init ++ [k] := by
  have hne := h.path_ne_nil hn
  exact ⟨ks.dropLast, ks.getLast hne, (List.dropLast_append_getLast hne).symm⟩

theorem isChain (hn : t ks = some n) : IsChain v d (readEnt d n.addr).startCluster n.chain := by
  obtain ⟨init, k, rfl⟩ := h.exists_snoc hn
  exact (h.stored _ _ _ hn).chain

theorem live (hn : t ks = some n) : Live (readEnt d n.addr) := by
  obtain ⟨init, k, rfl⟩ := h.exists_snoc hn
  exact (h.stored _ _ _ hn).live

theorem kind (hn : t ks = some n) : isDirectory (readEnt d n.addr) = n.isDir := by
  obtain ⟨init, k, rfl⟩ := h.exists_snoc hn
  exact (h.stored _ _ _ hn).kind

theorem start_mem (hn : t ks = some n) : (readEnt d n.addr).startCluster ∈ n.chain :=
  (h.isChain hn).mem_head (h.live hn).1.1

theorem fatEntry_ne_zero (hn : t ks = some n) {c : Nat} (hc : c ∈ n.chain) : fatEntry v d c ≠ 0 :=
  (h.isChain hn).fatEntry_ne_zero hc

theorem slots_unique (hA : t.Slots v ks A) (hA' : t.Slots v ks A') : A = A' := by
  cases hA with
  | root =>
      cases hA' with
      | root => rfl
      | dir hn _ => exact absurd rfl (h.path_ne_nil hn)
  | dir hn hdir =>
      cases hA' with
      | root => exact absurd rfl (h.path_ne_nil hn)
      | dir hn' _ => rw [Option.some.inj (hn.symm.trans hn')]

/-- Two nodes with a cluster in common are the same. -/
theorem path_eq_of_mem (hn : t ks = some n) (hn' : t ks' = some n') {c : Nat} (hc : c ∈ n.chain)
    (hc' : c ∈ n'.chain) : ks = ks' := by
  by_contra hne
  exact h.disjoint ks ks' n n' hn hn' hne hc hc'

/-- The entry determines the node. -/
theorem path_eq_of_addr (hn : t ks = some n) (hn' : t ks' = some n') (haddr : n.addr = n'.addr) :
    ks = ks' := by
  have hmem := h.start_mem hn
  have hmem' := h.start_mem hn'
  rw [← haddr] at hmem'
  exact h.path_eq_of_mem hn hn' hmem hmem'

/-- The node of a path has a directory above it. -/
theorem exists_parent {init : List (List UInt8)} (hn : t (init ++ [k]) = some n) (hne : init ≠ []) :
    ∃ p, t init = some p ∧ p.isDir = true ∧ n.addr ∈ chainSlots v p.chain := by
  obtain ⟨A, hA, hmem⟩ := h.placed _ _ _ hn
  cases hA with
  | root => exact absurd rfl hne
  | dir hp hdir => exact ⟨_, hp, hdir, hmem⟩

end Represents

/-- Where a slot is. -/
theorem Tree.Slots.cases_mem (hA : t.Slots v ks A) (ha : a ∈ A) :
    (ks = [] ∧ ∃ i < 16 * v.rootSectors, a = sectorSize * v.rootDirStart + direntSize * i) ∨
      ∃ n c, t ks = some n ∧ n.isDir = true ∧ c ∈ n.chain ∧ a ∈ clusterSlots v c := by
  cases hA with
  | root => exact Or.inl ⟨rfl, mem_sectorSlots.mp ha⟩
  | dir hn hdir =>
      obtain ⟨c, hc, hmem⟩ := mem_chainSlots.mp ha
      exact Or.inr ⟨_, c, hn, hdir, hc, hmem⟩

theorem Tree.Slots.dvd (hA : t.Slots v ks A) (ha : a ∈ A) : direntSize ∣ a := by
  rcases hA.cases_mem ha with ⟨-, i, -, rfl⟩ | ⟨n, c, -, -, -, hmem⟩
  · exact ⟨16 * v.rootDirStart + i, by unfold sectorSize direntSize; omega⟩
  · obtain ⟨i, -, rfl⟩ := mem_clusterSlots.mp hmem
    refine ⟨16 * (v.dataStart + (c - 2) * v.sb.sectorsPerCluster) + i, ?_⟩
    unfold clusterAddr sectorSize direntSize
    omega

/-- Different slots do not overlap. -/
theorem slots_apart (ha : direntSize ∣ a) {b : Nat} (hb : direntSize ∣ b) (hne : a ≠ b) :
    a + direntSize ≤ b ∨ b + direntSize ≤ a := by
  obtain ⟨i, rfl⟩ := ha
  obtain ⟨j, rfl⟩ := hb
  unfold direntSize at *
  omega

theorem Represents.slots_path_eq (hg : Geometry v) (h : Represents v d t) (hA : t.Slots v ks A)
    (hA' : t.Slots v ks' A') (ha : a ∈ A) (ha' : a ∈ A') : ks = ks' := by
  have hroot := hg.root_le_data
  have hlow : ∀ {i c j : Nat}, i < 16 * v.rootSectors →
      sectorSize * v.rootDirStart + direntSize * i ≠ clusterAddr v c + direntSize * j := by
    intro i c j hi
    have hle := le_clusterAddr (v := v) c
    unfold sectorSize direntSize at *
    omega
  rcases hA.cases_mem ha with ⟨rfl, i, hi, rfl⟩ | ⟨n, c, hn, -, hc, hmem⟩
  · rcases hA'.cases_mem ha' with ⟨rfl, -⟩ | ⟨n', c', -, -, -, hmem'⟩
    · rfl
    · obtain ⟨j, -, hj⟩ := mem_clusterSlots.mp hmem'
      exact absurd hj (hlow hi)
  · obtain ⟨i, hi, rfl⟩ := mem_clusterSlots.mp hmem
    rcases hA'.cases_mem ha' with ⟨rfl, j, hj, heq⟩ | ⟨n', c', hn', -, hc', hmem'⟩
    · exact absurd heq.symm (hlow hj)
    · obtain ⟨j, hj, heq⟩ := mem_clusterSlots.mp hmem'
      have hslot := hg.slot_le hi
      have hslot' := hg.slot_le hj
      have hr := (h.isChain hn).inRange c hc
      have hr' := (h.isChain hn').inRange c' hc'
      have hof : clusterOf v (clusterAddr v c + direntSize * i) = c :=
        hg.clusterOf_eq (by have := hr.1; omega) (by unfold direntSize at *; omega)
      have hof' : clusterOf v (clusterAddr v c' + direntSize * j) = c' :=
        hg.clusterOf_eq (by have := hr'.1; omega) (by unfold direntSize at *; omega)
      obtain rfl : c = c' := by
        rw [← hof, heq, hof']
      exact h.path_eq_of_mem hn hn' hc hc'

/-! ## Walks -/

/-- The walk of a handle from the directory `pre` along keys. -/
def walk (v : Fat16Volume) (d : Disk) (t : Tree) :
    List (List UInt8) → Fat16File → List (List UInt8) → Option Fat16File
  | _, file, [] => some file
  | pre, file, k :: ks => (t (pre ++ [k])).bind fun n => walk v d t (pre ++ [k]) (file.place v d n.addr) ks

/-- No regular file is on the way from `pre` along keys. -/
def Tree.DirsAlong (t : Tree) (pre ks : List (List UInt8)) : Prop :=
  ∀ ks₁ ks₂, ks = ks₁ ++ ks₂ → ks₁ ≠ [] → ks₂ ≠ [] → ∀ n, t (pre ++ ks₁) = some n → n.isDir = true

/-- The cluster number is that of the directory. -/
def Tree.StartsAt (d : Disk) (t : Tree) (ks : List (List UInt8)) (s : Nat) : Prop :=
  (ks = [] ∧ s = clusRoot) ∨
    ∃ n, t ks = some n ∧ n.isDir = true ∧ s = (readEnt d n.addr).startCluster

@[simp] theorem Fat16File.place_dirent (file : Fat16File) :
    (file.place v d a).dirent = readEnt d a := by
  unfold Fat16File.place
  split <;> rfl

@[simp] theorem Fat16File.place_currentCluster (file : Fat16File) :
    (file.place v d a).currentCluster = (readEnt d a).startCluster := by
  unfold Fat16File.place
  split <;> rfl

@[simp] theorem Fat16File.place_flag (file : Fat16File) : (file.place v d a).flag = file.flag := by
  unfold Fat16File.place
  split <;> rfl

@[simp] theorem Fat16File.place_byteOffset (file : Fat16File) :
    (file.place v d a).byteOffset = file.byteOffset := by
  unfold Fat16File.place
  split <;> rfl

section Walks

variable (h : Represents v d t) {fuel : Nat} {file f : Fat16File} {pre : List (List UInt8)}
include h

/-- The slot of an ordinary name is that of the node. -/
theorem Represents.findSlot_eq (hA : t.Slots v ks A) (hk : k ≠ key [dot]) (hk' : k ≠ key [dot, dot]) :
    findSlot d k A = (t (ks ++ [k])).map Node.addr := by
  cases hfind : findSlot d k A with
  | none =>
      cases hn : t (ks ++ [k]) with
      | none => rfl
      | some n =>
          obtain ⟨A', hA', hmem⟩ := h.placed _ _ _ hn
          rw [h.slots_unique hA' hA] at hmem
          have hs := h.stored _ _ _ hn
          have hnamed : Named d k n.addr := ⟨hs.chain.start_ne_zero, hs.named⟩
          exact absurd hnamed (findSlot_eq_none.mp hfind n.addr hmem)
  | some a =>
      obtain ⟨hmem, hstart, hnamed⟩ := findSlot_eq_some hfind
      have hlink : ¬IsLink (readEnt d a) := by
        rw [isLink_iff, hnamed]
        exact not_or.mpr ⟨hk, hk'⟩
      obtain ⟨n, hn, rfl⟩ := h.complete _ _ hA a hmem hstart hlink
      rw [hnamed] at hn
      rw [hn]
      rfl

theorem Represents.fatSearchFile_run (hv : Aligned v) (hfuel : 2 ^ 16 ≤ fuel) {s : Nat}
    (hs : t.StartsAt d ks s) {name : List UInt8} (hname : Ordinary name) :
    fatSearchFile v fuel file name s d =
      (.ok ((t (ks ++ [key name])).map fun n => file.place v d n.addr), d) := by
  rcases hs with ⟨rfl, rfl⟩ | ⟨n, hn, hdir, rfl⟩
  · rw [fatSearchFile_root hv hname.nul_not_mem,
      h.findSlot_eq Tree.Slots.root hname.ne_dot hname.ne_dotDot, Option.map_map]
    rfl
  · rw [fatSearchFile_chain hv.toGeometry (h.isChain hn) hfuel hname.nul_not_mem,
      h.findSlot_eq (Tree.Slots.dir hn hdir) hname.ne_dot hname.ne_dotDot, Option.map_map]
    rfl

/-- A lookup is a walk. -/
theorem Represents.findComponents_run (hv : Aligned v) (hfuel : 2 ^ 16 ≤ fuel)
    {cs : List (List UInt8)} (hcs : ∀ c ∈ cs, Ordinary c)
    (hs : cs ≠ [] → t.StartsAt d pre file.dirent.startCluster)
    (hdirs : t.DirsAlong pre (cs.map key)) :
    findComponents v fuel file cs d = (.ok (walk v d t pre file (cs.map key)), d) := by
  induction cs generalizing pre file with
  | nil => rfl
  | cons c cs ih =>
      have hc := hcs c List.mem_cons_self
      have hlen := hc.length_le
      rw [findComponents, if_neg (by omega),
        FatM.bind_ok (h.fatSearchFile_run hv hfuel (hs (List.cons_ne_nil _ _)) hc), List.map_cons, walk]
      cases hn : t (pre ++ [key c]) with
      | none => rfl
      | some n =>
          rw [Option.map_some, Option.bind_some]
          refine ih (fun x hx => hcs x (List.mem_cons_of_mem _ hx)) (fun hne => Or.inr ⟨n, hn, ?_, ?_⟩) ?_
          · refine hdirs [key c] (cs.map key) rfl (List.cons_ne_nil _ _) ?_ n hn
            simpa using hne
          · rw [Fat16File.place_dirent]
          · intro ks₁ ks₂ heq hne₁ hne₂ m hm
            refine hdirs (key c :: ks₁) ks₂ ?_ (List.cons_ne_nil _ _) hne₂ m ?_
            · rw [List.map_cons, heq]
              rfl
            · rw [List.append_cons]
              exact hm

omit h in
/-- The walk arrives at the node of the path. -/
theorem walk_eq_some (hks : ks ≠ []) (hw : walk v d t pre file ks = some f) :
    ∃ n g, t (pre ++ ks) = some n ∧ f = Fat16File.place v d g n.addr ∧ g.flag = file.flag ∧
      g.byteOffset = file.byteOffset := by
  induction ks generalizing pre file with
  | nil => exact absurd rfl hks
  | cons k ks ih =>
      rw [walk] at hw
      obtain ⟨n, hn, hw⟩ := Option.bind_eq_some_iff.mp hw
      cases ks with
      | nil =>
          obtain rfl := Option.some.inj hw
          exact ⟨n, file, hn, rfl, rfl, rfl⟩
      | cons k' ks =>
          obtain ⟨m, g, hm, rfl, hflag, hoff⟩ := ih (List.cons_ne_nil _ _) hw
          rw [← List.append_cons] at hm
          exact ⟨m, g, hm, rfl, by rw [hflag, Fat16File.place_flag],
            by rw [hoff, Fat16File.place_byteOffset]⟩

/-- Above a node there are directories. -/
theorem Represents.exists_above (hn : t (ks ++ ks') = some n) (hne : ks ≠ []) :
    ∃ m, t ks = some m ∧ (ks' ≠ [] → m.isDir = true) := by
  induction ks' using List.reverseRecOn generalizing n with
  | nil => exact ⟨n, by simpa using hn, fun hnil => absurd rfl hnil⟩
  | append_singleton ks' k ih =>
      rw [← List.append_assoc] at hn
      obtain ⟨p, hp, hdir, -⟩ := h.exists_parent hn (by simp [hne])
      obtain ⟨m, hm, hmdir⟩ := ih hp
      refine ⟨m, hm, fun _ => ?_⟩
      by_cases hnil : ks' = []
      · subst hnil
        rw [List.append_nil] at hp
        rwa [← Option.some.inj (hp.symm.trans hm)]
      · exact hmdir hnil

theorem walk_isSome (hn : t (pre ++ ks) = some n) : (walk v d t pre file ks).isSome := by
  induction ks generalizing pre file with
  | nil => rfl
  | cons k ks ih =>
      rw [walk]
      rw [List.append_cons] at hn
      obtain ⟨m, hm, -⟩ := h.exists_above hn (by simp)
      rw [hm, Option.bind_some]
      exact ih hn

end Walks

/-! ## Handles -/

variable (v) in
/-- The handle is on the entry of the node, which is number `i` of its block. -/
structure Node.Handle (d : Disk) (n : Node) (f : Fat16File) (i : Nat) : Prop where
  dirent : f.dirent = readEnt d n.addr
  located : Located v d f i
  addr_eq : direntAddr v f + direntSize * i = n.addr
  apart : EntryApart v d f n.chain

section Handles

variable (hg : Geometry v) (h : Represents v d t)
include h

/-- In a block of its directory, the entry of a node is the first of its name. -/
theorem Represents.searchNameInBlock_node (hn : t (ks ++ [k]) = some n) (hA : t.Slots v ks A)
    {b len i : Nat} (haddr : n.addr = b + direntSize * i) (hfits : direntSize * i + direntSize ≤ len)
    (hi : i < (v.clusterBytes + 31) / direntSize) (hin : ∀ j < i, b + direntSize * j ∈ A) :
    searchNameInBlock (block d b len) v.clusterBytes (readEnt d n.addr) = some i := by
  have hs := h.stored _ _ _ hn
  refine firstIndex_eq_some (Nat.zero_le _) (by omega) ?_ fun j _ hj => ?_
  · rw [readEnt_block d hfits, ← haddr, Bool.and_eq_true, fatFilenameMatch_iff_entKey,
      Bool.not_eq_true', ← Bool.not_eq_true, clusFree_iff]
    exact ⟨hs.chain.start_ne_zero, rfl⟩
  · have hfits' : direntSize * j + direntSize ≤ len := by
      unfold direntSize at *
      omega
    rw [readEnt_block d hfits', ← Bool.not_eq_true, Bool.and_eq_true, fatFilenameMatch_iff_entKey,
      Bool.not_eq_true', ← Bool.not_eq_true, clusFree_iff]
    rintro ⟨hstart, hkey⟩
    have hlink : ¬IsLink (readEnt d (b + direntSize * j)) := by
      rw [isLink_iff, hkey, ← isLink_iff]
      exact hs.live.1.2
    obtain ⟨m, hm, hmaddr⟩ := h.complete _ _ hA _ (hin j hj) hstart hlink
    rw [hkey, hs.named, hn] at hm
    obtain rfl := Option.some.inj hm
    unfold direntSize at *
    omega

include hg

theorem Represents.handle (hn : t (ks ++ [k]) = some n) (g : Fat16File) :
    ∃ i, n.Handle v d (g.place v d n.addr) i := by
  obtain ⟨A, hA, hmem⟩ := h.placed _ _ _ hn
  have hroot := hg.root_le_data
  have hslots := hg.slots_eq
  have hpos := hg.sectorsPerCluster_pos
  rcases hA.cases_mem hmem with ⟨rfl, j, hj, haddr⟩ | ⟨p, c, hp, hdir, hc, hslot⟩
  · -- In the root directory the block is a sector.
    have haddr' : n.addr = sectorSize * (v.rootDirStart + j / 16) + direntSize * (j % 16) := by
      rw [haddr]
      unfold sectorSize direntSize
      omega
    have hlba : v.rootDirStart + j / 16 < v.dataStart := by omega
    have hplace := place_root d g hlba (Nat.mod_lt j (by decide : 0 < 16))
    rw [← haddr'] at hplace
    have hfits : direntSize * (j % 16) + direntSize ≤ sectorSize := by
      unfold direntSize sectorSize
      omega
    have hfound := h.searchNameInBlock_node hn hA haddr' hfits (by omega) fun i hi => by
      cases hA with
      | root =>
          refine mem_sectorSlots.mpr ⟨16 * (j / 16) + i, by omega, ?_⟩
          unfold sectorSize direntSize
          omega
      | dir hn' _ => exact absurd rfl (h.path_ne_nil hn')
    refine ⟨j % 16, ?_⟩
    rw [hplace]
    refine ⟨rfl, ⟨hfound, hfits, congrArg (readEnt d) haddr'.symm, ?_, fun hne => absurd rfl hne⟩,
      haddr'.symm, ⟨?_, fun hne => absurd rfl hne⟩⟩
    · exact fun _ => Nat.le_add_right _ _
    · intro _
      change v.rootDirStart + j / 16 < _
      omega
  · obtain ⟨i, hi, haddr⟩ := mem_clusterSlots.mp hslot
    have hr := (h.isChain hp).inRange c hc
    have hfits := hg.slot_le hi
    have hplace := hg.place_cluster d g (c := c) (i := direntSize * i)
      (by have := hr.1; omega) (by unfold direntSize at *; omega)
    rw [← haddr] at hplace
    have hne : c ≠ clusRoot := by
      have := hr.1
      unfold clusRoot
      omega
    have hfound := h.searchNameInBlock_node hn hA haddr hfits hi fun j hj => by
      rw [h.slots_unique hA (Tree.Slots.dir hp hdir)]
      exact mem_chainSlots.mpr ⟨c, hc, mem_clusterSlots.mpr ⟨j, by omega, rfl⟩⟩
    refine ⟨i, ?_⟩
    rw [hplace]
    refine ⟨rfl, ⟨?_, ?_, ?_, fun heq => absurd heq hne, fun _ => hr.clusNormal⟩, ?_,
      ⟨fun heq => absurd heq hne, fun _ => ⟨hr, h.fatEntry_ne_zero hp hc, ?_⟩⟩⟩
    · rw [direntAddr, direntLen, if_neg hne, if_neg hne]
      exact hfound
    · rw [direntLen, if_neg hne]
      exact hfits
    · rw [direntAddr, if_neg hne]
      exact congrArg (readEnt d) haddr.symm
    · rw [direntAddr, if_neg hne]
      exact haddr.symm
    · intro hmem'
      have heq := h.path_eq_of_mem hp hn hc hmem'
      simp at heq

end Handles

/-! ## Opening a path -/

/-- A path from the root with at least one component, all of them ordinary names. -/
structure OrdinaryPath (path : List UInt8) : Prop where
  absolute : path.head? = some slash
  ne_nil : components path ≠ []
  ordinary : ∀ c ∈ components path, Ordinary c

/-- The keys of the components of a path. -/
def pathKeys (path : List UInt8) : List (List UInt8) := (components path).map key

theorem pathKeys_eq_nil {path : List UInt8} : pathKeys path = [] ↔ components path = [] := List.map_eq_nil_iff

theorem OrdinaryPath.pathKeys_ne_nil {path : List UInt8} (hp : OrdinaryPath path) : pathKeys path ≠ [] :=
  fun hnil => hp.ne_nil (pathKeys_eq_nil.mp hnil)

theorem OrdinaryPath.ne_slash {path : List UInt8} (hp : OrdinaryPath path) : path ≠ [slash] := by
  rintro rfl
  exact hp.ne_nil rfl

/-- The handle with which a lookup starts. -/
def rootHandle (flag : Flags) : Fat16File := { newFat16File flag with dirent := rootEnt }

section Opening

variable (hv : Aligned v) (h : Represents v d t) {fuel : Nat} (hfuel : 2 ^ 16 ≤ fuel)
  {path : List UInt8} (hdirs : t.DirsAlong [] (pathKeys path)) (flag : Flags)
include hv h hfuel hdirs

theorem Represents.fat16Find_run (hcs : ∀ c ∈ components path, Ordinary c)
    (hpath : path ≠ [slash]) : fat16Find v fuel (newFat16File flag) path d =
      (.ok (walk v d t [] (rootHandle flag) (pathKeys path)), d) := by
  unfold fat16Find
  rw [if_neg hpath, findLoop_eq v fuel (Nat.lt_succ_self _)]
  exact h.findComponents_run hv hfuel hcs (fun _ => Or.inl ⟨rfl, rfl⟩) hdirs

theorem Represents.fatOpenExisting_run (hp : OrdinaryPath path) (hflag : flag.append = false) :
    fatOpenExisting v fuel path flag d =
      (.ok (walk v d t [] (rootHandle flag) (pathKeys path)), d) := by
  unfold fatOpenExisting
  rw [FatM.bind_ok (h.fat16Find_run hv hfuel hdirs flag hp.ordinary hp.ne_slash)]
  cases walk v d t [] (rootHandle flag) (pathKeys path) with
  | none => rfl
  | some f =>
      dsimp only
      rw [hflag]
      rfl

theorem Represents.fatOpenExisting_none (hp : OrdinaryPath path) (hn : t (pathKeys path) = none) :
    fatOpenExisting v fuel path flag d = (.ok none, d) := by
  have hks := hp.pathKeys_ne_nil
  have hwalk : walk v d t [] (rootHandle flag) (pathKeys path) = none := by
    cases hw : walk v d t [] (rootHandle flag) (pathKeys path) with
    | none => rfl
    | some f =>
        obtain ⟨n, g, hn', -⟩ := walk_eq_some hks hw
        rw [List.nil_append, hn] at hn'
        exact absurd hn' (by simp)
  unfold fatOpenExisting
  rw [FatM.bind_ok (h.fat16Find_run hv hfuel hdirs flag hp.ordinary hp.ne_slash), hwalk]
  rfl

/-- Opening the path of a node gives a handle on it. -/
theorem Represents.fatOpenExisting_some (hp : OrdinaryPath path) (hn : t (pathKeys path) = some n) :
    ∃ f i, fatOpenExisting v fuel path flag d = (.ok (some f), d) ∧ n.Handle v d f i ∧
      f.currentCluster ∈ n.chain ∧ f.flag.write = (flag.write || flag.append) := by
  have hks := hp.pathKeys_ne_nil
  have hsome : (walk v d t [] (rootHandle flag) (pathKeys path)).isSome := walk_isSome h hn
  obtain ⟨f, hw⟩ := Option.isSome_iff_exists.mp hsome
  obtain ⟨m, g, hm, rfl, hflag, -⟩ := walk_eq_some hks hw
  obtain rfl := Option.some.inj (hn.symm.trans hm)
  obtain ⟨init, k, hsnoc⟩ := h.exists_snoc hn
  rw [hsnoc] at hm
  obtain ⟨i, hi⟩ := h.handle hv.toGeometry hm g
  have hstart := h.start_mem hn
  have hchain := h.isChain hn
  unfold fatOpenExisting
  rw [FatM.bind_ok (h.fat16Find_run hv hfuel hdirs flag hp.ordinary hp.ne_slash), hw]
  dsimp only
  cases happend : flag.append with
  | false =>
      refine ⟨_, i, rfl, hi, ?_, ?_⟩
      · rwa [Fat16File.place_currentCluster]
      · rw [Fat16File.place_flag, hflag, Bool.or_false]
        rfl
  | true =>
      have hne := List.ne_nil_of_mem hstart
      have hlen := hchain.length_le
      have hlast : lastCluster v fuel (g.place v d n.addr).dirent.startCluster d =
          (.ok (n.chain.getLast hne), d) := by
        rw [Fat16File.place_dirent]
        exact lastCluster_run hv.toGeometry hchain hne (by omega)
      rw [if_pos rfl, FatM.bind_ok hlast]
      refine ⟨_, i, rfl, ⟨hi.dirent, ?_, hi.addr_eq, ⟨hi.apart.root, hi.apart.cluster⟩⟩,
        List.getLast_mem hne, (Bool.or_true _).symm⟩
      exact ⟨hi.located.found, hi.located.fits, hi.located.entry, hi.located.root, hi.located.cluster⟩

end Opening

end TsOs.Fat
