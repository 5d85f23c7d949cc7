import TsOs.Fat.Placement

/-!
# Creations that complete

A creation that returns has found a free slot, or has added a cluster to its directory.
When a cluster in range is still free afterwards, the clusters that it took were free ones
in range, and the disk is the one with the new entry. The loop itself may also go on for
ever: in a root directory without a free slot, and in a directory whose size reaches the
range of the offset.
-/

namespace TsOs.Fat
open ByteMemory

variable {v : Fat16Volume} {d d' : Disk} {f : Fat16File} {name : List UInt8} {dir : Bool} {c n : Nat}
  {l : List Nat} {buf : Buf} {u : Unit}

/-- The buffer has no slot that a new entry may take. -/
def NoFreeSlot (v : Fat16Volume) (buf : Buf) : Prop :=
  ∀ i < (v.clusterBytes + 31) / direntSize, isFreeSlot (readEnt buf (direntSize * i)) = false

theorem noFreeSlot_iff : NoFreeSlot v buf ↔
    firstIndex (fun i => isFreeSlot (readEnt buf (direntSize * i)))
      ((v.clusterBytes + 31) / direntSize) 0 = none := by
  rw [firstIndex_eq_find?, ← List.range_eq_range', List.find?_eq_none]
  simp [NoFreeSlot]

/-! ## The loop in a subdirectory -/

section Loop

variable (hg : Geometry v)
include hg

/-- A read at the end of the range of the offset returns nothing and does not move the handle. -/
theorem fatReadFile_stuck (ub : Buf) (hdir : isDirectory f.dirent = true)
    (hstart : f.dirent.startCluster ≠ 0) (heof : clusEof f.currentCluster = false)
    (hcur : f.currentCluster < 2 ^ 16) (hoff : f.byteOffset < 2 ^ 32)
    (hover : 2 ^ 32 ≤ f.byteOffset + v.clusterBytes) :
    fatReadFile v f ub v.clusterBytes d = (.ok (0, [], f), d) := by
  have hcb : v.clusterBytes < 2 ^ 32 := by
    have hspc := hg.sectorsPerCluster_lt
    rw [hg.clusterBytes]
    unfold sectorSize
    omega
  have hwrap : ¬f.byteOffset < u32 (f.byteOffset + v.clusterBytes) := by
    unfold u32
    omega
  have hloop : readLoop v v.clusterBytes (u32 (f.byteOffset + v.clusterBytes)) (v.clusterBytes + 1)
      f.currentCluster f.byteOffset [] d = (.ok ([], f.currentCluster, f.byteOffset), d) := by
    rw [readLoop, if_neg fun h => hwrap h.1]
    rfl
  unfold fatReadFile
  rw [if_neg (show f.dirent.startCluster ≠ clusRoot from hstart), if_neg (by simp [hdir]), heof,
    if_neg Bool.false_ne_true, FatM.bind_ok hloop]
  dsimp only
  rw [if_neg (by simp [hdir]), u16_of_lt hcur]
  have hsame : (((f.byteOffset : Int) + (([] : List UInt8).length : Nat)) % 2 ^ 32).toNat = f.byteOffset := by
    simp only [List.length_nil]
    omega
  rw [hsame]
  rfl

/-- The loop of a creation that returns ends at a free slot of the directory, or behind its last cluster. -/
theorem createLoop_ok (hchain : IsChain v d c (c :: l)) (hdir : isDirectory f.dirent = true)
    (hstart : f.dirent.startCluster ≠ 0) (hcur : f.currentCluster = c) (hdvd : v.clusterBytes ∣ f.byteOffset)
    (hoff : f.byteOffset < 2 ^ 32) (hbuf : f.byteOffset = 0 ∨ NoFreeSlot v buf)
    (hrun : createLoop v name dir n f c buf d = (.ok u, d')) :
    (∃ f' buf' x i, f'.dirent = f.dirent ∧ HoldsCluster v d x buf' ∧ x ∈ c :: l ∧
      i < (v.clusterBytes + 31) / direntSize ∧
      isFreeSlot (readEnt d (clusterAddr v x + direntSize * i)) = true ∧
      createFileDirent v f' name dir buf' i x d = (.ok u, d')) ∨
    ∃ f', f'.dirent = f.dirent ∧
      createInNew v f' name dir ((c :: l).getLast (List.cons_ne_nil c l)) d = (.ok u, d') := by
  induction n generalizing f c l buf with
  | zero => exact absurd (congrArg Prod.fst hrun) (by simp [createLoop, FatM.stop])
  | succ n ih =>
      have hc := hchain.inRange c List.mem_cons_self
      have hnormal := hc.2.1
      by_cases hfit : f.byteOffset + v.clusterBytes < 2 ^ 32
      · obtain ⟨buf', hholds, hpass⟩ := createLoop_pass (d := d) hg hc hdir hstart hcur hdvd hfit name dir n c buf
        rw [hpass] at hrun
        cases l with
        | nil =>
            rw [if_pos hchain.tail.eof_of_nil] at hrun
            exact Or.inr ⟨_, by rfl, hrun⟩
        | cons y l =>
            have hy : fatEntry v d c = y := hchain.tail.head_eq
            have htail := hchain.tail
            have hyr := htail.inRange y List.mem_cons_self
            have heof : clusEof y = false := by
              rw [← Bool.not_eq_true, clusEof_iff]
              have := hyr.2.1
              omega
            rw [hy] at htail
            rw [hy, heof, if_neg Bool.false_ne_true] at hrun
            cases hi : firstIndex (fun i => isFreeSlot (readEnt buf' (direntSize * i)))
                ((v.clusterBytes + 31) / direntSize) 0 with
            | some i =>
                rw [hi] at hrun
                have hslots := hholds.firstFree_eq hg
                rw [hi, Option.map_some] at hslots
                have hlt := (firstIndex_spec hi).2.1
                exact Or.inl ⟨_, buf', c, i, by rfl, hholds, List.mem_cons_self, by omega,
                  (firstFree_eq_some hslots).2, hrun⟩
            | none =>
                rw [hi] at hrun
                have hbuf' : NoFreeSlot v buf' := noFreeSlot_iff.mpr hi
                rcases ih (f := f.atPosition y (f.byteOffset + v.clusterBytes)) htail hdir hstart rfl
                  (dvd_add hdvd (dvd_refl _)) hfit (Or.inr hbuf') hrun with
                  ⟨f', buf'', x, i, hf', hholds', hx, hrest⟩ | ⟨f', hf', hnew⟩
                · exact Or.inl ⟨f', buf'', x, i, hf', hholds', List.mem_cons_of_mem _ hx, hrest⟩
                · exact Or.inr ⟨f', hf', hnew⟩
      · -- The handle does not move, and the buffer has no free slot: the loop goes on for ever.
        have heof : clusEof f.currentCluster = false := by
          rw [hcur, ← Bool.not_eq_true, clusEof_iff]
          omega
        have hread := fatReadFile_stuck (d := d) hg (fun _ => 0) hdir hstart heof (by omega) hoff (by omega)
        have hnone : NoFreeSlot v buf := by
          refine hbuf.resolve_left fun hzero => hfit ?_
          have hspc := hg.sectorsPerCluster_lt
          rw [hzero, hg.clusterBytes]
          unfold sectorSize
          omega
        rw [createLoop_read hread, heof, if_neg Bool.false_ne_true, patch_nil, noFreeSlot_iff.mp hnone,
          hcur] at hrun
        exact ih hchain hdir hstart hcur hdvd hoff hbuf hrun

end Loop

/-! ## The loop in the root directory -/

/-- In a root directory of full blocks, the loop of a creation that returns ends at a free slot. -/
theorem AtRootBlock.createLoop_ok (hv : Aligned v) {j pc : Nat} (hf : AtRootBlock v f j)
    (hpos : 0 < v.rootSectors) (hj : v.sb.sectorsPerCluster * j ≤ v.rootSectors)
    (hbuf : j = 0 ∨ NoFreeSlot v buf) (hrun : createLoop v name dir n f pc buf d = (.ok u, d')) :
    ∃ f' buf' k i pc', AtRootBlock v f' (k + 1) ∧ HoldsBlock v d k buf' ∧
      v.sb.sectorsPerCluster * (k + 1) ≤ v.rootSectors ∧ i < (v.clusterBytes + 31) / direntSize ∧
      isFreeSlot (readEnt d (sectorSize * (v.rootDirStart + v.sb.sectorsPerCluster * k) + direntSize * i)) =
        true ∧
      createFileDirent v f' name dir buf' i pc' d = (.ok u, d') := by
  have hany := hv.toGeometry.anyRoot
  induction n generalizing f j pc buf with
  | zero => exact absurd (congrArg Prod.fst hrun) (by simp [createLoop, FatM.stop])
  | succ n ih =>
      by_cases hnext : v.sb.sectorsPerCluster * (j + 1) ≤ v.rootSectors
      · obtain ⟨f', buf', hf', -, hholds, hpass⟩ := hf.createLoop_pass (d := d) hany hnext name dir n pc buf
        rw [hpass] at hrun
        cases hi : firstIndex (fun i => isFreeSlot (readEnt buf' (direntSize * i)))
            ((v.clusterBytes + 31) / direntSize) 0 with
        | some i =>
            rw [hi] at hrun
            have hslots := hholds.firstFree_eq hany
            rw [hi, Option.map_some] at hslots
            have hlt := (firstIndex_spec hi).2.1
            exact ⟨f', buf', j, i, pc, hf', hholds, hnext, by omega, (firstFree_eq_some hslots).2, hrun⟩
        | none =>
            rw [hi] at hrun
            exact ih hf' hnext (Or.inr (noFreeSlot_iff.mpr hi)) hrun
      · -- The blocks are used up.
        obtain ⟨m, hm⟩ := hv.root_dvd
        have hlt : m < j + 1 := by
          rw [hm] at hnext
          exact Nat.lt_of_not_le fun hle => hnext (Nat.mul_le_mul_left _ hle)
        have hle : j ≤ m := by
          rw [hm] at hj
          exact Nat.le_of_mul_le_mul_left hj hv.sectorsPerCluster_pos
        obtain rfl : j = m := by omega
        have hne : j ≠ 0 := by
          rintro rfl
          rw [hm, Nat.mul_zero] at hpos
          exact Nat.lt_irrefl 0 hpos
        have hhang : createLoop v name dir (n + 1) f pc buf d = (.error .hang, d) :=
          createLoop_hang hany hf.toRootHandle hf.current hf.offset hj (hbuf.resolve_left hne)
            (by rw [← hm, Nat.sub_self]; rfl)
        exact absurd (congrArg Prod.fst (hhang.symm.trans hrun)) (by simp)

/-! ## The disk after the creation -/

section Disk

variable (hv : Aligned v) {i x y pc : Nat}
include hv

/-- The entry is in its slot and its cluster is marked, when a cluster is left afterwards. -/
theorem createFileDirent_entered {a : Nat} (ha : sectorSize * v.rootDirStart ≤ a)
    (hroot : f.dirent.startCluster = clusRoot → ∀ e, setBlock d
      (sectorSize * u32 (sub32 (v.rootDirStart + f.byteOffset / v.sb.bytesPerSector)
        v.sb.sectorsPerCluster + direntSize * i / v.sb.bytesPerSector)) sectorSize
      (fun k => writeEnt buf (direntSize * i) e
        (direntSize * i / v.sb.bytesPerSector * v.sb.bytesPerSector + k)) = writeEnt d a e)
    (hdir : f.dirent.startCluster ≠ clusRoot → 2 ≤ pc ∧ pc < 2 ^ 16 ∧
      ∀ e, setCluster v d pc (writeEnt buf (direntSize * i) e) = writeEnt d a e)
    (hrun : createFileDirent v f name dir buf i pc d = (.ok u, d')) (hroom : RoomLeft v d') :
    ∃ y ∈ freeClusters v d, d' = entered v d name dir a y pc := by
  obtain ⟨y, hcases, rfl⟩ := createFileDirent_ok hv hroot hdir hrun
  rcases hcases with hy | ⟨hnone, -⟩
  · exact ⟨y, hy, rfl⟩
  · refine absurd (RoomLeft.of_created hv (fun z hz => ?_) hroom) hnone
    exact writeEnt_of_outside d (Or.inl (by omega))

theorem createFileDirent_entered_cluster (hstart : f.dirent.startCluster ≠ 0) (hx : InRange v x)
    (hholds : HoldsCluster v d x buf) (hi : i < (v.clusterBytes + 31) / direntSize)
    (hrun : createFileDirent v f name dir buf i x d = (.ok u, d')) (hroom : RoomLeft v d') :
    ∃ y ∈ freeClusters v d, d' = entered v d name dir (clusterAddr v x + direntSize * i) y x := by
  have hlow := hx.1
  have hhigh := hx.2.1
  refine createFileDirent_entered hv ?_ (fun hroot => absurd hroot hstart) (fun _ => ?_) hrun hroom
  · exact (hv.root_le_clusterAddr x).trans (Nat.le_add_right _ _)
  · exact ⟨by omega, by omega, fun e => setCluster_writeEnt hholds (hv.slot_le hi)⟩

theorem createFileDirent_entered_root {k : Nat} (hf : AtRootBlock v f (k + 1)) (hholds : HoldsBlock v d k buf)
    (hk : v.sb.sectorsPerCluster * (k + 1) ≤ v.rootSectors) (hi : i < (v.clusterBytes + 31) / direntSize)
    (hrun : createFileDirent v f name dir buf i pc d = (.ok u, d')) (hroom : RoomLeft v d') :
    ∃ y ∈ freeClusters v d, d' = entered v d name dir
      (sectorSize * (v.rootDirStart + v.sb.sectorsPerCluster * k) + direntSize * i) y pc := by
  refine createFileDirent_entered hv ?_ (fun _ => hf.setBlock_slot hv.toGeometry.anyRoot hholds hi hk)
    (fun hne => absurd hf.root hne) hrun hroom
  exact (Nat.mul_le_mul_left _ (Nat.le_add_right _ _)).trans (Nat.le_add_right _ _)

/-- A new cluster takes the entry. -/
theorem createInNew_entered {last : Nat} (hstart : f.dirent.startCluster ≠ 0) (hlast : InRange v last)
    (hrun : createInNew v f name dir last d = (.ok u, d')) (hroom : RoomLeft v d') :
    ∃ x ∈ freeClusters v d, ∃ y ∈ freeClusters v d, y ≠ x ∧
      d' = entered v (grown v d last x) name dir (clusterAddr v x) y x := by
  have hg := hv.toGeometry
  unfold createInNew at hrun
  obtain ⟨x, d₁, hx, hrest⟩ := FatM.bind_eq_ok hrun
  obtain ⟨rfl, hcases⟩ := fatGetFreeCluster_ok hv hx
  obtain ⟨hxlow, hxlt, hxfat⟩ : 3 ≤ x ∧ x < 2 ^ 16 ∧ x < 256 * v.sb.sectorsFat := by
    rcases hcases with hmem | ⟨-, hrange⟩
    · obtain ⟨hr, -⟩ := mem_freeClusters.mp hmem
      have := hr.2.1
      exact ⟨hr.1, by omega, hr.2.2⟩
    · exact hrange
  rw [FatM.bind_ok (writeFat_run hg _ x hlast.2.2), FatM.bind_ok (writeFat_run hg _ 0xFFFF hxfat)] at hrest
  have hslot : 0 + direntSize ≤ v.clusterBytes := by
    have := hg.le_clusterBytes
    unfold direntSize
    omega
  have hwrite : ∀ e, setCluster v (linked v d₁ last x) x (writeEnt (fun _ => 0) (direntSize * 0) e) =
      writeEnt (grown v d₁ last x) (clusterAddr v x) e := by
    intro e
    rw [Nat.mul_zero, ← setCluster_fill x fun _ => 0, setCluster_writeEnt holdsCluster_setCluster hslot,
      Nat.add_zero]
    rfl
  obtain ⟨y, hcases', rfl⟩ := createFileDirent_ok hv (fun hroot => absurd hroot hstart)
    (fun _ => ⟨by omega, hxlt, hwrite⟩) hrest
  have hsame : ∀ z < sectorSize * v.rootDirStart,
      writeEnt (grown v d₁ last x) (clusterAddr v x) (newDirent name dir y) z = linked v d₁ last x z := by
    intro z hz
    have hroot := hg.root_le_clusterAddr x
    rw [writeEnt_of_outside _ (Or.inl (by omega)), grown, setCluster,
      setBlock_of_outside _ (Or.inl (by omega))]
  have hleft : RoomLeft v (linked v d₁ last x) := RoomLeft.of_created hv hsame hroom
  have hxmem : x ∈ freeClusters v d₁ := by
    rcases hcases with hmem | ⟨hnone, hrange⟩
    · exact hmem
    · exact absurd hleft (not_roomLeft_link hnone hrange).1
  have hymem : y ∈ freeClusters v (linked v d₁ last x) := by
    rcases hcases' with hmem | ⟨hnone, -⟩
    · exact hmem
    · exact absurd hleft hnone
  obtain ⟨hyr, hyz⟩ := mem_freeClusters.mp hymem
  have hne : y ≠ x := by
    rintro rfl
    rw [linked, fatEntry_setFat_same (by decide)] at hyz
    exact absurd hyz (by decide)
  have hylast : y ≠ last := by
    rintro rfl
    rw [linked, fatEntry_setFat_of_ne hne, fatEntry_setFat_same (by omega)] at hyz
    omega
  rw [linked, fatEntry_setFat_of_ne hne, fatEntry_setFat_of_ne hylast] at hyz
  exact ⟨x, hxmem, y, mem_freeClusters.mpr ⟨hyr, hyz⟩, hne, rfl⟩

end Disk

/-! ## The tree after the creation -/

variable {t : Tree} {ks : List (List UInt8)}

/-- The new cluster of a directory has no entries. -/
theorem startCluster_grown (hg : Geometry v) (last : Nat) {x a : Nat} (ha : a ∈ clusterSlots v x) :
    (readEnt (grown v d last x) a).startCluster = 0 := by
  obtain ⟨i, hi, rfl⟩ := mem_clusterSlots.mp ha
  have hslot := hg.slot_le hi
  rw [grown, readEnt_setCluster hslot, readEnt_zero]
  rfl

section Tree

variable (hg : Geometry v) (h : Represents v d t)
include hg h

/-- A slot of a directory is not in a free cluster. -/
theorem Represents.inUse {A : List Nat} {b : Nat} (hA : t.Slots v ks A) (hb : b ∈ A) : InUse v d b := by
  cases hA with
  | root => exact inUse_rootSlots hg hb
  | dir hn _ => exact (h.isChain hn).inUse hg hb

/-- A directory with an empty cluster more. -/
theorem Represents.grown {P : List (List UInt8)} {p : Node} {last x : Nat} (hp : t P = some p)
    (hdir : p.isDir = true) (hl : p.chain = l ++ [last]) (hx : x ∈ freeClusters v d) :
    Represents v (Fat.grown v d last x) (Function.update t P (some { p with chain := l ++ [last, x] })) := by
  obtain ⟨hxr, hxz⟩ := mem_freeClusters.mp hx
  have hchain := h.isChain hp
  rw [hl] at hchain
  have hlast := hchain.inRange last (by simp)
  have hlink := Extends.link hchain hx
  have hext : Extends v (readEnt d p.addr).startCluster p.chain (l ++ [last, x]) d (Fat.grown v d last x) := by
    refine ⟨?_, hchain.grown hg hx, ?_, fun a ha => ?_⟩
    · rw [hl]
      exact hlink.grows
    · rw [hl]
      exact hlink.fresh
    · have hout : ¬(clusterAddr v x ≤ a ∧ a < clusterAddr v x + v.clusterBytes) := fun hin =>
        ha x (by simp) (Or.inr hin)
      rw [Fat.grown, setCluster, setBlock_of_outside _ (by omega)]
      exact hlink.frame a ha
  refine h.grow hg hp hext (fun _ a ha => ?_) fun _ c hc hnew a ha => ?_
  · exact (h.inUse hg (Tree.Slots.dir hp hdir) ha).readEnt_grown hg hx hlast.2.2
  · obtain rfl : c = x := by
      rw [hl] at hnew
      have hmem : c ∈ (l ++ [last]) ++ [x] := by simpa using hc
      exact List.mem_singleton.mp ((List.mem_append.mp hmem).resolve_left hnew)
    exact startCluster_grown hg last ha

end Tree

/-- What an edit of the tree does not change: where the entry of a node is, and its kind. -/
def Node.place (n : Node) : Nat × Bool := (n.addr, n.isDir)

variable (v) in
/-- The tree `t'` has a new node `P`, an empty file or directory, and the nodes of `t` at their places. In
the clusters of `P` there are no entries but links. -/
structure Created (d d' : Disk) (t t' : Tree) (P : List (List UInt8)) (dir : Bool) : Prop where
  represents : Represents v d' t'
  node : ∃ n, t' P = some n ∧ n.isDir = dir ∧ n.chain.length = 1 ∧ (readEnt d' n.addr).fileSize = 0 ∧
    ∀ a ∈ chainSlots v n.chain, (readEnt d' a).startCluster = 0 ∨ IsLink (readEnt d' a)
  others : ∀ ks ≠ P, (t' ks).map Node.place = (t ks).map Node.place
  kept : ∀ ks n, t ks = some n → readEnt d' n.addr = readEnt d n.addr

section Created

variable (hg : Geometry v) (h : Represents v d t) (hname : Ordinary name) (dir : Bool)
  (habsent : t (ks ++ [key name]) = none) {y : Nat}
include hg h hname habsent

/-- A slot of the directory takes the new entry. -/
theorem Represents.created_slot {A : List Nat} {a pc : Nat} (hA : t.Slots v ks A) (ha : a ∈ A)
    (hfree : (readEnt d a).startCluster = 0) (hy : y ∈ freeClusters v d) :
    ∃ t', Created v d (entered v d name dir a y pc) t t' (ks ++ [key name]) dir := by
  obtain ⟨hyr, -⟩ := mem_freeClusters.mp hy
  have hlt := hyr.2.1
  have hkind : isDirectory (newDirent name dir y) = dir := isDirectory_newDirent hname
  have hadd : Represents v (entered v d name dir a y pc) (Function.update t (ks ++ [key name])
      (some ⟨a, isDirectory (newDirent name dir y), [y]⟩)) :=
    h.add hg hA ha hy hfree habsent (fun i hi => newDirent_of_le hi) (entKey_newDirent hname)
      (startCluster_newDirent (by omega)) (live_newDirent hname hyr) fun _ i _ => newBlock_slot y pc i
  have hent : ∀ {ks' A' b}, t.Slots v ks' A' → b ∈ A' → readEnt (entered v d name dir a y pc) b =
      if b = a then newDirent name dir y else readEnt d b := fun hA' hb =>
    h.readEnt_add hg hA ha hy (fun i hi => newDirent_of_le hi) hA' hb
  refine ⟨_, hadd, ⟨_, Function.update_self .., hkind, rfl, ?_, fun b hb => ?_⟩, fun ks' hne => ?_,
    fun ks' n hn => ?_⟩
  · change (readEnt (entered v d name dir a y pc) a).fileSize = 0
    rw [hent hA ha, if_pos rfl, fileSize_newDirent hname]
  · obtain ⟨c, hc, hslot⟩ := mem_chainSlots.mp hb
    obtain rfl := List.mem_singleton.mp hc
    obtain ⟨i, hi, rfl⟩ := mem_clusterSlots.mp hslot
    rw [entered, readEnt_setCluster (hg.slot_le hi)]
    exact newBlock_slot c pc i
  · rw [Function.update_of_ne hne]
  · obtain ⟨ks₀, A₀, hA₀, hmem⟩ := h.placed_of hn
    have hne : n.addr ≠ a := by
      rintro rfl
      exact (h.isChain hn).start_ne_zero hfree
    rw [hent hA₀ hmem, if_neg hne]

/-- A new cluster of the directory takes the new entry. -/
theorem Represents.created_grown {p : Node} {last x : Nat} (hp : t ks = some p) (hdir : p.isDir = true)
    (hl : p.chain = l ++ [last]) (hx : x ∈ freeClusters v d) (hy : y ∈ freeClusters v d) (hne : y ≠ x) :
    ∃ t', Created v d (entered v (Fat.grown v d last x) name dir (clusterAddr v x) y x) t t'
      (ks ++ [key name]) dir := by
  have hgrown := h.grown hg hp hdir hl hx
  have hchain := h.isChain hp
  rw [hl] at hchain
  have hlast := hchain.inRange last (by simp)
  have hyd : y ∈ freeClusters v (Fat.grown v d last x) := by
    refine mem_freeClusters.mpr ⟨(mem_freeClusters.mp hy).1, ?_⟩
    exact fatEntry_grown_of_free hg (hchain.fatEntry_ne_zero (by simp)) hy hne
  have hnode : Function.update t ks (some { p with chain := l ++ [last, x] }) ks =
      some { p with chain := l ++ [last, x] } := Function.update_self ..
  have hslot : clusterAddr v x ∈ clusterSlots v x := by
    refine mem_clusterSlots.mpr ⟨0, ?_, rfl⟩
    rw [hg.slots_eq]
    have := hg.sectorsPerCluster_pos
    omega
  have habsent' : Function.update t ks (some { p with chain := l ++ [last, x] }) (ks ++ [key name]) = none := by
    rw [Function.update_of_ne (by simp), habsent]
  obtain ⟨t', hmade⟩ := hgrown.created_slot hg hname dir habsent' (Tree.Slots.dir hnode hdir)
    (mem_chainSlots.mpr ⟨x, by simp, hslot⟩) (startCluster_grown hg last hslot) hyd
  refine ⟨t', hmade.represents, hmade.node, fun ks' hne' => ?_, fun ks' n hn => ?_⟩
  · rw [hmade.others ks' hne']
    by_cases hks : ks' = ks
    · rw [hks, hnode, hp]
      rfl
    · rw [Function.update_of_ne hks]
  · obtain ⟨ks₀, A₀, hA₀, hmem⟩ := h.placed_of hn
    obtain ⟨m, hm, haddr⟩ := exists_update_addr (l := l ++ [last, x]) hp hn
    rw [← haddr, hmade.kept ks' m hm, haddr, (h.inUse hg hA₀ hmem).readEnt_grown hg hx hlast.2.2]

end Created

variable (v) in
/-- A fresh handle on the directory with the path `ks`. -/
def OnNode (d : Disk) (t : Tree) (ks : List (List UInt8)) (f : Fat16File) : Prop :=
  (ks = [] ∧ AtRootBlock v f 0) ∨ ∃ p, t ks = some p ∧ p.isDir = true ∧ f.dirent = readEnt d p.addr ∧
    f.currentCluster = f.dirent.startCluster ∧ f.byteOffset = 0

/-- A creation that completes adds a node to the tree. -/
theorem Represents.fatCreateFile_ok (hv : Aligned v) (hpos : 0 < v.rootSectors) (h : Represents v d t)
    (hf : OnNode v d t ks f) (hname : Ordinary name) (habsent : t (ks ++ [key name]) = none)
    (hrun : fatCreateFile v n f name dir d = (.ok u, d')) (hroom : RoomLeft v d') :
    ∃ t', Created v d d' t t' (ks ++ [key name]) dir := by
  have hg := hv.toGeometry
  unfold fatCreateFile at hrun
  rcases hf with ⟨rfl, hat⟩ | ⟨p, hp, hdir, hent, hcur, hoff⟩
  · obtain ⟨f', buf', k, i, pc, hf', hholds, hk, hi, hfree, hmade⟩ :=
      hat.createLoop_ok hv hpos (by simp) (Or.inl rfl) hrun
    obtain ⟨y, hy, rfl⟩ := createFileDirent_entered_root hv hf' hholds hk hi hmade hroom
    refine h.created_slot hg hname dir habsent Tree.Slots.root ?_ (isFreeSlot_startCluster hfree) hy
    rw [hg.slots_eq] at hi
    rw [Nat.mul_succ] at hk
    refine mem_sectorSlots.mpr ⟨16 * (v.sb.sectorsPerCluster * k) + i, by omega, ?_⟩
    unfold sectorSize direntSize
    omega
  · have hchain := h.isChain hp
    have hne := List.ne_nil_of_mem (h.start_mem hp)
    obtain ⟨c, l, hl⟩ := List.exists_cons_of_ne_nil hne
    rw [hl] at hchain
    have hc : (readEnt d p.addr).startCluster = c := hchain.head_eq
    rw [hc] at hchain
    have hstart : f.dirent.startCluster ≠ 0 := by
      rw [hent]
      exact (h.isChain hp).start_ne_zero
    have hisDir : isDirectory f.dirent = true := by rw [hent, h.kind hp, hdir]
    rw [hent] at hcur hrun
    rw [hc] at hcur hrun
    rcases createLoop_ok hg hchain hisDir hstart hcur (hoff ▸ dvd_zero _) (by omega) (Or.inl hoff) hrun with
      ⟨f', buf', x, i, hf', hholds, hx, hi, hfree, hmade⟩ | ⟨f', hf', hmade⟩
    · rw [← hf'] at hstart
      obtain ⟨y, hy, rfl⟩ := createFileDirent_entered_cluster hv hstart (hchain.inRange x hx) hholds hi hmade hroom
      refine h.created_slot hg hname dir habsent (Tree.Slots.dir hp hdir) ?_
        (isFreeSlot_startCluster hfree) hy
      rw [hl]
      exact mem_chainSlots.mpr ⟨x, hx, mem_clusterSlots.mpr ⟨i, hi, rfl⟩⟩
    · rw [← hf'] at hstart
      have hlast := hchain.inRange _ (List.getLast_mem (List.cons_ne_nil c l))
      obtain ⟨x, hx, y, hy, hxy, rfl⟩ := createInNew_entered hv hstart hlast hmade hroom
      have hsplit : p.chain = (c :: l).dropLast ++ [(c :: l).getLast (List.cons_ne_nil c l)] := by
        rw [hl]
        exact (List.dropLast_append_getLast _).symm
      exact h.created_grown hg hname dir habsent hp hdir hsplit hx hy hxy

end TsOs.Fat
