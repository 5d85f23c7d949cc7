import TsOs.Fat.Allocation
import TsOs.Fat.Edits

/-!
# Creating

`_fat_create_file` reads the directory block by block and looks for a free slot. In a
subdirectory it adds a cluster as soon as it has read the last one; in the root it never
stops when there is no free slot. A creation that completes has made the directory longer
by at most one empty cluster and put the new entry into a free slot of it.
-/

namespace TsOs.Fat
open ByteMemory

variable {v : Fat16Volume} {d d' : Disk} {name : List UInt8} {dir : Bool} {y : Nat}

/-! ## The new entry -/

section Entries

/-- The new entry has the key, the attribute of a directory, and zeros, apart from the extension
and the cluster number. -/
theorem newDirent_apply (hlen : name.length ≤ 8) (hnul : 0 ∉ name) {i : Nat}
    (hi : i < 8 ∨ 11 ≤ i ∧ i < 26 ∨ 28 ≤ i) :
    newDirent name dir y i = if i < 8 then (key name).getD i 0 else
      if i = 11 ∧ dir = true then entAttrDir else 0 := by
  have hstart : newDirent name dir y i = (if dir then
      store8 (fat16FilenameFmt (fun _ => 0) (cstr name)) 11 entAttrDir
      else patch (fat16FilenameFmt (fun _ => 0) (cstr name)) 8 txtExt) i :=
    store_of_outside _ _ _ (by omega)
  have hfmt : fat16FilenameFmt (fun _ => 0) (cstr name) i =
      if i < 8 then (key name).getD i 0 else 0 := by
    rw [fat16FilenameFmt_apply hlen hnul]
    by_cases hlt : i < 8
    · rw [if_pos hlt, if_pos hlt]
    · rw [if_neg hlt, if_neg hlt, if_neg (by omega)]
  rw [hstart]
  cases dir with
  | true =>
      rw [if_pos rfl]
      by_cases h11 : i = 11
      · subst h11
        rfl
      · have hno : ¬(i = 11 ∧ true = true) := fun hand => h11 hand.1
        rw [store8_of_ne _ _ _ h11, hfmt, if_neg hno]
  | false =>
      have htxt : txtExt.length = 3 := rfl
      have hno : ¬(i = 11 ∧ false = true) := fun hand => Bool.false_ne_true hand.2
      rw [if_neg Bool.false_ne_true, patch_of_outside _ (by omega), hfmt, if_neg hno]

/-- The new entry has no bytes beyond its size, whatever the name is. -/
theorem newDirent_of_le {i : Nat} (hi : direntSize ≤ i) : newDirent name dir y i = 0 := by
  unfold direntSize at hi
  have hfmt : fat16FilenameFmt (fun _ => 0) (cstr name) i = 0 := by
    unfold fat16FilenameFmt fat16Pad strPad
    dsimp only
    rw [if_neg (by omega), if_neg (by omega), if_neg (by omega)]
    split
    · rfl
    · rw [if_neg (by omega)]
  have hstart : newDirent name dir y i = (if dir then
      store8 (fat16FilenameFmt (fun _ => 0) (cstr name)) 11 entAttrDir
      else patch (fat16FilenameFmt (fun _ => 0) (cstr name)) 8 txtExt) i :=
    store_of_outside _ _ _ (by omega)
  rw [hstart]
  split
  · rw [store8_of_ne _ _ _ (by omega), hfmt]
  · have htxt : txtExt.length = 3 := rfl
    rw [patch_of_outside _ (by omega), hfmt]

variable (hname : Ordinary name)
include hname

theorem entKey_newDirent : entKey (newDirent name dir y) = key name :=
  entKey_of_getD (key_length name) fun i hi => by
    rw [newDirent_apply hname.length_le hname.nul_not_mem (Or.inl hi), if_pos hi]

theorem isDirectory_newDirent : isDirectory (newDirent name dir y) = dir := by
  unfold isDirectory DirEnt.attr
  rw [newDirent_apply hname.length_le hname.nul_not_mem (by omega), if_neg (by decide)]
  cases dir <;> decide

omit hname in
theorem startCluster_newDirent (hy : y < 2 ^ 16) : (newDirent name dir y).startCluster = y :=
  (load_store_same _ 26 2 y).trans (Nat.mod_eq_of_lt hy)

theorem fileSize_newDirent : (newDirent name dir y).fileSize = 0 := by
  have hbytes : ∀ i < 4, newDirent name dir y (28 + i) = UInt8.ofNat (0 / 256 ^ i) := by
    intro i hi
    rw [newDirent_apply hname.length_le hname.nul_not_mem (by omega), Nat.zero_div, if_neg (by omega),
      if_neg (by omega)]
    rfl
  exact load_of_bytes hbytes

theorem Ordinary.head_key_ne : (key name).getD 0 0 ≠ deletedMark := by
  obtain ⟨x, xs, rfl⟩ := List.exists_cons_of_ne_nil hname.ne_nil
  have hx : x ≠ 0xE5 := fun heq => hname.head_ne (by rw [heq]; rfl)
  change upperCase x ≠ 0xE5
  unfold upperCase
  split
  next hlow =>
    intro heq
    have hge : 97 ≤ x.toNat := UInt8.le_iff_toNat_le.mp hlow.1
    have hle : x.toNat ≤ 122 := UInt8.le_iff_toNat_le.mp hlow.2
    have hnat : (x - 97 + 65).toNat = 229 := congrArg UInt8.toNat heq
    rw [UInt8.toNat_add, UInt8.toNat_sub_of_le _ _ hlow.1] at hnat
    have h97 : (97 : UInt8).toNat = 97 := rfl
    have h65 : (65 : UInt8).toNat = 65 := rfl
    omega
  next => exact hx

theorem live_newDirent (hy : InRange v y) : Live (newDirent name dir y) := by
  have hkey : entKey (newDirent name dir y) = key name := entKey_newDirent hname
  refine ⟨⟨?_, ?_⟩, ?_⟩
  · rw [startCluster_newDirent (by have := hy.2.1; omega)]
    exact hy.clusNormal
  · rw [isLink_iff, hkey]
    exact not_or.mpr ⟨hname.ne_dot, hname.ne_dotDot⟩
  · rw [newDirent_apply hname.length_le hname.nul_not_mem (by omega), if_pos (by decide)]
    exact hname.head_key_ne

end Entries

/-! ## The first cluster of a directory -/

theorem linkDirent_of_le {c i : Nat} {name : List UInt8} (hlen : name.length ≤ 8) (hnul : 0 ∉ name)
    (hi : direntSize ≤ i) : linkDirent name c i = 0 := by
  unfold direntSize at hi
  have hstart : linkDirent name c i =
      fat16FilenameFmt (store8 (fun _ => 0) 11 entAttrDir) (cstr name) i :=
    store_of_outside _ _ _ (by omega)
  rw [hstart, fat16FilenameFmt_apply hlen hnul, if_neg (by omega), if_neg (by omega),
    store8_of_ne _ _ _ (by omega)]

theorem entKey_linkDirent {c : Nat} {name : List UInt8} (hlen : name.length ≤ 8) (hnul : 0 ∉ name) :
    entKey (linkDirent name c) = key name := by
  refine entKey_of_getD (key_length name) fun i hi => ?_
  have hstart : linkDirent name c i =
      fat16FilenameFmt (store8 (fun _ => 0) 11 entAttrDir) (cstr name) i :=
    store_of_outside _ _ _ (by omega)
  rw [hstart, fat16FilenameFmt_apply hlen hnul, if_pos hi]

/-- A new directory has its two links and free slots. -/
theorem newBlock_slot (c pc i : Nat) :
    (readEnt (newBlock dir c pc) (direntSize * i)).startCluster = 0 ∨
      IsLink (readEnt (newBlock dir c pc) (direntSize * i)) := by
  have hdvd : direntSize ∣ 0 := dvd_zero _
  have hself : direntSize ∣ direntSize := dvd_refl _
  have hslot : direntSize ∣ direntSize * i := dvd_mul_right _ _
  unfold newBlock
  cases dir with
  | false =>
      left
      rw [if_neg Bool.false_ne_true, readEnt_zero]
      rfl
  | true =>
      rw [if_pos rfl, readEnt_writeEnt_slot hself hslot fun j hj =>
          linkDirent_of_le (by decide) (by decide) hj,
        readEnt_writeEnt_slot hdvd hslot fun j hj => linkDirent_of_le (by decide) (by decide) hj, readEnt_zero]
      split
      · right
        rw [isLink_iff, entKey_linkDirent (by decide) (by decide)]
        exact Or.inr rfl
      · split
        · right
          rw [isLink_iff, entKey_linkDirent (by decide) (by decide)]
          exact Or.inl rfl
        · exact Or.inl rfl

/-! ## The part behind the search -/

theorem setBlock_congr {a n : Nat} {b b' : Buf} (h : ∀ i < n, b i = b' i) :
    setBlock d a n b = setBlock d a n b' := by
  funext x
  unfold setBlock
  split
  · exact h _ (by omega)
  · rfl

section Dirent

variable (hv : Aligned v) {parent : Fat16File} {buf : Buf} {i pc : Nat} {u : Unit}
include hv

/-- The new entry is written, then the new cluster is marked and cleared. -/
theorem createFileDirent_ok {X : DirEnt → Disk}
    (hroot : parent.dirent.startCluster = clusRoot → ∀ e, setBlock d
      (sectorSize * u32 (sub32 (v.rootDirStart + parent.byteOffset / v.sb.bytesPerSector)
        v.sb.sectorsPerCluster + direntSize * i / v.sb.bytesPerSector)) sectorSize
      (fun k => writeEnt buf (direntSize * i) e
        (direntSize * i / v.sb.bytesPerSector * v.sb.bytesPerSector + k)) = X e)
    (hdir : parent.dirent.startCluster ≠ clusRoot → 2 ≤ pc ∧ pc < 2 ^ 16 ∧
      ∀ e, setCluster v d pc (writeEnt buf (direntSize * i) e) = X e)
    (h : createFileDirent v parent name dir buf i pc d = (.ok u, d')) :
    ∃ y, (y ∈ freeClusters v d ∨
        ¬RoomLeft v d ∧ 3 ≤ y ∧ y < 2 ^ 16 ∧ y < 256 * v.sb.sectorsFat) ∧
      d' = setCluster v (setFat v (X (newDirent name dir y)) y 0xFFFF) y (newBlock dir y pc) := by
  have hg := hv.toGeometry
  unfold createFileDirent at h
  obtain ⟨y, d₁, hy, hrest⟩ := FatM.bind_eq_ok h
  obtain ⟨rfl, hcases⟩ := fatGetFreeCluster_ok hv hy
  obtain ⟨hy2, hylt, hyfat⟩ : 2 ≤ y ∧ y < 2 ^ 16 ∧ y < 256 * v.sb.sectorsFat := by
    rcases hcases with hmem | ⟨-, hle, hlt, hfat⟩
    · obtain ⟨hr, -⟩ := mem_freeClusters.mp hmem
      have := hr.1
      have := hr.2.1
      exact ⟨by omega, by omega, hr.2.2⟩
    · exact ⟨by omega, hlt, hfat⟩
  refine ⟨y, hcases, ?_⟩
  dsimp only at hrest
  by_cases hstart : parent.dirent.startCluster = clusRoot
  · rw [if_pos hstart, FatM.bind_ok (ataWriteSector_run d₁ _ _ _), Nat.mul_one, hroot hstart,
      FatM.bind_ok (writeFat_run hg _ _ hyfat), fatWriteCluster_of_lt hg _ _ hy2 hylt] at hrest
    exact (congrArg Prod.snd hrest).symm
  · obtain ⟨hpc, hpclt, hX⟩ := hdir hstart
    rw [if_neg hstart, FatM.bind_ok (fatWriteCluster_of_lt hg d₁ _ hpc hpclt), hX,
      FatM.bind_ok (writeFat_run hg _ _ hyfat), fatWriteCluster_of_lt hg _ _ hy2 hylt] at hrest
    exact (congrArg Prod.snd hrest).symm

/-- When no room is left before, none is left after. -/
theorem RoomLeft.of_created {X : Disk} (hX : ∀ x < sectorSize * v.rootDirStart, X x = d x) {blk : Buf}
    (h : RoomLeft v (setCluster v (setFat v X y 0xFFFF) y blk)) : RoomLeft v d := by
  have hroot := hv.root_le_clusterAddr y
  have h₁ : RoomLeft v (setFat v X y 0xFFFF) :=
    h.of_same hv.toGeometry fun x hx => setBlock_of_outside _ (Or.inl (by omega))
  exact (h₁.of_setFat (by decide) (by decide)).of_same hv.toGeometry hX

end Dirent

end TsOs.Fat
