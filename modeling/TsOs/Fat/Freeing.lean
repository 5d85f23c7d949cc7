import TsOs.Fat.Chains

/-!
# Freeing along any FAT

`fat_free_clusters_until_end` has no bound and keeps no record of the clusters it has seen.
Every round clears the entry that it leaves, so a cluster that is reached again has no
successor and the loop stops behind it. The entries that are cleared are those of the walk
along the links that the FAT has at the start, be they a chain, a cycle or a path that
runs into another one.
-/

namespace TsOs.Fat
open ByteMemory LinkPath

/-- A FAT of 512-byte sectors that has an entry for every 16-bit number. -/
structure WholeFat (v : Fat16Volume) : Prop where
  bytesPerSector : v.sb.bytesPerSector = sectorSize
  covers : 2 ^ 16 ≤ 256 * v.sb.sectorsFat
  fits : v.fatStart + v.sb.sectorsFat ≤ 2 ^ 16

variable (v : Fat16Volume)

/-- The clusters of `l` are reached from `c` along the links, up to the first number `e` that is no
cluster or has been met before. -/
abbrev ClusterWalk (d : Disk) (c : Nat) (l : List Nat) (e : Nat) : Prop :=
  Walk (fatEntry v d) (fun x => clusNormal x = true) c l e

variable {v} {d : Disk} {c e n : Nat} {l A : List Nat}

theorem WholeFat.sector_lt (hv : WholeFat v) (hc : clusNormal c = true) : v.fatStart + c / 256 < 2 ^ 16 := by
  have hle := (clusNormal_iff.mp hc).2
  have hcovers := hv.covers
  have hfits := hv.fits
  omega

/-- The clusters that the driver follows. -/
theorem mem_clusters (hc : clusNormal c = true) : c ∈ Finset.Icc 3 0xFFEF :=
  Finset.mem_Icc.mpr (clusNormal_iff.mp hc)

theorem exists_clusterWalk (d : Disk) (c : Nat) : ∃ l e, ClusterWalk v d c l e :=
  exists_walk (Finset.Icc 3 0xFFEF) (fun _ hx => mem_clusters hx) c

theorem clusterWalk_length_le (h : ClusterWalk v d c l e) : l.length ≤ 0xFFED := by
  have hle := h.length_le (Finset.Icc 3 0xFFEF) fun _ hx => mem_clusters hx
  rwa [Nat.card_Icc] at hle

/-- One round at a cluster, when the entries of `A` have been cleared. -/
theorem fatFreeClustersUntilEnd_round (hv : WholeFat v) (hc : clusNormal c = true) :
    fatFreeClustersUntilEnd v (n + 1) c (freed v d A) =
      fatFreeClustersUntilEnd v n (if c ∈ A then 0 else fatEntry v d c) (freed v d (A ++ [c])) := by
  have hlt := hv.sector_lt hc
  rw [fatFreeClustersUntilEnd, if_pos hc,
    FatM.bind_ok (fatGetNextCluster_of_lt hv.bytesPerSector _ hlt),
    FatM.bind_ok (writeFat_of_lt hv.bytesPerSector _ 0 hlt), fatEntry_freed, setFat_zero, freed_freed]

theorem fatFreeClustersUntilEnd_stop (hc : ¬clusNormal c = true) :
    fatFreeClustersUntilEnd v (n + 1) c d = (.ok (), d) := by
  rw [fatFreeClustersUntilEnd, if_neg hc]
  rfl

/-- The loop clears the entries of the rest `l` of a walk after those of `A`. -/
theorem fatFreeClustersUntilEnd_rest (hv : WholeFat v) (hpath : Path (fatEntry v d) c l e)
    (hnormal : ∀ x ∈ l, clusNormal x = true) (hnodup : (A ++ l).Nodup)
    (hstop : clusNormal e = true → e ∈ A ++ l) (hn : l.length + 2 ≤ n) :
    fatFreeClustersUntilEnd v n c (freed v d A) = (.ok (), freed v d (A ++ l)) := by
  induction l generalizing A c n with
  | nil =>
      obtain rfl : c = e := hpath
      obtain ⟨n, rfl⟩ : ∃ m, n = m + 2 := ⟨n - 2, by simp at hn; omega⟩
      rw [List.append_nil] at hstop ⊢
      by_cases hc : clusNormal c = true
      · -- The entry of a cluster met before is zero by now, and clearing it again changes nothing.
        have hmem := hstop hc
        have hsame : freed v d (A ++ [c]) = freed v d A := freed_congr fun x => by
          rw [List.mem_append, List.mem_singleton]
          exact ⟨fun hx => hx.elim id fun heq => heq ▸ hmem, Or.inl⟩
        rw [fatFreeClustersUntilEnd_round hv hc, if_pos hmem, hsame]
        exact fatFreeClustersUntilEnd_stop (by decide)
      · exact fatFreeClustersUntilEnd_stop hc
  | cons x l ih =>
      obtain ⟨rfl, htail⟩ := hpath
      rw [List.length_cons] at hn
      obtain ⟨n, rfl⟩ : ∃ m, n = m + 1 := ⟨n - 1, by omega⟩
      have hnot : c ∉ A := fun hmem => (List.nodup_append.mp hnodup).2.2 c hmem c (by simp) rfl
      have happend : A ++ c :: l = A ++ [c] ++ l := by simp
      rw [happend] at hnodup hstop ⊢
      rw [fatFreeClustersUntilEnd_round hv (hnormal c (by simp)), if_neg hnot]
      exact ih htail (fun y hy => hnormal y (by simp [hy])) hnodup hstop (by omega)

theorem fatFreeClustersUntilEnd_walk (hv : WholeFat v) (h : ClusterWalk v d c l e) (hn : l.length + 2 ≤ n) :
    fatFreeClustersUntilEnd v n c d = (.ok (), freed v d l) := by
  have hrest := fatFreeClustersUntilEnd_rest (A := []) hv h.path h.nodes h.nodup h.stop hn
  rwa [freed_nil] at hrest

/-- On every FAT the loop ends, and what it clears are the entries of the clusters that are reached from
its start. -/
theorem fatFreeClustersUntilEnd_frees (hv : WholeFat v) (d : Disk) (c : Nat) :
    ∃ l e d', ClusterWalk v d c l e ∧
      (∀ n, 2 ^ 16 ≤ n → fatFreeClustersUntilEnd v n c d = (.ok (), d')) ∧
      ∀ x, fatEntry v d' x = if x ∈ l then 0 else fatEntry v d x := by
  obtain ⟨l, e, hwalk⟩ := exists_clusterWalk (v := v) d c
  have hlen := clusterWalk_length_le hwalk
  exact ⟨l, e, freed v d l, hwalk, fun n hn => fatFreeClustersUntilEnd_walk hv hwalk (by omega), fatEntry_freed⟩

/-- A volume that is a FAT and nothing else. -/
def fatOnly : Fat16Volume := ⟨⟨512, 1, 0, 1, 0, 256, 0⟩, 0, 0, 0, 256, 256, 512⟩

theorem wholeFat_fatOnly : WholeFat fatOnly := ⟨rfl, by decide, by decide⟩

/-- Cluster 5 leads into the cycle of 3 and 4. -/
def cyclicFat : Disk :=
  setFat fatOnly (setFat fatOnly (setFat fatOnly (fun _ => 0xFF) 3 4) 4 3) 5 3

theorem fatFreeClustersUntilEnd_frees_sample : ∃ d',
    (∀ n, 2 ^ 16 ≤ n → fatFreeClustersUntilEnd fatOnly n 5 cyclicFat = (.ok (), d')) ∧
    [2, 3, 4, 5, 6].map (fatEntry fatOnly d') = [0xFFFF, 0, 0, 0, 0xFFFF] := by
  obtain ⟨l, e, d', hwalk, hrun, hentry⟩ := fatFreeClustersUntilEnd_frees wholeFat_fatOnly cyclicFat 5
  have hknown : ClusterWalk fatOnly cyclicFat 5 [5, 3, 4] 3 :=
    ⟨⟨rfl, by decide, by decide, (by decide : fatEntry fatOnly cyclicFat 4 = 3)⟩, by decide, by decide,
      by decide⟩
  obtain ⟨rfl, -⟩ := hwalk.unique hknown
  refine ⟨d', hrun, ?_⟩
  simp only [List.map_cons, List.map_nil, hentry]
  decide

end TsOs.Fat
