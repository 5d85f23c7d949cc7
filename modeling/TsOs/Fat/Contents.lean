import TsOs.Fat.Chains

/-!
# The contents of a file

Byte `p` of a file is in the cluster number `p / cluster_bytes` of its chain. A chain
grows at its end by clusters that were free; what that leaves alone on the disk is said
by address, so that it applies to the FAT, to directories and to other files alike.
-/

namespace TsOs.Fat
open ByteMemory LinkPath

variable (v : Fat16Volume)

/-- Byte `p` of a file with the clusters `l`. -/
def fileByte (d : Disk) (l : List Nat) (p : Nat) : UInt8 :=
  d (clusterAddr v (l.getD (p / v.clusterBytes) 0) + p % v.clusterBytes)

/-- The first `n` bytes of a file with the clusters `l`. -/
def content (d : Disk) (l : List Nat) (n : Nat) : List UInt8 := (List.range n).map (fileByte v d l)

/-- The address belongs to the cluster or to its entry in the FAT. -/
def Occupies (c a : Nat) : Prop :=
  (fatCell v c ≤ a ∧ a < fatCell v c + 2) ∨
    (clusterAddr v c ≤ a ∧ a < clusterAddr v c + v.clusterBytes)

/-- Only bytes that belong to the clusters `l` differ. -/
def SameOff (l : List Nat) (d d' : Disk) : Prop := ∀ a, (∀ c ∈ l, ¬Occupies v c a) → d' a = d a

/-- The chain from `s` on has grown from `l` to `l'` by clusters that were free. -/
structure Extends (s : Nat) (l l' : List Nat) (d d' : Disk) : Prop where
  grows : l <+: l'
  chain : IsChain v d' s l'
  fresh : ∀ x ∈ l', x ∉ l → x ∈ freeClusters v d
  frame : SameOff v l' d d'

variable {v} {d d' d'' : Disk} {l l' l'' : List Nat} {s : Nat}

/-! ## What stays -/

namespace SameOff

theorem refl (l : List Nat) (d : Disk) : SameOff v l d d := fun _ _ => rfl

theorem mono (h : SameOff v l d d') (hsub : l ⊆ l') : SameOff v l' d d' :=
  fun a ha => h a fun c hc => ha c (hsub hc)

theorem trans (h : SameOff v l d d') (h' : SameOff v l d' d'') : SameOff v l d d'' :=
  fun a ha => (h' a ha).trans (h a ha)

theorem fatEntry_eq_of_le (hg : Geometry v) (h : SameOff v l d d') {c : Nat}
    (hle : fatCell v c + 2 ≤ sectorSize * v.rootDirStart) (hmem : c ∉ l) :
    fatEntry v d' c = fatEntry v d c := by
  refine load_congr fun a ha ha' => h a fun x hx => ?_
  have hne : x ≠ c := by
    rintro rfl
    exact hmem hx
  have hroot := hg.root_le_clusterAddr x
  have hapart := fatCell_apart (v := v) hne
  unfold Occupies
  omega

theorem fatEntry_eq (hg : Geometry v) (h : SameOff v l d d') {c : Nat} (hc : c < 256 * v.sb.sectorsFat) (hmem : c ∉ l) :
    fatEntry v d' c = fatEntry v d c :=
  h.fatEntry_eq_of_le hg (hg.fatCell_le hc) hmem

variable (hg : Geometry v) (hl : ∀ x ∈ l, InRange v x)
include hg hl

/-- Directories and files in other clusters keep their contents. -/
theorem cluster_eq (h : SameOff v l d d') {c i : Nat} (hc : 2 ≤ c) (hmem : c ∉ l)
    (hi : i < v.clusterBytes) : d' (clusterAddr v c + i) = d (clusterAddr v c + i) := by
  refine h _ fun x hx => ?_
  have hne : x ≠ c := by
    rintro rfl
    exact hmem hx
  have hx' := hl x hx
  have hx2 : 2 ≤ x := by
    have := hx'.1
    omega
  have hle := hg.fatCell_le hx'.2.2
  have hroot := hg.root_le_clusterAddr c
  have hapart := hg.clusterAddr_apart hx2 hc hne
  unfold Occupies
  omega

/-- So does the root directory. -/
theorem root_eq (h : SameOff v l d d') {a : Nat} (ha : sectorSize * v.rootDirStart ≤ a)
    (ha' : a < sectorSize * v.dataStart) : d' a = d a := by
  refine h a fun x hx => ?_
  have hle := hg.fatCell_le (hl x hx).2.2
  have hdata := le_clusterAddr (v := v) x
  unfold Occupies
  omega

end SameOff

/-! ## Growing chains -/

namespace Extends

theorem refl (h : IsChain v d s l) : Extends v s l l d d := by
  refine ⟨List.prefix_refl l, h, ?_, SameOff.refl l d⟩
  exact fun x hx hx' => absurd hx hx'

theorem trans (hg : Geometry v) (h : Extends v s l l' d d') (h' : Extends v s l' l'' d' d'') :
    Extends v s l l'' d d'' := by
  refine ⟨h.grows.trans h'.grows, h'.chain, ?_, (h.frame.mono h'.grows.subset).trans h'.frame⟩
  intro x hx hxl
  by_cases hx' : x ∈ l'
  · exact h.fresh x hx' hxl
  · obtain ⟨hrange, hfree⟩ := mem_freeClusters.mp (h'.fresh x hx hx')
    rw [h.frame.fatEntry_eq hg hrange.2.2 hx'] at hfree
    exact mem_freeClusters.mpr ⟨hrange, hfree⟩

/-- Each new cluster is one free cluster less. -/
theorem card_free (hg : Geometry v) (hold : IsChain v d s l) (h : Extends v s l l' d d') :
    (freeClusters v d').card + (l'.length - l.length) = (freeClusters v d).card := by
  obtain ⟨t, rfl⟩ := h.grows
  have hnodup := h.chain.nodup
  obtain ⟨-, ht, hdisj⟩ := List.nodup_append'.mp hnodup
  have hsub : t.toFinset ⊆ freeClusters v d := by
    intro x hx
    rw [List.mem_toFinset] at hx
    exact h.fresh x (List.mem_append_right _ hx) fun hxl => hdisj hxl hx
  have hfree : freeClusters v d' = freeClusters v d \ t.toFinset := by
    ext x
    rw [Finset.mem_sdiff, List.mem_toFinset, mem_freeClusters, mem_freeClusters]
    by_cases hx : x ∈ l ++ t
    · have hne := h.chain.fatEntry_ne_zero hx
      constructor
      · exact fun hx' => absurd hx'.2 hne
      · rintro ⟨hx', hxt⟩
        have hxl : x ∈ l := (List.mem_append.mp hx).resolve_right hxt
        exact absurd hx'.2 (hold.fatEntry_ne_zero hxl)
    · have heq : InRange v x → fatEntry v d' x = fatEntry v d x := fun hr =>
        h.frame.fatEntry_eq hg hr.2.2 hx
      have hxt : x ∉ t := fun hxt => hx (List.mem_append_right _ hxt)
      constructor
      · rintro ⟨hr, hz⟩
        exact ⟨⟨hr, (heq hr).symm.trans hz⟩, hxt⟩
      · rintro ⟨⟨hr, hz⟩, -⟩
        exact ⟨hr, (heq hr).trans hz⟩
  rw [hfree, Finset.card_sdiff_of_subset hsub, List.toFinset_card_of_nodup ht, List.length_append]
  have hle := Finset.card_le_card hsub
  rw [List.toFinset_card_of_nodup ht] at hle
  omega

/-- A free cluster is linked behind the last one. -/
theorem link {x y : Nat} (h : IsChain v d s (l ++ [x])) (hy : y ∈ freeClusters v d) :
    Extends v s (l ++ [x]) (l ++ [x, y]) d (setFat v (setFat v d x y) y 0xFFFF) := by
  obtain ⟨hyr, hyf⟩ := mem_freeClusters.mp hy
  have hyl : y ∉ l ++ [x] := fun hmem => h.fatEntry_ne_zero hmem hyf
  have hxy : x ≠ y := by
    rintro rfl
    exact hyl (by simp)
  have hxl : x ∉ l := by
    intro hxl
    exact (List.nodup_append'.mp h.nodup).2.2 hxl (by simp)
  have hent : ∀ z ∈ l, fatEntry v (setFat v (setFat v d x y) y 0xFFFF) z = fatEntry v d z := by
    intro z hz
    rw [fatEntry_setFat_of_ne, fatEntry_setFat_of_ne]
    · rintro rfl
      exact hxl hz
    · rintro rfl
      exact hyl (by simp [hz])
  refine ⟨⟨[y], by simp⟩, ?_, ?_, ?_⟩
  · obtain ⟨e, he, hpath⟩ := h.path
    refine ⟨?_, 0xFFFF, rfl, ?_⟩
    · intro z hz
      have hz' : z ∈ l ++ [x] ∨ z = y := by simpa [or_assoc] using hz
      exact hz'.elim (h.inRange z) fun heq => heq ▸ hyr
    · obtain ⟨hfirst, -⟩ := path_append_cons.mp hpath
      refine path_append_cons.mpr ⟨hfirst.congr hent, ?_⟩
      rw [fatEntry_setFat_of_ne hxy, fatEntry_setFat_same (by have := hyr.2.1; omega), path_cons]
      exact ⟨rfl, fatEntry_setFat_same (by decide)⟩
  · intro z hz hz'
    have : z = y := by
      have hz'' : z ∈ l ++ [x] ∨ z = y := by simpa [or_assoc] using hz
      exact hz''.resolve_left hz'
    exact this ▸ hy
  · intro a ha
    have hax := ha x (by simp)
    have hay := ha y (by simp)
    unfold Occupies at hax hay
    rw [setFat_of_outside (by omega), setFat_of_outside (by omega)]

/-- Writing to the clusters of a chain. -/
theorem patch (hg : Geometry v) {c q : Nat} {piece : List UInt8} (h : IsChain v d s l) (hc : c ∈ l)
    (hq : q + piece.length ≤ v.clusterBytes) :
    Extends v s l l d (patch d (clusterAddr v c + q) piece) := by
  have hroot := hg.root_le_clusterAddr c
  refine ⟨List.prefix_refl l, h.congr fun x hx => ?_, fun x hx hx' => absurd hx hx', ?_⟩
  · refine hg.fatEntry_congr (h.inRange x hx).2.2 fun a ha => patch_of_outside d ?_
    omega
  · intro a ha
    have hac := ha c hc
    unfold Occupies at hac
    exact patch_of_outside d (by omega)

end Extends

/-! ## Bytes of a file -/

section Bytes

variable (hg : Geometry v)
include hg

theorem fileByte_of_lt {i c q : Nat} (hi : l[i]? = some c) (hq : q < v.clusterBytes) :
    fileByte v d l (i * v.clusterBytes + q) = d (clusterAddr v c + q) := by
  have hpos := hg.clusterBytes_pos
  have hdiv : (i * v.clusterBytes + q) / v.clusterBytes = i := by
    rw [Nat.mul_comm, Nat.mul_add_div hpos, Nat.div_eq_of_lt hq, Nat.add_zero]
  have hmod : (i * v.clusterBytes + q) % v.clusterBytes = q := by
    rw [Nat.mul_comm, Nat.mul_add_mod, Nat.mod_eq_of_lt hq]
  unfold fileByte
  rw [hdiv, hmod, List.getD_eq_getElem?_getD, hi]
  rfl

/-- Bytes of the disk that agree on the clusters give the same file. -/
theorem fileByte_congr {p : Nat} (hp : p < l.length * v.clusterBytes)
    (h : ∀ x ∈ l, ∀ i < v.clusterBytes, d' (clusterAddr v x + i) = d (clusterAddr v x + i)) :
    fileByte v d' l p = fileByte v d l p := by
  have hlt : p / v.clusterBytes < l.length := Nat.div_lt_of_lt_mul (by rwa [Nat.mul_comm])
  unfold fileByte
  refine h _ ?_ _ (Nat.mod_lt _ hg.clusterBytes_pos)
  rw [List.getD_eq_getElem?_getD, List.getElem?_eq_getElem hlt]
  exact List.getElem_mem hlt

omit hg in
theorem fileByte_of_grows {p : Nat} (h : l <+: l') (hp : p < l.length * v.clusterBytes) :
    fileByte v d l' p = fileByte v d l p := by
  have hlt : p / v.clusterBytes < l.length := Nat.div_lt_of_lt_mul (by rwa [Nat.mul_comm])
  unfold fileByte
  obtain ⟨t, rfl⟩ := h
  rw [List.getD_eq_getElem?_getD, List.getD_eq_getElem?_getD, List.getElem?_append_left hlt]

/-- Writing inside of a cluster replaces that part of the file. -/
theorem fileByte_patch {i c q p : Nat} {piece : List UInt8} (hl : ∀ x ∈ l, InRange v x)
    (hnodup : l.Nodup) (hi : l[i]? = some c) (hq : q + piece.length ≤ v.clusterBytes)
    (hp : p < l.length * v.clusterBytes) :
    fileByte v (patch d (clusterAddr v c + q) piece) l p =
      if i * v.clusterBytes + q ≤ p ∧ p < i * v.clusterBytes + q + piece.length then
        piece.getD (p - (i * v.clusterBytes + q)) 0
      else fileByte v d l p := by
  have hpos := hg.clusterBytes_pos
  obtain ⟨j, r, hr, rfl⟩ : ∃ j r, r < v.clusterBytes ∧ p = j * v.clusterBytes + r :=
    ⟨p / v.clusterBytes, p % v.clusterBytes, Nat.mod_lt _ hpos, (Nat.div_add_mod' _ _).symm⟩
  have hj : j < l.length := by
    by_contra hge
    have := Nat.mul_le_mul_right v.clusterBytes (Nat.le_of_not_lt hge)
    omega
  have hx : l[j]? = some l[j] := List.getElem?_eq_getElem hj
  rw [fileByte_of_lt hg hx hr, fileByte_of_lt hg hx hr]
  by_cases hij : j = i
  · subst hij
    obtain rfl : l[j] = c := Option.some.inj (hx.symm.trans hi)
    unfold patch
    by_cases hin : q ≤ r ∧ r < q + piece.length
    · rw [if_pos (by omega), if_pos (by omega)]
      congr 1
      omega
    · rw [if_neg (by omega), if_neg (by omega)]
  · have hne : c ≠ l[j] := by
      intro heq
      exact hij ((List.getElem?_inj hj hnodup).mp (hx.trans (heq ▸ hi.symm)))
    have hc : InRange v c := hl c (List.mem_of_getElem? hi)
    have hlj : InRange v l[j] := hl _ (List.getElem_mem hj)
    have hapart := hg.clusterAddr_apart (by have := hc.1; omega) (by have := hlj.1; omega) hne
    -- The byte is in another cluster than the part that is written.
    have hout : ¬(i * v.clusterBytes + q ≤ j * v.clusterBytes + r ∧
        j * v.clusterBytes + r < i * v.clusterBytes + q + piece.length) := by
      rcases Nat.lt_or_gt_of_ne hij with hlt | hlt
      · have := Nat.mul_le_mul_right v.clusterBytes (Nat.succ_le_of_lt hlt)
        rw [Nat.succ_mul] at this
        omega
      · have := Nat.mul_le_mul_right v.clusterBytes (Nat.succ_le_of_lt hlt)
        rw [Nat.succ_mul] at this
        omega
    rw [if_neg hout, patch_of_outside _ (by omega)]

end Bytes

end TsOs.Fat
