import Mathlib.Order.Interval.Set.Disjoint
import TsOs.Tasking.Sections
import Mathlib.Order.CompletePartialOrder

/-!
# The bytes of a loaded image

`create_task_address_space` rounds the start of the text down to a page, but not its source in the
image, so text that does not start on a page boundary is moved up by its page offset. Data that
starts in a slot below the text and goes on into the first slot of the text finds a table there
and is entered in an earlier one. An image that wraps around the end of the address space is not copied.

## Implementation notes

`Mathlib.Order.CompletePartialOrder` gives the order of sets that `Disjoint` is stated in.
-/

namespace TsOs.Tasking
open ByteMemory Paging

variable {s s' s₁ : Machine} {D dir stack p q i j k va size lma : Nat} {img : Image}

/-- The byte at a virtual address, if there is a page. -/
def byteAt (s : Machine) (D va : Nat) : Option UInt8 :=
  if PagePresent s D (va / frameSize) then
    some (UInt8.ofNat (pageData s D (va / frameSize) (va % frameSize / 4) / 256 ^ (va % 4)))
  else none

/-- The pages in which `size` bytes from `va` on lie. -/
def sectionPages (va size : Nat) : Set Nat :=
  Set.Ico (va / frameSize) ((va + size + (frameSize - 1)) / frameSize)

namespace Image

/-- Byte `off` of the image. -/
def byte (img : Image) (off : Nat) : UInt8 := img.mem (u32 (img.base + off))

/-- Text and data are in the address space. -/
structure Loaded (img : Image) (s : Machine) (D : Nat) : Prop where
  text : ∀ i < img.textSize, byteAt s D (img.vmaText + i) = some (img.byte (img.lmaText + i))
  data : ∀ i < img.dataSize, byteAt s D (img.vmaData + i) = some (img.byte (img.lmaData + i))

/-- The pages of the text, of the data and of the user stack are different, and lie below the kernel. -/
structure Separate (img : Image) : Prop where
  textBelow : (img.vmaText + img.textSize + (frameSize - 1)) / frameSize ≤ userPages
  dataBelow : (img.vmaData + img.dataSize + (frameSize - 1)) / frameSize ≤ userPages
  text_data : Disjoint (sectionPages img.vmaText img.textSize) (sectionPages img.vmaData img.dataSize)
  text_stack : Disjoint (sectionPages img.vmaText img.textSize) (sectionPages ustackFrame frameSize)
  data_stack : Disjoint (sectionPages img.vmaData img.dataSize) (sectionPages ustackFrame frameSize)

/-- A section of the image ends in front of the end of the address space. -/
def Fits (img : Image) (lma size : Nat) : Prop := u32 (img.base + lma) + size < 2 ^ 32

instance (img : Image) (lma size : Nat) : Decidable (img.Fits lma size) := inferInstanceAs (Decidable (_ < _))

/-- How many bytes are copied from the start of a section on: whole pages. -/
def copyLength (img : Image) (lma size : Nat) : Nat :=
  if img.Fits lma size then (size + (frameSize - 1)) / frameSize * frameSize else 0

/-- Every byte of the text is the one that is copied to its place: that one lies behind it by the page offset
of the text, and behind the copied pages there are zeros. -/
def TextInPlace (img : Image) : Prop :=
  ∀ i < img.textSize, img.byte (img.lmaText + i) =
    if img.vmaText % frameSize + i < img.copyLength img.lmaText img.textSize then
      img.byte (img.lmaText + (img.vmaText % frameSize + i))
    else 0

/-- The page lies in the slot in which the data starts, in a slot without pages of the text, or it has been
requested for the text. -/
def Provided (img : Image) (p : Nat) : Prop :=
  p / 1024 = img.vmaData / frameSize / 1024 ∨
    ¬(img.vmaText / frameSize / 1024 ≤ p / 1024 ∧
      p / 1024 ≤ (img.vmaText + img.textSize) / frameSize / 1024) ∨
    img.vmaText / frameSize ≤ p ∧ p ≤ (img.vmaText + img.textSize) / frameSize

/-- Every byte of the data has a page and is copied; or it is zero and its page, if it is not provided for, is
the one that comes with the user stack. -/
def DataInPlace (img : Image) : Prop :=
  ∀ i < img.dataSize,
    img.Provided ((img.vmaData + i) / frameSize) ∧ img.Fits img.lmaData img.dataSize ∨
      (img.Provided ((img.vmaData + i) / frameSize) ∨ (img.vmaData + i) / frameSize = ustackSlotPage) ∧
        img.byte (img.lmaData + i) = 0

end Image

/-! ## Sections -/

theorem mem_sectionPages (va : Nat) (hi : i < size) : (va + i) / frameSize ∈ sectionPages va size := by
  constructor
  · exact Nat.div_le_div_right (Nat.le_add_right va i)
  · unfold frameSize
    omega

theorem mem_ustackPages : userPages - 1 ∈ sectionPages ustackFrame frameSize :=
  ⟨by decide, by decide⟩

theorem Image.Separate.text_lt (h : img.Separate) (hp : p ∈ sectionPages img.vmaText img.textSize) : p < userPages :=
  Nat.lt_of_lt_of_le hp.2 h.textBelow

theorem Image.Separate.data_lt (h : img.Separate) (hp : p ∈ sectionPages img.vmaData img.dataSize) : p < userPages :=
  Nat.lt_of_lt_of_le hp.2 h.dataBelow

/-- The last page of a request for a section. -/
theorem section_end (hbelow : (va + size + (frameSize - 1)) / frameSize ≤ userPages)
    (hstack : Disjoint (sectionPages va size) (sectionPages ustackFrame frameSize)) :
    (va + size) / frameSize ≤ userPages ∧
      ((va + size) / frameSize < userPages ∨ va / frameSize = (va + size) / frameSize) := by
  have hsize : frameSize = 4096 := rfl
  have hpages : userPages = 786432 := by decide
  rw [hsize] at hbelow ⊢
  refine ⟨by omega, ?_⟩
  by_contra hcontra
  obtain ⟨hge, hne⟩ := not_or.mp hcontra
  refine Set.disjoint_left.mp hstack ⟨?_, ?_⟩ mem_ustackPages
  · rw [hsize]
    omega
  · rw [hsize]
    omega

/-- The pages that the loop reaches. A section that wraps around is not copied at all. -/
theorem copied_iff (hlt : size < 2 ^ 32) :
    u32 (img.base + lma) + k * frameSize < u32 (u32 (img.base + lma) + size) ↔
      img.Fits lma size ∧ k * frameSize < size := by
  have hbase : u32 (img.base + lma) < 2 ^ 32 := Nat.mod_lt _ (by decide)
  unfold Image.Fits
  generalize u32 (img.base + lma) = base at *
  by_cases hfits : base + size < 2 ^ 32
  · rw [u32_of_lt hfits, Nat.add_lt_add_iff_left]
    exact ⟨fun hk => ⟨hfits, hk⟩, And.right⟩
  · have hwrap : u32 (base + size) = base + size - 2 ^ 32 := by
      unfold u32
      omega
    rw [hwrap]
    exact iff_of_false (by omega) fun hboth => hfits hboth.1

theorem mem_of_copied (h : k * frameSize < size) : va / frameSize + k ∈ sectionPages va size := by
  refine ⟨Nat.le_add_right _ _, ?_⟩
  unfold frameSize at *
  omega

/-- Other pages are not copied to. -/
theorem Copied.outside (h : Copied img s s' D (va / frameSize) (u32 (img.base + lma))
      (u32 (u32 (img.base + lma) + size))) (hlt : size < 2 ^ 32) (hp : p < userPages) (hpresent : PagePresent s D p)
    (hout : p ∉ sectionPages va size) : ∀ j < 1024, pageData s' D p j = pageData s D p j := by
  intro j hj
  rcases Nat.lt_or_ge p (va / frameSize) with hbefore | hfrom
  · exact h.before p hbefore hpresent j hj
  · obtain ⟨k, rfl⟩ := Nat.exists_eq_add_of_le hfrom
    rw [h.data k hp hpresent j hj, copiedWord, if_neg]
    intro hcopied
    exact hout (mem_of_copied ((copied_iff hlt).mp hcopied).2)

/-- The pages that are copied end in front of the end of the address space. -/
def PagesFit (img : Image) (lma size : Nat) : Prop :=
  ∀ k, u32 (img.base + lma) + k * frameSize < u32 (u32 (img.base + lma) + size) →
    u32 (img.base + lma) + k * frameSize + frameSize < 2 ^ 32

/-- A byte of a page that has been copied, or zero. -/
def arriving (img : Image) (lma size off : Nat) : UInt8 :=
  if off < img.copyLength lma size then img.byte (lma + off) else 0

/-- The bytes of the words of a copied page. -/
theorem byteAt_copied {off : Nat} (hlt : size < 2 ^ 32) (hpresent : PagePresent s D (p + off / frameSize))
    (hdata : ∀ j < 1024, pageData s D (p + off / frameSize) j =
      copiedWord img (u32 (img.base + lma)) (u32 (u32 (img.base + lma) + size)) (off / frameSize) j 0)
    (hfits : PagesFit img lma size) :
    byteAt s D (p * frameSize + off) = some (arriving img lma size off) := by
  have hsize : frameSize = 4096 := rfl
  have hpage : (p * frameSize + off) / frameSize = p + off / frameSize := by
    rw [hsize]
    omega
  have hoff : (p * frameSize + off) % frameSize = off % frameSize := by
    rw [hsize]
    omega
  have hrest : (p * frameSize + off) % 4 = off % 4 := by
    rw [hsize]
    omega
  have hword : off % frameSize / 4 < 1024 := by
    rw [hsize]
    omega
  rw [byteAt, hpage, if_pos hpresent, hoff, hrest, hdata _ hword, copiedWord, arriving]
  have hreach : off < img.copyLength lma size ↔
      u32 (img.base + lma) + off / frameSize * frameSize < u32 (u32 (img.base + lma) + size) := by
    rw [copied_iff hlt, Image.copyLength]
    split
    next hfit =>
      rw [hsize, and_iff_right hfit]
      omega
    next hwrap => exact iff_of_false (Nat.not_lt_zero _) fun hboth => hwrap hboth.1
  by_cases hcopied : off < img.copyLength lma size
  · have hfit := hfits _ (hreach.mp hcopied)
    rw [if_pos (hreach.mp hcopied), if_pos hcopied, load_byte _ _ (Nat.mod_lt _ (by decide)), Image.byte,
      ← Nat.add_assoc]
    congr 2
    unfold u32 at *
    rw [hsize] at *
    omega
  · rw [if_neg (mt hreach.mpr hcopied), if_neg hcopied, Nat.zero_div]
    rfl

/-! ## The stages -/

/-- What `load_task` hands over: a directory that is a frame of its own and has the kernel's tables but none
below them, and a record that names it. -/
structure NewSpace (s : Machine) (stack D : Nat) : Prop where
  directory : Directory s D
  dir_ne_zero : D ≠ 0
  clear : ∀ d < 768, entrySet (word s D d) = false
  kernel : entrySet (word s D 768) = true
  record : peek s stack (taskWord + 1) = some (D * frameSize)

/-- The address space with the text. -/
structure TextLoaded (img : Image) (s : Machine) (D : Nat) : Prop where
  space : AddressSpace s D
  fits : PagesFit img img.lmaText img.textSize
  kernel : entrySet (word s D 768) = true
  slot_iff : ∀ d < 768, entrySet (word s D d) = true ↔
    img.vmaText / frameSize / 1024 ≤ d ∧ d ≤ (img.vmaText + img.textSize) / frameSize / 1024
  present_iff : ∀ p < userPages, PagePresent s D p ↔
    img.vmaText / frameSize ≤ p ∧ p ≤ (img.vmaText + img.textSize) / frameSize
  data : ∀ k, img.vmaText / frameSize + k < userPages → PagePresent s D (img.vmaText / frameSize + k) → ∀ j < 1024,
    pageData s D (img.vmaText / frameSize + k) j =
      copiedWord img (u32 (img.base + img.lmaText)) (u32 (u32 (img.base + img.lmaText) + img.textSize)) k j 0

theorem field_lt (img : Image) (i : Nat) : img.field i < 2 ^ 32 := load32_lt _ _

/-- The copy of a section ends in front of the kernel. -/
theorem section_last (hbelow : (va + size + (frameSize - 1)) / frameSize ≤ userPages) (vmaImg : Nat) :
    va / frameSize ≤ userPages ∧ u32 (vmaImg + size) ≤ vmaImg + (userPages - va / frameSize) * frameSize := by
  have hsize : frameSize = 4096 := rfl
  have hpages : userPages = 786432 := by decide
  have hle : u32 (vmaImg + size) ≤ vmaImg + size := Nat.mod_le _ _
  rw [hsize] at hbelow ⊢
  omega

theorem TextLoaded.of_steps (hs : AddressSpace s D) (hclear : ∀ d < 768, entrySet (word s D d) = false)
    (hkernel : entrySet (word s D 768) = true) (hdir : tempFrame s dir = some D) (hsep : img.Separate)
    (hrequest : requestRegionVmap s dir img.vmaText img.textSize pageFlgUsr = some s₁)
    (hcopy : copySection img dir (u32 (u32 (img.base + img.lmaText) + img.textSize)) pageFuel s₁
      (u32 (img.base + img.lmaText)) (pageAddr img.vmaText) = some s') :
    TextLoaded img s' D ∧ tempFrame s' dir = some D := by
  obtain ⟨hend, hlast⟩ := section_end hsep.textBelow hsep.text_stack
  obtain ⟨hstart, hfit⟩ := section_last hsep.textBelow (u32 (img.base + img.lmaText))
  obtain ⟨hs₁, hdir₁, hreq⟩ := hs.request hdir (by decide) hend hrequest
  obtain ⟨hcop, hdir'⟩ := copySection_data hs₁ hdir₁ hstart hfit hcopy
  have habsent : ∀ p < userPages, ¬PagePresent s D p := by
    intro p hp hpresent
    rw [PagePresent, pageWord, tableEntry_of_clear (hclear _ (userPages_slot hp))] at hpresent
    exact absurd hpresent (by decide)
  refine ⟨⟨hcop.same.space hs₁, hcop.fits, ?_, fun d hd => ?_, fun p hp => ?_, fun k hk hpresent j hj => ?_⟩, hdir'⟩
  · rw [hcop.same.slots 768 (by decide)]
    exact (hreq.slots 768 (by decide)).mpr (Or.inl hkernel)
  · rw [hcop.same.slots d (by omega), hreq.slots d (by omega), hclear d hd]
    exact ⟨fun hor => hor.resolve_left Bool.false_ne_true, Or.inr⟩
  · rw [hcop.same.present_iff (userPages_lt hp), hreq.present_iff p hp, visited_clear_iff hclear hlast hp]
    exact ⟨fun hor => hor.resolve_left (habsent p hp), Or.inr⟩
  · rw [hcop.same.present_iff (userPages_lt hk)] at hpresent
    rw [hcop.data k hk hpresent j hj, hreq.zero _ hk (habsent _ hk) hpresent j hj]

/-- The address space with the text and the data. -/
structure DataLoaded (img : Image) (s : Machine) (D : Nat) : Prop where
  space : AddressSpace s D
  textFits : PagesFit img img.lmaText img.textSize
  dataFits : PagesFit img img.lmaData img.dataSize
  kernel : entrySet (word s D 768) = true
  text_present : ∀ p ∈ sectionPages img.vmaText img.textSize, PagePresent s D p
  text : ∀ k, img.vmaText / frameSize + k ∈ sectionPages img.vmaText img.textSize → ∀ j < 1024,
    pageData s D (img.vmaText / frameSize + k) j =
      copiedWord img (u32 (img.base + img.lmaText)) (u32 (u32 (img.base + img.lmaText) + img.textSize)) k j 0
  present_iff : ∀ p ∈ sectionPages img.vmaData img.dataSize, PagePresent s D p ↔ img.Provided p
  data : ∀ k, img.vmaData / frameSize + k ∈ sectionPages img.vmaData img.dataSize →
    PagePresent s D (img.vmaData / frameSize + k) → ∀ j < 1024,
    pageData s D (img.vmaData / frameSize + k) j =
      copiedWord img (u32 (img.base + img.lmaData)) (u32 (u32 (img.base + img.lmaData) + img.dataSize)) k j 0

theorem le_of_mem (h : p ∈ sectionPages va size) : va / frameSize ≤ p ∧ p ≤ (va + size) / frameSize := by
  obtain ⟨hlow, hhigh⟩ := h
  refine ⟨hlow, ?_⟩
  unfold frameSize at *
  omega

/-- A page that is requested for the text and is not one of its pages holds zeros. -/
theorem TextLoaded.zero (h : TextLoaded img s D) (hp : p < userPages) (hpresent : PagePresent s D p)
    (hout : p ∉ sectionPages img.vmaText img.textSize) : ∀ j < 1024, pageData s D p j = 0 := by
  intro j hj
  obtain ⟨k, rfl⟩ := Nat.exists_eq_add_of_le ((h.present_iff p hp).mp hpresent).1
  rw [h.data k hp hpresent j hj, copiedWord, if_neg]
  intro hcopied
  exact hout (mem_of_copied ((copied_iff (field_lt img 3)).mp hcopied).2)

theorem DataLoaded.of_steps (h : TextLoaded img s D) (hdir : tempFrame s dir = some D) (hsep : img.Separate)
    (haligned : img.vmaData % frameSize = 0)
    (hrequest : requestRegionVmap s dir img.vmaData img.dataSize pageFlgUsr = some s₁)
    (hcopy : copySection img dir (u32 (u32 (img.base + img.lmaData) + img.dataSize)) pageFuel s₁
      (u32 (img.base + img.lmaData)) img.vmaData = some s') :
    DataLoaded img s' D ∧ tempFrame s' dir = some D := by
  obtain ⟨hend, -⟩ := section_end hsep.dataBelow hsep.data_stack
  obtain ⟨hstart, hfit⟩ := section_last hsep.dataBelow (u32 (img.base + img.lmaData))
  obtain ⟨hs₁, hdir₁, hreq⟩ := h.space.request hdir (by decide) hend hrequest
  have hva : img.vmaData / frameSize * frameSize = img.vmaData :=
    Nat.div_mul_cancel (Nat.dvd_of_mod_eq_zero haligned)
  obtain ⟨hcop, hdir'⟩ := copySection_data (p := img.vmaData / frameSize) hs₁ hdir₁ hstart hfit (hva.symm ▸ hcopy)
  have htext : ∀ p ∈ sectionPages img.vmaText img.textSize, PagePresent s D p := fun p hp =>
    (h.present_iff p (hsep.text_lt hp)).mpr (le_of_mem hp)
  have htext₁ : ∀ p ∈ sectionPages img.vmaText img.textSize, PagePresent s₁ D p := fun p hp =>
    (hreq.present_iff p (hsep.text_lt hp)).mpr (Or.inl (htext p hp))
  refine ⟨⟨hcop.same.space hs₁, h.fits, hcop.fits, ?_, fun p hp => ?_, fun k hk j hj => ?_, fun p hp => ?_,
    fun k hk hpresent j hj => ?_⟩, hdir'⟩
  · rw [hcop.same.slots 768 (by decide)]
    exact (hreq.slots 768 (by decide)).mpr (Or.inl h.kernel)
  · exact (hcop.same.present_iff (userPages_lt (hsep.text_lt hp))).mpr (htext₁ p hp)
  · rw [hcop.outside (field_lt img 6) (hsep.text_lt hk) (htext₁ _ hk) (Set.disjoint_left.mp hsep.text_data hk) j hj,
      hreq.kept _ (hsep.text_lt hk) (htext _ hk) j hj]
    exact h.data k (hsep.text_lt hk) (htext _ hk) j hj
  · have hpu := hsep.data_lt hp
    obtain ⟨hlow, hhigh⟩ := le_of_mem hp
    rw [hcop.same.present_iff (userPages_lt hpu), hreq.present_iff p hpu, h.present_iff p hpu,
      visited_own_iff hlow hhigh, ← Bool.not_eq_true, h.slot_iff _ (userPages_slot hpu), Image.Provided, or_comm,
      or_assoc]
  · have hpu := hsep.data_lt hk
    rw [hcop.same.present_iff (userPages_lt hpu)] at hpresent
    rw [hcop.data k hpu hpresent j hj]
    congr 1
    by_cases hold : PagePresent s D (img.vmaData / frameSize + k)
    · rw [hreq.kept _ hpu hold j hj]
      exact h.zero hpu hold (Set.disjoint_right.mp hsep.text_data hk) j hj
    · exact hreq.zero _ hpu hold hpresent j hj

/-- The pages of text and data in the end. -/
structure ImageLoaded (img : Image) (s : Machine) (D : Nat) : Prop where
  textFits : PagesFit img img.lmaText img.textSize
  dataFits : PagesFit img img.lmaData img.dataSize
  text_present : ∀ p ∈ sectionPages img.vmaText img.textSize, PagePresent s D p
  text : ∀ k, img.vmaText / frameSize + k ∈ sectionPages img.vmaText img.textSize → ∀ j < 1024,
    pageData s D (img.vmaText / frameSize + k) j =
      copiedWord img (u32 (img.base + img.lmaText)) (u32 (u32 (img.base + img.lmaText) + img.textSize)) k j 0
  present_iff : ∀ p ∈ sectionPages img.vmaData img.dataSize, PagePresent s D p ↔ img.Provided p ∨ p = ustackSlotPage
  data : ∀ k, img.vmaData / frameSize + k ∈ sectionPages img.vmaData img.dataSize →
    img.Provided (img.vmaData / frameSize + k) → ∀ j < 1024,
    pageData s D (img.vmaData / frameSize + k) j =
      copiedWord img (u32 (img.base + img.lmaData)) (u32 (u32 (img.base + img.lmaData) + img.dataSize)) k j 0
  zero : ∀ p ∈ sectionPages img.vmaData img.dataSize, ¬img.Provided p → PagePresent s D p →
    ∀ j < 1024, pageData s D p j = 0

theorem ImageLoaded.of_steps (h : DataLoaded img s D) (hdir : tempFrame s dir = some D) (hsep : img.Separate)
    (hrequest : requestRegionVmap s dir ustackFrame frameSize pageFlgUsr = some s₁) :
    ImageLoaded img (deleteTempVa s₁ dir) D := by
  obtain ⟨hs₁, -, hreq⟩ := h.space.request hdir (by decide) (by decide) hrequest
  have honly := (deleteTempVa_spec s₁ dir).1
  have hsame : SameTables s₁ (deleteTempVa s₁ dir) D := hs₁.sameTables honly
  have hfirst : ustackFrame / frameSize = userPages - 1 := by decide
  have hend : (ustackFrame + frameSize) / frameSize = userPages := by decide
  rw [hfirst, hend] at hreq
  have hkept : ∀ p < userPages, PagePresent s D p → PagePresent s₁ D p := fun p hp hpresent =>
    (hreq.present_iff p hp).mpr (Or.inl hpresent)
  refine ⟨h.textFits, h.dataFits, fun p hp => ?_, fun k hk j hj => ?_, fun p hp => ?_, fun k hk hprovided j hj => ?_,
    fun p hp hprovided hpresent j hj => ?_⟩
  · rw [hsame.present_iff (userPages_lt (hsep.text_lt hp))]
    exact hkept p (hsep.text_lt hp) (h.text_present p hp)
  · have hpu := hsep.text_lt hk
    have hpresent := h.text_present _ hk
    rw [hs₁.pageData_temp honly hpu (hkept _ hpu hpresent) hj, hreq.kept _ hpu hpresent j hj]
    exact h.text k hk j hj
  · have hpu := hsep.data_lt hp
    have hne : p ≠ userPages - 1 := by
      rintro rfl
      exact Set.disjoint_left.mp hsep.data_stack hp mem_ustackPages
    rw [hsame.present_iff (userPages_lt hpu), hreq.present_iff p hpu, visited_ustack_iff h.kernel hpu,
      h.present_iff p hp, or_iff_right hne]
  · have hpu := hsep.data_lt hk
    have hpresent := (h.present_iff _ hk).mpr hprovided
    rw [hs₁.pageData_temp honly hpu (hkept _ hpu hpresent) hj, hreq.kept _ hpu hpresent j hj]
    exact h.data k hk hpresent j hj
  · have hpu := hsep.data_lt hp
    rw [hsame.present_iff (userPages_lt hpu)] at hpresent
    rw [hs₁.pageData_temp honly hpu hpresent hj]
    exact hreq.zero p hpu (mt (h.present_iff p hp).mp hprovided) hpresent j hj

/-- The stages of a completed call. -/
theorem createTaskAddressSpace_image (hnew : NewSpace s stack D) (hsep : img.Separate)
    (h : createTaskAddressSpace s stack img = some s') :
    img.vmaData % frameSize = 0 ∧ ImageLoaded img s' D := by
  obtain ⟨haligned, dir, s₁, s₂, s₃, s₄, s₅, s₆, hget, htext, hcopyText, hdata, hcopyData, hustack, rfl⟩ :=
    createTaskAddressSpace_cases hnew.record h
  have hrecord : D < 2 ^ 20 := by
    obtain ⟨g, hg, hword⟩ := Option.map_eq_some_iff.mp hnew.record
    have hlt := word_lt s g (taskWord + 1)
    rw [hword] at hlt
    unfold frameSize at hlt
    omega
  obtain ⟨honly, hdir, -⟩ := getTempVa_spec hget hrecord
  have hsame : SameTables s s₁ D := hnew.directory.sameTables honly
  have hclear : ∀ d < 768, entrySet (word s₁ D d) = false := by
    intro d hd
    rw [hsame.slots d (by omega)]
    exact hnew.clear d hd
  have hkernel : entrySet (word s₁ D 768) = true := by
    rw [hsame.slots 768 (by decide)]
    exact hnew.kernel
  have hspace := (hsame.directory hnew.directory).space hnew.dir_ne_zero hclear
  obtain ⟨htextLoaded, hdir₃⟩ := TextLoaded.of_steps hspace hclear hkernel hdir hsep htext hcopyText
  obtain ⟨hdataLoaded, hdir₅⟩ := DataLoaded.of_steps htextLoaded hdir₃ hsep haligned hdata hcopyData
  exact ⟨haligned, ImageLoaded.of_steps hdataLoaded hdir₅ hsep hustack⟩

/-! ## The bytes -/

section Bytes

variable (h : ImageLoaded img s D)
include h

theorem ImageLoaded.byteAt_text (hi : i < img.textSize) : byteAt s D (img.vmaText + i) =
    some (arriving img img.lmaText img.textSize (img.vmaText % frameSize + i)) := by
  have hva : img.vmaText + i = img.vmaText / frameSize * frameSize + (img.vmaText % frameSize + i) := by
    rw [← Nat.add_assoc, Nat.div_add_mod']
  have hpage : (img.vmaText + i) / frameSize =
      img.vmaText / frameSize + (img.vmaText % frameSize + i) / frameSize := by
    unfold frameSize
    omega
  have hmem : img.vmaText / frameSize + (img.vmaText % frameSize + i) / frameSize ∈
      sectionPages img.vmaText img.textSize := hpage ▸ mem_sectionPages _ hi
  rw [hva]
  exact byteAt_copied (field_lt img 3) (h.text_present _ hmem) (h.text _ hmem) h.textFits

theorem ImageLoaded.byteAt_data (haligned : img.vmaData % frameSize = 0) (hi : i < img.dataSize)
    (hprovided : img.Provided ((img.vmaData + i) / frameSize)) :
    byteAt s D (img.vmaData + i) = some (arriving img img.lmaData img.dataSize i) := by
  have hva : img.vmaData + i = img.vmaData / frameSize * frameSize + i := by
    rw [Nat.div_mul_cancel (Nat.dvd_of_mod_eq_zero haligned)]
  have hpage : (img.vmaData + i) / frameSize = img.vmaData / frameSize + i / frameSize := by
    unfold frameSize at *
    omega
  have hmem := mem_sectionPages img.vmaData hi
  rw [hpage] at hprovided hmem
  rw [hva]
  exact byteAt_copied (field_lt img 6) ((h.present_iff _ hmem).mpr (Or.inl hprovided)) (h.data _ hmem hprovided)
    h.dataFits

theorem ImageLoaded.byteAt_missed (hi : i < img.dataSize)
    (hmissed : ¬img.Provided ((img.vmaData + i) / frameSize)) : byteAt s D (img.vmaData + i) =
      if (img.vmaData + i) / frameSize = ustackSlotPage then some 0 else none := by
  have hmem := mem_sectionPages img.vmaData hi
  have hpresent := h.present_iff _ hmem
  rw [or_iff_right hmissed] at hpresent
  rw [byteAt, if_congr hpresent rfl rfl]
  split
  next hpage =>
    have hword : (img.vmaData + i) % frameSize / 4 < 1024 := by
      unfold frameSize
      omega
    rw [h.zero _ hmem hmissed (hpresent.mpr hpage) _ hword, Nat.zero_div]
    rfl
  next => rfl

end Bytes

/-- A byte of a section that is copied from its start on is in its place. -/
theorem arriving_eq_iff (hi : i < size) :
    arriving img lma size i = img.byte (lma + i) ↔ img.Fits lma size ∨ img.byte (lma + i) = 0 := by
  rw [arriving, Image.copyLength]
  by_cases hfits : img.Fits lma size
  · have hreach : i < (size + (frameSize - 1)) / frameSize * frameSize := by
      unfold frameSize
      omega
    rw [if_pos hfits, if_pos hreach]
    exact iff_of_true rfl (Or.inl hfits)
  · rw [if_neg hfits, if_neg (Nat.not_lt_zero i), or_iff_right hfits]
    exact eq_comm

theorem ImageLoaded.loaded_iff (h : ImageLoaded img s D) (haligned : img.vmaData % frameSize = 0) :
    img.Loaded s D ↔ img.TextInPlace ∧ img.DataInPlace := by
  have htext : (∀ i < img.textSize, byteAt s D (img.vmaText + i) = some (img.byte (img.lmaText + i))) ↔
      img.TextInPlace := by
    refine forall_congr' fun i => imp_congr_right fun hi => ?_
    rw [h.byteAt_text hi, Option.some_inj]
    exact eq_comm
  have hdata : (∀ i < img.dataSize, byteAt s D (img.vmaData + i) = some (img.byte (img.lmaData + i))) ↔
      img.DataInPlace := by
    refine forall_congr' fun i => imp_congr_right fun hi => ?_
    by_cases hprovided : img.Provided ((img.vmaData + i) / frameSize)
    · rw [h.byteAt_data haligned hi hprovided, Option.some_inj, arriving_eq_iff hi]
      simp only [hprovided, true_and, true_or]
    · rw [h.byteAt_missed hi hprovided]
      simp only [hprovided, false_and, false_or]
      split
      next hpage => simp only [hpage, true_and, Option.some_inj, eq_comm]
      next hpage => simp only [hpage, false_and, reduceCtorEq]
  rw [← htext, ← hdata]
  exact ⟨fun hboth => ⟨hboth.text, hboth.data⟩, fun hboth => ⟨hboth.1, hboth.2⟩⟩

/-- Text that starts on a page boundary is copied to its place. -/
theorem textInPlace_of_aligned (haligned : img.vmaText % frameSize = 0)
    (hfits : img.Fits img.lmaText img.textSize) : img.TextInPlace := by
  intro i hi
  have hcopied : arriving img img.lmaText img.textSize i = img.byte (img.lmaText + i) :=
    (arriving_eq_iff hi).mpr (Or.inl hfits)
  rw [haligned, Nat.zero_add]
  exact hcopied.symm

/-- Data behind the text has all its pages. -/
theorem dataInPlace_of_above (habove : img.vmaText + img.textSize ≤ img.vmaData)
    (hfits : img.Fits img.lmaData img.dataSize) : img.DataInPlace := by
  intro i hi
  have hfirst : (img.vmaText + img.textSize) / frameSize ≤ img.vmaData / frameSize := Nat.div_le_div_right habove
  have hpage : img.vmaData / frameSize ≤ (img.vmaData + i) / frameSize := Nat.div_le_div_right (Nat.le_add_right _ _)
  refine Or.inl ⟨?_, hfits⟩
  unfold Image.Provided
  omega

/-- A completed call has put the image where its header says exactly when each byte of the text is the one that
is copied to its place, and each byte of the data has a page and is copied or zero. -/
theorem createTaskAddressSpace_loads_iff (hnew : NewSpace s stack D) (hsep : img.Separate)
    (h : createTaskAddressSpace s stack img = some s') :
    img.Loaded s' D ↔ img.TextInPlace ∧ img.DataInPlace := by
  obtain ⟨haligned, hloaded⟩ := createTaskAddressSpace_image hnew hsep h
  exact hloaded.loaded_iff haligned

/-! ## Two images -/

/-- The machine of `stackMachine` with a stack in frame 4202 whose record names the directory. -/
def taskMachine : Machine :=
  let s := setWord (setWord stackMachine sysTb 1 (pageEntry 4202 pageFlgKernel)) 4202 (taskWord + 1)
    (4200 * frameSize)
  { s with bitmap := frameBset s.bitmap (4202 * frameSize) }

theorem taskMachine_same : SameTables stackMachine
    (setWord (setWord stackMachine sysTb 1 (pageEntry 4202 pageFlgKernel)) 4202 (taskWord + 1)
      (4200 * frameSize)) 4200 := by
  have htemp := stackMachine_directory.sameTables
    (onlyFrame_setWord stackMachine sysTb 1 (pageEntry 4202 pageFlgKernel))
  refine htemp.trans ((onlyFrame_setWord _ 4202 _ _).sameTables (by decide) fun d hd hset => ?_)
  rw [htemp.slots d hd] at hset
  rw [htemp.tableOf_eq hd]
  rcases stackMachine_slot d hd hset with ⟨-, htable⟩ | ⟨-, htable⟩ <;> omega

theorem taskMachine_new : NewSpace taskMachine 1 4200 where
  directory := Directory.setBusy (taskMachine_same.directory stackMachine_directory) 4202
  dir_ne_zero := by decide
  clear := by
    intro d hd
    have hslot : word taskMachine 4200 d = word stackMachine 4200 d := taskMachine_same.slots d (by omega)
    rw [hslot, ← Bool.not_eq_true]
    intro hset
    rcases stackMachine_slot d (by omega) hset with ⟨hkernel, -⟩ | ⟨rfl, -⟩
    · omega
    · omega
  kernel := by decide
  record := by decide

/-- The fields of a header. -/
def header : List Nat → Nat → Mem → Mem
  | [], _, m => m
  | w :: ws, a, m => header ws (a + 4) (store32 m a w)

/-- An image in low memory, with text for `vmaText` and a page of data. The bytes behind the header are the
low bytes of their addresses. -/
def textImage (vmaText : Nat) : Image where
  base := 0x20000
  mem := header [0xABCD1234, 64, vmaText, 32, frameSize, 2 * frameSize, frameSize] 0x20000 UInt8.ofNat

theorem separate_of_le (h : (img.vmaText + img.textSize + (frameSize - 1)) / frameSize ≤ img.vmaData / frameSize)
    (hdata : img.vmaData / frameSize ≤ (img.vmaData + img.dataSize + (frameSize - 1)) / frameSize)
    (hstack : (img.vmaData + img.dataSize + (frameSize - 1)) / frameSize < userPages) : img.Separate := by
  have hfirst : ustackFrame / frameSize = userPages - 1 := by decide
  refine ⟨by omega, by omega, ?_, ?_, ?_⟩
  · exact Set.Ico_disjoint_Ico.mpr (by omega)
  · unfold sectionPages
    rw [hfirst]
    exact Set.Ico_disjoint_Ico.mpr (by omega)
  · unfold sectionPages
    rw [hfirst]
    exact Set.Ico_disjoint_Ico.mpr (by omega)

theorem textImage_separate (h : vmaText = frameSize ∨ vmaText = 16) : (textImage vmaText).Separate := by
  rcases h with rfl | rfl
  · exact separate_of_le (by decide +kernel) (by decide +kernel) (by decide +kernel)
  · exact separate_of_le (by decide +kernel) (by decide +kernel) (by decide +kernel)

/-- Text for a page boundary and data behind it are loaded. -/
theorem createTaskAddressSpace_sample :
    ∃ s', createTaskAddressSpace taskMachine 1 (textImage frameSize) = some s' ∧
      (textImage frameSize).Loaded s' 4200 := by
  have hrun : (createTaskAddressSpace taskMachine 1 (textImage frameSize)).isSome = true := by decide +kernel
  obtain ⟨s', h⟩ := Option.isSome_iff_exists.mp hrun
  refine ⟨s', h, (createTaskAddressSpace_loads_iff taskMachine_new (textImage_separate (Or.inl rfl)) h).mpr ⟨?_, ?_⟩⟩
  · exact textInPlace_of_aligned (by decide +kernel) (by decide +kernel)
  · exact dataInPlace_of_above (by decide +kernel) (by decide +kernel)

/-- Text for address 16: the byte there is the one that lies 16 bytes into the text. -/
theorem createTaskAddressSpace_moved :
    NewSpace taskMachine 1 4200 ∧ (textImage 16).Separate ∧
      ∃ s', createTaskAddressSpace taskMachine 1 (textImage 16) = some s' ∧ ¬(textImage 16).Loaded s' 4200 := by
  have hrun : (createTaskAddressSpace taskMachine 1 (textImage 16)).isSome = true := by decide +kernel
  obtain ⟨s', h⟩ := Option.isSome_iff_exists.mp hrun
  have hsep := textImage_separate (Or.inr rfl)
  obtain ⟨haligned, hloaded⟩ := createTaskAddressSpace_image taskMachine_new hsep h
  refine ⟨taskMachine_new, hsep, s', h, fun hall => ?_⟩
  have hbyte := ((hloaded.loaded_iff haligned).mp hall).1 0 (by decide +kernel)
  exact absurd hbyte (by decide +kernel)

end TsOs.Tasking
