import TsOs.Paging.AddressSpace
import TsOs.Tasking.Loading

/-!
# Sections of an image

`create_task_address_space` copies a section page by page: the source goes on from the start of the
section in the image, the destination from the page in which the section starts. A page that is absent
in the directory has the entry zero, so its copy goes to frame 0 and changes no page.
-/

namespace TsOs.Tasking
open ByteMemory Paging

variable {s s' s₁ s₂ s₃ : Machine} {D dir f page p q j n last vmaImg : Nat} {img : Image}
  {src : Nat → BitVec 32}

theorem readPage_word {addr : Nat} (h : img.readPage addr = some src) (j : Nat) :
    (src j).toNat = load32 img.mem (addr + 4 * j) := by
  rw [Image.readPage] at h
  split at h
  next =>
    obtain rfl := Option.some.inj h
    rw [BitVec.toNat_ofNat, Nat.mod_eq_of_lt (load32_lt _ _)]
  next => exact absurd h (by simp)

/-- The frame that a copy to page `p` goes to. -/
theorem copyTarget_spec (hs : AddressSpace s D) (hp : p < userPages) :
    pageFrame s D p ≠ sysTb ∧ pageFrame s D p ≠ D ∧
      (∀ d < 1024, entrySet (word s D d) = true → pageFrame s D p ≠ tableOf s D d) ∧
      ∀ q < userPages, PagePresent s D q → q ≠ p → pageFrame s D q ≠ pageFrame s D p := by
  by_cases hpresent : PagePresent s D p
  · have hby := hs.bystander p hp hpresent
    exact ⟨hby.ne_sysTb, hby.ne_dir, hby.ne_table,
      fun q hq hqpresent hne heq => hne (hs.own q hq p hp hqpresent hpresent heq)⟩
  · have hzero : pageFrame s D p = 0 := by
      rw [pageFrame, hs.zero p hp hpresent]
      rfl
    rw [hzero]
    exact ⟨by decide, hs.dir_ne_zero.symm, fun d hd hset => (hs.ne_zero d hd hset).symm,
      fun q hq hqpresent _ => hs.frame_ne_zero q hq hqpresent⟩

/-- One page of a section. -/
theorem copyPage_data (hs : AddressSpace s D) (hdir : tempFrame s dir = some D) (hp : p < userPages)
    (hphy : getPhyFromDir s dir (p * frameSize) = some (f, s₁)) (hmap : createTempVa s₁ f = some (page, s₂))
    (hcpy : memcpy s₂ src page = some s₃) :
    SameTables s (deleteTempVa s₃ page) D ∧ tempFrame (deleteTempVa s₃ page) dir = some D ∧
      ∀ q < userPages, PagePresent s D q → ∀ j < 1024,
        pageData (deleteTempVa s₃ page) D q j = if q = p then (src j).toNat else pageData s D q j := by
  have hslot := userPages_slot hp
  have hdirSlot : p / 1024 < 1024 := by omega
  have hwalk := getPhyFromDir_spec hdir (by
    rw [pageDirIndex_mul]
    exact hs.ne_sysTb _ hdirSlot) hphy
  rw [pageDirIndex_mul, pageTableIndex_mul] at hwalk
  obtain ⟨hset, hf, honly₁, hslots₁⟩ := hwalk
  have hframe : f = pageFrame s D p := by
    rw [hf, pageFrame, pageWord, tableEntry_of_set hset]
    rfl
  obtain ⟨hsys, hD, hT, hothers⟩ := copyTarget_spec hs hp
  rw [← hframe] at hsys hD hT hothers
  have hc := createTempVa_spec hmap (hf ▸ frameOf_word_lt _ _ _)
  obtain ⟨g, hg, rfl⟩ := memcpy_eq hcpy
  obtain rfl : f = g := Option.some.inj (hc.leads.symm.trans hg)
  have hdelete := (deleteTempVa_spec (setFrame s₂ f src) page).1
  -- the mappings, the frame, the mapping of the page
  have hmapped : SameTables s s₂ D := hs.sameTables (honly₁.trans hc.only)
  have hcopied : SameTables s (setFrame s₂ f src) D := by
    refine hmapped.trans ((onlyFrame_setFrame s₂ f src).sameTables hD fun d hd hset => ?_)
    rw [hmapped.slots d hd] at hset
    rw [hmapped.tableOf_eq hd]
    exact hT d hd hset
  have hsame := hcopied.trans ((hcopied.tables hs.toTables).sameTables hdelete)
  refine ⟨hsame, ?_, fun q hq hpresent j hj => ?_⟩
  · have hdir₂ := hc.slot_kept (hslots₁ dir D hdir (hs.ne_dir _ hdirSlot hset).symm)
    rw [(deleteTempVa_spec (setFrame s₂ f src) page).2 dir, (onlyFrame_setFrame s₂ f src).tempFrame_eq hsys]
    · exact hdir₂
    · rintro rfl
      exact hD (Option.some.inj (hc.leads.symm.trans hdir₂))
  · have hqsys := (hs.bystander q hq hpresent).ne_sysTb
    rw [pageData, hsame.pageFrame_eq (userPages_lt hq), hdelete.words _ hqsys j hj]
    split
    next heq =>
      rw [heq, ← hframe]
      exact congrArg BitVec.toNat (if_pos rfl)
    next hne =>
      rw [(onlyFrame_setFrame s₂ f src).words _ (hothers q hq hpresent hne) j hj]
      exact (honly₁.trans hc.only).words _ hqsys j hj

/-- More fuel than there are pages makes no difference. -/
theorem copySection_fuel {m vma : Nat} (hn : last ≤ vmaImg + n * frameSize) (hm : n ≤ m) :
    copySection img dir last (m + 1) s vmaImg vma = copySection img dir last (n + 1) s vmaImg vma := by
  induction n generalizing m s vmaImg vma with
  | zero => rw [copySection, copySection, if_neg (by omega), if_neg (by omega)]
  | succ n ih =>
      obtain ⟨m, rfl⟩ : ∃ k, m = k + 1 := ⟨m - 1, by omega⟩
      rw [copySection]
      conv => rhs; rw [copySection]
      refine if_congr Iff.rfl ?_ rfl
      refine Option.bind_congr fun p₁ _ => ?_
      obtain ⟨f, s₁⟩ := p₁
      refine Option.bind_congr fun p₂ _ => ?_
      obtain ⟨page, s₂⟩ := p₂
      refine Option.bind_congr fun src hsrc => Option.bind_congr fun s₃ _ => ?_
      refine ih ?_ (by omega)
      rw [u32_of_lt (readPage_le hsrc)]
      rw [Nat.succ_mul] at hn
      omega

/-- Word `j` of page `k` of a section, copied from `vmaImg` up to `last`. -/
def copiedWord (img : Image) (vmaImg last k j : Nat) (rest : Nat) : Nat :=
  if vmaImg + k * frameSize < last then load32 img.mem (vmaImg + k * frameSize + 4 * j) else rest

/-- What the copying of a section to the pages from `p` on does. -/
structure Copied (img : Image) (s s' : Machine) (D p vmaImg last : Nat) : Prop where
  same : SameTables s s' D
  before : ∀ q < p, PagePresent s D q → ∀ j < 1024, pageData s' D q j = pageData s D q j
  data : ∀ k, p + k < userPages → PagePresent s D (p + k) → ∀ j < 1024,
    pageData s' D (p + k) j = copiedWord img vmaImg last k j (pageData s D (p + k) j)
  fits : ∀ k, vmaImg + k * frameSize < last → vmaImg + k * frameSize + frameSize < 2 ^ 32

/-- Nothing is left to copy. -/
theorem Copied.refl (h : last ≤ vmaImg) : Copied img s s D p vmaImg last where
  same := ⟨fun _ _ => rfl, fun _ _ _ _ _ => rfl, fun _ => Iff.rfl⟩
  before := fun _ _ _ _ _ => rfl
  data := fun _ _ _ _ _ => (if_neg (by omega)).symm
  fits := fun _ hk => absurd hk (by omega)

/-- One page in front of the others. -/
theorem Copied.cons (hpu : p < userPages) (hlt : vmaImg < last) (hfit : vmaImg + frameSize < 2 ^ 32)
    (hsame : SameTables s s₁ D)
    (hdata : ∀ q < userPages, PagePresent s D q → ∀ j < 1024,
      pageData s₁ D q j = if q = p then load32 img.mem (vmaImg + 4 * j) else pageData s D q j)
    (hrest : Copied img s₁ s' D (p + 1) (vmaImg + frameSize) last) : Copied img s s' D p vmaImg last := by
  have hpages : userPages < 2 ^ 20 := by decide
  have hpresent : ∀ q < userPages, PagePresent s D q → PagePresent s₁ D q :=
    fun q hq hq' => (hsame.present_iff (by omega)).mpr hq'
  have haddr : ∀ k, vmaImg + (k + 1) * frameSize = vmaImg + frameSize + k * frameSize := by
    intro k
    rw [Nat.succ_mul]
    omega
  refine ⟨hsame.trans hrest.same, fun q hq hq' j hj => ?_, fun k hk hk' j hj => ?_, fun k hk => ?_⟩
  · rw [hrest.before q (by omega) (hpresent q (by omega) hq') j hj, hdata q (by omega) hq' j hj, if_neg (by omega)]
  · cases k with
    | zero =>
        rw [Nat.add_zero] at hk hk' ⊢
        rw [hrest.before p (by omega) (hpresent p hpu hk') j hj, hdata p hpu hk' j hj, if_pos rfl, copiedWord,
          Nat.zero_mul, Nat.add_zero, if_pos hlt]
    | succ k =>
        have hidx : p + (k + 1) = p + 1 + k := by omega
        rw [hidx] at hk hk' ⊢
        rw [hrest.data k hk (hpresent _ hk hk') j hj, hdata _ hk hk' j hj, if_neg (by omega), copiedWord,
          copiedWord, haddr]
  · cases k with
    | zero =>
        rw [Nat.zero_mul, Nat.add_zero]
        exact hfit
    | succ k =>
        rw [haddr] at hk ⊢
        exact hrest.fits k hk

/-- Induction on the pages. -/
theorem copySection_data (hs : AddressSpace s D) (hdir : tempFrame s dir = some D) (hp : p ≤ userPages)
    (hlast : last ≤ vmaImg + (userPages - p) * frameSize)
    (h : copySection img dir last n s vmaImg (p * frameSize) = some s') :
    Copied img s s' D p vmaImg last ∧ tempFrame s' dir = some D := by
  induction n generalizing s vmaImg p with
  | zero => exact absurd h (by simp [copySection])
  | succ n ih =>
      rw [copySection] at h
      split at h
      next hlt =>
        obtain ⟨⟨f, s₁⟩, hphy, h⟩ := Option.bind_eq_some_iff.mp h
        obtain ⟨⟨page, s₂⟩, hmap, h⟩ := Option.bind_eq_some_iff.mp h
        obtain ⟨src, hsrc, h⟩ := Option.bind_eq_some_iff.mp h
        obtain ⟨s₃, hcpy, h⟩ := Option.bind_eq_some_iff.mp h
        have hpages : userPages < 2 ^ 20 := by decide
        have hpu : p < userPages := by
          by_contra hge
          have hzero : userPages - p = 0 := by omega
          rw [hzero, Nat.zero_mul] at hlast
          omega
        have hrestPages : userPages - p = userPages - (p + 1) + 1 := by omega
        rw [hrestPages, Nat.succ_mul] at hlast
        have hfit := readPage_le hsrc
        rw [u32_page (by omega), u32_of_lt hfit] at h
        obtain ⟨hsame, hdir₁, hdata⟩ := copyPage_data hs hdir hpu hphy hmap hcpy
        obtain ⟨hrest, hdir'⟩ := ih (hsame.space hs) hdir₁ (show p + 1 ≤ userPages from hpu) (by omega) h
        refine ⟨Copied.cons hpu hlt hfit hsame (fun q hq hq' j hj => ?_) hrest, hdir'⟩
        rw [hdata q hq hq' j hj, readPage_word hsrc]
      next hge =>
        obtain rfl := Option.some.inj h
        exact ⟨Copied.refl (Nat.not_lt.mp hge), hdir⟩

end TsOs.Tasking
