import TsOs.Library.ByteMemory
import TsOs.Machine

/-!
# The boot loader

The code of `disk.asm` and the part of `mbr.asm` in front of the switch to protected
mode. The sectors behind the boot sector go to `LOADED_ADDRESS` and up, one track with
each request, or with two where the track crosses a boundary of 64K.

## Implementation notes

The BIOS is a parameter, with what its documentation says about requests that are
within their bounds. Registers are numbers below `2 ^ 16` and `2 ^ 8`.
-/

namespace TsOs.Boot
open ByteMemory

/-- A call of `int 0x13` that reads sectors, by the registers that it takes. -/
structure Request where
  al : Nat
  ch : Nat
  cl : Nat
  dh : Nat
  dl : Nat
  es : Nat
  bx : Nat

/-- What such a call leaves in the carry flag, in `al` and in the memory. -/
structure Reply where
  carry : Bool
  al : Nat
  mem : Mem

/-- What the call for the parameters of the drive leaves. -/
structure Parameters where
  carry : Bool
  cl : Nat
  ch : Nat
  dh : Nat

structure Bios where
  parameters : Parameters
  read : Request → Mem → Reply

/-- The messages in front of the endless loops. -/
inductive Stop
  | getFloppyError
  | diskError
  | sectorsError
  | overflow64KError
  | divBlkError
  deriving DecidableEq

/-- `HEAD_NUM`, `SECTOR_NUM` and `CYL_NUM`. -/
structure Geometry where
  headNum : Nat
  sectorNum : Nat
  cylNum : Nat
  deriving DecidableEq

structure St where
  es : Nat
  bx : Nat
  mem : Mem

def getFloppyChs (p : Parameters) : Except Stop Geometry :=
  if p.carry then .error .getFloppyError
  else .ok {
    headNum := (p.dh + 1) % 2 ^ 8
    sectorNum := p.cl % 64
    cylNum := (p.cl / 64 * 2 ^ 8 + p.ch + 1) % 2 ^ 16 }

/-- `disk_load`. -/
def diskLoad (b : Bios) (al ah dl dh : Nat) (s : St) : Except Stop St :=
  let r := b.read ⟨al, dl, ah, dh, 0, s.es, s.bx⟩ s.mem
  if r.carry then .error .diskError
  else if r.al ≠ al then .error .sectorsError
  else
    let sum := s.bx + 512 * r.al % 2 ^ 16
    if 2 ^ 16 ≤ sum ∧ sum % 2 ^ 16 ≠ 0 then .error .overflow64KError
    else .ok { s with bx := sum % 2 ^ 16, mem := r.mem }

/-- The start of the next segment of 64K. -/
def nextSegment (s : St) : St := { s with es := (s.es + 0x1000) % 2 ^ 16, bx := 0 }

/-- `load_cylinder_cross_64K`. -/
def loadCylinderCross64K (b : Bios) (sectorNum dl dh : Nat) (s : St) : Except Stop St :=
  -- the boot sector is not loaded
  let ah := if dl = 0 ∧ dh = 0 then 2 else 1
  let al := if dl = 0 ∧ dh = 0 then (sectorNum + 0xFF) % 2 ^ 8 else sectorNum
  if (s.bx + 0xFFFF) % 2 ^ 16 + 512 * al % 2 ^ 16 < 2 ^ 16 then diskLoad b al ah dl dh s
  else
    let blocks := (0xFFFF - s.bx + 1) % 2 ^ 16 / 512
    if blocks / 2 ^ 8 ≠ 0 then .error .divBlkError
    else do
      let cl := blocks % 2 ^ 8
      let s ← diskLoad b cl ah dl dh s
      diskLoad b ((al + 2 ^ 8 - cl) % 2 ^ 8) ((ah + cl) % 2 ^ 8) dl dh (nextSegment s)

/-- The loop of `disk_load_all`, which has no end for `ch = 0xFF`. -/
def diskReadLoop (b : Bios) (sectorNum ch : Nat) : Nat → Nat → St → Option (Except Stop St)
  | 0, _, _ => none
  | n + 1, dl, s =>
      if ch < dl then some (.ok s)
      else
        match loadCylinderCross64K b sectorNum dl 0 s >>= loadCylinderCross64K b sectorNum dl 1 with
        | .error e => some (.error e)
        | .ok s => diskReadLoop b sectorNum ch n ((dl + 1) % 2 ^ 8) s

def diskLoadAll (b : Bios) (sectorNum cl ch : Nat) (s : St) : Option (Except Stop St) :=
  diskReadLoop b sectorNum ch (2 ^ 8 + 1) cl s

/-- `LOADED_CYL1_NUM` and `LOADED_CYL2_NUM`. -/
def loadedCylNum (sectorNum : Nat) : Nat := if sectorNum = 0x12 then 25 else 12

/-- `mbr.asm` up to the switch to protected mode. -/
def loadKernel (b : Bios) (mem : Mem) : Option (Except Stop St) :=
  match getFloppyChs b.parameters with
  | .error e => some (.error e)
  | .ok g => diskLoadAll b g.sectorNum 0 (loadedCylNum g.sectorNum) ⟨0, loadedAddress, mem⟩

/-! ## What the BIOS documents -/

/-- A floppy disk by its bytes, with two heads. -/
structure Floppy where
  sectors : Nat
  cylinders : Nat
  byte : Nat → UInt8

/-- The number of a sector, by cylinder, head and the number on its track, which starts at 1. -/
def Floppy.lba (d : Floppy) (ch dh cl : Nat) : Nat := (2 * ch + dh) * d.sectors + (cl - 1)

def Request.address (q : Request) : Nat := 16 * q.es + q.bx

/-- The requests that the documentation allows: at least one sector, all on one track of the first
drive, and a buffer that does not cross a boundary of 64K. -/
structure Request.Valid (q : Request) (d : Floppy) : Prop where
  drive : q.dl = 0
  cylinder : q.ch < d.cylinders
  head : q.dh < 2
  some : 1 ≤ q.al
  first : 1 ≤ q.cl
  last : q.cl + q.al ≤ d.sectors + 1
  buffer : q.address % 2 ^ 16 + 512 * q.al ≤ 2 ^ 16

/-- The bytes of the sectors are in the buffer. -/
structure Transferred (d : Floppy) (q : Request) (m m' : Mem) : Prop where
  sectors : ∀ i < 512 * q.al, m' (q.address + i) = d.byte (512 * d.lba q.ch q.dh q.cl + i)
  rest : ∀ a, a < q.address ∨ q.address + 512 * q.al ≤ a → m' a = m a

structure Documented (b : Bios) (d : Floppy) : Prop where
  parameters : b.parameters.carry = false ∧ b.parameters.cl % 64 = d.sectors
  read : ∀ q m, q.Valid d → (b.read q m).carry = false ∧ (b.read q m).al = q.al ∧
    Transferred d q m (b.read q m).mem
  none : ∀ q m, q.al = 0 → (b.read q m).carry = true

variable {b : Bios} {d : Floppy} {m m₀ : Mem} {s s' : St} {al ah dl dh P n k : Nat}

theorem ok_bind {ε α β : Type} (a : α) (f : α → Except ε β) : ((Except.ok a : Except ε α) >>= f) = f a := rfl

theorem error_bind {ε α β : Type} (e : ε) (f : α → Except ε β) :
    ((Except.error e : Except ε α) >>= f) = Except.error e := rfl

/-! ## One request -/

/-- The sectors before number `P` are in memory, apart from the boot sector, and nothing else has
changed. -/
structure Filled (d : Floppy) (m₀ : Mem) (P : Nat) (m : Mem) : Prop where
  bytes : ∀ x, 512 ≤ x → x < 512 * P → m (0x8E00 + x) = d.byte x
  rest : ∀ a, a < loadedAddress ∨ 0x8E00 + 512 * P ≤ a → m a = m₀ a

/-- The address for sector `P`. -/
def sectorAddress (P : Nat) : Nat := 512 * (71 + P)

theorem Filled.extend {q : Request} {m' : Mem} (h : Filled d m₀ P m) (hP : 1 ≤ P) (ht : Transferred d q m m')
    (haddr : q.address = sectorAddress P) (hlba : d.lba q.ch q.dh q.cl = P) : Filled d m₀ (P + q.al) m' := by
  have hload : loadedAddress = 0x9000 := rfl
  have hsector : sectorAddress P = 512 * (71 + P) := rfl
  refine ⟨fun x hlow hhigh => ?_, fun a ha => ?_⟩
  · by_cases hold : x < 512 * P
    · rw [ht.rest _ (by omega)]
      exact h.bytes x hlow hold
    · have hbyte := ht.sectors (x - 512 * P) (by omega)
      rw [haddr, hlba, hsector] at hbyte
      have hsrc : 512 * P + (x - 512 * P) = x := by omega
      have hdst : 512 * (71 + P) + (x - 512 * P) = 0x8E00 + x := by omega
      rwa [hsrc, hdst] at hbyte
  · rw [ht.rest _ (by omega)]
    exact h.rest a (by omega)

/-- A request within its bounds. -/
theorem diskLoad_ok (hb : Documented b d) (hq : Request.Valid ⟨al, dl, ah, dh, 0, s.es, s.bx⟩ d)
    (hbx : s.bx + 512 * al ≤ 2 ^ 16) (hal : al < 2 ^ 6) :
    ∃ m, diskLoad b al ah dl dh s = .ok { s with bx := (s.bx + 512 * al) % 2 ^ 16, mem := m } ∧
      Transferred d ⟨al, dl, ah, dh, 0, s.es, s.bx⟩ s.mem m := by
  obtain ⟨hcarry, hal', htransferred⟩ := hb.read _ s.mem hq
  refine ⟨_, ?_, htransferred⟩
  have hmod : 512 * al % 2 ^ 16 = 512 * al := Nat.mod_eq_of_lt (by omega)
  have hsafe : ¬(2 ^ 16 ≤ s.bx + 512 * al ∧ (s.bx + 512 * al) % 2 ^ 16 ≠ 0) := by omega
  simp only [diskLoad, hcarry, hal', hmod, hsafe, Bool.false_eq_true, ne_eq, not_true_eq_false, if_false]

/-- A request for no sectors. -/
theorem diskLoad_none (hb : Documented b d) : diskLoad b 0 ah dl dh s = .error .diskError := by
  simp only [diskLoad, hb.none ⟨0, dl, ah, dh, 0, s.es, s.bx⟩ s.mem rfl]
  rfl

/-- Sectors of one track, from sector `P` of the disk on. -/
structure Track (d : Floppy) (P al ah dl dh : Nat) : Prop where
  cylinder : dl < d.cylinders
  head : dh < 2
  first : 1 ≤ ah
  some : 1 ≤ al
  last : ah + al ≤ d.sectors + 1
  lba : d.lba dl dh ah = P

/-- The first ones, and the ones behind them. -/
theorem Track.take (h : Track d P al ah dl dh) (hk : 1 ≤ k) (hle : k ≤ al) : Track d P k ah dl dh :=
  ⟨h.cylinder, h.head, h.first, hk, by have := h.last; omega, h.lba⟩

theorem Track.drop (h : Track d P al ah dl dh) (hlt : k < al) : Track d (P + k) (al - k) (ah + k) dl dh := by
  have hlast := h.last
  have hlba := h.lba
  have hpos := h.first
  refine ⟨h.cylinder, h.head, by omega, by omega, by omega, ?_⟩
  rw [Floppy.lba] at hlba ⊢
  omega

theorem diskLoad_filled (hb : Documented b d) (hs : Filled d m₀ P s.mem) (hP : 1 ≤ P)
    (haddr : 16 * s.es + s.bx = sectorAddress P) (hseg : 16 * s.es % 2 ^ 16 = 0)
    (ht : Track d P al ah dl dh) (hfits : s.bx + 512 * al ≤ 2 ^ 16) (hS : d.sectors < 2 ^ 6) :
    ∃ m, diskLoad b al ah dl dh s = .ok { s with bx := (s.bx + 512 * al) % 2 ^ 16, mem := m } ∧
      Filled d m₀ (P + al) m := by
  have hal : al < 2 ^ 6 := by
    have := ht.last
    have := ht.first
    omega
  have hbuffer : (16 * s.es + s.bx) % 2 ^ 16 + 512 * al ≤ 2 ^ 16 := by
    have := ht.some
    omega
  obtain ⟨m, hrun, htransferred⟩ := diskLoad_ok hb
    ⟨rfl, ht.cylinder, ht.head, ht.some, ht.first, ht.last, hbuffer⟩ hfits hal
  exact ⟨m, hrun, hs.extend hP htransferred haddr ht.lba⟩

/-! ## One track -/

/-- The sectors before number `P` are loaded. At a boundary of 64K the segment stays behind. -/
structure Loaded (d : Floppy) (m₀ : Mem) (P : Nat) (s : St) : Prop where
  es : s.es = 0x1000 * ((sectorAddress P - 1) / 2 ^ 16)
  bx : s.bx = sectorAddress P % 2 ^ 16
  filled : Filled d m₀ P s.mem

/-- The first sector and the number of sectors of a track that are loaded. -/
def firstSector (dl dh : Nat) : Nat := if dl = 0 ∧ dh = 0 then 2 else 1

def sectorCount (sectorNum dl dh : Nat) : Nat :=
  if dl = 0 ∧ dh = 0 then (sectorNum + 0xFF) % 2 ^ 8 else sectorNum

/-- The bytes that are left in the segment. -/
theorem Loaded.room (hs : Loaded d m₀ P s) (hstart : ¬128 ∣ 71 + P) : 512 ≤ s.bx ∧ s.bx < 2 ^ 16 ∧
    16 * s.es + s.bx = sectorAddress P ∧ 16 * s.es % 2 ^ 16 = 0 := by
  have hes := hs.es
  have hbx := hs.bx
  rw [sectorAddress] at hes hbx ⊢
  omega

/-- A track in one segment. -/
theorem Loaded.within (hb : Documented b d) (hs : Loaded d m₀ P s) (hS : d.sectors < 2 ^ 6)
    (ht : Track d P al ah dl dh) (hP : 1 ≤ P) (hstart : ¬128 ∣ 71 + P) (hfits : s.bx + 512 * al ≤ 2 ^ 16) :
    ∃ s', diskLoad b al ah dl dh s = .ok s' ∧ Loaded d m₀ (P + al) s' := by
  obtain ⟨-, -, haddr, hseg⟩ := hs.room hstart
  obtain ⟨m, hrun, hfilled⟩ := diskLoad_filled hb hs.filled hP haddr hseg ht hfits hS
  refine ⟨_, hrun, ?_, ?_, hfilled⟩
  · have hsome := ht.some
    have hes := hs.es
    have hbx := hs.bx
    change s.es = _
    rw [sectorAddress] at hes hbx ⊢
    omega
  · have hbx := hs.bx
    change (s.bx + 512 * al) % 2 ^ 16 = _
    rw [sectorAddress] at hbx ⊢
    omega

/-- A track over a boundary, with `cl` sectors before it. -/
theorem Loaded.across {cl : Nat} (hb : Documented b d) (hs : Loaded d m₀ P s) (hS : d.sectors < 2 ^ 6)
    (ht : Track d P al ah dl dh) (hP : 1 ≤ P) (hstart : ¬128 ∣ 71 + P) (hfill : s.bx + 512 * cl = 2 ^ 16)
    (hcl : cl < al) (hend : 71 + P + al ≤ 2 ^ 11) :
    ∃ s', (diskLoad b cl ah dl dh s >>= fun s => diskLoad b (al - cl) (ah + cl) dl dh (nextSegment s)) = .ok s' ∧
      Loaded d m₀ (P + al) s' := by
  obtain ⟨hlow, hhigh, haddr, hseg⟩ := hs.room hstart
  obtain ⟨m, hrun, hfilled⟩ := diskLoad_filled hb hs.filled hP haddr hseg (ht.take (by omega) hcl.le) hfill.le hS
  have hal : al < 2 ^ 6 := by
    have := ht.last
    have := ht.first
    omega
  have hlt : s.es + 0x1000 < 2 ^ 16 := by
    rw [sectorAddress] at haddr
    omega
  have hnext : nextSegment ⟨s.es, (s.bx + 512 * cl) % 2 ^ 16, m⟩ = ⟨s.es + 0x1000, 0, m⟩ := by
    rw [nextSegment, Nat.mod_eq_of_lt hlt]
  have haddr' : 16 * (s.es + 0x1000) + 0 = sectorAddress (P + cl) := by
    rw [sectorAddress] at haddr ⊢
    omega
  have hseg' : 16 * (s.es + 0x1000) % 2 ^ 16 = 0 := by omega
  have hfits' : 0 + 512 * (al - cl) ≤ 2 ^ 16 := by omega
  obtain ⟨m', hrun', hfilled'⟩ := diskLoad_filled (s := ⟨s.es + 0x1000, 0, m⟩) hb hfilled (by omega) haddr' hseg'
    (ht.drop hcl) hfits' hS
  refine ⟨⟨s.es + 0x1000, (0 + 512 * (al - cl)) % 2 ^ 16, m'⟩, ?_, ?_, ?_, ?_⟩
  · rw [hrun, ok_bind, hnext, hrun']
  · have hbx := hs.bx
    have hquot : (sectorAddress (P + al) - 1) / 2 ^ 16 = (sectorAddress P - 1) / 2 ^ 16 + 1 := by
      rw [sectorAddress] at hbx
      rw [sectorAddress, sectorAddress]
      omega
    rw [hquot, Nat.mul_succ, ← hs.es]
  · have hbx : (0 + 512 * (al - cl)) % 2 ^ 16 = sectorAddress (P + al) % 2 ^ 16 := by
      rw [sectorAddress] at haddr ⊢
      omega
    exact hbx
  · have htotal : P + cl + (al - cl) = P + al := by omega
    rw [htotal] at hfilled'
    exact hfilled'

/-- A track that does not start at a boundary of 64K is loaded, with one request or with two. -/
theorem loadCylinder_loaded (hb : Documented b d) (hs : Loaded d m₀ P s) (hS : d.sectors < 2 ^ 6)
    (ht : Track d P (sectorCount d.sectors dl dh) (firstSector dl dh) dl dh) (hP : 1 ≤ P)
    (hstart : ¬128 ∣ 71 + P) (hend : 71 + P + sectorCount d.sectors dl dh ≤ 2 ^ 11) :
    ∃ s', loadCylinderCross64K b d.sectors dl dh s = .ok s' ∧
      Loaded d m₀ (P + sectorCount d.sectors dl dh) s' := by
  have hcount : (if dl = 0 ∧ dh = 0 then (d.sectors + 0xFF) % 2 ^ 8 else d.sectors) =
    sectorCount d.sectors dl dh := rfl
  have hfirst : (if dl = 0 ∧ dh = 0 then 2 else 1) = firstSector dl dh := rfl
  simp only [loadCylinderCross64K, hcount, hfirst]
  generalize sectorCount d.sectors dl dh = al at ht hend
  generalize firstSector dl dh = ah at ht
  have hsome := ht.some
  have hlast := ht.last
  have hpos := ht.first
  have hmod : 512 * al % 2 ^ 16 = 512 * al := Nat.mod_eq_of_lt (by omega)
  obtain ⟨hlow, hhigh, haddr, -⟩ := hs.room hstart
  have hdec : (s.bx + 0xFFFF) % 2 ^ 16 = s.bx - 1 := by omega
  rw [hmod, hdec]
  split
  next hfits => exact hs.within hb hS ht hP hstart (by omega)
  next hcross =>
    obtain ⟨cl, hcl⟩ : ∃ cl, (0xFFFF - s.bx + 1) % 2 ^ 16 / 512 = cl := ⟨_, rfl⟩
    have hbx := hs.bx
    rw [sectorAddress] at hbx
    have hfill : s.bx + 512 * cl = 2 ^ 16 := by omega
    have hhigh : ¬cl / 2 ^ 8 ≠ 0 := by omega
    have hlow : cl % 2 ^ 8 = cl := by omega
    have hsecond : (al + 2 ^ 8 - cl) % 2 ^ 8 = al - cl := by omega
    have hlt : ah + cl < 2 ^ 8 := by omega
    rw [hcl, if_neg hhigh, hlow, hsecond, Nat.mod_eq_of_lt hlt]
    exact hs.across hb hS ht hP hstart hfill (by omega) hend

theorem sectorCount_le (sectorNum dl dh : Nat) (hS : 1 ≤ sectorNum ∧ sectorNum < 2 ^ 6) :
    sectorCount sectorNum dl dh ≤ sectorNum := by
  unfold sectorCount
  split <;> omega

/-- At a boundary of 64K the first of two requests is for no sectors. -/
theorem loadCylinder_boundary (hb : Documented b d) (hs : Loaded d m₀ P s)
    (hS : 1 ≤ d.sectors ∧ d.sectors < 2 ^ 6) (hsome : 1 ≤ sectorCount d.sectors dl dh) (hstart : 128 ∣ 71 + P) :
    loadCylinderCross64K b d.sectors dl dh s = .error .diskError := by
  have hcount : (if dl = 0 ∧ dh = 0 then (d.sectors + 0xFF) % 2 ^ 8 else d.sectors) =
    sectorCount d.sectors dl dh := rfl
  have hfirst : (if dl = 0 ∧ dh = 0 then 2 else 1) = firstSector dl dh := rfl
  have hle := sectorCount_le d.sectors dl dh hS
  have hbx : s.bx = 0 := by
    rw [hs.bx, sectorAddress]
    omega
  have hcross : ¬(0 + 0xFFFF) % 2 ^ 16 + 512 * sectorCount d.sectors dl dh % 2 ^ 16 < 2 ^ 16 := by omega
  simp only [loadCylinderCross64K, hcount, hfirst, hbx]
  rw [if_neg hcross, if_neg (by decide)]
  have hnone : (0xFFFF - 0 + 1) % 2 ^ 16 / 512 % 2 ^ 8 = 0 := by decide
  rw [hnone, diskLoad_none hb, error_bind]

/-! ## All tracks -/

/-- The number of the first sector of track `k`, where the boot sector is left out. -/
def trackStart (sectors k : Nat) : Nat := max 1 (k * sectors)

theorem track_spec (hS : 2 ≤ d.sectors ∧ d.sectors < 2 ^ 6) (hdl : dl < d.cylinders) (hdh : dh < 2) :
    Track d (trackStart d.sectors (2 * dl + dh)) (sectorCount d.sectors dl dh) (firstSector dl dh) dl dh ∧
      trackStart d.sectors (2 * dl + dh) + sectorCount d.sectors dl dh = trackStart d.sectors (2 * dl + dh + 1) := by
  by_cases hfirst : dl = 0 ∧ dh = 0
  · obtain ⟨rfl, rfl⟩ := hfirst
    have hcount : sectorCount d.sectors 0 0 = d.sectors - 1 := by
      rw [sectorCount, if_pos ⟨rfl, rfl⟩]
      omega
    have hahead : firstSector 0 0 = 2 := rfl
    have hstart : trackStart d.sectors (2 * 0 + 0) = 1 := by simp [trackStart]
    have hnext : trackStart d.sectors (2 * 0 + 0 + 1) = d.sectors := by
      rw [trackStart, Nat.one_mul]
      omega
    rw [hcount, hahead, hstart, hnext]
    refine ⟨⟨hdl, by omega, by omega, by omega, by omega, ?_⟩, by omega⟩
    simp [Floppy.lba]
  · have hcount : sectorCount d.sectors dl dh = d.sectors := if_neg hfirst
    have hahead : firstSector dl dh = 1 := if_neg hfirst
    have hpos : 1 ≤ (2 * dl + dh) * d.sectors := Nat.mul_pos (by omega) (by omega)
    have hstart : trackStart d.sectors (2 * dl + dh) = (2 * dl + dh) * d.sectors := max_eq_right hpos
    have hnext : trackStart d.sectors (2 * dl + dh + 1) = (2 * dl + dh) * d.sectors + d.sectors := by
      rw [trackStart, Nat.add_mul, Nat.one_mul]
      omega
    rw [hcount, hahead, hstart, hnext]
    exact ⟨⟨hdl, hdh, by omega, by omega, by omega, by rw [Floppy.lba]; omega⟩, rfl⟩

theorem trackStart_mono (sectors : Nat) {j : Nat} (h : j ≤ k) : trackStart sectors j ≤ trackStart sectors k :=
  max_le_max_left 1 (Nat.mul_le_mul_right _ h)

/-- One of the two tracks of a cylinder. -/
theorem loadCylinder_track (hb : Documented b d) (hS : 2 ≤ d.sectors ∧ d.sectors < 2 ^ 6) (hdl : dl < d.cylinders)
    (hdh : dh < 2) (hs : Loaded d m₀ (trackStart d.sectors (2 * dl + dh)) s)
    (hstart : ¬128 ∣ 71 + trackStart d.sectors (2 * dl + dh))
    (hend : 71 + trackStart d.sectors (2 * dl + dh + 1) ≤ 2 ^ 11) :
    ∃ s', loadCylinderCross64K b d.sectors dl dh s = .ok s' ∧
      Loaded d m₀ (trackStart d.sectors (2 * dl + dh + 1)) s' := by
  obtain ⟨ht, hnext⟩ := track_spec hS hdl hdh
  rw [← hnext] at hend ⊢
  exact loadCylinder_loaded hb hs hS.2 ht (le_max_left 1 _) hstart (by omega)

/-- No track from `k` to `n` starts at a boundary of 64K. -/
def NoBoundary (sectors k n : Nat) : Prop := ∀ j, k ≤ j → j < n → ¬128 ∣ 71 + trackStart sectors j

/-- The tracks of one cylinder. -/
theorem cylinder_loaded (hb : Documented b d) (hS : 2 ≤ d.sectors ∧ d.sectors < 2 ^ 6) (hdl : dl < d.cylinders)
    (hs : Loaded d m₀ (trackStart d.sectors (2 * dl)) s) (hend : 71 + trackStart d.sectors (2 * (dl + 1)) ≤ 2 ^ 11)
    (hstart : NoBoundary d.sectors (2 * dl) (2 * (dl + 1))) :
    ∃ s', (loadCylinderCross64K b d.sectors dl 0 s >>= loadCylinderCross64K b d.sectors dl 1) = .ok s' ∧
      Loaded d m₀ (trackStart d.sectors (2 * (dl + 1))) s' := by
  have hmid : 71 + trackStart d.sectors (2 * dl + 0 + 1) ≤ 2 ^ 11 :=
    (Nat.add_le_add_left (trackStart_mono d.sectors (by omega)) 71).trans hend
  obtain ⟨s₁, hrun₁, hs₁⟩ := loadCylinder_track hb hS hdl (by decide : 0 < 2) hs
    (hstart _ (le_refl _) (by omega)) hmid
  obtain ⟨s₂, hrun₂, hs₂⟩ := loadCylinder_track hb hS hdl (by decide : 1 < 2) hs₁
    (hstart _ (by omega) (by omega)) hend
  refine ⟨s₂, ?_, hs₂⟩
  rw [hrun₁, ok_bind, hrun₂]

theorem cylinder_boundary (hb : Documented b d) (hS : 2 ≤ d.sectors ∧ d.sectors < 2 ^ 6) (hdl : dl < d.cylinders)
    (hs : Loaded d m₀ (trackStart d.sectors (2 * dl)) s) (hend : 71 + trackStart d.sectors (2 * (dl + 1)) ≤ 2 ^ 11)
    (hstart : ¬NoBoundary d.sectors (2 * dl) (2 * (dl + 1))) :
    (loadCylinderCross64K b d.sectors dl 0 s >>= loadCylinderCross64K b d.sectors dl 1) =
      .error .diskError := by
  have hS₁ : 1 ≤ d.sectors ∧ d.sectors < 2 ^ 6 := ⟨by omega, hS.2⟩
  by_cases hfirst : 128 ∣ 71 + trackStart d.sectors (2 * dl)
  · have hstop : loadCylinderCross64K b d.sectors dl 0 s = .error .diskError :=
      loadCylinder_boundary hb hs hS₁ (track_spec hS hdl (by decide)).1.some hfirst
    rw [hstop, error_bind]
  · have hmid : 71 + trackStart d.sectors (2 * dl + 0 + 1) ≤ 2 ^ 11 :=
      (Nat.add_le_add_left (trackStart_mono d.sectors (by omega)) 71).trans hend
    obtain ⟨s₁, hrun₁, hs₁⟩ := loadCylinder_track hb hS hdl (by decide : 0 < 2) hs hfirst hmid
    have hsecond : 128 ∣ 71 + trackStart d.sectors (2 * dl + 1) := by
      by_contra hsecond
      refine hstart fun j hlow hhigh => ?_
      obtain rfl | rfl : j = 2 * dl ∨ j = 2 * dl + 1 := by omega
      · exact hfirst
      · exact hsecond
    rw [hrun₁, ok_bind]
    exact loadCylinder_boundary hb hs₁ hS₁ (track_spec hS hdl (by decide)).1.some hsecond

theorem diskReadLoop_loaded {ch : Nat} (hb : Documented b d) (hS : 2 ≤ d.sectors ∧ d.sectors < 2 ^ 6)
    (hch : ch < d.cylinders ∧ ch < 2 ^ 8 - 1) (hend : 71 + trackStart d.sectors (2 * (ch + 1)) ≤ 2 ^ 11)
    (hdl : dl ≤ ch + 1) (hfuel : ch + 1 - dl < n) (hs : Loaded d m₀ (trackStart d.sectors (2 * dl)) s)
    (hstart : NoBoundary d.sectors (2 * dl) (2 * (ch + 1))) :
    ∃ s', diskReadLoop b d.sectors ch n dl s = some (.ok s') ∧
      Loaded d m₀ (trackStart d.sectors (2 * (ch + 1))) s' := by
  induction n generalizing dl s with
  | zero => omega
  | succ n ih =>
      rw [diskReadLoop]
      by_cases hlast : ch < dl
      · obtain rfl : dl = ch + 1 := by omega
        rw [if_pos hlast]
        exact ⟨s, rfl, hs⟩
      · have hmono := trackStart_mono d.sectors (by omega : 2 * (dl + 1) ≤ 2 * (ch + 1))
        obtain ⟨s₁, hrun, hs₁⟩ := cylinder_loaded hb hS (by omega) hs (by omega) fun j hlow hhigh =>
          hstart j hlow (by omega)
        have hnext : (dl + 1) % 2 ^ 8 = dl + 1 := Nat.mod_eq_of_lt (by omega)
        rw [if_neg hlast, hrun]
        simp only [hnext]
        exact ih (by omega) (by omega) hs₁ fun j hlow hhigh => hstart j (by omega) hhigh

/-- If a track starts at a boundary, the loader stops there. -/
theorem diskReadLoop_boundary {ch : Nat} (hb : Documented b d) (hS : 2 ≤ d.sectors ∧ d.sectors < 2 ^ 6)
    (hch : ch < d.cylinders ∧ ch < 2 ^ 8 - 1) (hend : 71 + trackStart d.sectors (2 * (ch + 1)) ≤ 2 ^ 11)
    (hdl : dl ≤ ch + 1) (hfuel : ch + 1 - dl < n) (hs : Loaded d m₀ (trackStart d.sectors (2 * dl)) s)
    (hstart : ¬NoBoundary d.sectors (2 * dl) (2 * (ch + 1))) :
    diskReadLoop b d.sectors ch n dl s = some (.error .diskError) := by
  induction n generalizing dl s with
  | zero => omega
  | succ n ih =>
      have hin : ¬ch < dl := fun hlast => hstart fun j hlow hhigh => by omega
      rw [diskReadLoop, if_neg hin]
      have hmono := trackStart_mono d.sectors (by omega : 2 * (dl + 1) ≤ 2 * (ch + 1))
      by_cases hhere : NoBoundary d.sectors (2 * dl) (2 * (dl + 1))
      · obtain ⟨s₁, hrun, hs₁⟩ := cylinder_loaded hb hS (by omega) hs (by omega) hhere
        have hnext : (dl + 1) % 2 ^ 8 = dl + 1 := Nat.mod_eq_of_lt (by omega)
        rw [hrun]
        simp only [hnext]
        refine ih (by omega) (by omega) hs₁ fun hrest => hstart fun j hlow hhigh => ?_
        by_cases hj : j < 2 * (dl + 1)
        · exact hhere j hlow hj
        · exact hrest j (by omega) hhigh
      · rw [cylinder_boundary hb hS (by omega) hs (by omega) hhere]

/-- The number of tracks that are loaded. -/
def loadedTracks (sectorNum : Nat) : Nat := 2 * (loadedCylNum sectorNum + 1)

theorem loadedTracks_bounds {sectors : Nat} (hS : 2 ≤ sectors ∧ sectors < 2 ^ 6) :
    loadedCylNum sectors ≤ 25 ∧ 71 + trackStart sectors (loadedTracks sectors) ≤ 2 ^ 11 ∧
      trackStart sectors (loadedTracks sectors) = loadedTracks sectors * sectors := by
  rw [trackStart, loadedTracks, loadedCylNum]
  split <;> omega

theorem loadKernel_eq (hb : Documented b d) (m₀ : Mem) : loadKernel b m₀ =
    diskLoadAll b d.sectors 0 (loadedCylNum d.sectors) ⟨0, loadedAddress, m₀⟩ := by
  simp only [loadKernel, getFloppyChs, hb.parameters.1, hb.parameters.2]
  rfl

theorem loaded_boot (d : Floppy) (m₀ : Mem) :
    Loaded d m₀ (trackStart d.sectors (2 * 0)) ⟨0, loadedAddress, m₀⟩ := by
  have hone : trackStart d.sectors (2 * 0) = 1 := by simp [trackStart]
  rw [hone]
  exact ⟨rfl, rfl, fun x hlow hhigh => by omega, fun a ha => rfl⟩

/-- Without a track at a boundary of 64K all of them are loaded. -/
theorem loadKernel_filled (hb : Documented b d) (hS : 2 ≤ d.sectors ∧ d.sectors < 2 ^ 6)
    (hcyl : loadedCylNum d.sectors < d.cylinders) (m₀ : Mem)
    (hclear : NoBoundary d.sectors 0 (loadedTracks d.sectors)) :
    ∃ s, loadKernel b m₀ = some (.ok s) ∧ Filled d m₀ (loadedTracks d.sectors * d.sectors) s.mem := by
  obtain ⟨hnum, hfits, htracks⟩ := loadedTracks_bounds hS
  obtain ⟨s, hrun, hs⟩ := diskReadLoop_loaded (n := 2 ^ 8 + 1) hb hS ⟨hcyl, by omega⟩ hfits (by omega)
    (by omega) (loaded_boot d m₀) hclear
  refine ⟨s, ?_, ?_⟩
  · rw [loadKernel_eq hb, diskLoadAll]
    exact hrun
  · rw [← htracks]
    exact hs.filled

/-- The loader puts the disk behind the boot sector into memory, without a gap, from `LOADED_ADDRESS` on, and
nothing else changes. It stops with an error exactly when one of the tracks starts at a boundary of 64K. -/
theorem loadKernel_loads (hb : Documented b d) (hS : 2 ≤ d.sectors ∧ d.sectors < 2 ^ 6)
    (hcyl : loadedCylNum d.sectors < d.cylinders) (m₀ : Mem) :
    (NoBoundary d.sectors 0 (loadedTracks d.sectors) →
      ∃ s, loadKernel b m₀ = some (.ok s) ∧ Filled d m₀ (loadedTracks d.sectors * d.sectors) s.mem) ∧
    (¬NoBoundary d.sectors 0 (loadedTracks d.sectors) → loadKernel b m₀ = some (.error .diskError)) := by
  refine ⟨loadKernel_filled hb hS hcyl m₀, fun hboundary => ?_⟩
  obtain ⟨hnum, hfits, -⟩ := loadedTracks_bounds hS
  rw [loadKernel_eq hb, diskLoadAll]
  exact diskReadLoop_boundary (n := 2 ^ 8 + 1) hb hS ⟨hcyl, by omega⟩ hfits (by omega) (by omega)
    (loaded_boot d m₀) hboundary

/-- With an even number of sectors no track starts there. -/
theorem noBoundary_of_even {sectors : Nat} (h : 2 ∣ sectors) (k n : Nat) : NoBoundary sectors k n := by
  intro j _ _ hboundary
  obtain ⟨r, rfl⟩ := h
  have hprod : j * (2 * r) = 2 * (j * r) := by ring
  rw [trackStart, hprod] at hboundary
  omega

/-! ## A floppy disk of 1.44M -/

/-- A BIOS for a disk that checks nothing but the number of sectors of a request. -/
def biosFor (d : Floppy) : Bios where
  parameters := ⟨false, d.sectors, d.cylinders - 1, 1⟩
  read q m :=
    if q.al = 0 then ⟨true, 0, m⟩
    else ⟨false, q.al, fun a =>
      if q.address ≤ a ∧ a < q.address + 512 * q.al then d.byte (512 * d.lba q.ch q.dh q.cl + (a - q.address))
      else m a⟩

theorem biosFor_documented {d : Floppy} (hS : d.sectors < 64) : Documented (biosFor d) d where
  parameters := ⟨rfl, Nat.mod_eq_of_lt hS⟩
  read q m hq := by
    have hsome : ¬q.al = 0 := by
      have := hq.some
      omega
    simp only [biosFor, if_neg hsome]
    refine ⟨trivial, trivial, fun i hi => ?_, fun a ha => if_neg (by omega)⟩
    rw [if_pos ⟨by omega, by omega⟩, Nat.add_sub_cancel_left]
  none q m hq := by
    simp only [biosFor, if_pos hq]

def sampleFloppy : Floppy := ⟨18, 80, UInt8.ofNat⟩

theorem loadKernel_loads_sample : ∃ s, loadKernel (biosFor sampleFloppy) (fun _ => 0) = some (.ok s) ∧
    Filled sampleFloppy (fun _ => 0) 936 s.mem :=
  (loadKernel_loads (biosFor_documented (by decide)) (by decide) (by decide) _).1 (noBoundary_of_even (by decide) _ _)

end TsOs.Boot
