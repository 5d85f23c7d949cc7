import TsOs.Paging.Frames

/-!
# Page tables and temporary mappings

The kernel build of `mem.c`, run with `pg_dir0` as the active directory. Physical
memory is a sequence of frames of 1024 words; page tables and directories are frames.
A frame is known by its number; the source's addresses are 4096 times it.

The page table of directory slot 1022 holds the temporary mappings. A temporary
mapping is known by its index `i` in that table; its address in the source is
`IX_TO_VA(1022, i)`. Reading or writing through it goes to the frame that entry `i`
holds at that moment.

## Implementation notes

The result `none` stands for an access through an entry that is not present, for a
failed `ASSERT`, which does not return, and for a table without a free entry.
-/

namespace TsOs.Paging

def pageP : Nat := 1

/-- `PAGE_FLG_USR`. -/
def pageFlgUsr : Nat := 15

/-- `PAGE_FLG_KERNEL`. -/
def pageFlgKernel : Nat := 11

/-- `PAGE_DIR_INDEX`. -/
def pageDirIndex (va : Nat) : Nat := va / 2 ^ 22

/-- `PAGE_TABLE_INDEX`. -/
def pageTableIndex (va : Nat) : Nat := va / 2 ^ 12 % 1024

/-- `IX_TO_VA`. -/
def ixToVa (di ti : Nat) : Nat := di * 2 ^ 22 + ti * 2 ^ 12

/-- The address with its page offset cleared. -/
def pageAddr (va : Nat) : Nat := va / frameSize * frameSize

/-- `PAGE_ENTRY_SET`. -/
def entrySet (e : Nat) : Bool := decide (e % 2 = pageP)

/-- The frame that an entry names. -/
def frameOf (e : Nat) : Nat := e / frameSize

/-- The entry for a frame. -/
def pageEntry (f flag : Nat) : Nat := f * frameSize ||| flag

/-- The frame of `pg_dir0`. -/
def pgDir0 : Nat := oneMB / frameSize

/-- `DIR0_PT_PHY`. -/
def dir0Pt (i : Nat) : Nat := pgDir0 + 1 + i

/-- The table of the temporary mappings. -/
def sysTb : Nat := dir0Pt 1022

/-- `USTACK_FRAME`. -/
def ustackFrame : Nat := kernelVStart - frameSize

/-- `KSTACK_FRAME`. -/
def kstackFrame : Nat := ixToVa 1021 1023

/-- The words of the frames and the frame bitmap. -/
structure Machine where
  mem : Nat → Nat → BitVec 32
  bitmap : Bitmap

/-- Word `j` of a frame. -/
def word (s : Machine) (f j : Nat) : Nat := (s.mem f j).toNat

def setWord (s : Machine) (f j v : Nat) : Machine :=
  { s with mem := fun g i => if g = f ∧ i = j then BitVec.ofNat 32 v else s.mem g i }

/-- Assign all words of a frame. -/
def setFrame (s : Machine) (f : Nat) (src : Nat → BitVec 32) : Machine :=
  { s with mem := fun g i => if g = f then src i else s.mem g i }

/-- The frame that a temporary mapping leads to. -/
def tempFrame (s : Machine) (i : Nat) : Option Nat :=
  if i < 1024 ∧ entrySet (word s sysTb i) then some (frameOf (word s sysTb i)) else none

/-- `p[j]`. -/
def peek (s : Machine) (p j : Nat) : Option Nat := (tempFrame s p).map fun f => word s f j

/-- `p[j] = v`. -/
def poke (s : Machine) (p j v : Nat) : Option Machine :=
  (tempFrame s p).map fun f => setWord s f j v

/-- `memzero(p, FRAME_SIZE)`. -/
def memzero (s : Machine) (p : Nat) : Option Machine :=
  (tempFrame s p).map fun f => setFrame s f fun _ => 0

/-- `memcpy(src, p, FRAME_SIZE)`. -/
def memcpy (s : Machine) (src : Nat → BitVec 32) (p : Nat) : Option Machine :=
  (tempFrame s p).map fun f => setFrame s f src

/-- `lookup_temp_va`, with `none` for `NULL`. -/
def lookupTempVa (s : Machine) (f : Nat) : Option Nat :=
  firstIndex (fun i => tempFrame s i = some f) 1024 0

def createTempVa (s : Machine) (f : Nat) : Option (Nat × Machine) := do
  let i ← firstIndex (fun i => !entrySet (word s sysTb i)) 1024 0
  return (i, setWord s sysTb i (pageEntry f pageFlgKernel))

def deleteTempVa (s : Machine) (i : Nat) : Machine := setWord s sysTb i 0

def getTempVa (s : Machine) (f : Nat) : Option (Nat × Machine) :=
  match lookupTempVa s f with
  | some i => some (i, s)
  | none => createTempVa s f

def ptPhyFromDir (s : Machine) (dir di : Nat) : Option Nat := do
  let e ← peek s dir di
  if entrySet e then some (frameOf e) else none

/-- `lookup_pt_temp_va`, with an inner `none` for `NULL`. -/
def lookupPtTempVa (s : Machine) (dir di : Nat) : Option (Option Nat) := do
  let f ← ptPhyFromDir s dir di
  if f = 0 then none else some (lookupTempVa s f)

def getPtVa (s : Machine) (dir di : Nat) : Option (Nat × Machine) := do
  let f ← ptPhyFromDir s dir di
  if f = 0 then none else getTempVa s f

def pgDirAdd (s : Machine) (dir revTb di f flag : Nat) : Option Machine := do
  let e ← peek s dir di
  if entrySet e then
    return s
  let s ← poke s dir di (pageEntry f flag)
  poke s revTb di (pageEntry f pageP)

/-- `create_page_table`, with an inner `none` for `NULL`. -/
def createPageTable (s : Machine) (dir revTb va flag : Nat) : Option (Option Nat × Machine) := do
  let e ← peek s dir (pageDirIndex va)
  if entrySet e then
    return (none, s)
  let (ptPhy, bitmap) ← allocFrame s.bitmap userPStart maxMemSize
  let (ptBase, s) ← createTempVa { s with bitmap := bitmap } (frameNb ptPhy)
  if ptPhy = 0 then
    return (none, s)
  let s ← memzero s ptBase
  let s ← poke s dir (pageDirIndex va) (pageEntry (frameNb ptPhy) flag)
  let s ← poke s revTb (pageDirIndex va) (pageEntry (frameNb ptPhy) pageP)
  return (some ptBase, s)

/-- `alloc_page` for user memory: the mapping, the frame and the new state. -/
def allocPage (s : Machine) : Option (Nat × Nat × Machine) := do
  let (phy, bitmap) ← allocFrame s.bitmap userPStart maxMemSize
  let (ptr, s) ← createTempVa { s with bitmap := bitmap } (frameNb phy)
  let s ← memzero s ptr
  if phy = 0 then none
  return (ptr, frameNb phy, s)

/-- The table that one round of `request_region_vmap` uses: `new_pt` and `pt_now`. When the
directory entry exists, a table from an earlier round is kept even if `va` has entered
another directory slot. -/
def selectTable (s : Machine) (dir revTb : Nat) (ptNow : Option Nat) (va flag : Nat) :
    Option (Option Nat × Nat × Machine) := do
  let (newPt, s) ← createPageTable s dir revTb va flag
  match newPt, ptNow with
  | some p, some old => return (some p, p, deleteTempVa s old)
  | some p, none => return (some p, p, s)
  | none, some old => return (none, old, s)
  | none, none => do
      let (p, s) ← getPtVa s dir (pageDirIndex va)
      return (none, p, s)

/-- The second half of a round: give the page a frame if it has none. -/
def fillEntry (s : Machine) (pt va flag : Nat) : Option Machine := do
  let e ← peek s pt (pageTableIndex va)
  if entrySet e then
    return s
  let (page, phy, s) ← allocPage s
  let s ← poke s pt (pageTableIndex va) (pageEntry phy flag)
  return deleteTempVa s page

/-- The loop of `request_region_vmap`: the last `new_pt` and the new state. -/
def mapRegionLoop (dir revTb vaEnd flag : Nat) :
    Nat → Machine → Option Nat → Option Nat → Nat → Nat → Option (Option Nat × Machine)
  | 0, _, _, _, _, _ => none
  | n + 1, s, newPt, ptNow, dirFlg, va =>
      if va ≤ vaEnd then do
        let dirFlg := if va < kernelVStart then pageFlgUsr else dirFlg
        let (newPt, pt, s) ← selectTable s dir revTb ptNow va dirFlg
        let s ← fillEntry s pt va flag
        mapRegionLoop dir revTb vaEnd flag n s newPt (some pt) dirFlg (u32 (va + frameSize))
      else some (newPt, s)

/-- A bound on the number of pages. -/
def pageFuel : Nat := 2 ^ 20 + 1

/-- The mapping of the reverse table, `rev_tb`, and whether it is new, `new_rev_va_flg`. -/
def getRevTable (s : Machine) (dir : Nat) : Option (Nat × Bool × Machine) :=
  (lookupPtTempVa s dir 1023).bind fun found =>
    match found with
    | some i => some (i, false, s)
    | none => (getPtVa s dir 1023).map fun (i, s) => (i, true, s)

def requestRegionVmap (s : Machine) (dir vaStart size flag : Nat) : Option Machine := do
  let vaEnd := pageAddr (u32 (vaStart + size))
  let (revTb, newRevVaFlg, s) ← getRevTable s dir
  let (newPt, s) ← mapRegionLoop dir revTb vaEnd flag pageFuel s none none pageFlgKernel
    (pageAddr vaStart)
  let s := match newPt with
    | some p => deleteTempVa s p
    | none => s
  return if newRevVaFlg then deleteTempVa s revTb else s

def getPhyFromDir (s : Machine) (dir va : Nat) : Option (Nat × Machine) := do
  let phyTb ← ptPhyFromDir s dir (pageDirIndex va)
  let (tb, s) ← getTempVa s phyTb
  let e ← peek s tb (pageTableIndex va)
  return (frameOf e, deleteTempVa s tb)

end TsOs.Paging
