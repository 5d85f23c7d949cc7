import TsOs.Library.ByteMemory
import TsOs.Machine

/-!
# The kernel heap allocator

The heap is one stretch of bytes tiled by regions. Each region starts with a
twelve-byte `RegionHeader`: `type` at offset 0, `magic` at 1, `size` at 4 and
`link` at 8, the compiler leaving bytes 2 and 3 unused. `index_head` starts the
list of free regions. Pointers are thirty-two-bit numbers and `0` is `NULL`.

## Implementation notes

The list searches of the source have no bound of their own. Here each gets
`heapFuel` steps, which is more than the number of headers that fit in the
heap, and the result `none` stands for a search that does not end or that
follows `NULL`. The invariant shows that neither happens.
-/

namespace TsOs.Malloc
open ByteMemory

def heapStart : Nat := kernelVStart + 12 * oneMB

def heapEnd : Nat := kernelVStart + 16 * oneMB

def rHeaderSize : Nat := 12

def regionFree : UInt8 := 0

def regionAlloc : UInt8 := 1

/-- A bound on the number of headers in the heap. -/
def heapFuel : Nat := (heapEnd - heapStart) / rHeaderSize + 1

/-- The allocator's state: the memory and the global `index_head`. -/
structure Heap where
  mem : Mem
  indexHead : Nat

def hdType (m : Mem) (hd : Nat) : UInt8 := m hd

def hdSize (m : Mem) (hd : Nat) : Nat := load32 m (hd + 4)

def hdLink (m : Mem) (hd : Nat) : Nat := load32 m (hd + 8)

def setType (m : Mem) (hd : Nat) (v : UInt8) : Mem := store8 m hd v

def setMagic (m : Mem) (hd : Nat) (v : UInt8) : Mem := store8 m (hd + 1) v

def setSize (m : Mem) (hd v : Nat) : Mem := store32 m (hd + 4) v

def setLink (m : Mem) (hd v : Nat) : Mem := store32 m (hd + 8) v

/-- `CREATE_HEADER`. -/
def createHeader (m : Mem) (hd : Nat) (type : UInt8) (size link : Nat) : Mem :=
  let m := setMagic m hd 0x87
  let m := setType m hd type
  let m := setSize m hd size
  setLink m hd link

/-- `GET_NEXT_HEADER`. -/
def getNextHeader (m : Mem) (hd : Nat) : Nat := u32 (hd + hdSize m hd + rHeaderSize)

/-- `REACH_HEAP_END`. -/
def reachHeapEnd (a : Nat) : Bool := decide (heapEnd ≤ a)

def initHeap (m : Mem) : Heap where
  mem := createHeader m heapStart regionFree (heapEnd - heapStart - rHeaderSize) 0
  indexHead := heapStart

def addAllocRegion (h : Heap) (addr : Nat) : Heap :=
  let next := getNextHeader h.mem addr
  if reachHeapEnd next then h
  else if hdType h.mem next = regionFree then h
  else { h with mem := setLink h.mem next addr }

def addFreeRegion (h : Heap) (prev next new : Nat) : Heap :=
  let h := if prev = 0 then { h with indexHead := new }
    else { h with mem := setLink h.mem prev new }
  { h with mem := setLink h.mem new next }

def delFreeRegion (h : Heap) (prev deleted : Nat) : Heap :=
  if deleted = 0 then h
  else
    let next := hdLink h.mem deleted
    if prev = 0 then { h with indexHead := next }
    else { h with mem := setLink h.mem prev next }

/-- The list search shared by `kmalloc` and `search_and_add_free_region`: stop at
the first node of size at least `need`, keeping the node before it. -/
def searchFreeList (m : Mem) (need : Nat) : Nat → Nat → Nat → Option (Nat × Nat)
  | 0, _, _ => none
  | fuel + 1, prev, cur =>
      if cur = 0 then some (prev, cur)
      else if need ≤ hdSize m cur then some (prev, cur)
      else searchFreeList m need fuel cur (hdLink m cur)

def searchAndAddFreeRegion (h : Heap) (new : Nat) : Option Heap := do
  let (prev, cur) ← searchFreeList h.mem (hdSize h.mem new) heapFuel 0 h.indexHead
  return addFreeRegion h prev cur new

/-- `kmalloc`, with the returned data address, `0` for `NULL`. -/
def kmalloc (h : Heap) (size : Nat) : Option (Heap × Nat) := do
  let (prev, cur) ← searchFreeList h.mem (u32 (size + rHeaderSize)) heapFuel 0 h.indexHead
  if cur = 0 then
    return (h, 0)
  let h := delFreeRegion h prev cur
  let rest := sub32 (sub32 (hdSize h.mem cur) size) rHeaderSize
  let h ← searchAndAddFreeRegion { h with mem := setSize h.mem cur rest } cur
  let allocHd := getNextHeader h.mem cur
  let h := { h with mem := createHeader h.mem allocHd regionAlloc size cur }
  return (addAllocRegion h allocHd, u32 (allocHd + rHeaderSize))

/-- The search of `kfree` for the node before `target`. Reaching `NULL` first would
make the source read a header at address zero. -/
def searchNode (m : Mem) (target : Nat) : Nat → Nat → Nat → Option Nat
  | 0, _, _ => none
  | fuel + 1, it1, it2 =>
      if it2 = target then some it1
      else if it2 = 0 then none
      else searchNode m target fuel it2 (hdLink m it2)

/-- `kfree`'s removal of a free neighbour from the list, nothing for `NULL`. -/
def unlinkNeighbour (h : Heap) (target : Nat) : Option Heap :=
  if target = 0 then some h
  else do
    let it1 ← searchNode h.mem target heapFuel 0 h.indexHead
    return delFreeRegion h it1 target

/-- `unified_hd->size += R_HEADER_SIZE + other->size`. -/
def absorb (m : Mem) (unified other : Nat) : Mem :=
  setSize m unified (u32 (hdSize m unified + rHeaderSize + hdSize m other))

/-- The memory after `kfree` has added the sizes of the free neighbours. -/
def absorbBoth (m : Mem) (prev header next : Nat) : Mem :=
  let m := if prev = 0 then m else absorb m prev header
  if next = 0 then m else absorb m (if prev = 0 then header else prev) next

def kfree (h : Heap) (addr : Nat) : Option Heap := do
  let header := sub32 addr rHeaderSize
  let prev := hdLink h.mem header
  let next := getNextHeader h.mem header
  let next := if reachHeapEnd next || hdType h.mem next = regionAlloc then 0 else next
  let prev := if hdType h.mem prev = regionAlloc then 0 else prev
  let h := { h with mem := setType h.mem header regionFree }
  let h ← unlinkNeighbour h prev
  let h ← unlinkNeighbour h next
  let unified := if prev = 0 then header else prev
  let h ← searchAndAddFreeRegion { h with mem := absorbBoth h.mem prev header next } unified
  let next := getNextHeader h.mem unified
  if reachHeapEnd next then return h
  return { h with mem := setLink h.mem next unified }

end TsOs.Malloc
