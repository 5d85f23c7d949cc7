import TsOs.Library.ByteMemory
import TsOs.Machine

/-!
# Names and paths

The string functions that the file system uses. A C string is the list of its
characters without the terminator, or a buffer in which it stands.
-/

namespace TsOs.Fat
open ByteMemory

/-- A C string as the contents of a buffer. -/
def cstr (s : List UInt8) : Mem := fun i => s.getD i 0

def slash : UInt8 := 47

def space : UInt8 := 32

/-- The character `.`. -/
def dot : UInt8 := 46

/-! ## Formatted names -/

def upperCase (c : UInt8) : UInt8 := if 97 ≤ c ∧ c ≤ 122 then c - 97 + 65 else c

/-- The position of the terminator. The buffers in question have one before index 16. -/
def strlen (buf : Mem) : Nat := (firstIndex (fun i => buf i = 0) 16 0).getD 16

def strPad (buf : Mem) (value : UInt8) (size : Nat) : Mem :=
  let cnt := strlen buf
  fun i => if cnt ≤ i ∧ i < size then value else if i = max cnt size then 0 else buf i

/-- `fat16_pad`. -/
def fat16Pad (buf s : Mem) : Mem :=
  let buf := strPad (fun i => if i < 9 then s i else buf i) space 8
  fun i => if i = 8 then space else buf i

/-- `fat16_filename_fmt`. -/
def fat16FilenameFmt (buf s : Mem) : Mem :=
  let buf := fat16Pad buf s
  fun i => if i < 9 then upperCase (buf i) else buf i

/-! ## Cutting strings -/

/-- `strfd`, as the position found. -/
def strfd (s pat : List UInt8) : Option Nat :=
  if pat = [] then none else firstIndex (fun i => pat.isPrefixOf (s.drop i)) s.length 0

/-- `no_leading`. -/
def noLeading (pat : List UInt8) : Nat → List UInt8 → List UInt8
  | 0, s => s
  | n + 1, s => if s ≠ [] ∧ strfd s pat = some 0 then noLeading pat n (s.drop pat.length) else s

/-- `strtok`: the contents of the buffer and the rest, with `none` for `NULL`. -/
def strtok (s del : List UInt8) : List UInt8 × Option (List UInt8) :=
  let s := noLeading del s.length s
  match strfd s del with
  | none => (s, none)
  | some i =>
      let next := s.drop (i + del.length)
      let next := noLeading del next.length next
      (s.take i, if next = [] then none else some next)

/-- `get_filename`. -/
def getFilename (path : List UInt8) : Option (List UInt8) :=
  let s := path.reverse.dropWhile (· = slash)
  if s = [] then none else some (s.takeWhile (· ≠ slash)).reverse

/-- The last `/` that is not the last character. -/
def lastSlash (path : List UInt8) : Option Nat :=
  (List.range path.length).foldl
    (fun d i => if path.getD i 0 = slash ∧ i + 1 < path.length then some i else d) none

/-- `get_basedir`. Without a `/` the source copies from a null pointer on. -/
def getBasedir (path : List UInt8) : Option (List UInt8) :=
  (lastSlash path).map fun d => path.take (d + 1)

end TsOs.Fat
