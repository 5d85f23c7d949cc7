import TsOs.Lib.Numbers

/-!
# Printing numbers

`itoa` and `sprint_hex` write the digits of a number into a buffer, and `_print_num` prints
them in a width. `printf` hands each format to `_print_arg_handler`.

## Implementation notes

What is printed is the list of the characters that go to the console. A store or a read
outside of a buffer has no result, and neither has a format whose argument is missing or
of another type.
-/

namespace TsOs.Print
open ByteMemory

/-- The characters of a message of the source. -/
def chars (text : String) : List UInt8 := text.toList.map fun c => UInt8.ofNat c.toNat

/-- The character `0`. -/
def zero : UInt8 := 48

def isNum (c : UInt8) : Bool := 48 ≤ c ∧ c ≤ 57

def isAlpha (c : UInt8) : Bool := (65 ≤ c ∧ c ≤ 90) ∨ (97 ≤ c ∧ c ≤ 122)

/-! ## Numbers in a buffer -/

def hbToHex (b : UInt8) : UInt8 := if b >>> 4 ≤ 9 then (b >>> 4) + 48 else (b >>> 4) - 10 + 65

def lbToHex (b : UInt8) : UInt8 := if b &&& 0x0F ≤ 9 then (b &&& 0x0F) + 48 else (b &&& 0x0F) - 10 + 65

/-- The loop of `sprint_hex` over the bytes `a` of the number, from the last one on. -/
def sprintHexLoop (a : Nat → UInt8) : Nat → Nat → Mem → Mem
  | 0, _, buf => buf
  | b + 1, cnt, buf =>
      let buf := store8 buf cnt (hbToHex (a b))
      let buf := store8 buf (cnt + 1) (lbToHex (a b))
      sprintHexLoop a b (cnt + 2) buf

def sprintHex (x : Int) (buf : Mem) : Mem :=
  sprintHexLoop (fun i => UInt8.ofNat (intToU32 x / 256 ^ i)) 4 0 buf

/-- The digit loop of `itoa`, with room for as many characters from index `i` on: the buffer
and the number of characters in it. -/
def itoaDigits : Nat → Int → Nat → Mem → Option (Mem × Nat)
  | 0, _, _, _ => none
  | room + 1, a, i, buf =>
      let buf := store8 buf i (UInt8.ofInt (a.tmod 10 + 48))
      let a := a.tdiv 10
      if a = 0 then some (buf, i + 1) else itoaDigits room a (i + 1) buf

/-- The loop of `itoa` that swaps the characters from both ends. -/
def swapEnds : Nat → Nat → Mem → Mem
  | 0, _, buf => buf
  | i + 1, j, buf =>
      if j < i + 1 then
        let c := buf j
        let buf := store8 buf j (buf (i + 1))
        let buf := store8 buf (i + 1) c
        swapEnds i (j + 1) buf
      else buf

def itoa (a : Int) (buf : Mem) (bufSize : Nat) : Option Mem := do
  let buf : Mem := fun i => if i < bufSize then 0 else buf i
  let (buf, i) ← itoaDigits bufSize a 0 buf
  return swapEnds (i - 1) 0 buf

/-! ## Formats -/

/-- The size of the buffer in `_print_num`. -/
def numBufSize : Nat := 33

/-- The loop of `_print_num` that ignores leading zeros, for at most `n` rounds. -/
def skipZeros (buf : Mem) : Nat → Nat → Option Nat
  | 0, _ => none
  | n + 1, p => if buf (p + 1) ≠ 0 ∧ buf p = zero then skipZeros buf n (p + 1) else some p

/-- The end of `_print_num`, with the first character that is not ignored at `p`. -/
def printPadded (buf : Mem) (p : Nat) (zeroFlag : Bool) (numStrLen : Int) : Option (List UInt8) := do
  let text ← cString buf (numBufSize - p) p
  if numStrLen = -1 then return text
  let numLen : Int := text.length
  let lenDiff := numStrLen - numLen
  if 0 < lenDiff then return (if zeroFlag then List.replicate lenDiff.toNat zero else []) ++ text
  let p := (p + numLen - numStrLen).toNat
  cString buf (numBufSize - p) p

/-- What `_print_num` takes from a format, and whether the format is an error. -/
structure NumFormat where
  wrong : Bool
  zeroFlag : Bool
  numStrLen : Int
  deriving DecidableEq

/-- The first part of `_print_num`, up to `output_num`. -/
def numFormat (fmt : List UInt8) : NumFormat :=
  if fmt = [] ∨ fmt = [zero] then ⟨false, false, -1⟩
  else if ¬fmt.all isNum then ⟨true, false, -1⟩
  else if fmt.head? = some zero then ⟨false, true, (atoi fmt.tail 10 : Int).bmod (2 ^ 32)⟩
  else ⟨false, false, (atoi fmt 10 : Int).bmod (2 ^ 32)⟩

/-- The buffer of `_print_num`, into which the digits are written. -/
def numBuffer (numType : UInt8) (num : Int) : Option Mem :=
  if numType = 120 then some (sprintHex num fun _ => 0) else itoa num (fun _ => 0) numBufSize

/-- `_print_num`. -/
def printNum (fmt : List UInt8) (numType : UInt8) (num : Int) : Option (List UInt8) := do
  let format := numFormat fmt
  let error := if format.wrong then chars "error print num format\n" else []
  let mark := if numType = 120 then chars "0x" else []
  let buf ← numBuffer numType num
  let p ← skipZeros buf (numBufSize - 1) 0
  let text ← printPadded buf p format.zeroFlag format.numStrLen
  return error ++ mark ++ text

/-- An argument of `printf`. -/
inductive Arg where
  | int (x : Int)
  | str (s : List UInt8)

/-- The `switch` of `_print_arg_handler` over the letter `p` behind a width: what is printed and the
arguments that are left, or `none` for an error. -/
def printArg (width : List UInt8) (p : UInt8) : List Arg → Option (Option (List UInt8 × List Arg))
  | .int x :: args =>
      if p = 99 then some (some ([UInt8.ofInt x], args))
      else if p = 120 ∨ p = 100 then
        if width.length < 32 then (printNum width p x).map fun text => some (text, args) else none
      else if p = 115 then none
      else some none
  | .str s :: args =>
      if p = 115 then some (some (s, args))
      else if p = 99 ∨ p = 120 ∨ p = 100 then none
      else some none
  | [] => if p = 99 ∨ p = 120 ∨ p = 100 ∨ p = 115 then none else some none

/-- `_print_arg_handler`: what it prints and the rest of the format and of the arguments, or `none`
for `NULL`. -/
def printArgHandler (fmt : List UInt8) (args : List Arg) :
    Option (Option (List UInt8 × List UInt8 × List Arg)) :=
  let width := fmt.takeWhile (! isAlpha ·)
  match fmt.dropWhile (! isAlpha ·) with
  | [] => some none
  | p :: rest => (printArg width p args).map fun next => next.map fun (text, args) => (text, rest, args)

/-- The loop of `printf`, for at most `n` rounds. -/
def printfLoop : Nat → List UInt8 → List Arg → Option (List UInt8)
  | _, [], _ => some []
  | 0, _ :: _, _ => none
  | n + 1, c :: fmt, args =>
      if c = 37 then do
        match ← printArgHandler fmt args with
        | none => return chars "printf format error!\n"
        | some (text, fmt, args) => return text ++ (← printfLoop n fmt args)
      else (printfLoop n fmt args).map (c :: ·)

def printf (fmt : List UInt8) (args : List Arg) : Option (List UInt8) :=
  printfLoop fmt.length fmt args

end TsOs.Print
