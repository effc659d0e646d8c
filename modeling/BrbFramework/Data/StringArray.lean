import Mathlib.Data.List.Basic

/-!
# String arrays

A `StringArray` is the list of its strings: the offsets at which they lie in the
one buffer of the array, and the line buffers of the functions below, which are
long enough for every line that is copied, are left out. Behind the bytes of a
string is a zero, which ends it, as the first zero among the bytes does.

The four functions that explode a string run one loop. They differ in the length
they look at, in the test for a delimiter, in how they add a line, and
`StringArrayExplodeStrInit` in what it does after a delimiter at the very front.
-/

namespace BrbData

/-- The bytes of a string without the zero that ends it. -/
abbrev CStr := List UInt8

/-- `MEMBUFFER_MAX_PRINTF`. -/
abbrev memBufferMaxPrintf : Nat := 65535

/-- `MAX_ARRLINE_SZ`. -/
abbrev maxArrLineSz : Nat := 65535

namespace CStr

/-- `str_ptr[i]`. -/
def charAt (str : CStr) (i : Nat) : UInt8 := str.getD i 0

/-- `strlen`. -/
def strlen (str : CStr) : Nat := (str.takeWhile (· ≠ 0)).length

/-- `strncmp(str_ptr, other, n) == 0`. -/
def strncmpEq : CStr → CStr → Nat → Bool
  | _, _, 0 => true
  | str, other, n + 1 =>
      str.charAt 0 == other.charAt 0 &&
        (str.charAt 0 == 0 || strncmpEq (str.drop 1) (other.drop 1) n)

/-- The `offset` bytes from `base` on, as they are copied to a line buffer. -/
def slice (str : CStr) (base offset : Nat) : CStr := (str.drop base).take offset

/-- `buf_str[i] = c`, inside what is allocated. -/
def put (buf : List UInt8) (i : Nat) (c : UInt8) : Option (List UInt8) :=
  if i < buf.length then some (buf.set i c) else none

def hexDigit (c : UInt8) : Option Nat :=
  if '0'.toUInt8 ≤ c ∧ c ≤ '9'.toUInt8 then some (c.toNat - 0x30)
  else if 'A'.toUInt8 ≤ c ∧ c ≤ 'F'.toUInt8 then some (c.toNat - 0x37)
  else if 'a'.toUInt8 ≤ c ∧ c ≤ 'f'.toUInt8 then some (c.toNat - 0x57)
  else none

end CStr

namespace StringArray

open CStr

/-- What `StringArrayAdd` takes of a string. -/
def addLine (newString : CStr) : CStr := newString.take (min newString.strlen maxArrLineSz)

/-- `StringArrayUnescapeString`. -/
def unescapeString (str : CStr) (escapeByte : UInt8) : CStr :=
  (str.take str.strlen).filter (· ≠ escapeByte)

/-- `StringArrayEscapeString`: the bytes that it writes, and how many it escaped. -/
def escapeString (str : CStr) (delimByte escapeByte : UInt8) : CStr × Nat :=
  ((str.take str.strlen).flatMap fun b => if b = delimByte then [escapeByte, b] else [b],
    (str.take str.strlen).count delimByte)

/-- The loop of `StringArrayImplodeToMemBuffer`, over the elements that are left. -/
def implodeFrom (delimByte escapeByte : UInt8) : List CStr → List UInt8
  | [] => []
  | str :: rest =>
      let strSz := str.strlen
      if strSz = 0 then
        if rest.isEmpty then implodeFrom delimByte escapeByte rest
        else delimByte :: implodeFrom delimByte escapeByte rest
      else
        let (buffer, escapedItems) := escapeString str delimByte escapeByte
        let added := if escapedItems = 0 then str.take strSz else buffer.take (strSz + escapedItems)
        let delim := if rest.isEmpty then [] else [delimByte]
        added ++ delim ++ implodeFrom delimByte escapeByte rest

/-- `StringArrayImplodeToMemBuffer`. -/
def implodeToMemBuffer (strArr : List CStr) (delim : CStr) (escape : Option CStr) : List UInt8 :=
  implodeFrom (delim.charAt 0) ((escape.map (charAt · 0)).getD 0) strArr

/-! ## Exploding -/

structure Explode where
  arr : List CStr := []
  base : Nat := 0
  escapeFlag : Bool := false
  foundTokenFlag : Bool := false
  firstTokenFlag : Bool := false
  deriving DecidableEq, Repr

structure ExplodeArgs where
  /-- A delimiter is at this place. -/
  token : Nat → Bool
  escapeByte : UInt8
  commentByte : UInt8
  /-- What is added of a line: `StringArrayAdd` measures it, `StringArrayAddN` is told. -/
  line : CStr → CStr
  /-- A delimiter at the front is a token that was found. -/
  firstIsFound : Bool

/-- The body of the loop for the byte at `i`. -/
def explodeStep (p : ExplodeArgs) (str : CStr) (i : Nat) (s : Explode) : Explode :=
  if i = 0 ∧ p.token 0 then
    { s with
      arr := s.arr ++ [[]]
      firstTokenFlag := true
      foundTokenFlag := s.foundTokenFlag || p.firstIsFound }
  else if p.token i then
    if i ≠ 0 ∧ str.charAt (i - 1) = p.escapeByte then { s with escapeFlag := true }
    else
      let base := if s.base ≠ 0 ∨ s.firstTokenFlag then s.base + 1 else s.base
      let buffer := str.slice base (i - base)
      if buffer.charAt 0 = p.commentByte then { s with base := i, foundTokenFlag := true }
      else
        let element := if s.escapeFlag then unescapeString buffer p.escapeByte else buffer
        { s with
          arr := s.arr ++ [p.line element]
          base := i
          escapeFlag := false
          foundTokenFlag := true }
  else s

/-- The loop when it has looked at `i` bytes. -/
def explodeLoop (p : ExplodeArgs) (str : CStr) (arr : List CStr) : Nat → Explode
  | 0 => { arr }
  | i + 1 => explodeStep p str i (explodeLoop p str arr i)

/-- What comes after the last delimiter. `base` is where it begins; where no token was found,
`whole` is added. -/
def explodeRest (p : ExplodeArgs) (str : CStr) (i : Nat) (s : Explode) (base : Nat)
    (whole : CStr) : List CStr :=
  if s.foundTokenFlag then
    let buffer := str.slice base (i - base)
    if buffer.charAt 0 = p.commentByte then s.arr
    else
      let element := if p.escapeByte ≠ 0 then unescapeString buffer p.escapeByte else buffer
      s.arr ++ [p.line element]
  else s.arr ++ [whole]

/-- The byte that stands for an escape or a comment. -/
def optionByte (ptr : Option CStr) : UInt8 := (ptr.map (charAt · 0)).getD 1

/-- `StringArrayExplodeStrInit`, which adds to the array it is given. -/
def explodeStrInit (arr : List CStr) (str delim : CStr) (escape comment : Option CStr) :
    List CStr :=
  let p : ExplodeArgs :=
    { token := fun i => str.charAt i == delim.charAt 0
      escapeByte := optionByte escape
      commentByte := optionByte comment
      line := addLine
      firstIsFound := false }
  let i := min str.strlen (memBufferMaxPrintf - 1)
  let s := explodeLoop p str arr i
  explodeRest p str i s (if s.base ≠ 0 then s.base + 1 else s.base) (addLine str)

/-- `StringArrayExplodeStrN`. -/
def explodeStrN (str delim : CStr) (escape comment : Option CStr) (strMaxSz : Int) : List CStr :=
  let p : ExplodeArgs :=
    { token := fun i => str.charAt i == delim.charAt 0
      escapeByte := optionByte escape
      commentByte := optionByte comment
      line := addLine
      firstIsFound := true }
  let strMaxSz := if strMaxSz < 0 then ((memBufferMaxPrintf - 1 : Nat) : Int) else strMaxSz
  let i := min (min str.strlen strMaxSz.toNat) (memBufferMaxPrintf - 1)
  let s := explodeLoop p str [] i
  explodeRest p str i s (if s.base ≠ 0 ∨ s.firstTokenFlag then s.base + 1 else s.base) (str.take i)

/-- `StringArrayExplodeLargeStrNDelimM`. -/
def explodeLargeStrNDelimM (str delim : CStr) (delimSz : Int) (escape comment : Option CStr)
    (strMaxSz : Int) : List CStr :=
  let p : ExplodeArgs :=
    { token := fun i => str.charAt i == delim.charAt 0 &&
        (decide (delimSz ≤ 1) || strncmpEq (str.drop i) delim delimSz.toNat)
      escapeByte := optionByte escape
      commentByte := optionByte comment
      line := id
      firstIsFound := true }
  let i := min str.strlen strMaxSz.toNat
  let s := explodeLoop p str [] i
  explodeRest p str i s (if s.base ≠ 0 ∨ s.firstTokenFlag then s.base + 1 else s.base) (str.take i)

/-- `StringArrayExplodeLargeStrN`. -/
def explodeLargeStrN (str delim : CStr) (escape comment : Option CStr) (strMaxSz : Int) :
    List CStr :=
  let p : ExplodeArgs :=
    { token := fun i => str.charAt i == delim.charAt 0
      escapeByte := optionByte escape
      commentByte := optionByte comment
      line := id
      firstIsFound := true }
  let i := min str.strlen strMaxSz.toNat
  let s := explodeLoop p str [] i
  explodeRest p str i s (if s.base ≠ 0 ∨ s.firstTokenFlag then s.base + 1 else s.base) (str.take i)

end StringArray

end BrbData
