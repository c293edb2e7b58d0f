/-!
# UTF-16 units

A character is one unit, or a pair of surrogates when it lies beyond the first plane.  Reading
units back never fails: a surrogate without its partner is read as the replacement character.
-/

namespace EntityLoom.Text

/-- The character that stands for what cannot be read. -/
def replacementChar : Char := '\uFFFD'

/-- The UTF-16 units of a character. -/
def utf16Units (c : Char) : List UInt16 :=
  if c.toNat < 0x10000 then [UInt16.ofNat c.toNat]
  else
    let v := c.toNat - 0x10000
    [UInt16.ofNat (0xD800 + v / 0x400), UInt16.ofNat (0xDC00 + v % 0x400)]

/-- Whether a unit opens a surrogate pair. -/
def isHighSurrogate (u : UInt16) : Bool :=
  0xD800 ≤ u.toNat && u.toNat < 0xDC00

/-- Whether a unit closes a surrogate pair. -/
def isLowSurrogate (u : UInt16) : Bool :=
  0xDC00 ≤ u.toNat && u.toNat < 0xE000

/-- The character of a surrogate pair. -/
def pairChar (hi lo : UInt16) : Char :=
  Char.ofNat (0x10000 + (hi.toNat - 0xD800) * 0x400 + (lo.toNat - 0xDC00))

/-- The character that opens a sequence with first unit `u`, and how many of the units after `u`
belong to it. -/
def firstChar (u : UInt16) (rest : List UInt16) : Char × Nat :=
  if isHighSurrogate u then
    match rest with
    | v :: _ => if isLowSurrogate v then (pairChar u v, 1) else (replacementChar, 0)
    | [] => (replacementChar, 0)
  else if isLowSurrogate u then (replacementChar, 0)
  else (Char.ofNat u.toNat, 0)

/-- Reads units into characters; `acc` holds the characters read so far, last first. -/
def readUtf16 (acc : List Char) : List UInt16 → List Char
  | [] => acc.reverse
  | u :: rest => readUtf16 ((firstChar u rest).1 :: acc) (rest.drop (firstChar u rest).2)
termination_by units => units.length
decreasing_by simp only [List.length_drop, List.length_cons]; omega

/-- The characters of a sequence of units. -/
def ofUtf16 (units : List UInt16) : List Char :=
  readUtf16 [] units

end EntityLoom.Text
