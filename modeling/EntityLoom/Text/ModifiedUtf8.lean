import EntityLoom.Bytes
import EntityLoom.Text.Utf16

/-!
# Modified UTF-8

The text encoding of a constant pool.  Each UTF-16 unit is written on its own, in one, two or three
bytes, and the zero unit takes two bytes, so that no encoded text holds a zero byte.  Reading never
fails: a byte that opens no unit is read as the replacement character and reading goes on with the
next byte.
-/

namespace EntityLoom.Text.ModifiedUtf8

/-- The bytes of one UTF-16 unit. -/
def encodeUnit (u : UInt16) : Bytes :=
  let n := u.toNat
  if 0x01 ≤ n ∧ n ≤ 0x7F then [UInt8.ofNat n]
  else if n ≤ 0x7FF then [UInt8.ofNat (0xC0 + n / 0x40), UInt8.ofNat (0x80 + n % 0x40)]
  else
    [UInt8.ofNat (0xE0 + n / 0x1000), UInt8.ofNat (0x80 + n / 0x40 % 0x40),
      UInt8.ofNat (0x80 + n % 0x40)]

/-- The bytes of a text. -/
def encodeChars (cs : List Char) : Bytes :=
  cs.flatMap fun c => (utf16Units c).flatMap encodeUnit

/-- The bytes of a string. -/
def encode (s : String) : Bytes :=
  encodeChars s.toList

/-- The unit with a two byte form. -/
def unit₂ (b₁ b₀ : UInt8) : UInt16 :=
  UInt16.ofNat (b₁.toNat % 0x20 * 0x40 + b₀.toNat % 0x40)

/-- The unit with a three byte form. -/
def unit₃ (b₂ b₁ b₀ : UInt8) : UInt16 :=
  UInt16.ofNat (b₂.toNat % 0x10 * 0x1000 + b₁.toNat % 0x40 * 0x40 + b₀.toNat % 0x40)

/-- The unit read in place of a byte that opens none. -/
def replacementUnit : UInt16 := 0xFFFD

/-- The unit that opens a byte string with first byte `b`, and how many of the bytes after `b`
belong to it. -/
def firstUnit (b : UInt8) (rest : Bytes) : UInt16 × Nat :=
  if b.toNat < 0x80 then (UInt16.ofNat b.toNat, 0)
  else if b.toNat / 0x20 = 6 then
    match rest with
    | b₀ :: _ => (unit₂ b b₀, 1)
    | [] => (replacementUnit, 0)
  else if b.toNat / 0x10 = 14 then
    match rest with
    | b₁ :: b₀ :: _ => (unit₃ b b₁ b₀, 2)
    | _ => (replacementUnit, 0)
  else (replacementUnit, 0)

/-- Reads bytes into units; `acc` holds the units read so far, last first. -/
def readUnits (acc : List UInt16) : Bytes → List UInt16
  | [] => acc.reverse
  | b :: rest => readUnits ((firstUnit b rest).1 :: acc) (rest.drop (firstUnit b rest).2)
termination_by bs => bs.length
decreasing_by simp only [List.length_drop, List.length_cons]; omega

/-- The characters of an encoded text. -/
def decodeChars (bs : Bytes) : List Char :=
  ofUtf16 (readUnits [] bs)

/-- The string of an encoded text. -/
def decode (bs : Bytes) : String :=
  String.ofList (decodeChars bs)

end EntityLoom.Text.ModifiedUtf8
