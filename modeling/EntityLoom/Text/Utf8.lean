import EntityLoom.Bytes

/-!
# UTF-8

Reading UTF-8 from outside.  A byte string is cut into pieces: characters, and faults, each of which
is as long as the start of a character that it could have been.
-/

namespace EntityLoom.Text.Utf8

/-- How many bytes follow the first byte of a character. -/
def following? (b : UInt8) : Option Nat :=
  let n := b.toNat
  if n < 0x80 then some 0
  else if n < 0xC2 then none
  else if n < 0xE0 then some 1
  else if n < 0xF0 then some 2
  else if n < 0xF5 then some 3
  else none

/-- The bounds of the byte that follows a first byte. -/
def secondBounds (b : UInt8) : Nat × Nat :=
  match b.toNat with
  | 0xE0 => (0xA0, 0xBF)
  | 0xED => (0x80, 0x9F)
  | 0xF0 => (0x90, 0xBF)
  | 0xF4 => (0x80, 0x8F)
  | _ => (0x80, 0xBF)

/-- The longest row of bytes, at most `n`, that can follow; the first of them is within the
bounds. -/
def continuation (bounds : Nat × Nat) : Nat → Bytes → Bytes
  | 0, _ | _ + 1, [] => []
  | n + 1, b :: rest =>
    if bounds.1 ≤ b.toNat ∧ b.toNat ≤ bounds.2 then b :: continuation (0x80, 0xBF) n rest else []

/-- The bits that the first byte of a character gives, where `n` bytes follow it. -/
def leadBits (b : UInt8) : Nat → Nat
  | 0 => b.toNat
  | 1 => b.toNat % 0x20
  | 2 => b.toNat % 0x10
  | _ => b.toNat % 0x08

/-- The first piece of a byte string with first byte `b`, and how many of the bytes after `b` belong
to it. -/
def firstPiece (b : UInt8) (rest : Bytes) : Option Char × Nat :=
  match following? b with
  | none => (none, 0)
  | some n =>
    let tail := continuation (secondBounds b) n rest
    if tail.length = n then
      (some (Char.ofNat (tail.foldl (fun v c => v * 0x40 + c.toNat % 0x40) (leadBits b n))), n)
    else (none, tail.length)

/-- The pieces of a byte string; `acc` holds the pieces found so far, last first. -/
def pieces (acc : List (Option Char)) : Bytes → List (Option Char)
  | [] => acc.reverse
  | b :: rest => pieces ((firstPiece b rest).1 :: acc) (rest.drop (firstPiece b rest).2)
termination_by bs => bs.length
decreasing_by simp only [List.length_drop, List.length_cons]; omega

/-- The text of a byte string without faults. -/
def decode? (bs : Bytes) : Option String :=
  ((pieces [] bs).mapM id).map String.ofList

/-- The text of a byte string, with a replacement character for each fault. -/
def decodeLossy (bs : Bytes) : String :=
  String.ofList ((pieces [] bs).map (·.getD '\uFFFD'))

/-- The bytes of a text. -/
def encode (s : String) : Bytes :=
  s.toUTF8.toList

end EntityLoom.Text.Utf8
