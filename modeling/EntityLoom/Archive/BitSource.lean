import EntityLoom.Bytes

/-!
# Bits of a byte string

Deflated data is read bit by bit, the lowest bit of each byte first.  A source is the bits left of
the byte that is being read, and the bytes after it.
-/

namespace EntityLoom

/-- Bits that wait to be read. -/
structure BitSource where
  pending : List Bool
  rest : Bytes
  deriving DecidableEq, Repr

/-- A step that takes bits off a source. -/
abbrev BitReader := StateT BitSource Option

namespace BitSource

/-- The bits of a byte string. -/
def ofBytes (bs : Bytes) : BitSource := ⟨[], bs⟩

/-- The bits of a byte, lowest first. -/
def bitsOf (b : UInt8) : List Bool :=
  (List.range 8).map b.toNat.testBit

/-- How many bits wait. -/
def size (s : BitSource) : Nat :=
  s.pending.length + 8 * s.rest.length

end BitSource

namespace BitReader

/-- Takes one bit. -/
def bit : BitReader Bool
  | ⟨b :: pending, rest⟩ => some (b, ⟨pending, rest⟩)
  | ⟨[], []⟩ => none
  | ⟨[], byte :: rest⟩ =>
    match BitSource.bitsOf byte with
    | b :: pending => some (b, ⟨pending, rest⟩)
    | [] => none

/-- Takes a number of `n` bits, lowest first. -/
def number : Nat → BitReader Nat
  | 0 => return 0
  | n + 1 => do
    let b ← bit
    return b.toNat + 2 * (← number n)

/-- Drops the bits left of the current byte and takes `n` bytes. -/
def bytes (n : Nat) : BitReader Bytes := fun s =>
  let (taken, rest) := s.rest.splitAt n
  if taken.length = n then some (taken, ⟨[], rest⟩) else none

end BitReader

end EntityLoom
