import EntityLoom.Archive.PrefixCode

/-!
# Deflated data

Deflated data is a row of blocks.  A block holds bytes as they are, or literals and repetitions of
earlier output, spelled with prefix codes that are fixed or come with the block.  Reading takes all
three kinds of blocks; writing makes blocks of plain bytes alone.
-/

namespace EntityLoom.Deflated

/-! ## Writing -/

/-- The largest number of bytes in a plain block. -/
def maxPlain : Nat := 65535

/-- A block of plain bytes. -/
def plainBlock (final : Bool) (bs : Bytes) : Bytes :=
  let n := bs.length
  (if final then 1 else 0) ::
    (Bytes.littleEndian 2 n ++ Bytes.littleEndian 2 (maxPlain - n) ++ bs)

/-- Deflated data for a byte string. -/
def encode (bs : Bytes) : Bytes :=
  if bs.length ≤ maxPlain then plainBlock true bs
  else plainBlock false (bs.take maxPlain) ++ encode (bs.drop maxPlain)
termination_by bs.length
decreasing_by
  simp only [List.length_drop, maxPlain] at *
  omega

/-! ## Codes -/

/-- The lengths of the fixed code for literals and repetitions. -/
def fixedLiteralLengths : List Nat :=
  List.replicate 144 8 ++ List.replicate 112 9 ++ List.replicate 24 7 ++ List.replicate 8 8

/-- The lengths of the fixed code for distances. -/
def fixedDistanceLengths : List Nat :=
  List.replicate 30 5

/-- The order in which the lengths of the code for lengths are written. -/
def lengthOrder : List Nat :=
  [16, 17, 18, 0, 8, 7, 9, 6, 10, 5, 11, 4, 12, 3, 13, 2, 14, 1, 15]

/-- The shortest repetition of each symbol for repetitions, and how many bits are added. -/
def repetitions : List (Nat × Nat) :=
  [ (3, 0), (4, 0), (5, 0), (6, 0), (7, 0), (8, 0), (9, 0), (10, 0), (11, 1), (13, 1), (15, 1),
    (17, 1), (19, 2), (23, 2), (27, 2), (31, 2), (35, 3), (43, 3), (51, 3), (59, 3), (67, 4),
    (83, 4), (99, 4), (115, 4), (131, 5), (163, 5), (195, 5), (227, 5), (258, 0) ]

/-- The shortest distance of each symbol for distances, and how many bits are added. -/
def distances : List (Nat × Nat) :=
  [ (1, 0), (2, 0), (3, 0), (4, 0), (5, 1), (7, 1), (9, 2), (13, 2), (17, 3), (25, 3), (33, 4),
    (49, 4), (65, 5), (97, 5), (129, 6), (193, 6), (257, 7), (385, 7), (513, 8), (769, 8),
    (1025, 9), (1537, 9), (2049, 10), (3073, 10), (4097, 11), (6145, 11), (8193, 12), (12289, 12),
    (16385, 13), (24577, 13) ]

/-- Takes the value of a symbol: a base from a table and the bits added to it. -/
def readValue (table : List (Nat × Nat)) (symbol : Nat) : BitReader Nat := do
  let (base, extra) ← table[symbol]?
  return base + (← BitReader.number extra)

/-- Takes code lengths until `n` of them are there.  `acc` holds the lengths taken so far, last
first. -/
def readLengths (code : PrefixCode) (n : Nat) (acc : List Nat) : Nat → BitReader (List Nat)
  | 0 => failure
  | fuel + 1 => do
    if n < acc.length then failure
    if n = acc.length then return acc.reverse
    match ← code.read with
    | 16 =>
      let last ← acc.head?
      let count ← BitReader.number 2
      readLengths code n (List.replicate (3 + count) last ++ acc) fuel
    | 17 =>
      let count ← BitReader.number 3
      readLengths code n (List.replicate (3 + count) 0 ++ acc) fuel
    | 18 =>
      let count ← BitReader.number 7
      readLengths code n (List.replicate (11 + count) 0 ++ acc) fuel
    | length => readLengths code n (length :: acc) fuel

/-- Takes the codes that come with a block: for literals and repetitions, and for distances. -/
def readCodes : BitReader (PrefixCode × PrefixCode) := do
  let literals := (← BitReader.number 5) + 257
  let distances := (← BitReader.number 5) + 1
  let count := (← BitReader.number 4) + 4
  let written ← (lengthOrder.take count).mapM fun place => do
    return (place, ← BitReader.number 3)
  let lengthCode ← PrefixCode.ofLengths ((List.range 19).map fun i => (written.lookup i).getD 0)
  let total := literals + distances
  let lengths ← readLengths lengthCode total [] (total + 1)
  return (← PrefixCode.ofLengths (lengths.take literals),
    ← PrefixCode.ofLengths (lengths.drop literals))

/-! ## Blocks -/

/-- Repeats `n` bytes of the output that lie `distance` bytes back. -/
def repeatOutput (distance : Nat) (out : Array UInt8) : Nat → Option (Array UInt8)
  | 0 => some out
  | n + 1 =>
    if distance = 0 ∨ out.size < distance then none
    else
      match out[out.size - distance]? with
      | some b => repeatOutput distance (out.push b) n
      | none => none

/-- The symbol that ends a block. -/
def endSymbol : Nat := 256

/-- Takes symbols to the end of a block. -/
def readSymbols (literalCode distanceCode : PrefixCode) (out : Array UInt8) :
    Nat → BitReader (Array UInt8)
  | 0 => failure
  | fuel + 1 => do
    let symbol ← literalCode.read
    if symbol = endSymbol then return out
    if symbol < endSymbol then
      readSymbols literalCode distanceCode (out.push (UInt8.ofNat symbol)) fuel
    else
      let length ← readValue repetitions (symbol - endSymbol - 1)
      let distance ← readValue distances (← distanceCode.read)
      readSymbols literalCode distanceCode (← repeatOutput distance out length) fuel

/-- Takes the content of a block that is spelled with the given codes. -/
def readCoded (literalCode distanceCode : PrefixCode) (out : Array UInt8) :
    BitReader (Array UInt8) := do
  readSymbols literalCode distanceCode out ((← get).size + 1)

/-- Takes the content of a plain block. -/
def readPlain (out : Array UInt8) : BitReader (Array UInt8) := do
  let lengths ← BitReader.bytes 4
  let n := Bytes.ofLittleEndian (lengths.take 2)
  if Bytes.ofLittleEndian (lengths.drop 2) ≠ maxPlain - n then failure
  return out ++ (← BitReader.bytes n).toArray

/-- Takes the content of a block of a given kind. -/
def readContent (kind : Nat) (out : Array UInt8) : BitReader (Array UInt8) := do
  match kind with
  | 0 => readPlain out
  | 1 =>
    readCoded (← PrefixCode.ofLengths fixedLiteralLengths)
      (← PrefixCode.ofLengths fixedDistanceLengths) out
  | 2 =>
    let (literalCode, distanceCode) ← readCodes
    readCoded literalCode distanceCode out
  | _ => failure

/-- Takes blocks up to the final one. -/
def readBlocks (out : Array UInt8) : Nat → BitReader (Array UInt8)
  | 0 => failure
  | fuel + 1 => do
    let final ← BitReader.bit
    let kind ← BitReader.number 2
    let out ← readContent kind out
    if final then return out else readBlocks out fuel

/-- The byte string of deflated data.  What follows the final block is left out. -/
def decode? (bs : Bytes) : Option Bytes :=
  let source := BitSource.ofBytes bs
  ((readBlocks #[] (source.size + 1)).run source).map fun (out, _) => out.toList

end EntityLoom.Deflated
