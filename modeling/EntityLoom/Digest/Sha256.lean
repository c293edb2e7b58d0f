import EntityLoom.Bytes

/-!
# SHA-256

The digest by which models, class paths and directories are told apart: the message is padded to
whole blocks of sixteen words, and each block is mixed into a state of eight words.
-/

namespace EntityLoom.Sha256

/-- The word that each round adds. -/
def roundWords : List UInt32 :=
  [ 0x428a2f98, 0x71374491, 0xb5c0fbcf, 0xe9b5dba5, 0x3956c25b, 0x59f111f1, 0x923f82a4, 0xab1c5ed5,
    0xd807aa98, 0x12835b01, 0x243185be, 0x550c7dc3, 0x72be5d74, 0x80deb1fe, 0x9bdc06a7, 0xc19bf174,
    0xe49b69c1, 0xefbe4786, 0x0fc19dc6, 0x240ca1cc, 0x2de92c6f, 0x4a7484aa, 0x5cb0a9dc, 0x76f988da,
    0x983e5152, 0xa831c66d, 0xb00327c8, 0xbf597fc7, 0xc6e00bf3, 0xd5a79147, 0x06ca6351, 0x14292967,
    0x27b70a85, 0x2e1b2138, 0x4d2c6dfc, 0x53380d13, 0x650a7354, 0x766a0abb, 0x81c2c92e, 0x92722c85,
    0xa2bfe8a1, 0xa81a664b, 0xc24b8b70, 0xc76c51a3, 0xd192e819, 0xd6990624, 0xf40e3585, 0x106aa070,
    0x19a4c116, 0x1e376c08, 0x2748774c, 0x34b0bcb5, 0x391c0cb3, 0x4ed8aa4a, 0x5b9cca4f, 0x682e6ff3,
    0x748f82ee, 0x78a5636f, 0x84c87814, 0x8cc70208, 0x90befffa, 0xa4506ceb, 0xbef9a3f7, 0xc67178f2 ]

/-- The state of a digest. -/
structure State where
  (a b c d e f g h : UInt32)
  deriving DecidableEq, Repr

/-- The state before the first block. -/
def State.start : State :=
  ⟨0x6a09e667, 0xbb67ae85, 0x3c6ef372, 0xa54ff53a, 0x510e527f, 0x9b05688c, 0x1f83d9ab, 0x5be0cd19⟩

/-- The sum of two states, word by word. -/
def State.add (s t : State) : State :=
  ⟨s.a + t.a, s.b + t.b, s.c + t.c, s.d + t.d, s.e + t.e, s.f + t.f, s.g + t.g, s.h + t.h⟩

/-- The words of a state. -/
def State.words (s : State) : List UInt32 :=
  [s.a, s.b, s.c, s.d, s.e, s.f, s.g, s.h]

/-- A word turned right by some bits. -/
def rotate (n w : UInt32) : UInt32 :=
  (w >>> n) ||| (w <<< (32 - n))

/-- One round, with the round's word and the block's word. -/
def round (s : State) (kw : UInt32 × UInt32) : State :=
  let big₁ := rotate 6 s.e ^^^ rotate 11 s.e ^^^ rotate 25 s.e
  let choice := (s.e &&& s.f) ^^^ (~~~ s.e &&& s.g)
  let t₁ := s.h + big₁ + choice + kw.1 + kw.2
  let big₀ := rotate 2 s.a ^^^ rotate 13 s.a ^^^ rotate 22 s.a
  let majority := (s.a &&& s.b) ^^^ (s.a &&& s.c) ^^^ (s.b &&& s.c)
  ⟨t₁ + (big₀ + majority), s.a, s.b, s.c, s.d + t₁, s.e, s.f, s.g⟩

/-- The word that follows the words of a schedule, which are given last first. -/
def nextWord (ws : List UInt32) : UInt32 :=
  let w₁₅ := ws.getD 14 0
  let w₂ := ws.getD 1 0
  let small₀ := rotate 7 w₁₅ ^^^ rotate 18 w₁₅ ^^^ (w₁₅ >>> 3)
  let small₁ := rotate 17 w₂ ^^^ rotate 19 w₂ ^^^ (w₂ >>> 10)
  small₁ + ws.getD 6 0 + small₀ + ws.getD 15 0

/-- Extends a schedule, given last first, by `n` words. -/
def extend : Nat → List UInt32 → List UInt32
  | 0, ws => ws
  | n + 1, ws => extend n (nextWord ws :: ws)

/-- Mixes a block of sixteen words into a state. -/
def mix (s : State) (block : List UInt32) : State :=
  s.add ((roundWords.zip (extend 48 block.reverse).reverse).foldl round s)

/-- A message with the mark of its end and its length in bits, padded to whole blocks. -/
def pad (message : Bytes) : Bytes :=
  let n := message.length
  message ++ 0x80 ::
    (List.replicate ((119 - n % 64) % 64) 0 ++ Bytes.ofWord64 (UInt64.ofNat (n * 8)))

/-- The big-endian words of a byte string; bytes that fill no word are left out. -/
def wordsOf (acc : List UInt32) : Bytes → List UInt32
  | b₃ :: b₂ :: b₁ :: b₀ :: rest => wordsOf (Bytes.word32 b₃ b₂ b₁ b₀ :: acc) rest
  | _ => acc.reverse

/-- Mixes words into a state, block by block. -/
def mixAll (s : State) (words : List UInt32) : State :=
  match words with
  | [] => s
  | w :: rest => mixAll (mix s ((w :: rest).take 16)) (rest.drop 15)
termination_by words.length
decreasing_by simp only [List.length_drop, List.length_cons]; omega

/-- The digest of a byte string. -/
def digest (message : Bytes) : Bytes :=
  (mixAll .start (wordsOf [] (pad message))).words.flatMap Bytes.ofWord32

/-- The digest of a byte string in hexadecimal digits. -/
def hexDigest (message : Bytes) : String :=
  Bytes.toHex (digest message)

end EntityLoom.Sha256
