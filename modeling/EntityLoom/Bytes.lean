/-!
# Byte strings

A byte string is a list of bytes.  This file holds the big-endian layout of 16, 32 and 64 bit words
and the hexadecimal spelling of a byte string.  Every word is laid out and read back through its
value as a natural number, so that the layout laws are plain arithmetic.
-/

namespace EntityLoom

/-- A byte string, first byte first. -/
abbrev Bytes := List UInt8

namespace Bytes

/-! ## Big-endian words -/

/-- The two bytes of a 16 bit word, most significant byte first. -/
def ofWord16 (w : UInt16) : Bytes :=
  [UInt8.ofNat (w.toNat / 256), UInt8.ofNat (w.toNat % 256)]

/-- The four bytes of a 32 bit word, most significant byte first. -/
def ofWord32 (w : UInt32) : Bytes :=
  [UInt8.ofNat (w.toNat / 0x1000000), UInt8.ofNat (w.toNat / 0x10000 % 256),
    UInt8.ofNat (w.toNat / 256 % 256), UInt8.ofNat (w.toNat % 256)]

/-- The eight bytes of a 64 bit word: its upper half, then its lower half. -/
def ofWord64 (w : UInt64) : Bytes :=
  ofWord32 (UInt32.ofNat (w.toNat / 0x100000000)) ++ ofWord32 (UInt32.ofNat (w.toNat % 0x100000000))

/-- The 16 bit word with the given bytes. -/
def word16 (b₁ b₀ : UInt8) : UInt16 :=
  UInt16.ofNat (b₁.toNat * 256 + b₀.toNat)

/-- The 32 bit word with the given bytes. -/
def word32 (b₃ b₂ b₁ b₀ : UInt8) : UInt32 :=
  UInt32.ofNat (b₃.toNat * 0x1000000 + b₂.toNat * 0x10000 + b₁.toNat * 256 + b₀.toNat)

/-- The 64 bit word with the given halves. -/
def word64 (hi lo : UInt32) : UInt64 :=
  UInt64.ofNat (hi.toNat * 0x100000000 + lo.toNat)

/-- A 16 bit length field.  A length that does not fit is reduced modulo `2 ^ 16`. -/
def ofLength16 (n : Nat) : Bytes :=
  ofWord16 (UInt16.ofNat n)

/-- A 32 bit length field.  A length that does not fit is reduced modulo `2 ^ 32`. -/
def ofLength32 (n : Nat) : Bytes :=
  ofWord32 (UInt32.ofNat n)

/-! ## Little-endian numbers -/

/-- The `width` bytes of a number, least significant byte first. -/
def littleEndian : Nat → Nat → Bytes
  | 0, _ => []
  | width + 1, n => UInt8.ofNat (n % 256) :: littleEndian width (n / 256)

/-- The number with the given bytes, least significant byte first. -/
def ofLittleEndian (bs : Bytes) : Nat :=
  bs.foldr (fun b n => b.toNat + 256 * n) 0

/-! ## Lengths -/

@[simp] theorem length_ofWord16 (w : UInt16) : (ofWord16 w).length = 2 := rfl

@[simp] theorem length_ofWord32 (w : UInt32) : (ofWord32 w).length = 4 := rfl

@[simp] theorem length_ofWord64 (w : UInt64) : (ofWord64 w).length = 8 := rfl

@[simp] theorem length_littleEndian (width n : Nat) : (littleEndian width n).length = width := by
  induction width generalizing n with
  | zero => rfl
  | succ width ih => simp [littleEndian, ih]

/-! ## The word is read off its bytes -/

theorem ofWord16_inj {v w : UInt16} : ofWord16 v = ofWord16 w ↔ v = w := by
  refine ⟨fun h => UInt16.toNat_inj.1 ?_, fun h => h ▸ rfl⟩
  simp only [ofWord16, List.cons.injEq, and_true] at h
  have h₁ := congrArg UInt8.toNat h.1
  have h₀ := congrArg UInt8.toNat h.2
  simp only [UInt8.toNat_ofNat'] at h₁ h₀
  have := v.toNat_lt
  have := w.toNat_lt
  omega

theorem ofWord16_append_inj {v w : UInt16} {bs cs : Bytes} :
    ofWord16 v ++ bs = ofWord16 w ++ cs ↔ v = w ∧ bs = cs := by
  refine ⟨fun h => ?_, fun ⟨hw, hb⟩ => hw ▸ hb ▸ rfl⟩
  obtain ⟨hw, hb⟩ := List.append_inj h rfl
  exact ⟨ofWord16_inj.1 hw, hb⟩

theorem ofWord32_inj {v w : UInt32} : ofWord32 v = ofWord32 w ↔ v = w := by
  refine ⟨fun h => UInt32.toNat_inj.1 ?_, fun h => h ▸ rfl⟩
  simp only [ofWord32, List.cons.injEq, and_true] at h
  have h₃ := congrArg UInt8.toNat h.1
  have h₂ := congrArg UInt8.toNat h.2.1
  have h₁ := congrArg UInt8.toNat h.2.2.1
  have h₀ := congrArg UInt8.toNat h.2.2.2
  simp only [UInt8.toNat_ofNat'] at h₃ h₂ h₁ h₀
  have := v.toNat_lt
  have := w.toNat_lt
  omega

theorem ofWord64_inj {v w : UInt64} : ofWord64 v = ofWord64 w ↔ v = w := by
  refine ⟨fun h => UInt64.toNat_inj.1 ?_, fun h => h ▸ rfl⟩
  obtain ⟨hi, lo⟩ := List.append_inj h (by simp)
  have hi := congrArg UInt32.toNat (ofWord32_inj.1 hi)
  have lo := congrArg UInt32.toNat (ofWord32_inj.1 lo)
  simp only [UInt32.toNat_ofNat'] at hi lo
  have := v.toNat_lt
  have := w.toNat_lt
  omega

/-! ## Hexadecimal spelling -/

/-- The lower-case digit of a number below sixteen. -/
def hexDigit (n : Nat) : Char :=
  if n < 10 then Char.ofNat ('0'.toNat + n) else Char.ofNat ('a'.toNat + (n - 10))

/-- Two lower-case hexadecimal digits per byte. -/
def toHex (bs : Bytes) : String :=
  bs.foldl (fun out b => (out.push (hexDigit (b.toNat / 16))).push (hexDigit (b.toNat % 16))) ""

/-- The value of a hexadecimal digit of either case. -/
def hexValue? (c : Char) : Option Nat :=
  if '0' ≤ c ∧ c ≤ '9' then some (c.toNat - '0'.toNat)
  else if 'a' ≤ c ∧ c ≤ 'f' then some (c.toNat - 'a'.toNat + 10)
  else if 'A' ≤ c ∧ c ≤ 'F' then some (c.toNat - 'A'.toNat + 10)
  else none

/-- Reads pairs of digits; `acc` holds the bytes read so far, last first. -/
def ofHexDigits? (acc : Bytes) : List Char → Option Bytes
  | [] => some acc.reverse
  | [_] => none
  | hi :: lo :: rest =>
    match hexValue? hi, hexValue? lo with
    | some h, some l => ofHexDigits? (UInt8.ofNat (h * 16 + l) :: acc) rest
    | _, _ => none

/-- Reads back a hexadecimal spelling; an odd digit or a foreign character refuses it. -/
def ofHex? (text : String) : Option Bytes :=
  ofHexDigits? [] text.toList

/-- The lower-case hexadecimal digits of a number, without leading zeros, at least `width` long. -/
def hexPadded (width n : Nat) : String :=
  let digits := String.ofList (Nat.toDigits 16 n)
  String.ofList (List.replicate (width - digits.length) '0') ++ digits

end Bytes

end EntityLoom
