import EntityLoom.Archive.Reader
import Mathlib.Algebra.Group.Nat.Defs

/-!
# Compression loses nothing

What is written by any method of compression is read back by it (`Compression.decode_encode`).
Deflated data is written as plain blocks, so the reader is followed through those alone: it takes
one block off the data whatever it has read before and whatever comes behind
(`Deflated.readBlocks_plainBlock`), and the blocks of a byte string one after the other.
-/

namespace EntityLoom

/-! ## Little-endian numbers -/

theorem Bytes.ofLittleEndian_littleEndian (width n : Nat) :
    ofLittleEndian (littleEndian width n) = n % 256 ^ width := by
  induction width generalizing n with
  | zero => rw [Nat.pow_zero, Nat.mod_one]; rfl
  | succ width ih =>
    have hbyte : (UInt8.ofNat (n % 256)).toNat = n % 256 := by
      rw [UInt8.toNat_ofNat']
      omega
    change (UInt8.ofNat (n % 256)).toNat + 256 * ofLittleEndian (littleEndian width (n / 256)) = _
    rw [hbyte, ih, Nat.pow_succ', Nat.mod_mul]

/-- A number that fits is read back. -/
theorem Bytes.ofLittleEndian_of_lt {width n : Nat} (h : n < 256 ^ width) :
    ofLittleEndian (littleEndian width n) = n := by
  rw [ofLittleEndian_littleEndian, Nat.mod_eq_of_lt h]

/-! ## Plain blocks -/

theorem BitReader.bytes_append {taken : Bytes} {n : Nat} (pending : List Bool) (rest : Bytes)
    (h : taken.length = n) :
    (bytes n).run ⟨pending, taken ++ rest⟩ = some (taken, ⟨[], rest⟩) := by
  subst h
  unfold bytes
  rw [StateT.run]
  dsimp only
  rw [List.splitAt_eq, List.take_left, List.drop_left, if_pos rfl]

namespace Deflated

/-- The bytes of a plain block behind its first one. -/
def plainContent (bs : Bytes) : Bytes :=
  Bytes.littleEndian 2 bs.length ++ Bytes.littleEndian 2 (maxPlain - bs.length) ++ bs

theorem readPlain_plainContent {bs : Bytes} (pending : List Bool) (out : Array UInt8) (rest : Bytes)
    (h : bs.length ≤ maxPlain) :
    (readPlain out).run ⟨pending, plainContent bs ++ rest⟩ =
      some (out ++ bs.toArray, ⟨[], rest⟩) := by
  have hlength : Bytes.ofLittleEndian (Bytes.littleEndian 2 bs.length) = bs.length :=
    Bytes.ofLittleEndian_of_lt (by unfold maxPlain at h; omega)
  have hcheck : Bytes.ofLittleEndian (Bytes.littleEndian 2 (maxPlain - bs.length)) =
      maxPlain - bs.length :=
    Bytes.ofLittleEndian_of_lt (by unfold maxPlain; omega)
  unfold readPlain plainContent
  rw [List.append_assoc _ bs, StateT.run_bind, BitReader.bytes_append _ _ (by simp),
    Option.bind_eq_bind, Option.bind_some]
  dsimp only
  rw [List.take_left' (by simp), List.drop_left' (by simp), hlength, hcheck, if_neg (by simp)]
  change (BitReader.bytes bs.length).run ⟨[], bs ++ rest⟩ >>= _ = _
  rw [BitReader.bytes_append _ _ rfl]
  rfl

theorem bit_plainBlock (final : Bool) (bs rest : Bytes) :
    BitReader.bit.run (.ofBytes (plainBlock final bs ++ rest)) =
      some (final, ⟨List.replicate 7 false, plainContent bs ++ rest⟩) := by
  cases final <;> rfl

/-- A reader takes a plain block off the data, and stops if it is the final one. -/
theorem readBlocks_plainBlock {bs : Bytes} (final : Bool) (out : Array UInt8) (fuel : Nat)
    (rest : Bytes) (h : bs.length ≤ maxPlain) :
    (readBlocks out (fuel + 1)).run (.ofBytes (plainBlock final bs ++ rest)) =
      if final then some (out ++ bs.toArray, .ofBytes rest)
      else (readBlocks (out ++ bs.toArray) fuel).run (.ofBytes rest) := by
  have hkind : (BitReader.number 2).run ⟨List.replicate 7 false, plainContent bs ++ rest⟩ =
      some (0, ⟨List.replicate 5 false, plainContent bs ++ rest⟩) := rfl
  have hcontent : (readContent 0 out).run ⟨List.replicate 5 false, plainContent bs ++ rest⟩ =
      some (out ++ bs.toArray, .ofBytes rest) := readPlain_plainContent _ out rest h
  rw [readBlocks, StateT.run_bind, bit_plainBlock, Option.bind_eq_bind, Option.bind_some,
    StateT.run_bind, hkind, Option.bind_eq_bind, Option.bind_some, StateT.run_bind, hcontent,
    Option.bind_eq_bind, Option.bind_some]
  cases final <;> rfl

theorem length_plainBlock (final : Bool) (bs : Bytes) :
    (plainBlock final bs).length = bs.length + 5 := by
  simp only [plainBlock, List.length_cons, List.length_append, Bytes.length_littleEndian]
  omega

/-- Every byte string is read back from its blocks. -/
theorem readBlocks_encode {bs : Bytes} {out : Array UInt8} {fuel : Nat}
    (h : (encode bs).length ≤ fuel) :
    (readBlocks out fuel).run (.ofBytes (encode bs)) = some (out ++ bs.toArray, .ofBytes []) := by
  induction fuel generalizing bs out with
  | zero =>
    rw [encode] at h
    split at h
    · rw [length_plainBlock] at h
      omega
    · rw [List.length_append, length_plainBlock] at h
      omega
  | succ fuel ih =>
    rw [encode] at h ⊢
    split
    · next hsmall =>
      have hfinal := readBlocks_plainBlock true out fuel [] hsmall
      rwa [List.append_nil] at hfinal
    · next hlarge =>
      rw [if_neg hlarge, List.length_append, length_plainBlock] at h
      have hfirst : (bs.take maxPlain).length ≤ maxPlain := List.length_take_le _ _
      have hsplit : (bs.take maxPlain).toArray ++ (bs.drop maxPlain).toArray = bs.toArray := by
        rw [List.append_toArray, List.take_append_drop]
      rw [readBlocks_plainBlock false out fuel _ hfirst, if_neg (by decide), ih (by omega),
        Array.append_assoc, hsplit]

theorem decode_encode (bs : Bytes) : decode? (encode bs) = some bs := by
  have hfuel : (encode bs).length ≤ (BitSource.ofBytes (encode bs)).size + 1 := by
    change _ ≤ 0 + 8 * (encode bs).length + 1
    omega
  unfold decode?
  dsimp only
  rw [readBlocks_encode hfuel]
  simp

end Deflated

/-- What is written by a method of compression is read back by it. -/
theorem Archive.Compression.decode_encode (c : EntityLoom.Compression) (bs : Bytes) :
    decode? c (c.encode bs) = some bs := by
  cases c with
  | stored => rfl
  | deflated => exact Deflated.decode_encode bs

end EntityLoom
