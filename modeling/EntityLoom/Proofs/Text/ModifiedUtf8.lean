import EntityLoom.Text.ModifiedUtf8

/-!
# Modified UTF-8 loses nothing

Every string is read back from its encoding (`decode_encode`).  The proof goes through the UTF-16
units: the bytes of a unit are read back as that unit (`readUnits_encodeUnit`), and the units of a
character as that character (`readUtf16_utf16Units`), whatever follows.
-/

namespace EntityLoom.Text

/-! ## Characters from units -/

theorem toNat_char_cases (c : Char) : c.toNat < 0xD800 ∨ 0xDFFF < c.toNat ∧ c.toNat < 0x110000 :=
  c.valid

/-- The units of a character are read back as that character. -/
theorem readUtf16_utf16Units (acc : List Char) (c : Char) (rest : List UInt16) :
    readUtf16 acc (utf16Units c ++ rest) = readUtf16 (c :: acc) rest := by
  have hc := toNat_char_cases c
  unfold utf16Units
  by_cases hbmp : c.toNat < 0x10000
  · have hunit : (UInt16.ofNat c.toNat).toNat = c.toNat := by
      rw [UInt16.toNat_ofNat']
      exact Nat.mod_eq_of_lt hbmp
    have hfirst : firstChar (UInt16.ofNat c.toNat) rest = (c, 0) := by
      unfold firstChar isHighSurrogate isLowSurrogate
      rw [hunit]
      have hhigh : (decide (0xD800 ≤ c.toNat) && decide (c.toNat < 0xDC00)) = false := by
        simp only [Bool.and_eq_false_iff, decide_eq_false_iff_not]
        omega
      have hlow : (decide (0xDC00 ≤ c.toNat) && decide (c.toNat < 0xE000)) = false := by
        simp only [Bool.and_eq_false_iff, decide_eq_false_iff_not]
        omega
      rw [hhigh, hlow]
      simp
    rw [if_pos hbmp, List.cons_append, List.nil_append, readUtf16, hfirst]
    rfl
  · rw [if_neg hbmp]
    dsimp only
    generalize hv : c.toNat - 0x10000 = v
    have hv' : v < 0x100000 := by omega
    have hhi : (UInt16.ofNat (0xD800 + v / 0x400)).toNat = 0xD800 + v / 0x400 := by
      rw [UInt16.toNat_ofNat']
      omega
    have hlo : (UInt16.ofNat (0xDC00 + v % 0x400)).toNat = 0xDC00 + v % 0x400 := by
      rw [UInt16.toNat_ofNat']
      omega
    have hpair : pairChar (UInt16.ofNat (0xD800 + v / 0x400)) (UInt16.ofNat (0xDC00 + v % 0x400)) =
        c := by
      unfold pairChar
      rw [hhi, hlo]
      have hsum : 0x10000 + (0xD800 + v / 0x400 - 0xD800) * 0x400 +
          (0xDC00 + v % 0x400 - 0xDC00) = c.toNat := by
        omega
      rw [hsum]
      exact Char.ofNat_toNat c
    have hfirst : firstChar (UInt16.ofNat (0xD800 + v / 0x400))
        (UInt16.ofNat (0xDC00 + v % 0x400) :: rest) = (c, 1) := by
      unfold firstChar isHighSurrogate isLowSurrogate
      rw [hhi]
      dsimp only
      rw [hlo, hpair]
      have hhigh : (decide (0xD800 ≤ 0xD800 + v / 0x400) &&
          decide (0xD800 + v / 0x400 < 0xDC00)) = true := by
        simp only [Bool.and_eq_true, decide_eq_true_eq]
        omega
      have hlow : (decide (0xDC00 ≤ 0xDC00 + v % 0x400) &&
          decide (0xDC00 + v % 0x400 < 0xE000)) = true := by
        simp only [Bool.and_eq_true, decide_eq_true_eq]
        omega
      rw [hhigh, hlow]
      rfl
    rw [List.cons_append, List.cons_append, List.nil_append, readUtf16, hfirst]
    rfl

theorem readUtf16_flatMap (acc cs : List Char) :
    readUtf16 acc (cs.flatMap utf16Units) = acc.reverse ++ cs := by
  induction cs generalizing acc with
  | nil =>
    rw [List.flatMap_nil, readUtf16, List.append_nil]
  | cons c cs ih =>
    rw [List.flatMap_cons, readUtf16_utf16Units, ih, List.reverse_cons, List.append_assoc,
      List.singleton_append]

theorem ofUtf16_flatMap (cs : List Char) : ofUtf16 (cs.flatMap utf16Units) = cs :=
  readUtf16_flatMap [] cs

namespace ModifiedUtf8

/-! ## Units from bytes -/

theorem toNat_ofNat_of_lt {n : Nat} (h : n < 256) : (UInt8.ofNat n).toNat = n := by
  rw [UInt8.toNat_ofNat']
  exact Nat.mod_eq_of_lt h

/-- The bytes of a unit are read back as that unit. -/
theorem readUnits_encodeUnit (acc : List UInt16) (u : UInt16) (rest : Bytes) :
    readUnits acc (encodeUnit u ++ rest) = readUnits (u :: acc) rest := by
  have hu := u.toNat_lt
  have hback : ∀ n, n = u.toNat → UInt16.ofNat n = u := by
    rintro n rfl
    exact UInt16.ofNat_toNat
  unfold encodeUnit
  dsimp only
  split
  · next h =>
    have hb := toNat_ofNat_of_lt (n := u.toNat) (by omega)
    have hfirst : firstUnit (UInt8.ofNat u.toNat) rest = (u, 0) := by
      unfold firstUnit
      rw [hb, if_pos (by omega), hback _ rfl]
    rw [List.cons_append, List.nil_append, readUnits, hfirst]
    rfl
  · split
    · next h =>
      have h₁ := toNat_ofNat_of_lt (n := 0xC0 + u.toNat / 0x40) (by omega)
      have h₀ := toNat_ofNat_of_lt (n := 0x80 + u.toNat % 0x40) (by omega)
      have hfirst : firstUnit (UInt8.ofNat (0xC0 + u.toNat / 0x40))
          (UInt8.ofNat (0x80 + u.toNat % 0x40) :: rest) = (u, 1) := by
        unfold firstUnit unit₂
        rw [h₁, if_neg (by omega), if_pos (by omega)]
        dsimp only
        rw [h₀, hback _ (by omega)]
      rw [List.cons_append, List.cons_append, List.nil_append, readUnits, hfirst]
      rfl
    · next h =>
      have h₂ := toNat_ofNat_of_lt (n := 0xE0 + u.toNat / 0x1000) (by omega)
      have h₁ := toNat_ofNat_of_lt (n := 0x80 + u.toNat / 0x40 % 0x40) (by omega)
      have h₀ := toNat_ofNat_of_lt (n := 0x80 + u.toNat % 0x40) (by omega)
      have hfirst : firstUnit (UInt8.ofNat (0xE0 + u.toNat / 0x1000))
          (UInt8.ofNat (0x80 + u.toNat / 0x40 % 0x40) ::
            UInt8.ofNat (0x80 + u.toNat % 0x40) :: rest) = (u, 2) := by
        unfold firstUnit unit₃
        rw [h₂, if_neg (by omega), if_neg (by omega), if_pos (by omega)]
        dsimp only
        rw [h₁, h₀, hback _ (by omega)]
      rw [List.cons_append, List.cons_append, List.cons_append, List.nil_append, readUnits, hfirst]
      rfl

theorem readUnits_flatMap (acc us : List UInt16) :
    readUnits acc (us.flatMap encodeUnit) = acc.reverse ++ us := by
  induction us generalizing acc with
  | nil =>
    rw [List.flatMap_nil, readUnits, List.append_nil]
  | cons u us ih =>
    rw [List.flatMap_cons, readUnits_encodeUnit, ih, List.reverse_cons, List.append_assoc,
      List.singleton_append]

theorem encodeChars_eq (cs : List Char) :
    encodeChars cs = (cs.flatMap utf16Units).flatMap encodeUnit := by
  rw [List.flatMap_assoc]
  rfl

/-- Every string is read back from its encoding. -/
@[simp] theorem decode_encode (s : String) : decode (encode s) = s := by
  unfold decode decodeChars encode
  rw [encodeChars_eq, readUnits_flatMap, List.reverse_nil, List.nil_append, ofUtf16_flatMap]
  exact String.ofList_toList

end ModifiedUtf8

end EntityLoom.Text
