import EntityLoom.Text.CodePage437
import EntityLoom.Text.Utf8

/-!
# UTF-8 loses nothing

Every text is read back from its bytes, and none of it is taken for a fault
(`Utf8.decodeLossy_encode`).  The proof follows the pieces that a reader finds: the bytes of a
character are one piece, whatever comes behind them.

Where all bytes are ASCII, the text can be read in the older code page as well
(`CodePage437.decode_encode`).
-/

namespace EntityLoom.Text

namespace Utf8

/-! ## The bytes of a text -/

theorem toList_loop (bs : ByteArray) (i : Nat) (acc : Bytes) :
    ByteArray.toList.loop bs i acc = acc.reverse ++ bs.data.toList.drop i := by
  fun_induction ByteArray.toList.loop bs i acc with
  | case1 i acc h ih =>
    have hi : i < bs.data.toList.length := by simpa using h
    have hget : bs.get! i = bs.data.toList[i] := by simp [ByteArray.get!, h]
    rw [ih, List.drop_eq_getElem_cons hi, hget, List.reverse_cons, List.append_assoc,
      List.singleton_append]
  | case2 i acc h =>
    have hi : bs.data.toList.length ≤ i := by simpa using Nat.le_of_not_lt h
    rw [List.drop_eq_nil_of_le hi, List.append_nil]

/-- The bytes of the character with a given number. -/
def charBytes (n : Nat) : Bytes :=
  if n ≤ 127 then [UInt8.ofNat n]
  else if n ≤ 2047 then [UInt8.ofNat (n / 64 % 32 + 192), UInt8.ofNat (n % 64 + 128)]
  else if n ≤ 65535 then
    [UInt8.ofNat (n / 4096 % 16 + 224), UInt8.ofNat (n / 64 % 64 + 128),
      UInt8.ofNat (n % 64 + 128)]
  else
    [UInt8.ofNat (n / 262144 % 8 + 240), UInt8.ofNat (n / 4096 % 64 + 128),
      UInt8.ofNat (n / 64 % 64 + 128), UInt8.ofNat (n % 64 + 128)]

theorem encode_eq_flatMap (s : String) :
    encode s = s.toList.flatMap fun c => charBytes c.toNat := by
  unfold encode
  conv => lhs; rw [← String.ofList_toList (s := s)]
  rw [String.toUTF8_eq_toByteArray, String.toByteArray_ofList, List.utf8Encode, ByteArray.toList,
    toList_loop, List.data_toByteArray]
  rfl

/-! ## Pieces -/

/-- A byte that can follow a first byte. -/
theorem mem_secondBounds {b : UInt8} {n : Nat} (hlow : 0x80 ≤ n) (hhigh : n ≤ 0xBF)
    (hE0 : b.toNat = 0xE0 → 0xA0 ≤ n) (hED : b.toNat = 0xED → n ≤ 0x9F)
    (hF0 : b.toNat = 0xF0 → 0x90 ≤ n) (hF4 : b.toNat = 0xF4 → n ≤ 0x8F) :
    (secondBounds b).1 ≤ n ∧ n ≤ (secondBounds b).2 := by
  unfold secondBounds
  split <;> simp_all

theorem continuation_cons {bounds : Nat × Nat} {n : Nat} {b : UInt8} {rest : Bytes}
    (h : bounds.1 ≤ b.toNat ∧ b.toNat ≤ bounds.2) :
    continuation bounds (n + 1) (b :: rest) = b :: continuation (0x80, 0xBF) n rest := by
  rw [continuation, if_pos h]

/-- A first byte with as many bytes behind it as belong to it is one piece. -/
theorem pieces_cons {acc : List (Option Char)} {b : UInt8} {tail rest : Bytes} {n : Nat} {c : Char}
    (hn : following? b = some n) (htail : continuation (secondBounds b) n (tail ++ rest) = tail)
    (hlength : tail.length = n)
    (hchar : tail.foldl (fun v b => v * 0x40 + b.toNat % 0x40) (leadBits b n) = c.toNat) :
    pieces acc (b :: (tail ++ rest)) = pieces (some c :: acc) rest := by
  have hpiece : firstPiece b (tail ++ rest) = (some c, n) := by
    unfold firstPiece
    rw [hn]
    dsimp only
    rw [htail, if_pos hlength, hchar, Char.ofNat_toNat]
  rw [pieces, hpiece]
  dsimp only
  rw [← hlength, List.drop_left]

theorem toNat_ofNat {n : Nat} (h : n < 256) : (UInt8.ofNat n).toNat = n := by
  rw [UInt8.toNat_ofNat']
  exact Nat.mod_eq_of_lt h

theorem toNat_trail (n : Nat) : (UInt8.ofNat (n % 64 + 128)).toNat = n % 64 + 128 :=
  toNat_ofNat (by omega)

/-- A byte behind the second one is within the bounds whatever it is. -/
theorem continuation_trail (k n : Nat) (rest : Bytes) :
    continuation (0x80, 0xBF) (k + 1) (UInt8.ofNat (n % 64 + 128) :: rest) =
      UInt8.ofNat (n % 64 + 128) :: continuation (0x80, 0xBF) k rest := by
  refine continuation_cons ?_
  rw [toNat_trail]
  omega

/-- The bytes of a character are one piece. -/
theorem pieces_charBytes (acc : List (Option Char)) (c : Char) (rest : Bytes) :
    pieces acc (charBytes c.toNat ++ rest) = pieces (some c :: acc) rest := by
  have hc : c.toNat < 0xD800 ∨ 0xDFFF < c.toNat ∧ c.toNat < 0x110000 := c.valid
  unfold charBytes
  generalize hn : c.toNat = n at hc
  by_cases h₁ : n ≤ 127
  · have hb : (UInt8.ofNat n).toNat = n := toNat_ofNat (by omega)
    rw [if_pos h₁]
    refine @pieces_cons acc _ [] rest 0 c ?_ rfl rfl ?_
    · simp only [following?, hb]
      rw [if_pos (by omega)]
    · simp only [leadBits, hb, hn, List.foldl_nil]
  by_cases h₂ : n ≤ 2047
  · have hb : (UInt8.ofNat (n / 64 % 32 + 192)).toNat = n / 64 % 32 + 192 :=
      toNat_ofNat (by omega)
    rw [if_neg h₁, if_pos h₂]
    refine @pieces_cons acc _ [_] rest 1 c ?_ ?_ rfl ?_
    · simp only [following?, hb]
      rw [if_neg (by omega), if_neg (by omega), if_pos (by omega)]
    · refine continuation_cons (mem_secondBounds ?_ ?_ ?_ ?_ ?_ ?_) <;> rw [toNat_trail]
        <;> try rw [hb]
      all_goals omega
    · simp only [leadBits, hb, hn, List.foldl_cons, List.foldl_nil, toNat_trail]
      omega
  by_cases h₃ : n ≤ 65535
  · have hb : (UInt8.ofNat (n / 4096 % 16 + 224)).toNat = n / 4096 % 16 + 224 :=
      toNat_ofNat (by omega)
    rw [if_neg h₁, if_neg h₂, if_pos h₃]
    refine @pieces_cons acc _ [_, _] rest 2 c ?_ ?_ rfl ?_
    · simp only [following?, hb]
      rw [if_neg (by omega), if_neg (by omega), if_neg (by omega), if_pos (by omega)]
    · refine (continuation_cons (mem_secondBounds ?_ ?_ ?_ ?_ ?_ ?_)).trans
        (congrArg _ (continuation_trail _ _ _)) <;> rw [toNat_trail] <;> try rw [hb]
      all_goals omega
    · simp only [leadBits, hb, hn, List.foldl_cons, List.foldl_nil, toNat_trail]
      omega
  · have hb : (UInt8.ofNat (n / 262144 % 8 + 240)).toNat = n / 262144 % 8 + 240 :=
      toNat_ofNat (by omega)
    rw [if_neg h₁, if_neg h₂, if_neg h₃]
    refine @pieces_cons acc _ [_, _, _] rest 3 c ?_ ?_ rfl ?_
    · simp only [following?, hb]
      rw [if_neg (by omega), if_neg (by omega), if_neg (by omega), if_neg (by omega),
        if_pos (by omega)]
    · refine (continuation_cons (mem_secondBounds ?_ ?_ ?_ ?_ ?_ ?_)).trans
        (congrArg _ ((continuation_trail _ _ _).trans (congrArg _ (continuation_trail _ _ _)))) <;>
        rw [toNat_trail] <;> try rw [hb]
      all_goals omega
    · simp only [leadBits, hb, hn, List.foldl_cons, List.foldl_nil, toNat_trail]
      omega

theorem pieces_flatMap (acc : List (Option Char)) (cs : List Char) :
    pieces acc (cs.flatMap fun c => charBytes c.toNat) = acc.reverse ++ cs.map some := by
  induction cs generalizing acc with
  | nil => rw [List.flatMap_nil, pieces, List.map_nil, List.append_nil]
  | cons c rest ih =>
    rw [List.flatMap_cons, pieces_charBytes, ih, List.reverse_cons, List.map_cons,
      List.append_assoc, List.singleton_append]

/-- Every text is read back from its bytes. -/
theorem decodeLossy_encode (s : String) : decodeLossy (encode s) = s := by
  unfold decodeLossy
  rw [encode_eq_flatMap, pieces_flatMap, List.reverse_nil, List.nil_append, List.map_map]
  change String.ofList (s.toList.map id) = s
  rw [List.map_id, String.ofList_toList]

/-- Only the characters of ASCII have bytes that are all ASCII. -/
theorem charBytes_of_ascii {n : Nat} (h : ∀ b ∈ charBytes n, b.toNat < 128) :
    charBytes n = [UInt8.ofNat n] ∧ n < 128 := by
  unfold charBytes at h ⊢
  split at h
  · next hn =>
    rw [if_pos hn]
    exact ⟨rfl, by omega⟩
  · -- The first byte of any other character is not.
    exfalso
    split at h
    · have hfirst := h _ List.mem_cons_self
      rw [toNat_ofNat (by omega)] at hfirst
      omega
    · split at h
      all_goals
        have hfirst := h _ List.mem_cons_self
        rw [toNat_ofNat (by omega)] at hfirst
        omega

end Utf8

namespace CodePage437

theorem map_charOf_flatMap {cs : List Char}
    (h : ∀ b ∈ cs.flatMap fun c => Utf8.charBytes c.toNat, b.toNat < 128) :
    (cs.flatMap fun c => Utf8.charBytes c.toNat).map charOf = cs := by
  induction cs with
  | nil => rfl
  | cons c rest ih =>
    rw [List.flatMap_cons, List.forall_mem_append] at h
    obtain ⟨hbytes, hsmall⟩ := Utf8.charBytes_of_ascii h.1
    have hb : (UInt8.ofNat c.toNat).toNat = c.toNat := Utf8.toNat_ofNat (by omega)
    rw [List.flatMap_cons, List.map_append, ih h.2, hbytes, List.map_singleton, charOf, hb,
      if_pos hsmall, Char.ofNat_toNat, List.singleton_append]

/-- A text whose bytes are ASCII is read back from them in the older code page. -/
theorem decode_encode {s : String} (h : ∀ b ∈ Utf8.encode s, b.toNat < 128) :
    decode (Utf8.encode s) = s := by
  unfold decode
  rw [Utf8.encode_eq_flatMap] at h ⊢
  rw [map_charOf_flatMap h, String.ofList_toList]

end CodePage437

end EntityLoom.Text
