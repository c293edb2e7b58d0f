import EntityLoom.Proofs.Text.Trimmed
import EntityLoom.Release
import Mathlib.Data.List.Nodup

/-!
# Releases named by version texts

A feature number is spelled in decimal digits, alone or behind `1.`, with anything behind a separator
after it.  `Release.ofVersionText_clamps` says which release such a text names: the one with that
number, or the nearer end of the table, as long as the number fits 32 bits.  A larger one is not read,
and a text that is not read names the oldest release.
-/

namespace EntityLoom

/-! ## Characters of version texts -/

theorem Text.isBlank_of_isDigit {c : Char} (h : c.isDigit = true) : isBlank c = false := by
  have hbounds : 48 ≤ c.toNat ∧ c.toNat ≤ 57 := by
    simpa [Char.isDigit, UInt32.le_iff_toNat_le] using h
  simp only [isBlank, Bool.or_eq_false_iff, Bool.and_eq_false_iff, decide_eq_false_iff_not,
    beq_eq_false_iff_ne]
  omega

namespace Release

theorem isSeparator_of_isDigit {c : Char} (h : c.isDigit = true) : isSeparator c = false := by
  simp only [isSeparator, Bool.or_eq_false_iff, beq_eq_false_iff_ne]
  refine ⟨⟨⟨?_, ?_⟩, ?_⟩, ?_⟩ <;> rintro rfl <;> cases h

variable {n : Nat} {tail : List Char}

/-! ## Parts of a version text -/

/-- What may stand behind a part of a version text: nothing, or a separator and anything else. -/
def Apart (tail : List Char) : Prop := ∀ c ∈ tail.head?, isSeparator c = true

/-- A part goes up to the first separator. -/
theorem takeWhile_part {part : List Char} (hpart : ∀ c ∈ part, isSeparator c = false)
    (htail : Apart tail) : (part ++ tail).takeWhile (!isSeparator ·) = part ∧
      (part ++ tail).dropWhile (!isSeparator ·) = tail := by
  have hall : ∀ c ∈ part, (!isSeparator c) = true := fun c hc => by rw [hpart c hc]; rfl
  rw [List.takeWhile_append_of_pos hall, List.dropWhile_append_of_pos hall]
  cases tail with
  | nil => simp
  | cons c rest => simp [htail c rfl]

theorem Apart.rdropWhile (h : Apart tail) (p : Char → Bool) : Apart (tail.rdropWhile p) := by
  intro c hc
  obtain ⟨rest, hrest⟩ := List.rdropWhile_prefix p tail
  refine h c ?_
  rw [← hrest, List.head?_append, Option.mem_def.1 hc, Option.some_or]
  rfl

theorem digitsValue_toDigits (n : Nat) : digitsValue (Nat.toDigits 10 n) = n := by
  have hvalue : ∀ ds, digitsValue ds = Nat.ofDigitChars 10 ds 0 := fun ds => by
    unfold digitsValue Nat.ofDigitChars
    simp only [Nat.mul_comm]
  rw [hvalue, Nat.ofDigitChars_ten_toDigits]

theorem isDigit_of_mem {c : Char} (h : c ∈ Nat.toDigits 10 n) : c.isDigit = true :=
  Nat.isDigit_of_mem_toDigits (by decide) (by decide) h

theorem isBlank_of_mem {c : Char} (h : c ∈ Nat.toDigits 10 n) : Text.isBlank c = false :=
  Text.isBlank_of_isDigit (isDigit_of_mem h)

theorem isSeparator_of_mem {c : Char} (h : c ∈ Nat.toDigits 10 n) : isSeparator c = false :=
  isSeparator_of_isDigit (isDigit_of_mem h)

/-- The digits of a number are read as that number if it fits 32 bits. -/
theorem readPart?_toDigits (n : Nat) :
    readPart? (Nat.toDigits 10 n) = if n < 0x100000000 then some n else none := by
  have hall : (Nat.toDigits 10 n).all Char.isDigit = true :=
    List.all_eq_true.2 fun c hc => isDigit_of_mem hc
  have hne : (Nat.toDigits 10 n).isEmpty = false := by simp
  simp only [readPart?, hall, hne, digitsValue_toDigits, Bool.not_false, Bool.true_and,
    decide_eq_true_eq]

/-! ## Feature numbers -/

/-- The first part of a trimmed text, and what stands behind it, decide the number that it spells. -/
theorem readFeature?_of_parts {text part : List Char} (htrim : Text.trim text = part ++ tail)
    (hpart : ∀ c ∈ part, isSeparator c = false) (htail : Apart tail) :
    readFeature? text = (readPart? part).bind fun first =>
      if first = 1 then
        match tail with
        | [] => none
        | _ :: rest => readPart? (rest.takeWhile (!isSeparator ·))
      else some first := by
  obtain ⟨hfirst, hbehind⟩ := takeWhile_part hpart htail
  unfold readFeature?
  dsimp only
  rw [htrim, hfirst, hbehind]
  rfl

/-- The number alone, unless it is 1, which would introduce another. -/
theorem readFeature?_modern (hn : n ≠ 1) (h : Apart tail) :
    readFeature? (Nat.toDigits 10 n ++ tail) = if n < 0x100000000 then some n else none := by
  have htrim := Text.trim_append Nat.toDigits_ne_nil (fun _ => isBlank_of_mem (n := n)) tail
  rw [readFeature?_of_parts htrim (fun _ => isSeparator_of_mem) (h.rdropWhile Text.isBlank),
    readPart?_toDigits]
  split
  · exact if_neg hn
  · rfl

/-- The number behind `1.`. -/
theorem readFeature?_legacy (h : Apart tail) :
    readFeature? ('1' :: '.' :: (Nat.toDigits 10 n ++ tail)) =
      if n < 0x100000000 then some n else none := by
  have hblank : ∀ c ∈ '1' :: '.' :: Nat.toDigits 10 n, Text.isBlank c = false := by
    simp only [List.forall_mem_cons]
    exact ⟨rfl, rfl, fun _ => isBlank_of_mem⟩
  have htrim : Text.trim ('1' :: '.' :: (Nat.toDigits 10 n ++ tail)) =
      ['1'] ++ '.' :: (Nat.toDigits 10 n ++ tail.rdropWhile Text.isBlank) :=
    Text.trim_append (List.cons_ne_nil _ _) hblank tail
  have hone : ∀ c ∈ ['1'], isSeparator c = false := List.forall_mem_singleton.2 rfl
  have hdot : Apart ('.' :: (Nat.toDigits 10 n ++ tail.rdropWhile Text.isBlank)) := by
    intro c hc
    cases hc
    rfl
  obtain ⟨hsecond, -⟩ := takeWhile_part (fun _ => isSeparator_of_mem (n := n))
    (h.rdropWhile Text.isBlank)
  rw [readFeature?_of_parts htrim hone hdot]
  change readPart? ((Nat.toDigits 10 n ++ tail.rdropWhile Text.isBlank).takeWhile _) = _
  rw [hsecond, readPart?_toDigits]

/-- A text that spells a number: the number itself, unless it is 1, or behind `1.`. -/
inductive Spells (n : Nat) : String → Prop
  | modern {tail : String} : n ≠ 1 → Apart tail.toList → Spells n (toString n ++ tail)
  | legacy {tail : String} : Apart tail.toList → Spells n ("1." ++ toString n ++ tail)

/-- A number is read back from the texts that spell it as long as it fits 32 bits. -/
theorem Spells.readFeature? {text : String} (h : Spells n text) :
    readFeature? text.toList = if n < 0x100000000 then some n else none := by
  have hdigits : (toString n).toList = Nat.toDigits 10 n := Nat.toList_repr
  cases h with
  | modern hn htail =>
    rw [String.toList_append, hdigits]
    exact readFeature?_modern hn htail
  | legacy htail =>
    rw [String.toList_append, String.toList_append, hdigits]
    exact readFeature?_legacy htail

/-! ## The nearest release -/

/-- The number of the release of the table that is nearest to a number. -/
def nearest (n : Nat) : Nat := max oldest.feature (min n latest.feature)

/-- The number of a release is the one that its name spells. -/
theorem readFeature?_name : ∀ r ∈ table, readFeature? r.name.toList = some r.feature := by
  decide

/-- Releases are told apart by their numbers. -/
theorem eq_of_feature_eq {r s : Release} (hr : r ∈ table) (hs : s ∈ table)
    (h : r.feature = s.feature) : r = s :=
  List.inj_on_of_nodup_map (by decide : (table.map feature).Nodup) hr hs h

/-- A number selects its release, or the nearer end of the table. -/
theorem ofFeature_nearest (n : Nat) : ofFeature n ∈ table ∧ (ofFeature n).feature = nearest n := by
  by_cases hn : n ≤ latest.feature
  · have hsmall : ∀ n < 26, ofFeature n ∈ table ∧ (ofFeature n).feature = nearest n := by
      decide
    exact hsmall n (Nat.lt_succ_of_le hn)
  · have hbound : ∀ r ∈ table, r.feature ≤ latest.feature := by decide
    have hbeyond : table.find? (·.feature == n) = none := by
      refine List.find?_eq_none.2 fun r hr heq => hn ?_
      rw [← beq_iff_eq.1 heq]
      exact hbound r hr
    have hlatest : ofFeature n = latest := by
      unfold ofFeature
      rw [hbeyond]
      exact if_pos (Nat.lt_of_not_le hn)
    rw [hlatest]
    refine ⟨by decide, ?_⟩
    rw [nearest, Nat.min_eq_right (Nat.le_of_not_le hn)]
    rfl

/-- The number of the release that a spelled number names. -/
theorem Spells.ofVersionText {text : String} (h : Spells n text) :
    ofVersionText (some text) ∈ table ∧ (ofVersionText (some text)).feature =
      if n < 0x100000000 then nearest n else oldest.feature := by
  unfold Release.ofVersionText
  rw [Option.bind_some, h.readFeature?]
  split_ifs with hn
  · exact ofFeature_nearest n
  · exact ⟨by decide, rfl⟩

/-- A version text names the release nearest to the number that it spells exactly if that number fits
32 bits.  So among those numbers a larger one never names an older release, and all from the last of
the table on name the latest; a number that does not fit names the oldest, below what smaller ones
name. -/
theorem ofVersionText_clamps {text : String} (h : Spells n text) :
    ofVersionText (some text) ∈ table ∧
    readFeature? (ofVersionText (some text)).name.toList =
      some (ofVersionText (some text)).feature ∧
    ((ofVersionText (some text)).feature = nearest n ↔ n < 0x100000000) ∧
    (latest.feature ≤ n → (ofVersionText (some text) = latest ↔ n < 0x100000000)) ∧
    (0x100000000 ≤ n → ofVersionText (some text) = oldest) ∧
    ∀ {m : Nat} {text' : String}, Spells m text' → m ≤ n →
      ((ofVersionText (some text')).feature ≤ (ofVersionText (some text)).feature ↔
        n < 0x100000000 ∨ m ≤ 1 ∨ 0x100000000 ≤ m) := by
  obtain ⟨hmem, hfeature⟩ := h.ofVersionText
  have holdest : oldest.feature = 1 := rfl
  have hlatest : latest.feature = 25 := rfl
  refine ⟨hmem, readFeature?_name _ hmem, ?_, fun hn => ?_, fun hn => ?_, fun h' hle => ?_⟩
  · rw [hfeature, nearest, holdest, hlatest]
    split_ifs with hn <;> omega
  · have heq : ofVersionText (some text) = latest ↔
        (ofVersionText (some text)).feature = latest.feature :=
      ⟨fun heq => by rw [heq], eq_of_feature_eq hmem (by decide)⟩
    rw [heq, hfeature, nearest, holdest, hlatest]
    split_ifs <;> omega
  · refine eq_of_feature_eq hmem (by decide) ?_
    rw [hfeature, if_neg (Nat.not_lt.2 hn)]
  · rw [h'.ofVersionText.2, hfeature, nearest, nearest, holdest, hlatest]
    split_ifs <;> omega

/-- The largest number that fits 32 bits names the latest release, and the next one the oldest. -/
theorem ofVersionText_clamps_overflow :
    ofVersionText (some "4294967295-ea") = latest ∧
      ofVersionText (some "1.4294967296") = oldest := by
  have hdash : Apart "-ea".toList := by
    intro c hc
    cases hc
    rfl
  have hfits : Spells 4294967295 "4294967295-ea" :=
    @Spells.modern 4294967295 "-ea" (by decide) hdash
  have hlarge : Spells 4294967296 "1.4294967296" := @Spells.legacy 4294967296 "" nofun
  obtain ⟨-, -, -, hlatest, -⟩ := ofVersionText_clamps hfits
  obtain ⟨-, -, -, -, holdest, -⟩ := ofVersionText_clamps hlarge
  exact ⟨(hlatest (by decide)).2 (by decide), holdest (by decide)⟩

end Release

end EntityLoom
