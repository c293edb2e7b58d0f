import EntityLoom.Proofs.ClassFile.Descriptor
import EntityLoom.Proofs.Outcomes
import EntityLoom.Proofs.Text.Trimmed

/-!
# Types in either spelling

A type is read from a descriptor or from a source name.  The two readers do not agree on what a type
is: the one for descriptors answers well-formed types only, while the other takes whatever stands
before the brackets for the name of a class.  Both read `void`, which is the type of no field.

`Descriptor.isFieldType_iff_of_ofEither` says which texts are read as the type of a field.  What is
known of a source name comes from one induction over its brackets (`ofSourceName_eq_ok`).
-/

namespace EntityLoom

namespace Descriptor

open Text (trim isBlank)

variable {d : Descriptor} {cs : List Char} {s : String}

/-! ## Types of fields -/

/-- The type is one that a field can have: it has values, and it is what its text is read as, by
either reader. -/
structure IsFieldType (d : Descriptor) : Prop where
  value : d ≠ void
  wellFormed : d.WellFormed
  reads : ofText d.text = .ok d
  reloads : ofEither d.text = .ok d

/-- A descriptor starts and ends with no blank. -/
theorem trim_chars (d : Descriptor) : trim d.chars = d.chars := by
  have hfront : ∀ d : Descriptor, ∀ c ∈ d.chars.head?, isBlank c = false := by
    intro d
    cases d <;> simp only [chars, List.head?_cons, Option.mem_some_iff] <;> rintro c rfl <;> rfl
  have hback : ∀ d : Descriptor, ∀ c ∈ d.chars.getLast?, isBlank c = false := by
    intro d
    induction d with
    | object name =>
      intro c hc
      rw [chars, ← List.cons_append, List.getLast?_concat, Option.mem_some_iff] at hc
      subst hc
      rfl
    | array element ih =>
      obtain ⟨c, cs, hchars, -⟩ := element.chars_eq_cons
      rw [chars, List.getLast?_cons_of_ne_nil (by simp [hchars])]
      exact ih
    | _ => rintro c ⟨⟩; rfl
  exact Text.trim_eq_self (hfront d) (hback d)

/-- The text of a descriptor is told from a source name. -/
theorem looksLikeDescriptor_chars : looksLikeDescriptor d.chars = true := by
  cases d with
  | object name =>
    rw [chars, looksLikeDescriptor.eq_11, List.getLast?_concat]
    rfl
  | _ => rfl

/-- The types of fields are the well-formed types that have values. -/
theorem isFieldType_iff : d.IsFieldType ↔ d ≠ void ∧ d.WellFormed := by
  refine ⟨fun h => ⟨h.value, h.wellFormed⟩, fun ⟨hvalue, hwell⟩ => ?_⟩
  have hread := ofText_text hwell
  refine ⟨hvalue, hwell, hread, ?_⟩
  have hchars : trim d.text.toList = d.chars := by
    rw [text, String.toList_ofList, trim_chars]
  unfold ofEither
  dsimp only
  rw [hchars, if_pos looksLikeDescriptor_chars]
  exact hread

/-! ## Source names -/

/-- A word is read as `void` if it is that keyword, and as a well-formed type if it holds no
semicolon. -/
theorem ofWord_eq_ok (h : ofWord cs = .ok d) :
    (d = void ↔ cs = "void".toList) ∧ (d.WellFormed ↔ ';' ∉ cs) := by
  unfold ofWord at h
  split at h
  case h_10 => cases h
  case h_11 hvoid hempty =>
    obtain rfl := Except.ok.inj h
    have hne : cs ≠ [] := fun hnil => hempty (by rw [hnil])
    refine ⟨iff_of_false (by simp [ofClassName]) fun heq => ?_, ?_⟩
    · exact hvoid (by rw [heq, String.ofList_toList])
    have hslash : ∀ c : Char, (if c = '.' then '/' else c) = ';' ↔ c = ';' := by
      intro c
      split
      · next hdot => simp [hdot]
      · rfl
    simp [ofClassName, WellFormed, hne, hslash]
  all_goals
    next heq =>
      obtain rfl := Except.ok.inj h
      have hword := congrArg String.toList heq
      rw [String.toList_ofList] at hword
      subst hword
      exact ⟨by decide, by decide⟩

/-- A text before brackets holds what the text with them holds, brackets apart. -/
theorem eq_append_of_beforeBrackets? {es : List Char} (h : beforeBrackets? cs = some es) :
    cs = es ++ ['[', ']'] := by
  unfold beforeBrackets? at h
  split at h
  · next rest heq =>
    obtain rfl := Option.some.inj h
    rw [← cs.reverse_reverse, heq]
    simp
  · cases h

/-- A name without brackets is read as a word. -/
theorem ofSourceName_of_word (h : beforeBrackets? (trim cs) = none) :
    ofSourceName cs = ofWord (trim cs) := by
  rw [ofSourceName]
  split
  · next hsome =>
    rw [h] at hsome
    cases hsome
  · rfl

/-- Brackets make an array of the type before them. -/
theorem ofSourceName_of_brackets {es : List Char} (h : beforeBrackets? (trim cs) = some es)
    (hread : ofSourceName es = .ok d) (hvalue : d ≠ void) : ofSourceName cs = .ok (array d) := by
  rw [ofSourceName]
  split
  · next es' hsome =>
    obtain rfl := Option.some.inj (h.symm.trans hsome)
    rw [hread]
    exact if_neg hvalue
  · next hnone =>
    rw [h] at hnone
    cases hnone

/-- A source name is read as `void` if it is that keyword, and as a well-formed type if it holds no
semicolon. -/
theorem ofSourceName_eq_ok (h : ofSourceName cs = .ok d) :
    (d = void ↔ trim cs = "void".toList) ∧ (d.WellFormed ↔ ';' ∉ trim cs) := by
  fun_induction ofSourceName cs generalizing d with
  | case1 cs element hbefore ih =>
    obtain ⟨d', hread, h⟩ := EntityLoom.bind_eq_ok.1 h
    have htext := eq_append_of_beforeBrackets? hbefore
    split at h
    · cases h
    next hvalue =>
    obtain rfl := Except.ok.inj h
    refine ⟨iff_of_false nofun fun hvoid => ?_, ?_⟩
    · have hlast := congrArg List.getLast? (hvoid.symm.trans htext)
      rw [List.getLast?_append] at hlast
      cases hlast
    · have hsemicolon : ';' ∈ trim cs ↔ ';' ∈ trim element := by
        rw [htext, Text.mem_trim (by decide)]
        simp
      rw [WellFormed, hsemicolon, ← (ih hread).2]
      exact and_iff_right hvalue
  | case2 cs hbefore => exact ofWord_eq_ok h

/-! ## Either spelling -/

/-- The text, without blanks at its ends, is `V` or `void`, or is a source name with a
semicolon. -/
def SpellsNoField (s : String) : Prop :=
  trim s.toList = ['V'] ∨ trim s.toList = "void".toList ∨
    looksLikeDescriptor (trim s.toList) = false ∧ ';' ∈ trim s.toList

instance decidableSpellsNoField (s : String) : Decidable (SpellsNoField s) :=
  inferInstanceAs (Decidable (_ ∨ _ ∨ _ ∧ _))

/-- A text is read as the type of a field unless it is one of those that spell none. -/
theorem isFieldType_iff_of_ofEither (h : ofEither s = .ok d) :
    d.IsFieldType ↔ ¬ SpellsNoField s := by
  rw [isFieldType_iff, SpellsNoField]
  unfold ofEither at h
  dsimp only at h
  split at h
  · next hlooks =>
    obtain ⟨hwell, htext⟩ := ofText_eq_ok.1 h
    have hchars : d.chars = trim s.toList := String.ofList_injective htext
    have hletter : d.chars = ['V'] ↔ d = void := by
      cases d <;> simp [chars]
    have hword : (d.chars = "void".toList) = False := by
      refine eq_false fun heq => ?_
      rw [← hchars, heq] at hlooks
      cases hlooks
    rw [← hchars, hletter, hword, looksLikeDescriptor_chars]
    simp [hwell]
  · next hlooks =>
    have hlooks := Bool.eq_false_iff.2 hlooks
    obtain ⟨hvoid, hwell⟩ := ofSourceName_eq_ok h
    rw [Text.trim_trim] at hvoid hwell
    have hletter : trim s.toList ≠ ['V'] := by
      intro heq
      rw [heq] at hlooks
      revert hlooks
      decide
    rw [Ne, hvoid, hwell]
    simp only [hlooks, hletter, false_or, true_and, not_or]

end Descriptor
end EntityLoom
