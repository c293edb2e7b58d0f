import EntityLoom.Model.Json
import EntityLoom.Proofs.ClassFile.Spelling
import EntityLoom.Proofs.Model.Validated

/-!
# The types that a model's text gives

`Model.typeTexts?` finds in the text of a model what it writes for the types of attributes, class by
class.  `Model.attributeTypes_spelled` says of an accepted text that each of these is read as the type
that the attribute has, and which of them are types of fields: all but those that spell `void` or a
class with a semicolon in its name.

Types are read where the records of attributes are, and no check of the model looks at them again, so
what is known of a type is known from its text alone (`MappedAttribute.typeText?_of_ofJson?`).
-/

namespace EntityLoom

variable {α β γ : Type} {text : String} {m : Model}

/-! ## Where types are written -/

/-- The text that the record of an attribute gives for the type. -/
def MappedAttribute.typeText? (value : Json) : Option String := do
  match ← value.fields? MappedAttribute.jsonKeys with
  | _ :: type :: _ => Json.required Json.text? type
  | _ => none

/-- The texts for the types of a list of attributes. -/
def MappedClass.attributeTypeTexts? (value : Json) : Option (List String) := do
  (← value.items?).mapM MappedAttribute.typeText?

/-- The texts for the types of a class's attributes. -/
def MappedClass.typeTexts? (value : Json) : Option (List String) := do
  match ← value.fields? MappedClass.jsonKeys with
  | [_, _, _, _, _, _, _, _, _, _, attributes] =>
    Json.withDefault [] MappedClass.attributeTypeTexts? attributes
  | _ => none

/-- The texts for the types of attributes in a list of classes. -/
def Model.classTypeTexts? (value : Json) : Option (List (List String)) := do
  (← value.items?).mapM MappedClass.typeTexts?

/-- What a model's text gives for the types of attributes, for each class. -/
def Model.typeTexts? (text : String) : Option (List (List String)) := do
  match ← (← Json.ofText? text).fields? ["classes"] with
  | [classes] => Json.required Model.classTypeTexts? classes
  | _ => none

/-! ## What is read from them -/

/-- Two readings of the items of a list answer alike if they do item by item. -/
theorem exists_mapM_of_forall {f : α → Option β} {g : α → Option γ} {R : β → γ → Prop}
    (hstep : ∀ x y, f x = some y → ∃ z, g x = some z ∧ R y z) {xs : List α} {ys : List β}
    (h : xs.mapM f = some ys) : ∃ zs, xs.mapM g = some zs ∧ List.Forall₂ R ys zs := by
  induction xs generalizing ys with
  | nil =>
    obtain rfl := Option.some.inj h
    exact ⟨[], rfl, .nil⟩
  | cons x xs ih =>
    rw [List.mapM_cons] at h
    obtain ⟨y, hy, h⟩ := Option.bind_eq_some_iff.1 h
    obtain ⟨ys, hys, h⟩ := Option.bind_eq_some_iff.1 h
    obtain rfl := Option.some.inj h
    obtain ⟨z, hz, hyz⟩ := hstep x y hy
    obtain ⟨zs, hzs, hrest⟩ := ih hys
    refine ⟨z :: zs, ?_, .cons hyz hrest⟩
    rw [List.mapM_cons, hz, hzs]
    rfl

/-- The text is read as the type of the attribute, which is the type of a field unless the text is
one of those that spell none. -/
structure MappedAttribute.SpelledBy (a : MappedAttribute) (s : String) : Prop where
  read : Descriptor.ofEither s = .ok a.type
  isFieldType_iff : a.type.IsFieldType ↔ ¬Descriptor.SpellsNoField s

theorem Descriptor.ofJson?_eq_some {value : Json} {d : Descriptor} :
    Descriptor.ofJson? value = some d ↔
      ∃ s, value.text? = some s ∧ Descriptor.ofEither s = .ok d := by
  unfold Descriptor.ofJson?
  rw [Option.bind_eq_bind, Option.bind_eq_some_iff]
  refine exists_congr fun s => and_congr_right fun _ => ?_
  cases Descriptor.ofEither s <;> simp

theorem MappedAttribute.typeText?_of_ofJson? {value : Json} {a : MappedAttribute}
    (h : MappedAttribute.ofJson? value = some a) :
    ∃ s, MappedAttribute.typeText? value = some s ∧ a.SpelledBy s := by
  unfold MappedAttribute.ofJson? at h
  obtain ⟨fields, hfields, h⟩ := Option.bind_eq_some_iff.1 h
  split at h
  case h_2 => cases h
  obtain ⟨name, -, h⟩ := Option.bind_eq_some_iff.1 h
  obtain ⟨d, hd, h⟩ := Option.bind_eq_some_iff.1 h
  -- The nine fields after the type do not matter to it.
  have htype : a.type = d := by
    iterate 9 obtain ⟨_, -, h⟩ := Option.bind_eq_some_iff.1 h
    obtain rfl := Option.some.inj h
    rfl
  subst htype
  obtain ⟨type, rfl, hread⟩ := Option.bind_eq_some_iff.1 hd
  obtain ⟨s, htext, hspelled⟩ := Descriptor.ofJson?_eq_some.1 hread
  refine ⟨s, ?_, hspelled, Descriptor.isFieldType_iff_of_ofEither hspelled⟩
  unfold MappedAttribute.typeText?
  rw [hfields]
  exact htext

/-- The types of a class's attributes are as spelled. -/
def MappedClass.SpelledBy (c : MappedClass) (texts : List String) : Prop :=
  List.Forall₂ MappedAttribute.SpelledBy c.attributes texts

theorem MappedClass.typeTexts?_of_ofJson? {value : Json} {c : MappedClass}
    (h : MappedClass.ofJson? value = some c) :
    ∃ texts, MappedClass.typeTexts? value = some texts ∧ c.SpelledBy texts := by
  unfold MappedClass.ofJson? at h
  obtain ⟨fields, hfields, h⟩ := Option.bind_eq_some_iff.1 h
  split at h
  case h_2 => cases h
  next attributes =>
  have has : Json.withDefault [] MappedClass.attributesOfJson? attributes = some c.attributes := by
    iterate 10 obtain ⟨_, -, h⟩ := Option.bind_eq_some_iff.1 h
    obtain ⟨as, has, h⟩ := Option.bind_eq_some_iff.1 h
    obtain rfl := Option.some.inj h
    exact has
  unfold MappedClass.typeTexts? MappedClass.SpelledBy
  rw [hfields]
  cases attributes with
  | none =>
    refine ⟨[], rfl, ?_⟩
    rw [← Option.some.inj has]
    exact .nil
  | some value =>
    obtain ⟨items, hitems, has⟩ := Option.bind_eq_some_iff.1 has
    obtain ⟨texts, htexts, hspelled⟩ :=
      exists_mapM_of_forall (fun _ _ => MappedAttribute.typeText?_of_ofJson?) has
    refine ⟨texts, ?_, hspelled⟩
    change MappedClass.attributeTypeTexts? value = some texts
    rw [MappedClass.attributeTypeTexts?, hitems]
    exact htexts

theorem Model.typeTexts?_of_classesOfText? {cs : List MappedClass}
    (h : Model.classesOfText? text = some cs) :
    ∃ spelled, Model.typeTexts? text = some spelled ∧
      List.Forall₂ MappedClass.SpelledBy cs spelled := by
  unfold Model.classesOfText? at h
  obtain ⟨value, hvalue, h⟩ := Option.bind_eq_some_iff.1 h
  obtain ⟨fields, hfields, h⟩ := Option.bind_eq_some_iff.1 h
  split at h
  case h_2 => cases h
  next classes =>
  obtain ⟨value', rfl, hread⟩ := Option.bind_eq_some_iff.1 h
  obtain ⟨items, hitems, hcs⟩ := Option.bind_eq_some_iff.1 hread
  obtain ⟨spelled, hspelled, hall⟩ :=
    exists_mapM_of_forall (fun _ _ => MappedClass.typeTexts?_of_ofJson?) hcs
  refine ⟨spelled, ?_, hall⟩
  unfold Model.typeTexts?
  refine Option.bind_eq_some_iff.2 ⟨value, hvalue, Option.bind_eq_some_iff.2 ⟨_, hfields, ?_⟩⟩
  change Model.classTypeTexts? value' = some spelled
  rw [Model.classTypeTexts?, hitems]
  exact hspelled

/-! ## Accepted texts -/

/-- In an accepted text every attribute has the type that its text spells.  It is the type of a
field, and is read again from its own text, unless it is spelled as `void` or as a class with a
semicolon in its name. -/
theorem Model.attributeTypes_spelled (h : Model.ofText text = .ok m) :
    ∃ spelled, Model.typeTexts? text = some spelled ∧
      List.Forall₂ MappedClass.SpelledBy m.classes spelled := by
  unfold Model.ofText at h
  split at h
  · next cs hcs =>
    obtain ⟨rfl, -⟩ := Model.ofClasses_eq_ok.1 h
    obtain ⟨spelled, hspelled, hall⟩ := Model.typeTexts?_of_classesOfText? hcs
    refine ⟨spelled, hspelled, ?_⟩
    rw [List.forall₂_map_left_iff]
    exact hall
  · cases h

/-- The text of a model with three attributes of one class: two whose types no field can have, and
an array. -/
def Model.spelledText : String :=
  "[[[\"A\",null,true,false,false,false,false,false,false,false," ++
    "[[\"x\",\"void\"],[\"y\",\"a;b\"],[\"z\",\"int[]\"]]]]]"

/-- The attributes in that text. -/
def Model.spelledAttributes : Json :=
  .array [.array [.text "x", .text "void"], .array [.text "y", .text "a;b"],
    .array [.text "z", .text "int[]"]]

/-- The record of the class in that text. -/
def Model.spelledRecord : Json :=
  .array [.text "A", .null, .bool true, .bool false, .bool false, .bool false, .bool false,
    .bool false, .bool false, .bool false, Model.spelledAttributes]

/-- The record of an attribute may stop after the type. -/
theorem MappedAttribute.ofJson?_pair {name s : String} {d : Descriptor}
    (h : Descriptor.ofEither s = .ok d) :
    MappedAttribute.ofJson? (.array [.text name, .text s]) = some { name := name, type := d } := by
  have hread : Descriptor.ofJson? (.text s) = some d := Descriptor.ofJson?_eq_some.2 ⟨s, rfl, h⟩
  unfold MappedAttribute.ofJson?
  refine Option.bind_eq_some_iff.2 ⟨_, rfl, ?_⟩
  exact Option.bind_eq_some_iff.2 ⟨name, rfl, Option.bind_eq_some_iff.2 ⟨d, hread, rfl⟩⟩

/-- The class of that text. -/
def Model.spelledClass : MappedClass where
  name := "A"
  internal := true
  attributes :=
    [ { name := "x", type := .void }, { name := "y", type := .object "a;b" },
      { name := "z", type := .array .int } ]

theorem Model.ofText_spelledText : Model.ofText Model.spelledText = .ok ⟨[Model.spelledClass]⟩ := by
  have hvoid : Descriptor.ofEither "void" = .ok .void := by
    rw [Descriptor.ofEither, if_neg (by decide), Descriptor.ofSourceName_of_word (by decide)]
    decide
  have hname : Descriptor.ofEither "a;b" = .ok (.object "a;b") := by
    rw [Descriptor.ofEither, if_neg (by decide), Descriptor.ofSourceName_of_word (by decide)]
    decide
  have hint : Descriptor.ofSourceName "int".toList = .ok .int := by
    rw [Descriptor.ofSourceName_of_word (by decide)]
    decide
  have harray : Descriptor.ofEither "int[]" = .ok (.array .int) := by
    rw [Descriptor.ofEither, if_neg (by decide)]
    exact Descriptor.ofSourceName_of_brackets (by decide) hint (by decide)
  have hattributes : MappedClass.attributesOfJson? Model.spelledAttributes =
      some Model.spelledClass.attributes := by
    change List.mapM MappedAttribute.ofJson? _ = _
    simp only [List.mapM_cons, MappedAttribute.ofJson?_pair hvoid,
      MappedAttribute.ofJson?_pair hname, MappedAttribute.ofJson?_pair harray]
    rfl
  have hclass : MappedClass.ofJson? Model.spelledRecord = some Model.spelledClass := by
    unfold MappedClass.ofJson?
    refine Option.bind_eq_some_iff.2 ⟨_, rfl, ?_⟩
    iterate 10 refine Option.bind_eq_some_iff.2 ⟨_, rfl, ?_⟩
    exact Option.bind_eq_some_iff.2 ⟨_, hattributes, rfl⟩
  have hjson : Json.ofText? Model.spelledText = some (.array [.array [Model.spelledRecord]]) := by
    cbv
  have hclasses : Model.classesOfText? Model.spelledText = some [Model.spelledClass] := by
    rw [Model.classesOfText?, hjson]
    change List.mapM MappedClass.ofJson? _ = _
    rw [List.mapM_cons, hclass]
    rfl
  rw [Model.ofText, hclasses]
  decide +kernel

/-- Here the first two types are not those of fields, and the third one is. -/
theorem Model.attributeTypes_spelled_sample :
    Model.ofText Model.spelledText = .ok ⟨[Model.spelledClass]⟩ ∧
      (∃ spelled, Model.typeTexts? Model.spelledText = some spelled ∧
        List.Forall₂ MappedClass.SpelledBy [Model.spelledClass] spelled) ∧
      Descriptor.SpellsNoField "void" ∧ Descriptor.SpellsNoField "a;b" ∧
        ¬Descriptor.SpellsNoField "int[]" :=
  ⟨Model.ofText_spelledText, Model.attributeTypes_spelled Model.ofText_spelledText, by decide,
    by decide, by decide⟩

end EntityLoom
