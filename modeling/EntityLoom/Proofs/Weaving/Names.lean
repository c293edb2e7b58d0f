import EntityLoom.Frame.Basic
import EntityLoom.Proofs.ClassFile.Descriptor
import EntityLoom.Proofs.Outcomes
import EntityLoom.Weaving.Names

/-!
# Descriptors of synthesized code

The descriptors that synthesized code is made with are read as what they say, and the members of an
attribute are no constructors.  The lemmas are for simplification.
-/

namespace EntityLoom

open EntityLoom.Frame (constructorName)

namespace Names

theorem constructor_eq : constructor = constructorName := rfl

/-- The class of strings. -/
abbrev string : String := "java/lang/String"

/-- The descriptors of methods in synthesized code, and what they say. -/
def descriptors : List (String × MethodDescriptor) :=
  [ (noArgs, ⟨[], .void⟩),
    (objectGetter, ⟨[], .object object⟩),
    (flagGetter, ⟨[], .boolean⟩),
    (keyedGetter, ⟨[.object string], .object object⟩),
    (keyedSetter, ⟨[.object string, .object object], .object object⟩),
    (genericSetDesc, ⟨[.object string, .object object], .void⟩),
    (stringTest, ⟨[.object string], .boolean⟩),
    (stringConsumer, ⟨[.object string], .void⟩),
    (objectConsumer, ⟨[.object object], .void⟩),
    ("(Z)V", ⟨[.boolean], .void⟩),
    (propertyChangeDesc, ⟨[.object string, .object object, .object object], .void⟩),
    (changeEventConstructor, ⟨[.object object, .object string, .object object, .object object], .void⟩),
    (changeEventConsumer, ⟨[.object changeEvent], .void⟩),
    (unfetchedCallback, ⟨[.object fetchGroupTracker, .object string], .void⟩),
    (factoryDesc, ⟨[.object persistenceObject], .object object⟩),
    (tokenConstructor, ⟨[.object persistenceObject], .void⟩) ]

theorem chars_descriptors : ∀ x ∈ descriptors, x.1.toList = x.2.chars := by
  intro x hx
  simp only [descriptors, List.mem_cons, List.not_mem_nil, or_false] at hx
  rcases hx with rfl | rfl | rfl | rfl | rfl | rfl | rfl | rfl | rfl | rfl | rfl | rfl | rfl | rfl |
      rfl | rfl <;>
    simp only [MethodDescriptor.chars, List.flatMap_cons, List.flatMap_nil, Descriptor.chars, noArgs,
      objectGetter, flagGetter, keyedGetter, keyedSetter, genericSetDesc, stringTest, stringConsumer,
      objectConsumer, propertyChangeDesc, changeEventConstructor, changeEventConsumer,
      unfetchedCallback, factoryDesc, tokenConstructor, object, string, changeEvent,
      fetchGroupTracker, persistenceObject] <;>
    -- The characters of a literal are its list, without evaluating the literal.
    (repeat rw [String.toList_ofList]) <;>
    rfl

theorem wellFormed_descriptors : ∀ x ∈ descriptors, x.2.WellFormed := by
  have hnames : ∀ name ∈ [string, object, changeEvent, fetchGroupTracker, persistenceObject],
      (Descriptor.object name).WellFormed := by
    intro name hname
    simp only [List.mem_cons, List.not_mem_nil, or_false] at hname
    rcases hname with rfl | rfl | rfl | rfl | rfl <;> refine ⟨by decide, ?_⟩ <;>
      simp only [string, object, changeEvent, fetchGroupTracker, persistenceObject] <;>
      rw [String.toList_ofList] <;>
      decide
  simp only [List.forall_mem_cons] at hnames
  obtain ⟨hstring, hobject, hevent, htracker, htoken, -⟩ := hnames
  have hvoid : Descriptor.void.WellFormed := trivial
  have hboolean : Descriptor.boolean.WellFormed := trivial
  intro x hx
  simp only [descriptors, List.mem_cons, List.not_mem_nil, or_false] at hx
  rcases hx with rfl | rfl | rfl | rfl | rfl | rfl | rfl | rfl | rfl | rfl | rfl | rfl | rfl | rfl |
      rfl | rfl <;>
    constructor <;>
    simp [hstring, hobject, hevent, htracker, htoken, hvoid, hboolean]

/-- Each descriptor is read as what it says. -/
theorem ofText_descriptors {text : String} {d : MethodDescriptor} (h : (text, d) ∈ descriptors) :
    MethodDescriptor.ofText text = .ok d := by
  have htext : text = d.text := by
    refine String.toList_inj.1 ?_
    rw [chars_descriptors _ h, MethodDescriptor.text, String.toList_ofList]
  rw [htext]
  exact MethodDescriptor.ofText_text (wellFormed_descriptors _ h)

@[simp] theorem ofText_noArgs : MethodDescriptor.ofText noArgs = .ok ⟨[], .void⟩ :=
  ofText_descriptors (by simp [descriptors])

@[simp] theorem ofText_objectGetter :
    MethodDescriptor.ofText objectGetter = .ok ⟨[], .object object⟩ :=
  ofText_descriptors (by simp [descriptors])

@[simp] theorem ofText_flagGetter : MethodDescriptor.ofText flagGetter = .ok ⟨[], .boolean⟩ :=
  ofText_descriptors (by simp [descriptors])

@[simp] theorem ofText_keyedGetter :
    MethodDescriptor.ofText keyedGetter = .ok ⟨[.object string], .object object⟩ :=
  ofText_descriptors (by simp [descriptors])

@[simp] theorem ofText_keyedSetter :
    MethodDescriptor.ofText keyedSetter = .ok ⟨[.object string, .object object], .object object⟩ :=
  ofText_descriptors (by simp [descriptors])

@[simp] theorem ofText_genericSetDesc :
    MethodDescriptor.ofText genericSetDesc = .ok ⟨[.object string, .object object], .void⟩ :=
  ofText_descriptors (by simp [descriptors])

@[simp] theorem ofText_stringTest :
    MethodDescriptor.ofText stringTest = .ok ⟨[.object string], .boolean⟩ :=
  ofText_descriptors (by simp [descriptors])

@[simp] theorem ofText_stringConsumer :
    MethodDescriptor.ofText stringConsumer = .ok ⟨[.object string], .void⟩ :=
  ofText_descriptors (by simp [descriptors])

@[simp] theorem ofText_objectConsumer :
    MethodDescriptor.ofText objectConsumer = .ok ⟨[.object object], .void⟩ :=
  ofText_descriptors (by simp [descriptors])

@[simp] theorem ofText_flagConsumer : MethodDescriptor.ofText "(Z)V" = .ok ⟨[.boolean], .void⟩ :=
  ofText_descriptors (by simp [descriptors])

@[simp] theorem ofText_propertyChangeDesc :
    MethodDescriptor.ofText propertyChangeDesc =
      .ok ⟨[.object string, .object object, .object object], .void⟩ :=
  ofText_descriptors (by simp [descriptors])

@[simp] theorem ofText_changeEventConstructor :
    MethodDescriptor.ofText changeEventConstructor =
      .ok ⟨[.object object, .object string, .object object, .object object], .void⟩ :=
  ofText_descriptors (by simp [descriptors])

@[simp] theorem ofText_changeEventConsumer :
    MethodDescriptor.ofText changeEventConsumer = .ok ⟨[.object changeEvent], .void⟩ :=
  ofText_descriptors (by simp [descriptors])

@[simp] theorem ofText_unfetchedCallback :
    MethodDescriptor.ofText unfetchedCallback = .ok ⟨[.object fetchGroupTracker, .object string], .void⟩ :=
  ofText_descriptors (by simp [descriptors])

@[simp] theorem ofText_factoryDesc :
    MethodDescriptor.ofText factoryDesc = .ok ⟨[.object persistenceObject], .object object⟩ :=
  ofText_descriptors (by simp [descriptors])

@[simp] theorem ofText_tokenConstructor :
    MethodDescriptor.ofText tokenConstructor = .ok ⟨[.object persistenceObject], .void⟩ :=
  ofText_descriptors (by simp [descriptors])

/-! ### Names of members

The members of an attribute are no constructors. -/

theorem append_ne_constructor {front : String} (h : front.toList.head? = some '_')
    (name : String) : front ++ name ≠ constructorName := by
  intro heq
  have hhead : (front ++ name).toList.head? = some '_' := by
    rw [String.toList_append, List.head?_append, h]
    rfl
  rw [heq] at hhead
  exact absurd hhead (by decide)

@[simp] theorem holderInitializer_ne (attr : String) :
    holderInitializer attr ≠ constructorName := by
  unfold holderInitializer
  rw [String.append_assoc]
  exact append_ne_constructor (by decide) _

@[simp] theorem holderGetter_ne (attr : String) : holderGetter attr ≠ constructorName := by
  unfold holderGetter
  rw [String.append_assoc]
  exact append_ne_constructor (by decide) _

@[simp] theorem holderSetter_ne (attr : String) : holderSetter attr ≠ constructorName := by
  unfold holderSetter
  rw [String.append_assoc]
  exact append_ne_constructor (by decide) _

@[simp] theorem fieldGetter_ne (attr : String) : fieldGetter attr ≠ constructorName :=
  append_ne_constructor (by decide) attr

@[simp] theorem fieldSetter_ne (attr : String) : fieldSetter attr ≠ constructorName :=
  append_ne_constructor (by decide) attr

/-! ### Descriptors of accessors -/

theorem ofText_getterOf {d : Descriptor} (h : d.WellFormed) :
    MethodDescriptor.ofText (getterOf d.text) = .ok ⟨[], d⟩ := by
  have htext : getterOf d.text = MethodDescriptor.text ⟨[], d⟩ := by
    refine String.toList_inj.1 ?_
    simp [getterOf, Descriptor.text, MethodDescriptor.text, MethodDescriptor.chars]
  rw [htext]
  exact MethodDescriptor.ofText_text ⟨by simp, h⟩

/-- A method with the descriptor of a getter takes no arguments. -/
theorem params_of_getterOf {text : String} {m : MethodDescriptor}
    (h : MethodDescriptor.ofText (getterOf text) = .ok m) : m.params = [] := by
  obtain ⟨-, htext⟩ := MethodDescriptor.ofText_eq_ok.1 h
  cases hparams : m.params with
  | nil => rfl
  | cons d ds =>
    -- The first parameter would stand where the closing bracket is.
    obtain ⟨c, cs, hd, hopen⟩ := d.chars_eq_cons
    have hclose := congrArg (fun s => s.toList[1]?) htext
    simp [MethodDescriptor.text, MethodDescriptor.chars, getterOf, hparams, hd] at hclose
    exact absurd hclose hopen

theorem ofText_setterOf {d : Descriptor} (h : d.WellFormed) (hd : d ≠ .void) :
    MethodDescriptor.ofText (setterOf d.text) = .ok ⟨[d], .void⟩ := by
  have htext : setterOf d.text = MethodDescriptor.text ⟨[d], .void⟩ := by
    refine String.toList_inj.1 ?_
    simp [setterOf, Descriptor.text, MethodDescriptor.text, MethodDescriptor.chars,
      Descriptor.chars]
  rw [htext]
  exact MethodDescriptor.ofText_text ⟨by simpa using ⟨h, hd⟩, trivial⟩

theorem ofText_boxingDesc {d : Descriptor} {wrapper : String} (h : d.wrapper? = some wrapper) :
    MethodDescriptor.ofText (boxingDesc d wrapper) = .ok ⟨[d], .object wrapper⟩ := by
  have htext : boxingDesc d wrapper = MethodDescriptor.text ⟨[d], .object wrapper⟩ := by
    refine String.toList_inj.1 ?_
    simp [boxingDesc, Descriptor.text, MethodDescriptor.text, MethodDescriptor.chars,
      Descriptor.chars]
  have hwrapper : (Descriptor.object wrapper).WellFormed := by
    cases d <;> cases h <;> refine ⟨by decide, ?_⟩ <;> rw [String.toList_ofList] <;> decide
  rw [htext]
  refine MethodDescriptor.ofText_text ⟨?_, hwrapper⟩
  cases d <;> cases h <;> simp [Descriptor.WellFormed]

theorem object_text (name : String) : "L" ++ name ++ ";" = (Descriptor.object name).text := by
  refine String.toList_inj.1 ?_
  simp [Descriptor.text, Descriptor.chars]

/-! ### Holders -/

theorem holderInterfaceDesc_eq : holderInterfaceDesc = (Descriptor.object holderInterface).text := by
  refine String.toList_inj.1 ?_
  rw [Descriptor.text, String.toList_ofList, Descriptor.chars, holderInterfaceDesc,
    holderInterface, String.toList_ofList, String.toList_ofList]
  rfl

theorem wellFormed_holderInterface : (Descriptor.object holderInterface).WellFormed := by
  refine ⟨by decide, ?_⟩
  rw [holderInterface, String.toList_ofList]
  decide

@[simp] theorem ofText_holderInterfaceDesc :
    Descriptor.ofText holderInterfaceDesc = .ok (.object holderInterface) := by
  rw [holderInterfaceDesc_eq]
  exact Descriptor.ofText_text wellFormed_holderInterface

@[simp] theorem ofText_getterOf_holder :
    MethodDescriptor.ofText (getterOf holderInterfaceDesc) = .ok ⟨[], .object holderInterface⟩ := by
  rw [holderInterfaceDesc_eq]
  exact ofText_getterOf wellFormed_holderInterface

@[simp] theorem ofText_setterOf_holder :
    MethodDescriptor.ofText (setterOf holderInterfaceDesc) =
      .ok ⟨[.object holderInterface], .void⟩ := by
  rw [holderInterfaceDesc_eq]
  exact ofText_setterOf wellFormed_holderInterface (by simp)

end Names

end EntityLoom
