import EntityLoom.Proofs.Model.Validated
import EntityLoom.Proofs.Weaving.Declared

/-!
# Calls of the accessors of a holder

The getter and the setter of a holder read and write the attribute through its own accessors: those
of the application, or the synthesized ones.  They spell the type in the call by wrapping the operand
of a cast, which is the name of a class but the descriptor of an array, while the accessors are
declared with the descriptor of the type.  `Context.Planned.attributeCalls` gives the calls, and says
that the two spellings agree for the types of classes and for no others.
-/

namespace EntityLoom

open Instruction

attribute [local simp] aload load ret getField putField invokeVirtual invokeSpecial invokeStatic
  invokeInterface newObject checkCast

/-! ## Calls in code -/

/-- The methods that some code calls on the class of a receiver, in order. -/
def virtualCalls (code : List Instruction) : List MemberRef :=
  code.filterMap fun
    | invoke .invokevirtual r => some r
    | _ => none

section

variable {i : Instruction} {code code' : List Instruction}

@[simp] theorem virtualCalls_nil : virtualCalls [] = [] := rfl

@[simp] theorem virtualCalls_append :
    virtualCalls (code ++ code') = virtualCalls code ++ virtualCalls code' := by
  simp [virtualCalls]

@[simp] theorem virtualCalls_call (r : MemberRef) :
    virtualCalls (invoke .invokevirtual r :: code) = r :: virtualCalls code := rfl

@[simp] theorem virtualCalls_skip (h : ∀ r, i ≠ invoke .invokevirtual r) :
    virtualCalls (i :: code) = virtualCalls code := by
  unfold virtualCalls
  rw [List.filterMap_cons]
  split
  · rfl
  · next r hr =>
    split at hr
    · next r' => exact absurd rfl (h r')
    · cases hr

end

/-! ## Descriptors in calls -/

/-- A type is spelled by wrapping its operand exactly if it is the type of a class. -/
theorem MappedAttribute.wrapped_eq_descriptor_iff (a : MappedAttribute) :
    "L" ++ Plan.holderTarget a ++ ";" = a.descriptor ↔ ∃ name, a.type = .object name := by
  unfold Plan.holderTarget MappedAttribute.descriptor
  constructor
  · -- The descriptors of other types start with another letter.
    intro h
    have hhead := congrArg (fun s => s.toList.head?) h
    cases htype : a.type with
    | object name => exact ⟨name, rfl⟩
    | _ =>
      rw [htype] at hhead
      simp [Descriptor.text, Descriptor.chars] at hhead
  · rintro ⟨name, htype⟩
    rw [htype, ← String.toList_inj]
    simp [Descriptor.text, Descriptor.chars, Descriptor.classOperand?]

theorem Names.getterOf_inj {s t : String} : Names.getterOf s = Names.getterOf t ↔ s = t := by
  unfold Names.getterOf
  rw [← String.toList_inj, String.toList_append, String.toList_append, List.append_cancel_left_eq,
    String.toList_inj]

theorem Names.setterOf_inj {s t : String} : Names.setterOf s = Names.setterOf t ↔ s = t := by
  unfold Names.setterOf
  rw [← String.toList_inj]
  simp only [String.toList_append, List.append_assoc, List.append_cancel_left_eq]
  rw [List.append_cancel_right_eq, String.toList_inj]

/-! ## The calls of a holder -/

/-- Whether the getter is one of the application that takes the name of the attribute. -/
def MappedAttribute.readsByKey (a : MappedAttribute) : Bool :=
  a.getterName?.isSome && a.usesKeyedAccessors

/-- Whether the setter is one of the application that takes the name of the attribute. -/
def MappedAttribute.writesByKey (a : MappedAttribute) : Bool :=
  a.setterName?.isSome && a.usesKeyedAccessors

namespace Plan

variable (p : Plan) (a : MappedAttribute)

/-- The calls that the accessors of a holder make to the getter and the setter of its attribute. -/
structure AttributeCalls (read write : MemberRef) : Prop where
  added : .method (p.holderGetter a) ∈ p.members ∧ .method (p.holderSetter a) ∈ p.members
  getter : virtualCalls (p.holderGetter a).body =
    [⟨p.className, Names.holderInitializer a.name, Names.noArgs⟩, read, write]
  setter : virtualCalls (p.holderSetter a).body = [read, write]
  owners : read.owner = p.className ∧ write.owner = p.className
  readName : read.name = a.getterName?.getD (Names.fieldGetter a.name)
  writeName : write.name = a.setterName?.getD (Names.fieldSetter a.name)

/-- The call that reads a lazy attribute. -/
def readCall : MemberRef where
  owner := p.className
  name := a.getterName?.getD (Names.fieldGetter a.name)
  descriptor :=
    if a.readsByKey then Names.keyedGetter
    else Names.getterOf ("L" ++ holderTarget a ++ ";")

/-- The call that writes a lazy attribute. -/
def writeCall : MemberRef where
  owner := p.className
  name := a.setterName?.getD (Names.fieldSetter a.name)
  descriptor :=
    if a.writesByKey then Names.keyedSetter
    else Names.setterOf ("L" ++ holderTarget a ++ ";")

@[simp] theorem virtualCalls_callGetter : virtualCalls (p.callGetter a) = [p.readCall a] := by
  unfold callGetter readCall MappedAttribute.readsByKey
  cases a.getterName? with
  | none => simp
  | some getter => cases a.usesKeyedAccessors <;> simp

@[simp] theorem virtualCalls_callSetter (value : List Instruction) :
    virtualCalls (p.callSetter a value) = virtualCalls value ++ [p.writeCall a] := by
  unfold callSetter writeCall MappedAttribute.writesByKey
  cases a.setterName? with
  | none => simp
  | some setter => cases a.usesKeyedAccessors <;> simp

theorem virtualCalls_holderGetter :
    virtualCalls (p.holderGetter a).body =
      [⟨p.className, Names.holderInitializer a.name, Names.noArgs⟩, p.readCall a, p.writeCall a] := by
  unfold holderGetter ensureHolder loadHolder holderCall
  simp

theorem virtualCalls_holderSetter :
    virtualCalls (p.holderSetter a).body = [p.readCall a, p.writeCall a] := by
  unfold holderSetter holderCall
  dsimp only
  split
  · simp
  · split <;> simp

variable {p a} in
theorem attributeCalls_of_lazy (h : a ∈ p.lazyAttributes) :
    p.AttributeCalls a (p.readCall a) (p.writeCall a) := by
  obtain ⟨hown, hlazy⟩ := List.mem_filter.1 h
  have hmembers : ∀ e ∈ p.attributeMembers a, e ∈ p.members := by
    intro e he
    exact mem_members.2 (.inr (.inl ⟨a, hown, he⟩))
  unfold attributeMembers at hmembers
  rw [if_pos hlazy] at hmembers
  constructor
  case added => exact ⟨hmembers _ (by simp), hmembers _ (by simp)⟩
  case getter => exact p.virtualCalls_holderGetter a
  case setter => exact p.virtualCalls_holderSetter a
  case owners => exact ⟨rfl, rfl⟩
  case readName | writeName => rfl

/-- The call that reads an attribute without a key has the descriptor of its getter exactly if the
type is that of a class. -/
theorem readCall_descriptor_iff (h : ¬a.readsByKey) :
    (p.readCall a).descriptor = Names.getterOf a.descriptor ↔ ∃ name, a.type = .object name := by
  unfold readCall
  dsimp only
  rw [if_neg h, Names.getterOf_inj, a.wrapped_eq_descriptor_iff]

theorem writeCall_descriptor_iff (h : ¬a.writesByKey) :
    (p.writeCall a).descriptor = Names.setterOf a.descriptor ↔ ∃ name, a.type = .object name := by
  unfold writeCall
  dsimp only
  rw [if_neg h, Names.setterOf_inj, a.wrapped_eq_descriptor_iff]

end Plan

/-! ## The calls and what is declared -/

namespace Context

variable {context : Context} {m : Model} {data : Bytes} {file d : ClassFile} {c : MappedClass}
  {existing : List String} {p : Plan} {a : MappedAttribute}

/-- A lazy attribute of a validated model that lacks an accessor has a field. -/
theorem Planned.hasField_of_lazy (h : Planned context m data file c existing p) (hm : m.Validated)
    (ha : a ∈ p.lazyAttributes) (hnone : a.getterName? = none ∨ a.setterName? = none) :
    a.hasField = true := by
  unfold Plan.lazyAttributes Plan.ownAttributes MappedClass.ownAttributes at ha
  rw [h.mapped_eq] at ha
  obtain ⟨hown, hlazy⟩ := List.mem_filter.1 ha
  obtain ⟨hmem, hown⟩ := List.mem_filter.1 hown
  unfold Plan.weavesHolder at hlazy
  rw [h.mapped_eq, Bool.and_eq_true_iff] at hlazy
  have hreachable := (hm.holders c (Model.mem_of_get? h.found).1 a hmem hlazy.2).2 hown
  unfold MappedAttribute.isReachable at hreachable
  rcases hnone with hnone | hnone <;> simpa [hnone] using hreachable

/-- The accessors of the holder of a lazy attribute call its getter and its setter: those of the
application if there are any, else the synthesized ones, which the woven class declares with the
descriptor of the attribute.  A call without a key has the descriptor of its accessor exactly if the
type of the attribute is that of a class. -/
theorem Planned.attributeCalls {classes : List MappedClass}
    (hmodel : Model.ofClasses classes = .ok m) (h : Planned context m data file c existing p)
    (ha : a ∈ p.lazyAttributes) :
    ∃ read write, p.AttributeCalls a read write ∧
      (¬a.readsByKey →
        (read.descriptor = Names.getterOf a.descriptor ↔ ∃ name, a.type = .object name)) ∧
      (¬a.writesByKey →
        (write.descriptor = Names.setterOf a.descriptor ↔ ∃ name, a.type = .object name)) ∧
      ∀ d report, p.extend existing file = .ok (d, report) →
        (a.getterName? = none → d.Declares
          (.method ⟨read.owner, read.name, Names.getterOf a.descriptor⟩)) ∧
        (a.setterName? = none → d.Declares
          (.method ⟨write.owner, write.name, Names.setterOf a.descriptor⟩)) := by
  have hm := Model.validated_of_ofClasses hmodel
  obtain ⟨hown, hlazy⟩ := List.mem_filter.1 ha
  refine ⟨p.readCall a, p.writeCall a, p.attributeCalls_of_lazy ha, p.readCall_descriptor_iff a,
    p.writeCall_descriptor_iff a, fun d report hextend => ?_⟩
  obtain ⟨parts, hcarried⟩ := h.carried hextend
  have hintercepts : a.getterName? = none ∨ a.setterName? = none → p.intercepts a = true := by
    intro hnone
    have hfield := h.hasField_of_lazy hm ha hnone
    unfold Plan.intercepts
    simp [hfield, hlazy]
  constructor
  · intro hnone
    have haccessors := Plan.accessors_mem hown (hintercepts (.inl hnone))
    have hname : (p.readCall a).name = Names.fieldGetter a.name := by
      unfold Plan.readCall
      rw [hnone]
      rfl
    rw [hname]
    exact hcarried.declares (Plan.provides_method haccessors.1 p.className)
  · intro hnone
    have haccessors := Plan.accessors_mem hown (hintercepts (.inr hnone))
    have hname : (p.writeCall a).name = Names.fieldSetter a.name := by
      unfold Plan.writeCall
      rw [hnone]
      rfl
    rw [hname]
    exact hcarried.declares (Plan.provides_method haccessors.2 p.className)

end Context

/-! ## A sample of an array -/

namespace Sample

def numbers : MappedAttribute := { name := "d", type := .array .int, valueHolders := true }

def holder : MappedClass := { name := "A", valueHolders := true, attributes := [numbers] }

end Sample

/-- The accessors of the holder of an array call its getter by another descriptor than the one that
the woven class declares it with. -/
theorem Context.Planned.attributeCalls_sample :
    ∃ p read write,
      default.Planned ⟨[Sample.holder]⟩ (Sample.bareFile Sample.holder).toBytes
        (Sample.bareFile Sample.holder) Sample.holder [] p ∧
      p.AttributeCalls Sample.numbers read write ∧
      read.descriptor ≠ Names.getterOf Sample.numbers.descriptor ∧
      ∀ d report, p.extend [] (Sample.bareFile Sample.holder) = .ok (d, report) →
        d.Declares (.method ⟨read.owner, read.name, Names.getterOf Sample.numbers.descriptor⟩) := by
  have hmodel : ∃ m, Model.ofClasses [Sample.holder] = .ok m ∧ m = ⟨[Sample.holder]⟩ := by
    decide +kernel
  obtain ⟨m, hm, rfl⟩ := hmodel
  obtain ⟨p, hplanned⟩ := Sample.bareFile_planned default ⟨[Sample.holder]⟩ Sample.holder
    (by decide +kernel) (by decide +kernel) (by decide)
    ⟨some Names.object, by decide +kernel, by decide⟩
  have hlazy : Sample.numbers ∈ p.lazyAttributes := by
    unfold Plan.lazyAttributes Plan.ownAttributes Plan.weavesHolder
    rw [hplanned.mapped_eq]
    decide
  obtain ⟨read, write, hcalls, hread, -, hdeclares⟩ := hplanned.attributeCalls hm hlazy
  refine ⟨p, read, write, hplanned, hcalls, fun hsame => ?_,
    fun d report hextend => (hdeclares d report hextend).1 rfl⟩
  obtain ⟨name, harray⟩ := (hread (by decide)).1 hsame
  cases harray

end EntityLoom
