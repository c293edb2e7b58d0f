import EntityLoom.Proofs.Weaving.Outcome

/-!
# References to synthesized members

The members that the synthesized code of a class refers to in the class itself or in its superclass.
`Plan.Requires` lists them: a member that the same plan adds, one of four members of the superclass,
state that is held once per hierarchy, the field of an attribute that is read and written by name, a
fetch check, or the announcement of a change.  `Plan.requires_of_selfReference` reads the list off the
code of every class-level member and of the checks in the accessors.
-/

namespace EntityLoom

open Instruction

attribute [local simp] aload load ret getField putField invokeVirtual invokeSpecial invokeStatic
  invokeInterface newObject checkCast

/-! ## References -/

/-- A field or a method that code refers to. -/
inductive Reference where
  | field (ref : MemberRef)
  | method (ref : MemberRef)
  deriving DecidableEq, Repr

namespace Reference

/-- The names of what is referred to. -/
def ref : Reference → MemberRef
  | field r | method r => r

/-- The prefix of the names of synthesized members. -/
def synthesizedPrefix : List Char := "_persistence_".toList

/-- Whether a name is one of a synthesized member. -/
def isSynthesizedName (name : String) : Bool :=
  synthesizedPrefix.isPrefixOf name.toList

/-- Whether the reference is to a synthesized member: by its name, or to the constructor that is told
from others by its parameter. -/
def isSynthesized (r : Reference) : Bool :=
  isSynthesizedName r.ref.name ||
    (r.ref.name = Names.constructor && r.ref.descriptor = Names.tokenConstructor)

/-- The primary key of a class. -/
def primaryKey (owner : String) : Reference :=
  .field ⟨owner, StateField.primaryKey.name, StateField.primaryKey.type.text⟩

/-- The field of an attribute. -/
def attributeField (owner : String) (a : MappedAttribute) : Reference :=
  .field ⟨owner, a.name, a.descriptor⟩

end Reference

/-- The member that an instruction refers to. -/
@[simp] def Instruction.reference? : Instruction → Option Reference
  | field _ r => some (.field r)
  | invoke _ r => some (.method r)
  | _ => none

namespace Plan

/-- The plan adds a member of the name and descriptor that a reference gives. -/
def Provides (p : Plan) : Reference → Prop
  | .field r => ∃ f, .field f ∈ p.members ∧ f.name = r.name ∧ f.descriptor = r.descriptor
  | .method r => ∃ d, .method d ∈ p.members ∧ d.name = r.name ∧ d.descriptor = r.descriptor

/-- The synthesized members that the class-level code of a class may refer to. -/
inductive Requires (p : Plan) : Reference → Prop
  /-- The class declares the member itself. -/
  | own {r : Reference} (provided : p.Provides r) (owner : r.ref.owner = p.className) : Requires p r
  | superClone (h : p.superclassInternal = true) :
      Requires p (.method ⟨p.superName, Names.postClone, Names.objectGetter⟩)
  | superToken (h : p.superclassConstructorOptimization = true) :
      Requires p (.method ⟨p.superName, Names.constructor, Names.tokenConstructor⟩)
  | superGet (internal : p.mapped.internal = true) (h : p.root = false) :
      Requires p (.method ⟨p.superName, Names.genericGet, Names.keyedGetter⟩)
  | superSet (internal : p.mapped.internal = true) (h : p.root = false) :
      Requires p (.method ⟨p.superName, Names.genericSet, Names.genericSetDesc⟩)
  /-- State that a clone does not share. -/
  | state {f : StateField} (internal : p.mapped.internal = true) (h : f ∈ p.ownState) :
      Requires p (.field ⟨p.className, f.name, f.type.text⟩)
  /-- The field of an attribute that is read and written by name. -/
  | keyed {a : MappedAttribute} (internal : p.mapped.internal = true) (h : a ∈ p.keyedAttributes) :
      Requires p (.attributeField p.className a)
  | guard {name : String} (h : p.mapped.fetchGroups = true)
      (hname : name = Names.checkFetched ∨ name = Names.checkFetchedForSet) :
      Requires p (.method ⟨p.className, name, Names.stringConsumer⟩)
  | announce (h : p.changeTracking = true) :
      Requires p (.method ⟨p.className, Names.propertyChange, Names.propertyChangeDesc⟩)

/-! ## Reading code -/

/-- What some code refers to is required, as far as it is synthesized. -/
def Accounted (p : Plan) (code : List Instruction) : Prop :=
  ∀ i ∈ code, ∀ r, i.reference? = some r → r.isSynthesized = true → p.Requires r

section

variable {p : Plan} {i : Instruction} {code code' : List Instruction}

@[simp] theorem accounted_cons :
    p.Accounted (i :: code) ↔
      (∀ r, i.reference? = some r → r.isSynthesized = true → p.Requires r) ∧ p.Accounted code := by
  simp [Accounted]

end

end Plan

/-! ## Names that are not synthesized -/

namespace Reference

variable {owner name descriptor : String}

theorem isSynthesized_method_eq_false (h : isSynthesizedName name = false)
    (hne : name ≠ Names.constructor) :
    (method ⟨owner, name, descriptor⟩).isSynthesized = false := by
  simp [isSynthesized, ref, h, hne]

theorem isSynthesized_constructor_eq_false (h : descriptor ≠ Names.tokenConstructor) :
    (method ⟨owner, Names.constructor, descriptor⟩).isSynthesized = false := by
  have hname : isSynthesizedName Names.constructor = false := by decide
  simp [isSynthesized, ref, hname, h]

end Reference

namespace Plan

variable {p : Plan}

@[simp] theorem clone_not_synthesized (owner descriptor : String) :
    (Reference.method ⟨owner, "clone", descriptor⟩).isSynthesized = false :=
  Reference.isSynthesized_method_eq_false (by decide) (by decide)

@[simp] theorem noArgs_not_synthesized (owner : String) :
    (Reference.method ⟨owner, Names.constructor, Names.noArgs⟩).isSynthesized = false :=
  Reference.isSynthesized_constructor_eq_false (by decide)

/-! ## Members that a plan adds -/

theorem provides_field {f : FieldDecl} (h : .field f ∈ p.members) (owner : String) :
    p.Provides (.field ⟨owner, f.name, f.descriptor⟩) := ⟨f, h, rfl, rfl⟩

theorem provides_method {d : MethodDecl} (h : .method d ∈ p.members) (owner : String) :
    p.Provides (.method ⟨owner, d.name, d.descriptor⟩) := ⟨d, h, rfl, rfl⟩

theorem provides_state {f : StateField} (h : f.decl ∈ p.members) (owner : String) :
    p.Provides (.field ⟨owner, f.name, f.type.text⟩) := ⟨_, h, rfl, rfl⟩

theorem mem_members_of_lifecycle (hi : p.mapped.internal = true) {d : MemberDecl}
    (h : d ∈ p.lifecycleMembers) : d ∈ p.members :=
  mem_members.2 (.inl ⟨hi, List.mem_append_left _ h⟩)

theorem mem_members_of_changeTracking (ho : p.ownsListener = true) {d : MemberDecl}
    (h : d ∈ p.changeTrackingMembers) : d ∈ p.members :=
  mem_members.2 (.inr (.inr (.inl ⟨ho, h⟩)))

theorem mem_members_of_fetchGroup (hg : p.mapped.fetchGroups = true ∧ p.root = true)
    {d : MemberDecl} (h : d ∈ p.fetchGroupMembers) : d ∈ p.members :=
  mem_members.2 (.inr (.inr (.inr (.inl ⟨hg, h⟩))))

/-- Every holder of a lazy attribute is a field of the plan. -/
theorem holderField_mem {a : MappedAttribute} (ha : a ∈ p.lazyAttributes) :
    .field (p.holderField a) ∈ p.members := by
  unfold lazyAttributes at ha
  obtain ⟨hown, hlazy⟩ := List.mem_filter.1 ha
  have hmem : MemberDecl.field (p.holderField a) ∈ p.attributeMembers a := by
    unfold attributeMembers
    rw [if_pos hlazy]
    simp
  exact mem_members.2 (.inr (.inl ⟨a, hown, hmem⟩))

theorem provides_primaryKey (hi : p.mapped.internal = true) (hroot : p.root = true)
    (he : p.mapped.embeddable = false) (owner : String) :
    p.Provides (.primaryKey owner) := by
  have hmem : StateField.primaryKey.decl ∈ p.members := by
    apply mem_members_of_lifecycle hi
    simp [lifecycleMembers, identityMembers, hroot, he]
  exact provides_state hmem owner

/-- A class that holds the listener adds the field and the method that announces changes. -/
theorem provides_listener (ho : p.ownsListener = true) (owner : String) :
    p.Provides (.field ⟨owner, StateField.listener.name, StateField.listener.type.text⟩) ∧
      p.Provides (.method ⟨owner, Names.propertyChange, Names.propertyChangeDesc⟩) := by
  have hlistener : StateField.listener.decl ∈ p.members := by
    apply mem_members_of_changeTracking ho
    simp [changeTrackingMembers]
  have hannounce : MemberDecl.method p.propertyChange ∈ p.members := by
    apply mem_members_of_changeTracking ho
    simp [changeTrackingMembers]
  exact ⟨provides_state hlistener owner, provides_method hannounce owner⟩

/-- The root of a hierarchy with fetch groups adds their state. -/
theorem provides_groupState (hg : p.mapped.fetchGroups = true ∧ p.root = true) {f : StateField}
    (hf : f = .fetchGroup ∨ f = .session) (owner : String) :
    p.Provides (.field ⟨owner, f.name, f.type.text⟩) := by
  rcases hf with rfl | rfl
  · have hgroup : MemberDecl.field p.fetchGroupField ∈ p.members := by
      apply mem_members_of_fetchGroup hg
      simp [fetchGroupMembers]
    exact provides_field hgroup owner
  · have hsession : StateField.session.decl ∈ p.members := by
      apply mem_members_of_fetchGroup hg
      simp [fetchGroupMembers]
    exact provides_state hsession owner

end Plan

end EntityLoom
