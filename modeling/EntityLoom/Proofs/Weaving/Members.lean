import EntityLoom.Proofs.Weaving.Extension
import EntityLoom.Weaving.Weave

/-!
# The synthesized members are small

Every member of a plan, whatever its class and its attributes are, is small enough to be written:
`Plan.members_small`.  Accessors have no jumps, and their descriptors may be of any length; methods
with jumps use the first four local slots and have short descriptors.
-/

namespace EntityLoom

open Instruction
open Worklist (slotsNeeded)

attribute [local simp] aload load ret getField putField invokeVirtual invokeSpecial invokeStatic
  invokeInterface newObject checkCast

/-! ## Instructions -/

namespace Instruction

/-- The instruction uses a low local slot, if it uses one. -/
def Low (i : Instruction) : Prop := slotsNeeded i ≤ 255

@[simp] theorem low_var (op : Opcode) (slot : UInt16) :
    (var op slot).Low ↔ slot.toNat + 2 ≤ 255 := Iff.rfl

@[simp] theorem low_of_ne_var {i : Instruction} (h : ∀ op slot, i ≠ var op slot) : i.Low := by
  unfold Low slotsNeeded
  split
  · next op slot => exact absurd rfl (h op slot)
  · exact Nat.zero_le _

@[simp] theorem isJump_of_ne_jump {i : Instruction} (h : ∀ op label, i ≠ jump op label) :
    i.isJump = false := by
  unfold isJump
  split
  · next op label => exact absurd rfl (h op label)
  · rfl

end Instruction

/-- All instructions of some code are low. -/
def LowCode (code : List Instruction) : Prop := ∀ i ∈ code, i.Low

/-- Some code has no jumps. -/
def Jumpless (code : List Instruction) : Prop := ∀ i ∈ code, i.isJump = false

section

variable {i : Instruction} {code code' : List Instruction}

@[simp] theorem lowCode_nil : LowCode [] := by simp [LowCode]

@[simp] theorem lowCode_cons : LowCode (i :: code) ↔ i.Low ∧ LowCode code := by simp [LowCode]

@[simp] theorem lowCode_append : LowCode (code ++ code') ↔ LowCode code ∧ LowCode code' := by
  simp [LowCode, or_imp, forall_and]

theorem lowCode_flatMap {α : Type} {xs : List α} {g : α → List Instruction}
    (h : ∀ x ∈ xs, LowCode (g x)) : LowCode (xs.flatMap g) := by
  intro i hi
  obtain ⟨x, hx, hix⟩ := List.mem_flatMap.1 hi
  exact h x hx i hix

@[simp] theorem jumpless_nil : Jumpless [] := by simp [Jumpless]

@[simp] theorem jumpless_cons : Jumpless (i :: code) ↔ i.isJump = false ∧ Jumpless code := by
  simp [Jumpless]

@[simp] theorem jumpless_append : Jumpless (code ++ code') ↔ Jumpless code ∧ Jumpless code' := by
  simp [Jumpless, or_imp, forall_and]

end

@[simp] theorem boxCode_low (d : Descriptor) : LowCode d.boxCode := by
  unfold Descriptor.boxCode
  split <;> simp

@[simp] theorem boxCode_jumpless (d : Descriptor) : Jumpless d.boxCode := by
  unfold Descriptor.boxCode
  split <;> simp

@[simp] theorem unboxCode_low (a : MappedAttribute) : LowCode a.unboxCode := by
  unfold MappedAttribute.unboxCode
  split <;> simp

/-- A method with jumps is small if its instructions are low and its descriptor is short. -/
theorem MethodDecl.small_of_low {m : MethodDecl} (hbody : LowCode m.body)
    (hshort : m.descriptor.toList.length ≤ 127) : m.Small :=
  .inr ⟨hbody, hshort⟩

namespace Plan

variable (p : Plan) (a : MappedAttribute)

/-! ## Members of an attribute -/

theorem holderField_small : (MemberDecl.field (p.holderField a)).Small := by
  unfold MemberDecl.Small holderField transientAnnotations
  dsimp only
  split
  · split <;> simp
  · simp

@[simp] theorem callGetter_low : LowCode (p.callGetter a) := by
  unfold callGetter
  dsimp only
  split
  · split <;> simp
  · simp

@[simp] theorem callSetter_low {value : List Instruction} :
    LowCode (p.callSetter a value) ↔ LowCode value := by
  unfold callSetter
  dsimp only
  split
  · split <;> simp
  · simp

theorem holderInitializer_small : (p.holderInitializer a).Small := by
  refine MethodDecl.small_of_low ?_ (by decide : Names.noArgs.toList.length ≤ 127)
  unfold holderInitializer loadHolder holderCall
  split <;> simp

theorem holderGetter_small : (p.holderGetter a).Small := by
  refine MethodDecl.small_of_low ?_
    (by decide : (Names.getterOf Names.holderInterfaceDesc).toList.length ≤ 127)
  unfold holderGetter ensureHolder loadHolder holderCall
  simp

theorem holderSetter_small : (p.holderSetter a).Small := by
  refine MethodDecl.small_of_low ?_
    (by decide : (Names.setterOf Names.holderInterfaceDesc).toList.length ≤ 127)
  unfold holderSetter holderCall
  dsimp only
  split
  · simp
  · split <;> simp

@[simp] theorem accessPrologue_jumpless (guard : String) :
    Jumpless (p.accessPrologue a guard) := by
  unfold accessPrologue checkFetched syncFromHolder ensureHolder loadHolder holderCall
  split <;> split <;> simp

theorem fieldGetter_small : (p.fieldGetter a).Small := by
  refine .inl (?_ : Jumpless _)
  unfold fieldGetter
  simp

theorem fieldSetter_small : (p.fieldSetter a).Small := by
  refine .inl (?_ : Jumpless _)
  unfold fieldSetter announceChange announce loadHolder holderCall
  dsimp only
  split <;> split <;> simp

theorem attributeMembers_small : ∀ d ∈ p.attributeMembers a, d.Small := by
  have hholder : ∀ d ∈ [MemberDecl.field (p.holderField a), .method (p.holderInitializer a),
      .method (p.holderGetter a), .method (p.holderSetter a)], d.Small := by
    simp only [List.forall_mem_cons]
    exact ⟨p.holderField_small a, p.holderInitializer_small a, p.holderGetter_small a,
      p.holderSetter_small a, by simp⟩
  have haccess : ∀ d ∈ [MemberDecl.method (p.fieldGetter a), .method (p.fieldSetter a)],
      d.Small := by
    simp only [List.forall_mem_cons]
    exact ⟨p.fieldGetter_small a, p.fieldSetter_small a, by simp⟩
  unfold attributeMembers
  rw [List.forall_mem_append]
  constructor
  · split
    · exact hholder
    · simp
  · split
    · exact haccess
    · simp

/-! ## Members of a class -/

theorem decl_small (f : StateField) : f.decl.Small := Nat.zero_le _

theorem property_small (f : StateField) (getter setter : String) :
    ∀ d ∈ p.property f getter setter, d.Small := by
  unfold property loadState
  simp only [List.forall_mem_cons]
  refine ⟨.inl (?_ : Jumpless _), .inl (?_ : Jumpless _), by simp⟩ <;> simp

theorem postClone_small : p.postClone.Small := by
  refine MethodDecl.small_of_low ?_ (by decide : Names.objectGetter.toList.length ≤ 127)
  unfold postClone
  simp only [lowCode_append]
  refine ⟨⟨⟨?_, lowCode_flatMap fun x _ => ?_⟩, lowCode_flatMap fun f _ => ?_⟩, by simp⟩
  · split <;> simp
  · unfold cloneHolder
    simp
  · unfold clearState
    simp

theorem dispatchAll_low {code : MappedAttribute → List Instruction}
    (h : ∀ a, LowCode (code a)) : LowCode (p.dispatchAll code) := by
  refine lowCode_flatMap fun x _ => ?_
  unfold dispatch
  simp [h]

theorem genericGet_small : p.genericGet.Small := by
  refine MethodDecl.small_of_low ?_ (by decide : Names.keyedGetter.toList.length ≤ 127)
  unfold genericGet inheritedGet
  simp only [lowCode_append]
  refine ⟨⟨p.dispatchAll_low fun a => by simp, ?_⟩, by simp⟩
  split <;> simp

theorem genericSet_small : p.genericSet.Small := by
  refine MethodDecl.small_of_low ?_ (by decide : Names.genericSetDesc.toList.length ≤ 127)
  unfold genericSet inheritedSet
  simp only [lowCode_append]
  refine ⟨⟨p.dispatchAll_low fun a => by simp, ?_⟩, by simp⟩
  split <;> simp

theorem identityMembers_small : ∀ d ∈ p.identityMembers, d.Small := by
  unfold identityMembers
  simp only [List.forall_mem_append, List.forall_mem_cons]
  exact ⟨⟨⟨decl_small _, decl_small _, by simp⟩, p.property_small _ _ _⟩, p.property_small _ _ _⟩

theorem factory_small : p.factory.Small := by
  refine .inl (?_ : Jumpless _)
  unfold factory
  dsimp only
  split <;> simp

theorem tokenConstructor_small : p.tokenConstructor.Small := by
  refine .inl (?_ : Jumpless _)
  unfold tokenConstructor
  dsimp only
  split <;> simp

theorem shallowClone_small : shallowClone.Small := by
  refine .inl (?_ : Jumpless _)
  unfold shallowClone
  simp

theorem lifecycleMembers_small : ∀ d ∈ p.lifecycleMembers, d.Small := by
  unfold lifecycleMembers
  simp only [List.forall_mem_append, List.forall_mem_cons]
  refine ⟨⟨⟨⟨p.postClone_small, by simp⟩, ?_⟩, p.factory_small, by simp⟩, ?_⟩
  · split
    · rw [List.forall_mem_cons]
      refine ⟨shallowClone_small, ?_⟩
      split
      · simp
      · exact p.identityMembers_small
    · simp
  · split
    · exact fun d hd => List.mem_singleton.1 hd ▸ p.tokenConstructor_small
    · simp

theorem internalMembers_small : ∀ d ∈ p.internalMembers, d.Small := by
  unfold internalMembers
  simp only [List.forall_mem_append, List.forall_mem_cons]
  exact ⟨p.lifecycleMembers_small, p.genericGet_small, p.genericSet_small, by simp⟩

theorem changeTrackingMembers_small : ∀ d ∈ p.changeTrackingMembers, d.Small := by
  have hannounce : p.propertyChange.Small := by
    refine MethodDecl.small_of_low ?_ (by decide : Names.propertyChangeDesc.toList.length ≤ 127)
    unfold propertyChange loadState
    simp
  unfold changeTrackingMembers
  simp only [List.forall_mem_append, List.forall_mem_cons]
  exact ⟨⟨⟨decl_small _, by simp⟩, p.property_small _ _ _⟩, hannounce, by simp⟩

theorem fetchGuard_small (name callback : String) : (p.fetchGuard name callback).Small := by
  refine MethodDecl.small_of_low ?_ (by decide : Names.stringConsumer.toList.length ≤ 127)
  unfold fetchGuard
  simp

theorem fetchGroupMembers_small : ∀ d ∈ p.fetchGroupMembers, d.Small := by
  have hfield : (MemberDecl.field p.fetchGroupField).Small := by
    unfold MemberDecl.Small fetchGroupField
    dsimp only
    split <;> split <;> simp
  have hfetched : p.isAttributeFetched.Small := by
    refine MethodDecl.small_of_low ?_ (by decide : Names.stringTest.toList.length ≤ 127)
    unfold isAttributeFetched loadState
    simp
  have hreset : resetFetchGroup.Small := by
    refine .inl (?_ : Jumpless _)
    unfold resetFetchGroup
    simp
  unfold fetchGroupMembers
  simp only [List.forall_mem_append, List.forall_mem_cons]
  exact ⟨⟨⟨⟨⟨hfield, decl_small _, decl_small _, by simp⟩, p.property_small _ _ _⟩,
    p.property_small _ _ _⟩, p.property_small _ _ _⟩, hreset, hfetched, p.fetchGuard_small _ _,
    p.fetchGuard_small _ _, by simp⟩

theorem restMembers_small : ∀ d ∈ p.restMembers, d.Small := by
  unfold restMembers
  simp only [List.forall_mem_append, List.forall_mem_cons]
  exact ⟨⟨⟨⟨decl_small _, decl_small _, decl_small _, by simp⟩, p.property_small _ _ _⟩,
    p.property_small _ _ _⟩, p.property_small _ _ _⟩

/-- Every member of a plan is small enough to be written. -/
theorem members_small : ∀ d ∈ p.members, d.Small := by
  have hif : ∀ {c : Prop} [Decidable c] {ds : List MemberDecl}, (∀ d ∈ ds, d.Small) →
      ∀ d ∈ (if c then ds else []), d.Small := by
    intro c _ ds h
    split
    · exact h
    · simp
  unfold members
  simp only [List.forall_mem_append]
  refine ⟨⟨⟨⟨hif p.internalMembers_small, fun d hd => ?_⟩, hif p.changeTrackingMembers_small⟩,
    hif p.fetchGroupMembers_small⟩, hif p.restMembers_small⟩
  obtain ⟨a, -, hda⟩ := List.mem_flatMap.1 hd
  exact p.attributeMembers_small a d hda

end Plan

end EntityLoom
