import EntityLoom.Code.Assembly
import EntityLoom.Proofs.ClassFile.Descriptor
import EntityLoom.Proofs.Frame.Effects

/-!
# Typing bodies

`TypedFrom` checks a body from one instruction to the next, given a frame for each label, before
anything is known of offsets or places.  A jump goes forward to a mark that is near, and the frame
with which control leaves it is below the one of its label.

The rules are equivalences that simplification uses from the left to the right: each takes one
instruction off the front of a body and says what it does to a frame with a known stack.  They come
from the rules for the actions that instructions are made of (`Frame.Yields`).
-/

namespace EntityLoom

namespace MemberRef

theorem fieldType_eq_ok {r : MemberRef} {d : Descriptor} :
    r.fieldType = .ok d ↔ Descriptor.ofText r.descriptor = .ok d := by
  unfold fieldType
  split <;> simp_all

theorem methodType_eq_ok {r : MemberRef} {d : MethodDescriptor} :
    r.methodType = .ok d ↔ MethodDescriptor.ofText r.descriptor = .ok d := by
  unfold methodType
  split <;> simp_all

end MemberRef

namespace Frame

/-! ## Actions that succeed -/

variable {α β : Type} {index : Nat} {locals stack : List VerificationType}

/-- The action succeeds on the frame, with a value and a frame as wanted. -/
def Yields (x : FrameAction α) (f : Frame) (Q : α → Frame → Prop) : Prop :=
  ∃ a f', x.run f = .ok (a, f') ∧ Q a f'

theorem yields_pure {a : α} {f : Frame} {Q : α → Frame → Prop} : Yields (pure a) f Q ↔ Q a f := by
  unfold Yields
  constructor
  · rintro ⟨b, f', h, hQ⟩
    obtain ⟨rfl, rfl⟩ := run_pure_eq_ok.1 h
    exact hQ
  · exact fun hQ => ⟨a, f, rfl, hQ⟩

theorem yields_bind {x : FrameAction α} {k : α → FrameAction β} {f : Frame}
    {Q : β → Frame → Prop} :
    Yields (x >>= k) f Q ↔ Yields x f fun a g => Yields (k a) g Q := by
  unfold Yields
  constructor
  · rintro ⟨b, f', h, hQ⟩
    obtain ⟨a, g, ha, hb⟩ := run_bind_eq_ok.1 h
    exact ⟨a, g, ha, b, f', hb, hQ⟩
  · rintro ⟨a, g, ha, b, f', hb, hQ⟩
    exact ⟨b, f', run_bind_eq_ok.2 ⟨a, g, ha, hb⟩, hQ⟩

theorem yields_throw {e : EmissionError} {f : Frame} {Q : α → Frame → Prop} :
    Yields (throw e) f Q ↔ False := by
  unfold Yields
  simp only [iff_false, not_exists, not_and]
  intro a f' h
  exact absurd h run_throw_ne_ok

theorem yields_lift {x : Except EmissionError α} {f : Frame} {Q : α → Frame → Prop} :
    Yields (liftM x) f Q ↔ ∃ a, x = .ok a ∧ Q a f := by
  unfold Yields
  constructor
  · rintro ⟨a, f', h, hQ⟩
    obtain ⟨hx, rfl⟩ := run_lift_eq_ok.1 h
    exact ⟨a, hx, hQ⟩
  · rintro ⟨a, hx, hQ⟩
    exact ⟨a, f, run_lift_eq_ok.2 ⟨hx, rfl⟩, hQ⟩

theorem yields_modify {s : Frame → Frame} {f : Frame} {Q : Unit → Frame → Prop} :
    Yields (modify s) f Q ↔ Q () (s f) :=
  ⟨fun ⟨_, _, h, hQ⟩ => by
    obtain ⟨-, rfl⟩ := Prod.mk.inj (Except.ok.inj h)
    exact hQ, fun hQ => ⟨(), s f, rfl, hQ⟩⟩

theorem yields_push {v : VerificationType} {Q : Unit → Frame → Prop} :
    Yields (push v) ⟨locals, stack⟩ Q ↔ Q () ⟨locals, v :: stack⟩ :=
  yields_modify

theorem yields_get {f : Frame} {Q : Frame → Frame → Prop} : Yields get f Q ↔ Q f f :=
  ⟨fun ⟨_, _, h, hQ⟩ => by
    obtain ⟨rfl, rfl⟩ := Prod.mk.inj (Except.ok.inj h)
    exact hQ, fun hQ => ⟨f, f, rfl, hQ⟩⟩

theorem yields_check {e : Expectation} {v : VerificationType} {f : Frame} {Q : Unit → Frame → Prop} :
    Yields (check index e v) f Q ↔ e.accepts v = true ∧ Q () f := by
  unfold check
  by_cases h : e.accepts v
  · rw [if_pos h, yields_pure]
    simp [h]
  · rw [if_neg h, yields_throw]
    simp [h]

theorem yields_popExpecting {e : Expectation} {v : VerificationType}
    {Q : VerificationType → Frame → Prop} :
    Yields (popExpecting index e) ⟨locals, v :: stack⟩ Q ↔
      e.accepts v = true ∧ Q v ⟨locals, stack⟩ := by
  have hpop : ∀ R : VerificationType → Frame → Prop,
      Yields (pop index) ⟨locals, v :: stack⟩ R ↔ R v ⟨locals, stack⟩ := fun R =>
    ⟨fun ⟨_, _, h, hR⟩ => by
      obtain ⟨rfl, rfl⟩ := Prod.mk.inj (Except.ok.inj h)
      exact hR, fun hR => ⟨_, _, rfl, hR⟩⟩
  unfold popExpecting
  rw [yields_bind, hpop, yields_bind, yields_check, yields_pure]

theorem yields_popDeclared {d : Descriptor} {v : VerificationType} {Q : Unit → Frame → Prop} :
    Yields (popDeclared index d) ⟨locals, v :: stack⟩ Q ↔
      (Expectation.ofDescriptor d).accepts v = true ∧ Q () ⟨locals, stack⟩ := by
  unfold popDeclared
  rw [yields_bind, yields_popExpecting, yields_pure]

/-- Taking arguments of the given types off a stack, the last one first. -/
def Takes (Q : List VerificationType → Prop) :
    List Descriptor → List VerificationType → Prop
  | [], stack => Q stack
  | d :: ds, v :: stack => (Expectation.ofDescriptor d).accepts v = true ∧ Takes Q ds stack
  | _ :: _, [] => False

theorem yields_popAll {ds : List Descriptor} {Q : PUnit → Frame → Prop} :
    Yields (ds.forM (popDeclared index)) ⟨locals, stack⟩ Q ↔
      Takes (fun stack => Q ⟨⟩ ⟨locals, stack⟩) ds stack := by
  induction ds generalizing stack with
  | nil => exact yields_pure
  | cons d ds ih =>
    change Yields (popDeclared index d >>= fun _ => ds.forM (popDeclared index)) _ _ ↔ _
    rw [yields_bind]
    cases stack with
    | nil =>
      refine iff_of_false ?_ id
      rintro ⟨u, f', h, -⟩
      cases h
    | cons v stack =>
      rw [yields_popDeclared, ih]
      rfl

/-- What a declared type asks for, its values are. -/
@[simp] theorem accepts_ofDescriptor {d : Descriptor} (h : d ≠ .void) :
    (Expectation.ofDescriptor d).accepts (.ofDescriptor d) = true := by
  cases d <;> first | rfl | exact absurd rfl h

/-- A loaded value of a declared type is accepted. -/
@[simp] theorem accepts_ofLocalOp_loadOp {d : Descriptor} (h : d ≠ .void) :
    (Expectation.ofLocalOp d.loadOp).accepts (.ofDescriptor d) = true := by
  cases d <;> first | rfl | exact absurd rfl h

end Frame

/-! ## Known frames

What the rules ask of a frame whose slots and stack are listed. -/

namespace Frame

variable {v : VerificationType} {locals stack : List VerificationType}

@[simp] theorem slotOf_cons_zero : slotOf (v :: locals) 0 = v := rfl

@[simp] theorem slotOf_cons_succ (n : Nat) : slotOf (v :: locals) (n + 1) = slotOf locals n := rfl

@[simp] theorem below_self (f : Frame) : f.Below f := .refl f

/-- Nothing is asked of slots that a frame does not list. -/
theorem below_of_prefix {xs ys : List VerificationType} (h : ys <+: xs) :
    Frame.Below ⟨xs, stack⟩ ⟨ys, stack⟩ := by
  obtain ⟨zs, rfl⟩ := h
  refine ⟨(Below.refl ⟨[], stack⟩).stack, fun i => ?_⟩
  dsimp only
  by_cases hi : i < ys.length
  · rw [slotOf_append_left hi]
    exact VerificationType.below_refl _
  · rw [slotOf_eq_top_of_length_le (Nat.le_of_not_lt hi)]
    exact VerificationType.below_top _

@[simp] theorem takes_nil {Q : List VerificationType → Prop} : Takes Q [] stack ↔ Q stack := Iff.rfl

@[simp] theorem takes_cons {Q : List VerificationType → Prop} {d : Descriptor}
    {ds : List Descriptor} :
    Takes Q (d :: ds) (v :: stack) ↔
      (Expectation.ofDescriptor d).accepts v = true ∧ Takes Q ds stack := Iff.rfl

end Frame

section Known

variable {name : String} {offset : UInt16} {v : VerificationType}

@[simp] theorem isReference_object : (VerificationType.object name).isReference = true := rfl

@[simp] theorem isReference_null : VerificationType.null.isReference = true := rfl

@[simp] theorem isReference_uninitializedThis :
    VerificationType.uninitializedThis.isReference = true := rfl

@[simp] theorem isReference_uninitialized :
    (VerificationType.uninitialized offset).isReference = true := rfl

@[simp] theorem ofDescriptor_object :
    VerificationType.ofDescriptor (.object name) = .object name := rfl

@[simp] theorem ofDescriptor_boolean : VerificationType.ofDescriptor .boolean = .integer := rfl

@[simp] theorem accepts_object :
    (Expectation.ofDescriptor (.object name)).accepts v = v.isReference := rfl

@[simp] theorem accepts_loadOp_object :
    (Expectation.ofLocalOp (Descriptor.object name).loadOp).accepts v = v.isReference := rfl

@[simp] theorem accepts_boolean :
    (Expectation.ofDescriptor .boolean).accepts .integer = true := rfl

@[simp] theorem accepts_int : Expectation.int.accepts .integer = true := rfl

@[simp] theorem accepts_category1_object :
    Expectation.category1.accepts (.object name) = true := rfl

@[simp] theorem accepts_category1_uninitialized :
    Expectation.category1.accepts (.uninitialized offset) = true := rfl

end Known

/-! ## Typed bodies -/

namespace Instruction

/-- The label that an instruction jumps to. -/
def target? : Instruction → Option Label
  | jump _ label => some label
  | _ => none

end Instruction

/-- How many instructions a jump of a typed body skips at most. -/
def jumpReach : Nat := 4096

/-- A body that can be executed from its first instruction on, at any place and offset.  Control
arrives there with the given frame, or does not arrive; `aimed` holds the labels that jumps before
it go to, and `labels` a frame for each label. -/
def TypedFrom (thisClass : String) (labels : Label → Frame) :
    List Label → Option Frame → List Instruction → Prop
  | _, f?, [] => f? = none
  | aimed, f?, .mark label :: rest =>
    (f? = none → label ∈ aimed) ∧ (∀ f ∈ f?, f.Below (labels label)) ∧
      TypedFrom thisClass labels aimed (some (labels label)) rest
  | aimed, f?, i :: rest =>
    ∃ f, f? = some f ∧ ∀ (index : Nat) (offset : UInt16), ∃ f',
      f.after thisClass index offset.toNat i = .ok f' ∧
      (∀ label ∈ i.target?, f'.Below (labels label) ∧ .mark label ∈ rest.take jumpReach) ∧
      TypedFrom thisClass labels (i.target?.toList ++ aimed)
        (if i.fallsThrough then some f' else none) rest

section Rules

open EntityLoom.Frame Instruction

variable {thisClass : String} {labels : Label → Frame} {aimed : List Label} {f? : Option Frame}
  {f : Frame} {locals stack : List VerificationType} {v w : VerificationType}
  {rest : List Instruction}

@[simp] theorem typedFrom_nil : TypedFrom thisClass labels aimed f? [] ↔ f? = none := Iff.rfl

@[simp] theorem typedFrom_mark {label : Label} :
    TypedFrom thisClass labels aimed (some f) (.mark label :: rest) ↔
      f.Below (labels label) ∧ TypedFrom thisClass labels aimed (some (labels label)) rest := by
  rw [TypedFrom]
  simp

@[simp] theorem typedFrom_mark_none {label : Label} :
    TypedFrom thisClass labels aimed none (.mark label :: rest) ↔
      label ∈ aimed ∧ TypedFrom thisClass labels aimed (some (labels label)) rest := by
  rw [TypedFrom]
  simp

/-- The rule of an instruction that is neither a mark nor a jump comes from what it does to the
frame, at whatever place. -/
theorem typedFrom_cons {i : Instruction} {W : (Frame → Prop) → Prop} (hmark : i.isMark = false)
    (htarget : i.target? = none)
    (h : ∀ (index : Nat) (offset : UInt16) (Q : Unit → Frame → Prop),
      Yields (execute thisClass index offset.toNat i) f Q ↔ W (Q ())) :
    TypedFrom thisClass labels aimed (some f) (i :: rest) ↔
      W fun f' => TypedFrom thisClass labels aimed (if i.fallsThrough then some f' else none)
        rest := by
  have hafter : ∀ (index : Nat) (offset : UInt16) (P : Frame → Prop),
      (∃ f', f.after thisClass index offset.toNat i = .ok f' ∧ P f') ↔ W P := by
    intro index offset P
    rw [← h index offset fun _ => P]
    unfold Yields
    simp only [after_eq_ok]
    exact ⟨fun ⟨f', ⟨u, hu⟩, hP⟩ => ⟨u, f', hu, hP⟩, fun ⟨u, f', hu, hP⟩ => ⟨f', ⟨u, hu⟩, hP⟩⟩
  rw [TypedFrom]
  · simp only [htarget, Option.toList_none, List.nil_append, Option.mem_def, reduceCtorEq,
      IsEmpty.forall_iff, implies_true, true_and, Option.some.injEq, exists_eq_left', hafter,
      forall_const]
  · rintro label rfl
    cases hmark

/-! ### Loads, stores and constants -/

@[simp] theorem typedFrom_aload {slot : UInt16} :
    TypedFrom thisClass labels aimed (some ⟨locals, stack⟩) (aload slot :: rest) ↔
      (slotOf locals slot.toNat).isReference = true ∧
        TypedFrom thisClass labels aimed (some ⟨locals, slotOf locals slot.toNat :: stack⟩) rest :=
  typedFrom_cons (W := fun Q => (slotOf locals slot.toNat).isReference = true ∧
    Q ⟨locals, slotOf locals slot.toNat :: stack⟩) rfl rfl fun index offset Q => by
    simp only [execute, aload, Opcode.isLoad, if_true, Frame.load, yields_bind, yields_get,
      yields_check, yields_push]
    rfl

@[simp] theorem typedFrom_load {d : Descriptor} {slot : UInt16} :
    TypedFrom thisClass labels aimed (some ⟨locals, stack⟩) (Instruction.load d slot :: rest) ↔
      (Expectation.ofLocalOp d.loadOp).accepts (slotOf locals slot.toNat) = true ∧
        TypedFrom thisClass labels aimed (some ⟨locals, slotOf locals slot.toNat :: stack⟩) rest := by
  have hload : d.loadOp.isLoad = true := by cases d <;> rfl
  have hfalls : (Instruction.load d slot).fallsThrough = true := by cases d <;> rfl
  rw [typedFrom_cons (W := fun Q =>
    (Expectation.ofLocalOp d.loadOp).accepts (slotOf locals slot.toNat) = true ∧
      Q ⟨locals, slotOf locals slot.toNat :: stack⟩) rfl rfl]
  · simp only [hfalls, if_true]
  · intro index offset Q
    simp only [execute, Instruction.load, hload, if_true, Frame.load, yields_bind, yields_get,
      yields_check, yields_push]
    rfl

@[simp] theorem typedFrom_astore {slot : UInt16} :
    TypedFrom thisClass labels aimed (some ⟨locals, v :: stack⟩) (.var .astore slot :: rest) ↔
      v.isReference = true ∧
        TypedFrom thisClass labels aimed (some ⟨write slot.toNat v locals, stack⟩) rest :=
  typedFrom_cons (W := fun Q => v.isReference = true ∧ Q ⟨write slot.toNat v locals, stack⟩) rfl rfl
    fun index offset Q => by
    simp only [execute, Opcode.isLoad, Bool.false_eq_true, if_false, Frame.store, yields_bind,
      yields_popExpecting, yields_modify]
    rfl

@[simp] theorem typedFrom_aconstNull :
    TypedFrom thisClass labels aimed (some ⟨locals, stack⟩) (.simple .aconstNull :: rest) ↔
      TypedFrom thisClass labels aimed (some ⟨locals, .null :: stack⟩) rest :=
  typedFrom_cons (W := fun Q => Q ⟨locals, .null :: stack⟩) rfl rfl fun _ _ _ => yields_push

@[simp] theorem typedFrom_iconst0 :
    TypedFrom thisClass labels aimed (some ⟨locals, stack⟩) (.simple .iconst0 :: rest) ↔
      TypedFrom thisClass labels aimed (some ⟨locals, .integer :: stack⟩) rest :=
  typedFrom_cons (W := fun Q => Q ⟨locals, .integer :: stack⟩) rfl rfl fun _ _ _ => yields_push

@[simp] theorem typedFrom_iconst1 :
    TypedFrom thisClass labels aimed (some ⟨locals, stack⟩) (.simple .iconst1 :: rest) ↔
      TypedFrom thisClass labels aimed (some ⟨locals, .integer :: stack⟩) rest :=
  typedFrom_cons (W := fun Q => Q ⟨locals, .integer :: stack⟩) rfl rfl fun _ _ _ => yields_push

@[simp] theorem typedFrom_ldcString {text : String} :
    TypedFrom thisClass labels aimed (some ⟨locals, stack⟩) (.ldcString text :: rest) ↔
      TypedFrom thisClass labels aimed (some ⟨locals, .object "java/lang/String" :: stack⟩) rest :=
  typedFrom_cons (W := fun Q => Q ⟨locals, .object "java/lang/String" :: stack⟩) rfl rfl
    fun _ _ _ => yields_push

/-! ### The stack -/

@[simp] theorem typedFrom_pop :
    TypedFrom thisClass labels aimed (some ⟨locals, v :: stack⟩) (.simple .pop :: rest) ↔
      Expectation.category1.accepts v = true ∧
        TypedFrom thisClass labels aimed (some ⟨locals, stack⟩) rest :=
  typedFrom_cons (W := fun Q => Expectation.category1.accepts v = true ∧ Q ⟨locals, stack⟩) rfl rfl
    fun index offset Q => by
    simp only [execute, executeSimple, yields_bind, yields_popExpecting, yields_pure]

@[simp] theorem typedFrom_dup :
    TypedFrom thisClass labels aimed (some ⟨locals, v :: stack⟩) (.simple .dup :: rest) ↔
      Expectation.category1.accepts v = true ∧
        TypedFrom thisClass labels aimed (some ⟨locals, v :: v :: stack⟩) rest :=
  typedFrom_cons (W := fun Q => Expectation.category1.accepts v = true ∧
    Q ⟨locals, v :: v :: stack⟩) rfl rfl fun index offset Q => by
    simp only [execute, executeSimple, yields_bind, yields_popExpecting, yields_push]

/-! ### Returns -/

@[simp] theorem typedFrom_returnVoid :
    TypedFrom thisClass labels aimed (some f) (.simple .returnVoid :: rest) ↔
      TypedFrom thisClass labels aimed none rest :=
  typedFrom_cons (W := fun Q => Q f) rfl rfl fun _ _ _ => yields_pure

@[simp] theorem typedFrom_areturn :
    TypedFrom thisClass labels aimed (some ⟨locals, v :: stack⟩) (.simple .areturn :: rest) ↔
      v.isReference = true ∧ TypedFrom thisClass labels aimed none rest :=
  typedFrom_cons (W := fun Q => v.isReference = true ∧ Q ⟨locals, stack⟩) rfl rfl
    fun index offset Q => by
    simp only [execute, executeSimple, yields_bind, yields_popExpecting, yields_pure]
    rfl

@[simp] theorem typedFrom_ireturn :
    TypedFrom thisClass labels aimed (some ⟨locals, v :: stack⟩) (.simple .ireturn :: rest) ↔
      Expectation.int.accepts v = true ∧ TypedFrom thisClass labels aimed none rest :=
  typedFrom_cons (W := fun Q => Expectation.int.accepts v = true ∧ Q ⟨locals, stack⟩) rfl rfl
    fun index offset Q => by
    simp only [execute, executeSimple, yields_popDeclared]
    rfl

/-- A value of a declared type is returned as such. -/
@[simp] theorem typedFrom_ret {d : Descriptor} (hd : d ≠ .void) :
    TypedFrom thisClass labels aimed (some ⟨locals, .ofDescriptor d :: stack⟩) (ret d :: rest) ↔
      TypedFrom thisClass labels aimed none rest := by
  cases d with
  | void => exact absurd rfl hd
  | object _ | array _ => exact typedFrom_areturn.trans (and_iff_right rfl)
  | boolean | byte | char | short | int => exact typedFrom_ireturn.trans (and_iff_right rfl)
  | long | float | double =>
    exact typedFrom_cons (W := fun Q => Q ⟨locals, stack⟩) rfl rfl fun _ _ _ =>
      yields_popDeclared.trans (and_iff_right rfl)

/-! ### Fields and classes -/

@[simp] theorem typedFrom_getField {owner name descriptor : String} :
    TypedFrom thisClass labels aimed (some ⟨locals, v :: stack⟩)
        (getField owner name descriptor :: rest) ↔
      ∃ d, Descriptor.ofText descriptor = .ok d ∧ v.isReference = true ∧
        TypedFrom thisClass labels aimed (some ⟨locals, .ofDescriptor d :: stack⟩) rest :=
  typedFrom_cons (W := fun Q => ∃ d, Descriptor.ofText descriptor = .ok d ∧
    v.isReference = true ∧ Q ⟨locals, .ofDescriptor d :: stack⟩) rfl rfl fun index offset Q => by
    simp only [execute, getField, executeField, yields_bind, yields_lift, yields_popExpecting,
      yields_push, MemberRef.fieldType_eq_ok]
    rfl

@[simp] theorem typedFrom_putField {owner name descriptor : String} :
    TypedFrom thisClass labels aimed (some ⟨locals, v :: w :: stack⟩)
        (putField owner name descriptor :: rest) ↔
      ∃ d, Descriptor.ofText descriptor = .ok d ∧ (Expectation.ofDescriptor d).accepts v = true ∧
        w.isReference = true ∧ TypedFrom thisClass labels aimed (some ⟨locals, stack⟩) rest :=
  typedFrom_cons (W := fun Q => ∃ d, Descriptor.ofText descriptor = .ok d ∧
    (Expectation.ofDescriptor d).accepts v = true ∧ w.isReference = true ∧ Q ⟨locals, stack⟩) rfl rfl
    fun index offset Q => by
    simp only [execute, putField, executeField, yields_bind, yields_lift, yields_popDeclared,
      yields_popExpecting, yields_pure, MemberRef.fieldType_eq_ok]
    rfl

@[simp] theorem typedFrom_checkCast {className : String} :
    TypedFrom thisClass labels aimed (some ⟨locals, v :: stack⟩) (checkCast className :: rest) ↔
      v.isReference = true ∧
        TypedFrom thisClass labels aimed (some ⟨locals, .object className :: stack⟩) rest :=
  typedFrom_cons (W := fun Q => v.isReference = true ∧ Q ⟨locals, .object className :: stack⟩) rfl
    rfl fun index offset Q => by
    simp only [execute, checkCast, executeType, yields_bind, yields_popExpecting, yields_push]
    rfl

/-- A new object is known by the offset of its instruction until it is constructed. -/
@[simp] theorem typedFrom_newObject {className : String} :
    TypedFrom thisClass labels aimed (some ⟨locals, stack⟩) (newObject className :: rest) ↔
      ∀ offset, TypedFrom thisClass labels aimed
        (some ⟨locals, .uninitialized offset :: stack⟩) rest := by
  have hafter : ∀ (index : Nat) (offset : UInt16),
      Frame.after thisClass index offset.toNat (newObject className) ⟨locals, stack⟩ =
        .ok ⟨locals, .uninitialized offset :: stack⟩ := by
    intro index offset
    refine after_eq_ok.2 ⟨(), ?_⟩
    have hlt : offset.toNat < 0x10000 := offset.toNat_lt
    simp only [execute, newObject, executeType, if_pos hlt, UInt16.ofNat_toNat]
    rfl
  have hfalls : (newObject className).fallsThrough = true := rfl
  have htarget : (newObject className).target? = none := rfl
  rw [TypedFrom]
  · simp only [hafter, hfalls, htarget, Option.some.injEq, exists_eq_left', Except.ok.injEq,
      Option.mem_def, reduceCtorEq, IsEmpty.forall_iff, implies_true, true_and, if_true,
      Option.toList_none, List.nil_append, forall_const]
  · rintro label h
    cases h

/-! ### Calls -/

/-- Taking the receiver of a call off a stack; a constructor gives it its class. -/
def Receives (Q : Frame → Prop) (thisClass owner name : String) (locals : List VerificationType) :
    List VerificationType → Prop
  | v :: stack =>
    v.isReference = true ∧
      if name = constructorName then
        ∃ n, constructedClass? thisClass owner v = some n ∧ Q (replace v (.object n) ⟨locals, stack⟩)
      else Q ⟨locals, stack⟩
  | [] => False

/-- A frame with the result of a call, if it has one. -/
def withResult (d : Descriptor) (f : Frame) : Frame :=
  if d = .void then f else ⟨f.locals, .ofDescriptor d :: f.stack⟩

@[simp] theorem withResult_void : withResult .void f = f := rfl

@[simp] theorem withResult_of_ne {d : Descriptor} (h : d ≠ .void) :
    withResult d ⟨locals, stack⟩ = ⟨locals, .ofDescriptor d :: stack⟩ := if_neg h

/-- The receiver of a method that is no constructor stays as it is. -/
@[simp] theorem receives_of_ne {Q : Frame → Prop} {owner name : String}
    (h : name ≠ constructorName) :
    Receives Q thisClass owner name locals (v :: stack) ↔ v.isReference = true ∧ Q ⟨locals, stack⟩ := by
  rw [Receives, if_neg h]

/-- A new object gets its class by its constructor. -/
@[simp] theorem receives_new {Q : Frame → Prop} {owner : String} {offset : UInt16} :
    Receives Q thisClass owner constructorName locals (.uninitialized offset :: stack) ↔
      Q (replace (.uninitialized offset) (.object owner) ⟨locals, stack⟩) := by
  rw [Receives, if_pos rfl]
  simp [constructedClass?]

/-- The receiver of a constructor gets its class by another constructor. -/
@[simp] theorem receives_this {Q : Frame → Prop} {owner : String} :
    Receives Q thisClass owner constructorName locals (.uninitializedThis :: stack) ↔
      Q (replace .uninitializedThis (.object thisClass) ⟨locals, stack⟩) := by
  rw [Receives, if_pos rfl]
  simp [constructedClass?]

theorem yields_pushResult {d : Descriptor} {Q : Unit → Frame → Prop} :
    Yields (pushResult d) f Q ↔ Q () (withResult d f) := by
  unfold pushResult withResult
  split
  · exact yields_pure
  · exact yields_push

theorem yields_popReceiver {op : Opcode} {r : MemberRef} {index : Nat} (hop : op ≠ .invokestatic)
    {Q : Unit → Frame → Prop} :
    Yields (popReceiver thisClass index op r) ⟨locals, stack⟩ Q ↔
      Receives (Q ()) thisClass r.owner r.name locals stack := by
  unfold popReceiver
  rw [if_neg hop, yields_bind]
  cases stack with
  | nil =>
    refine iff_of_false ?_ id
    rintro ⟨v, f', h, -⟩
    cases h
  | cons v stack =>
    rw [yields_popExpecting]
    refine and_congr Iff.rfl ?_
    unfold construct
    split
    · cases constructedClass? thisClass r.owner v with
      | none => simp [yields_throw]
      | some n => simp [yields_modify]
    · exact yields_pure

/-- What every call does: it takes its arguments and its receiver and leaves its result. -/
theorem typedFrom_invoke {op : Opcode} {r : MemberRef} (hop : op ≠ .invokestatic)
    (hends : op.endsBlock = false) :
    TypedFrom thisClass labels aimed (some ⟨locals, stack⟩) (.invoke op r :: rest) ↔
      ∃ d, MethodDescriptor.ofText r.descriptor = .ok d ∧
        Takes (Receives (fun f => TypedFrom thisClass labels aimed (some (withResult d.result f))
          rest) thisClass r.owner r.name locals) d.params.reverse stack := by
  have hfalls : (Instruction.invoke op r).fallsThrough = true := by
    simp [fallsThrough, opcode?, hends]
  rw [typedFrom_cons (W := fun Q => ∃ d, MethodDescriptor.ofText r.descriptor = .ok d ∧
    Takes (Receives (fun f => Q (withResult d.result f)) thisClass r.owner r.name locals)
      d.params.reverse stack) rfl rfl]
  · simp only [hfalls, if_true]
  · intro index offset Q
    simp only [execute, executeInvoke, yields_bind, yields_lift, yields_popAll,
      yields_popReceiver hop, yields_pushResult, MemberRef.methodType_eq_ok]

@[simp] theorem typedFrom_invokeVirtual {owner name descriptor : String} :
    TypedFrom thisClass labels aimed (some ⟨locals, stack⟩)
        (invokeVirtual owner name descriptor :: rest) ↔
      ∃ d, MethodDescriptor.ofText descriptor = .ok d ∧
        Takes (Receives (fun f => TypedFrom thisClass labels aimed (some (withResult d.result f))
          rest) thisClass owner name locals) d.params.reverse stack :=
  typedFrom_invoke (by decide) rfl

@[simp] theorem typedFrom_invokeInterface {owner name descriptor : String} :
    TypedFrom thisClass labels aimed (some ⟨locals, stack⟩)
        (invokeInterface owner name descriptor :: rest) ↔
      ∃ d, MethodDescriptor.ofText descriptor = .ok d ∧
        Takes (Receives (fun f => TypedFrom thisClass labels aimed (some (withResult d.result f))
          rest) thisClass owner name locals) d.params.reverse stack :=
  typedFrom_invoke (by decide) rfl

@[simp] theorem typedFrom_invokeSpecial {owner name descriptor : String} :
    TypedFrom thisClass labels aimed (some ⟨locals, stack⟩)
        (invokeSpecial owner name descriptor :: rest) ↔
      ∃ d, MethodDescriptor.ofText descriptor = .ok d ∧
        Takes (Receives (fun f => TypedFrom thisClass labels aimed (some (withResult d.result f))
          rest) thisClass owner name locals) d.params.reverse stack :=
  typedFrom_invoke (by decide) rfl

@[simp] theorem typedFrom_invokeStatic {owner name descriptor : String} :
    TypedFrom thisClass labels aimed (some ⟨locals, stack⟩)
        (invokeStatic owner name descriptor :: rest) ↔
      ∃ d, MethodDescriptor.ofText descriptor = .ok d ∧
        Takes (fun stack => TypedFrom thisClass labels aimed
          (some (withResult d.result ⟨locals, stack⟩)) rest) d.params.reverse stack :=
  typedFrom_cons (W := fun Q => ∃ d, MethodDescriptor.ofText descriptor = .ok d ∧
    Takes (fun stack => Q (withResult d.result ⟨locals, stack⟩)) d.params.reverse stack) rfl rfl
    fun index offset Q => by
    simp only [execute, invokeStatic, executeInvoke, popReceiver, if_true, yields_bind, yields_lift,
      yields_popAll, yields_pure, yields_pushResult, MemberRef.methodType_eq_ok]

/-! ### Jumps -/

/-- The rule of a jump comes from its test. -/
theorem typedFrom_jump {op : Opcode} {label : Label} {f' : Frame} {accepted : Prop}
    (h : ∀ (index : Nat) (Q : Unit → Frame → Prop),
      Yields (executeJump index op) f Q ↔ accepted ∧ Q () f') :
    TypedFrom thisClass labels aimed (some f) (.jump op label :: rest) ↔
      accepted ∧ f'.Below (labels label) ∧ .mark label ∈ rest.take jumpReach ∧
        TypedFrom thisClass labels (label :: aimed) (if op.endsBlock then none else some f')
          rest := by
  have hafter : ∀ (index : Nat) (offset : UInt16) (P : Frame → Prop),
      (∃ g, f.after thisClass index offset.toNat (.jump op label) = .ok g ∧ P g) ↔
        accepted ∧ P f' := by
    intro index offset P
    rw [← h index fun _ => P]
    unfold Yields
    simp only [after_eq_ok]
    exact ⟨fun ⟨f', ⟨u, hu⟩, hP⟩ => ⟨u, f', hu, hP⟩, fun ⟨u, f', hu, hP⟩ => ⟨f', ⟨u, hu⟩, hP⟩⟩
  have hfalls : (Instruction.jump op label).fallsThrough = !op.endsBlock := rfl
  rw [TypedFrom]
  · simp only [hafter, hfalls, target?, Option.mem_def, Option.some.injEq, forall_eq',
      Option.toList_some, List.singleton_append, exists_eq_left', forall_const, and_assoc]
    cases op.endsBlock <;> rfl
  · rintro l h
    cases h

@[simp] theorem typedFrom_ifeq {label : Label} :
    TypedFrom thisClass labels aimed (some ⟨locals, v :: stack⟩) (.jump .ifeq label :: rest) ↔
      Expectation.int.accepts v = true ∧ Frame.Below ⟨locals, stack⟩ (labels label) ∧
        .mark label ∈ rest.take jumpReach ∧
        TypedFrom thisClass labels (label :: aimed) (some ⟨locals, stack⟩) rest :=
  typedFrom_jump fun _ _ => yields_popDeclared

@[simp] theorem typedFrom_ifne {label : Label} :
    TypedFrom thisClass labels aimed (some ⟨locals, v :: stack⟩) (.jump .ifne label :: rest) ↔
      Expectation.int.accepts v = true ∧ Frame.Below ⟨locals, stack⟩ (labels label) ∧
        .mark label ∈ rest.take jumpReach ∧
        TypedFrom thisClass labels (label :: aimed) (some ⟨locals, stack⟩) rest :=
  typedFrom_jump fun _ _ => yields_popDeclared

@[simp] theorem typedFrom_ifnull {label : Label} :
    TypedFrom thisClass labels aimed (some ⟨locals, v :: stack⟩) (.jump .ifnull label :: rest) ↔
      v.isReference = true ∧ Frame.Below ⟨locals, stack⟩ (labels label) ∧
        .mark label ∈ rest.take jumpReach ∧
        TypedFrom thisClass labels (label :: aimed) (some ⟨locals, stack⟩) rest :=
  typedFrom_jump fun _ _ => by
    simp only [executeJump, yields_bind, yields_popExpecting, yields_pure]
    rfl

@[simp] theorem typedFrom_ifnonnull {label : Label} :
    TypedFrom thisClass labels aimed (some ⟨locals, v :: stack⟩) (.jump .ifnonnull label :: rest) ↔
      v.isReference = true ∧ Frame.Below ⟨locals, stack⟩ (labels label) ∧
        .mark label ∈ rest.take jumpReach ∧
        TypedFrom thisClass labels (label :: aimed) (some ⟨locals, stack⟩) rest :=
  typedFrom_jump fun _ _ => by
    simp only [executeJump, yields_bind, yields_popExpecting, yields_pure]
    rfl

@[simp] theorem typedFrom_ifAcmpeq {label : Label} :
    TypedFrom thisClass labels aimed (some ⟨locals, v :: w :: stack⟩)
        (.jump .ifAcmpeq label :: rest) ↔
      (v.isReference = true ∧ w.isReference = true) ∧ Frame.Below ⟨locals, stack⟩ (labels label) ∧
        .mark label ∈ rest.take jumpReach ∧
        TypedFrom thisClass labels (label :: aimed) (some ⟨locals, stack⟩) rest :=
  typedFrom_jump fun _ _ => by
    simp only [executeJump, yields_bind, yields_popExpecting, yields_pure, and_assoc]
    rfl

@[simp] theorem typedFrom_ifAcmpne {label : Label} :
    TypedFrom thisClass labels aimed (some ⟨locals, v :: w :: stack⟩)
        (.jump .ifAcmpne label :: rest) ↔
      (v.isReference = true ∧ w.isReference = true) ∧ Frame.Below ⟨locals, stack⟩ (labels label) ∧
        .mark label ∈ rest.take jumpReach ∧
        TypedFrom thisClass labels (label :: aimed) (some ⟨locals, stack⟩) rest :=
  typedFrom_jump fun _ _ => by
    simp only [executeJump, yields_bind, yields_popExpecting, yields_pure, and_assoc]
    rfl

@[simp] theorem typedFrom_goto {label : Label} :
    TypedFrom thisClass labels aimed (some f) (.jump .goto label :: rest) ↔
      f.Below (labels label) ∧ .mark label ∈ rest.take jumpReach ∧
        TypedFrom thisClass labels (label :: aimed) none rest :=
  have hjump : ∀ (index : Nat) (Q : Unit → Frame → Prop),
      Yields (executeJump index .goto) f Q ↔ True ∧ Q () f := fun _ _ =>
    yields_pure.trans (and_iff_right trivial).symm
  (typedFrom_jump hjump).trans (and_iff_right trivial)

end Rules

end EntityLoom
