import EntityLoom.Proofs.Machine.Rules
import EntityLoom.Proofs.Weaving.Names
import EntityLoom.Weaving.Boxing

/-!
# Boxing on the machine

Synthesized code hands primitive values on in boxes.  `Boxing` is what it relies on: `valueOf` answers
a box of a value, which may be one that was made before, and the methods that unbox answer that value
again.  Neither touches the object whose synthesized methods run.
-/

namespace EntityLoom

/-- The method that boxes values of a type. -/
def Descriptor.boxingRef (d : Descriptor) (wrapper : String) : MemberRef :=
  ⟨wrapper, "valueOf", Names.boxingDesc d wrapper⟩

/-- The method that unboxes values of a type. -/
def Descriptor.unboxingRef (d : Descriptor) (wrapper method : String) : MemberRef :=
  ⟨wrapper, method, Names.getterOf d.text⟩

/-- The types with boxes. -/
def Descriptor.primitives : List Descriptor :=
  [.boolean, .byte, .char, .short, .int, .long, .float, .double]

theorem Descriptor.mem_primitives {d : Descriptor} {wrapper : String}
    (h : d.wrapper? = some wrapper) : d ∈ primitives := by
  cases d <;> first | decide | cases h

/-- The boxing class tells the type. -/
theorem Descriptor.wrapper?_inj {d e : Descriptor} {wrapper : String}
    (hd : d.wrapper? = some wrapper) (he : e.wrapper? = some wrapper) : d = e := by
  have hall : ∀ d ∈ primitives, ∀ e ∈ primitives, d.wrapper? = e.wrapper? → d = e := by decide
  exact hall d (mem_primitives hd) e (mem_primitives he) (hd.trans he.symm)

/-- Types with boxes are the primitive ones. -/
theorem Descriptor.isPrimitive_iff {d : Descriptor} :
    d.isPrimitive = true ↔ ∃ wrapper method, d.wrapper? = some wrapper ∧ d.unboxMethod? = some method := by
  cases d with
  | boolean | byte | char | short | int | long | float | double =>
    exact iff_of_true rfl ⟨_, _, rfl, rfl⟩
  | object | array | void => simp [isPrimitive, isReference, wrapper?]

namespace Machine

variable {World : Type} {rt : Runtime World} {s : Store World} {this : Nat}
  {boxes : Descriptor → Ref → Value → Prop} {d : Descriptor} {r : Ref} {v x : Value}

/-! ## Types of values -/

theorem Value.narrow_text (h : v.HasType d) : v.narrow d.text = v := by
  unfold narrow
  split
  · next n =>
    cases d with
    | boolean | byte | char | short | int =>
      rw [Descriptor.ofText_text (by trivial)]
      exact congrArg Value.int h
    | long | float | double | void | object | array => exact h.elim
  · rfl

theorem Value.slots_getElem?_zero (v : Value) : (v.slots[0]?).join = some v := by
  cases v <;> rfl

/-! ## Boxes -/

variable (rt) in
/-- A reference can be cast to a class. -/
def Runtime.Castable (r : Ref) (name : String) : Prop :=
  r = .null ∨ rt.isInstance r name = true

variable (rt this) in
/-- The boxing classes do what they are documented to do, where `boxes d r v` says that `r` is a box
of the value `v` of the primitive type `d`. -/
structure Runtime.Boxing (boxes : Descriptor → Ref → Value → Prop) : Prop where
  box : ∀ {d wrapper v} (s : Store World), d.wrapper? = some wrapper → v.HasType d →
    ∃ r s', rt.body? .invokestatic (d.boxingRef wrapper) [v] = none ∧
      rt.call? (d.boxingRef wrapper) [v] s = some (some (.ref r), s') ∧
      s'.fields this = s.fields this ∧ boxes d r v
  unbox : ∀ {d wrapper method r v} (s : Store World), d.wrapper? = some wrapper →
    d.unboxMethod? = some method → boxes d r v →
    rt.body? .invokevirtual (d.unboxingRef wrapper method) [.ref r] = none ∧
      rt.call? (d.unboxingRef wrapper method) [.ref r] s = some (some v, s)
  instances : ∀ {d wrapper r}, d.wrapper? = some wrapper → rt.isInstance r wrapper = true →
    r ≠ .null → ∃ v, v.HasType d ∧ boxes d r v

/-- A reference stands for a value of a type: it is a box of it, or the value itself. -/
def StandsFor (boxes : Descriptor → Ref → Value → Prop) (d : Descriptor) (r : Ref) (v : Value) :
    Prop :=
  if d.isPrimitive then boxes d r v else v = .ref r

/-- The events of boxing a value. -/
def boxEvents (d : Descriptor) (v : Value) (r : Ref) (fields : Nat → MemberRef → Value) :
    List Event :=
  match d.wrapper? with
  | some wrapper => [⟨d.boxingRef wrapper, [v], some (.ref r), fields⟩]
  | none => []

/-- The events of unboxing a value. -/
def unboxEvents (d : Descriptor) (r : Ref) (v : Value) (fields : Nat → MemberRef → Value) :
    List Event :=
  match d.wrapper?, d.unboxMethod? with
  | some wrapper, some method => [⟨d.unboxingRef wrapper method, [.ref r], some v, fields⟩]
  | _, _ => []

theorem Value.HasType.exists_ref (h : v.HasType d) (hd : d.wrapper? = none) : ∃ r, v = .ref r := by
  cases d with
  | object | array =>
    cases v with
    | ref r => exact ⟨r, rfl⟩
    | _ => exact h.elim
  | void => cases v <;> exact h.elim
  | _ => cases hd

/-! ## A model of boxes

The classes of boxes can be implemented: an object that is a box has its type and its value in its
number, and small numbers are left to other objects. -/

section Model

def Value.bits : Value → Nat
  | int n => n.toUInt32.toNat
  | long n => n.toUInt64.toNat
  | float bits => bits.toNat
  | double bits => bits.toNat
  | ref _ => 0

/-- The value of a primitive type with the given bits. -/
def Value.ofBits (d : Descriptor) (n : Nat) : Value :=
  match d with
  | .long => long (UInt64.ofNat n).toInt64
  | .float => float (UInt32.ofNat n)
  | .double => double (UInt64.ofNat n)
  | d => int (narrowInt d (UInt32.ofNat n).toInt32)

theorem Value.narrowInt_narrowInt (d : Descriptor) (n : Int32) :
    narrowInt d (narrowInt d n) = narrowInt d n := by
  cases d with
  | boolean => exact (Int32.and_assoc ..).trans (congrArg (n &&& ·) Int32.and_self)
  | char =>
    simp only [narrowInt, UInt32.toUInt32_toInt32, UInt16.toUInt16_toUInt32]
  | byte | short => simp [narrowInt]
  | int | long | float | double | void | object | array => rfl

theorem Value.hasType_ofBits {wrapper : String} (h : d.wrapper? = some wrapper) (n : Nat) :
    (ofBits d n).HasType d := by
  cases d with
  | boolean | byte | char | short | int => exact narrowInt_narrowInt _ _
  | long | float | double => trivial
  | object | array | void => cases h

theorem Value.ofBits_bits {wrapper : String} (h : d.wrapper? = some wrapper) (hv : v.HasType d) :
    ofBits d v.bits = v := by
  cases d with
  | boolean | byte | char | short | int =>
    cases v with
    | int n =>
      simp only [ofBits, bits, UInt32.ofNat_toNat, Int32.toInt32_toUInt32]
      exact congrArg Value.int hv
    | long | float | double | ref => exact hv.elim
  | long | float | double => cases v <;> first | exact hv.elim | simp [ofBits, bits]
  | object | array | void => cases h

def boxId (d : Descriptor) (v : Value) : Nat := 8 * (v.bits + 1) + Descriptor.primitives.idxOf d

/-- What an object is a box of. -/
def unboxed? (id : Nat) : Option (Descriptor × Value) :=
  if id < 8 then none
  else (Descriptor.primitives[id % 8]?).map fun d => (d, .ofBits d (id / 8 - 1))

theorem unboxed?_boxId {wrapper : String} (h : d.wrapper? = some wrapper) (hv : v.HasType d) :
    unboxed? (boxId d v) = some (d, v) := by
  have hmem := Descriptor.mem_primitives h
  have hlt : Descriptor.primitives.idxOf d < 8 := List.idxOf_lt_length_of_mem hmem
  have hlarge : ¬boxId d v < 8 := by
    unfold boxId
    omega
  have hmod : boxId d v % 8 = Descriptor.primitives.idxOf d := by
    unfold boxId
    omega
  have hdiv : boxId d v / 8 - 1 = v.bits := by
    unfold boxId
    omega
  rw [unboxed?, if_neg hlarge, hmod, hdiv, List.getElem?_idxOf hmem, Option.map_some,
    Value.ofBits_bits h hv]

theorem exists_unboxed?_of_wrapper {id : Nat} {wrapper : String}
    (h : (unboxed? id).any (fun x => x.1.wrapper? = some wrapper) = true)
    (hd : d.wrapper? = some wrapper) : ∃ v, v.HasType d ∧ unboxed? id = some (d, v) := by
  obtain ⟨⟨e, v⟩, he, hw⟩ := (Option.any_eq_true _ _).1 h
  obtain rfl : e = d := Descriptor.wrapper?_inj (of_decide_eq_true hw) hd
  have hv := he
  unfold unboxed? at hv
  split at hv
  · cases hv
  · obtain ⟨e', -, heq⟩ := Option.map_eq_some_iff.1 hv
    obtain ⟨rfl, rfl⟩ := Prod.mk.inj heq
    exact ⟨_, Value.hasType_ofBits hd _, he⟩

/-- What the methods of the boxing classes answer. -/
def boxCall? (r : MemberRef) : List Value → Option Value
  | [.ref (.object id)] =>
    match unboxed? id with
    | some (d, v) =>
      if (d.wrapper?.bind fun w => d.unboxMethod?.map (d.unboxingRef w)) = some r then some v
      else none
    | none => none
  | [v] =>
    (Descriptor.primitives.find? fun d => d.wrapper?.map d.boxingRef = some r).map fun d =>
      .ref (.object (boxId d v))
  | _ => none

/-- The boxes of the model. -/
def IsBox (d : Descriptor) (r : Ref) (v : Value) : Prop :=
  ∃ id, r = .object id ∧ unboxed? id = some (d, v)

def isBoxInstance (r : Ref) (name : String) : Bool :=
  match r with
  | .object id => (unboxed? id).any fun x => x.1.wrapper? = some name
  | _ => false

/-- A runtime whose boxing classes are those of the model boxes as documented. -/
theorem boxing_of_model (this : Nat)
    (hbody : ∀ {d : Descriptor} {wrapper}, d.wrapper? = some wrapper → ∀ op args,
      rt.body? op (d.boxingRef wrapper) args = none ∧
        ∀ method, rt.body? op (d.unboxingRef wrapper method) args = none)
    (hcall : ∀ r args v s, boxCall? r args = some v → rt.call? r args s = some (some v, s))
    (hinstance : ∀ {d : Descriptor} {wrapper}, d.wrapper? = some wrapper → ∀ r,
      rt.isInstance r wrapper = isBoxInstance r wrapper) : rt.Boxing this IsBox where
  box {d wrapper v} s hw hv := by
    have hfind : (Descriptor.primitives.find? fun e => e.wrapper?.map e.boxingRef = some (d.boxingRef wrapper)) =
        some d := by
      have hsome : (Descriptor.primitives.find? fun e =>
          e.wrapper?.map e.boxingRef = some (d.boxingRef wrapper)).isSome :=
        List.find?_isSome.2 ⟨d, Descriptor.mem_primitives hw, by simp [hw]⟩
      obtain ⟨e, he⟩ := Option.isSome_iff_exists.1 hsome
      have href := List.find?_some he
      obtain ⟨w, hew, href⟩ := Option.map_eq_some_iff.1 (of_decide_eq_true href)
      obtain rfl : w = wrapper := (MemberRef.mk.inj href).1
      rw [he, Descriptor.wrapper?_inj hew hw]
    have hanswer : boxCall? (d.boxingRef wrapper) [v] = some (.ref (.object (boxId d v))) := by
      have hcases : boxCall? (d.boxingRef wrapper) [v] = (Descriptor.primitives.find? fun e =>
          e.wrapper?.map e.boxingRef = some (d.boxingRef wrapper)).map fun e =>
            .ref (.object (boxId e v)) := by
        cases v with
        | ref => cases d <;> first | exact hv.elim | cases hw
        | int | long | float | double => rfl
      rw [hcases, hfind, Option.map_some]
    exact ⟨_, s, (hbody hw _ _).1, hcall _ _ _ s hanswer, rfl, _, rfl, unboxed?_boxId hw hv⟩
  unbox {d wrapper method r v} s hw hm hbox := by
    obtain ⟨id, rfl, hid⟩ := hbox
    refine ⟨(hbody hw _ _).2 method, hcall _ _ _ s ?_⟩
    simp [boxCall?, hid, hw, hm]
  instances {d wrapper r} hw hr _ := by
    rw [hinstance hw] at hr
    cases r with
    | object id =>
      obtain ⟨v, hv, hid⟩ := exists_unboxed?_of_wrapper hr hw
      exact ⟨v, hv, id, rfl, hid⟩
    | null | string => cases hr

end Model

section Rules

open Instruction

variable {code rest : List Instruction} {locals : List (Option Value)} {stack : List Value}
  {Q : Option Value → Store World → List Event → Prop}

/-- Boxing a value leaves a reference that stands for it. -/
theorem Runtime.completes_boxCode (hboxing : rt.Boxing this boxes) (hv : v.HasType d)
    (h : ∀ r s', StandsFor boxes d r v → s'.fields this = s.fields this →
      rt.Completes ⟨code, rest, locals, .ref r :: stack⟩ s' fun v? t events =>
        Q v? t (boxEvents d v r s.fields ++ events)) :
    rt.Completes ⟨code, d.boxCode ++ rest, locals, v :: stack⟩ s Q := by
  unfold Descriptor.boxCode
  unfold StandsFor boxEvents at h
  cases hw : d.wrapper? with
  | none =>
    obtain ⟨r, rfl⟩ := hv.exists_ref hw
    have hprimitive : d.isPrimitive = false := by
      simp [Bool.eq_false_iff, Descriptor.isPrimitive_iff, hw]
    simp only [hprimitive, hw] at h
    exact h r s rfl rfl
  | some wrapper =>
    obtain ⟨r, s', hbody, hcall, hkeeps, hbox⟩ := hboxing.box s hw hv
    have hprimitive : d.isPrimitive = true := by
      cases d <;> first | rfl | cases hw
    simp only [hprimitive, if_true, hw] at h
    have hargs : arguments? .invokestatic (Names.boxingDesc d wrapper) (v :: stack) =
        some ([v], stack) := by
      simp [arguments?, Names.ofText_boxingDesc hw]
    exact Completes.invoke hargs (.inl rfl) ((invokes_of_call hbody hcall).2 (h r s' hbox hkeeps))

variable {a : MappedAttribute}

/-- A reference that can be cast to an attribute's type stands for a value of the type, unless it is
null and the type is primitive. -/
theorem Runtime.Boxing.exists_standsFor (hboxing : rt.Boxing this boxes) (ha : a.type ≠ .void)
    (hcast : rt.Castable r a.castTarget) (hnull : a.type.isPrimitive = true → r ≠ .null) :
    ∃ x, StandsFor boxes a.type r x ∧ x.HasType a.type := by
  unfold StandsFor
  split
  · next hprimitive =>
    obtain ⟨wrapper, method, hw, -⟩ := Descriptor.isPrimitive_iff.1 hprimitive
    have htarget : a.castTarget = wrapper := by
      simp [MappedAttribute.castTarget, hw]
    have hinstance := hcast.resolve_left (hnull hprimitive)
    rw [htarget] at hinstance
    obtain ⟨x, hx, hbox⟩ := hboxing.instances hw hinstance (hnull hprimitive)
    exact ⟨x, hbox, hx⟩
  · next hprimitive =>
    refine ⟨.ref r, rfl, ?_⟩
    cases htype : a.type <;> rw [htype] at ha hprimitive <;> trivial

/-- Casting and unboxing a reference leaves the value that it stands for. -/
theorem Runtime.completes_unboxCode (hboxing : rt.Boxing this boxes)
    (hcast : rt.Castable r a.castTarget) (hx : StandsFor boxes a.type r x)
    (hnull : a.type.isPrimitive = true → r ≠ .null)
    (h : rt.Completes ⟨code, rest, locals, x :: stack⟩ s fun v? t events =>
      Q v? t (unboxEvents a.type r x s.fields ++ events)) :
    rt.Completes ⟨code, a.unboxCode ++ rest, locals, .ref r :: stack⟩ s Q := by
  unfold MappedAttribute.unboxCode
  rw [List.cons_append, completes_checkCast hcast]
  unfold unboxEvents at h
  unfold StandsFor at hx
  split
  · next wrapper method hw hm =>
    have hprimitive := Descriptor.isPrimitive_iff.2 ⟨wrapper, method, hw, hm⟩
    rw [if_pos hprimitive] at hx
    obtain ⟨hbody, hcall⟩ := hboxing.unbox s hw hm hx
    have hargs : arguments? .invokevirtual (Names.getterOf a.descriptor) (.ref r :: stack) =
        some ([.ref r], stack) := by
      have hwell : a.type.WellFormed := by
        cases htype : a.type <;> rw [htype] at hw <;> trivial
      simp [arguments?, MappedAttribute.descriptor, Names.ofText_getterOf hwell]
    simp only [hw, hm] at h
    refine Completes.invoke hargs (.inr ?_) ((invokes_of_call hbody hcall).2 h)
    simpa using hnull hprimitive
  · next hnone =>
    have hprimitive : ¬a.type.isPrimitive = true := fun hprimitive => by
      obtain ⟨wrapper, method, hw, hm⟩ := Descriptor.isPrimitive_iff.1 hprimitive
      exact hnone wrapper method hw hm
    rw [if_neg hprimitive] at hx
    subst hx
    split at h
    · next hw hm => exact absurd hm (hnone _ _ hw)
    · exact h

end Rules

end Machine

end EntityLoom
