import EntityLoom.Proofs.Code.Member
import EntityLoom.Proofs.Pool.Requests

/-!
# Members that are refused

A member can be refused at many points: an operand finds no room in the pool, the body cannot be laid
out, its frames do not fit or cannot be written, or there is no room for its names.  What was interned
before that stays.  `FieldDecl.toMember_grows` and `MethodDecl.toMember_grows` say that this is all
that stays: wherever a member is refused, the pool was extended and no slot of it was changed.

The lemmas follow the functions that make a member, one for each, and are put together by
`Interning.Grows.bind`.
-/

namespace EntityLoom

namespace Interning

variable {α β : Type}

/-! ## Steps in general -/

theorem Grows.pure (a : α) : Grows (pure a) := fun _ => .refl

theorem Grows.throw (e : EmissionError) : Grows (throw e : Interning α) := fun _ => .refl

/-- A step that only computes leaves the pool as it is. -/
theorem Grows.lift (x : Except EmissionError α) : Grows (liftM x) := by
  intro p
  cases x <;> exact .refl

theorem Grows.map {step : Interning α} (h : Grows step) (g : α → β) : Grows (g <$> step) := by
  rw [map_eq_pure_bind]
  exact h.bind fun a => .pure (g a)

theorem Grows.mapM {step : α → Interning β} (h : ∀ x, Grows (step x)) (xs : List α) :
    Grows (xs.mapM step) := by
  induction xs with
  | nil =>
    rw [List.mapM_nil]
    exact .pure []
  | cons x xs ih =>
    rw [List.mapM_cons]
    exact (h x).bind fun y => ih.bind fun ys => .pure (y :: ys)

/-- What a step leaves when it succeeds. -/
theorem leaves_of_succeeds {step : Interning α} {p q : Pool} {a : α} (h : Succeeds step p a q) :
    step.leaves p = q :=
  congrArg Prod.snd h

/-- Nothing is known of the value of a step that grows the pool. -/
theorem Grows.interns {step : Interning α} (h : Grows step) : Interns step fun _ _ => True := by
  intro p a q _ hs
  rw [← leaves_of_succeeds hs]
  exact ⟨h p, fun _ _ => trivial⟩

theorem utf8_grows (text : String) : Grows (utf8 text) := constant_grows _

end Interning

open Interning (Grows Interns)

/-! ## Stack maps -/

theorem VerificationType.write_grows (v : VerificationType) : Grows v.write := by
  cases v with
  | object name => exact (Interning.classRef_grows name).bind fun _ => .pure _
  | _ => exact .pure _

namespace StackMap

theorem writeTypes_grows (vs : List VerificationType) : Grows (writeTypes vs) :=
  (Grows.mapM VerificationType.write_grows vs).bind fun _ => .pure _

theorem writeEntry_grows (distance : Nat) (sameLocals : Bool)
    (locals stack : List VerificationType) :
    Grows (writeEntry distance sameLocals locals stack) := by
  unfold writeEntry
  split
  · exact .pure _
  · next v => exact v.write_grows.bind fun _ => .pure _
  · exact (writeTypes_grows _).bind fun _ => (writeTypes_grows _).bind fun _ => .pure _

theorem writeEntries_grows (targets : List (Nat × Frame)) (acc : List Bytes)
    (previous : List VerificationType) (next : Nat) :
    Grows (writeEntries acc previous next targets) := by
  induction targets generalizing acc previous next with
  | nil => exact .pure _
  | cons target rest ih =>
    obtain ⟨offset, f⟩ := target
    unfold writeEntries
    dsimp only
    have hrest := (writeEntry_grows (offset - next) (f.encodedLocals = previous) f.encodedLocals
      f.stack).bind fun entry => ih (entry :: acc) f.encodedLocals (offset + 1)
    split
    · exact hrest
    · exact (Grows.throw _).bind fun _ => hrest

theorem write_grows (entry : Frame) (targets : List (Nat × Frame)) : Grows (write entry targets) :=
  (writeEntries_grows targets _ _ _).bind fun _ => .pure _

end StackMap

/-! ## Methods -/

theorem Instruction.internOperand_grows (i : Instruction) : Grows i.internOperand := by
  cases i with
  | field op r => exact Interning.Request.run_grows (.fieldRef r.owner r.name r.descriptor)
  | invoke op r =>
    exact Interning.Request.run_grows
      (.methodRef r.owner r.name r.descriptor (op = .invokeinterface))
  | type op name => exact Interning.classRef_grows name
  | ldcString text => exact Interning.Request.run_grows (.string text)
  | _ => exact .pure 0

/-- Only the operands and the classes in the stack map are interned. -/
theorem MethodDecl.assemble_grows (m : MethodDecl) (thisClass : String) (withFrames : Bool) :
    Grows (m.assemble thisClass withFrames) := by
  unfold assemble
  refine (Grows.lift _).bind fun d => ?_
  refine (Grows.mapM Instruction.internOperand_grows _).bind fun operands => ?_
  refine (Grows.lift _).bind fun plan => (Grows.lift _).bind fun analysis => ?_
  refine (Grows.lift _).bind fun parts => ?_
  have hstackMap : ∀ landings, Grows (do
      let stackMap ← if landings.isEmpty then pure none else
        some <$> StackMap.write (Frame.entry thisClass m.name (Access.isStatic m.access) d) landings
      return (⟨analysis.maxStack, analysis.maxLocals, parts.flatten, stackMap⟩ : CodeBody)) := by
    intro landings
    split
    · exact (Grows.pure _).bind fun _ => .pure _
    · exact ((StackMap.write_grows _ _).map _).bind fun _ => .pure _
  split
  · exact (Grows.lift _).bind hstackMap
  · exact (Grows.pure _).bind hstackMap

theorem CodeBody.toAttribute_grows (b : CodeBody) : Grows b.toAttribute := by
  unfold toAttribute
  have hcode : ∀ nested, Grows (do
      let name ← Interning.utf8 Attribute.codeName
      return (⟨name, Bytes.ofWord16 b.maxStack ++ Bytes.ofWord16 b.maxLocals ++
        Bytes.ofLength32 b.code.length ++ b.code ++ Bytes.ofLength16 0 ++ nested⟩ : Attribute)) :=
    fun nested => (Interning.utf8_grows _).bind fun _ => .pure _
  dsimp only
  split
  · refine (Interning.utf8_grows _).bind fun name => ?_
    rw [pure_bind]
    exact hcode _
  · rw [pure_bind]
    exact hcode _

theorem MethodDecl.toMember_grows (m : MethodDecl) (thisClass : String) (withFrames : Bool) :
    Grows (m.toMember thisClass withFrames) :=
  (m.assemble_grows thisClass withFrames).bind fun b =>
    (Interning.utf8_grows _).bind fun _ => (Interning.utf8_grows _).bind fun _ =>
      b.toAttribute_grows.bind fun _ => .pure _

/-- The member made from a method bears its names, whatever its body. -/
theorem MethodDecl.toMember_declares (m : MethodDecl) (thisClass : String) (withFrames : Bool) :
    Interns (m.toMember thisClass withFrames) fun q r =>
      r.Declares q m.access m.name m.descriptor := by
  refine (m.assemble_grows thisClass withFrames).interns.bind fun b => ?_
  refine (Interning.utf8_interns _).bind fun n => (Interning.utf8_interns _).bind fun d => ?_
  exact b.toAttribute_grows.interns.bind fun a => .pure fun _ _ hd hn _ => ⟨rfl, hn, hd⟩

/-! ## Fields -/

theorem FieldDecl.writeAnnotation_grows (type : String) : Grows ( writeAnnotation type) :=
  (Interning.utf8_grows type).bind fun _ => .pure _

theorem FieldDecl.toMember_grows (f : FieldDecl) : Grows f.toMember := by
  unfold toMember
  have hnames : ∀ attributes, Grows (do
      let name ← Interning.utf8 f.name
      let descriptor ← Interning.utf8 f.descriptor
      return (⟨f.access, name, descriptor, attributes⟩ : Member)) :=
    fun attributes => (Interning.utf8_grows _).bind fun _ => (Interning.utf8_grows _).bind fun _ =>
      .pure _
  dsimp only
  split
  · rw [pure_bind]
    exact hnames _
  · refine (Grows.mapM writeAnnotation_grows _).bind fun parts => ?_
    refine (Interning.utf8_grows _).bind fun name => ?_
    rw [pure_bind]
    exact hnames _

/-- The member made from a field bears its names, whatever its annotations. -/
theorem FieldDecl.toMember_declares (f : FieldDecl) :
    Interns f.toMember fun q r => r.Declares q f.access f.name f.descriptor := by
  unfold toMember
  have hnames : ∀ attributes, Interns (do
      let name ← Interning.utf8 f.name
      let descriptor ← Interning.utf8 f.descriptor
      return (⟨f.access, name, descriptor, attributes⟩ : Member)) fun q r =>
        r.Declares q f.access f.name f.descriptor := by
    intro attributes
    refine (Interning.utf8_interns _).bind fun n => (Interning.utf8_interns _).bind fun d => ?_
    exact .pure fun _ hd hn => ⟨rfl, hn, hd⟩
  dsimp only
  split
  · rw [pure_bind]
    exact hnames _
  · refine (Grows.mapM writeAnnotation_grows _).interns.bind fun parts => ?_
    refine (Interning.utf8_grows _).interns.bind fun name => ?_
    rw [pure_bind]
    exact (hnames _).mono fun _ _ h _ _ => h

end EntityLoom
