import EntityLoom.Proofs.Code.Typing
import EntityLoom.Proofs.Weaving.Names

/-!
# Frames of redirected code

Where a read or write of a field becomes a call of its accessor, the stack map of the method is kept
as it is.  That is sound because the call asks of a frame what the access asks of it, in the same
order, and leaves the same frame (`Rerouted.execute_eq`): the getter has no arguments and the result
that the read pushes, and the setter pops the value and then the receiver as the write does.

An analysis sees of an instruction what it makes of frames, where control goes from it, and whether
it is a mark.  So bodies that agree in this at every place are analyzed alike, step by step
(`Layout.ActsAlike`), and `Layout.analyze_rerouted` says it of redirected code, whether the analysis
succeeds or fails.
-/

namespace EntityLoom

/-! ## Bodies that act alike -/

namespace Worklist

variable {body : Layout} {w : Worklist}

theorem round_of_queue_eq_nil (hq : w.queue = []) : w.round body = .ok w := by
  rw [round.eq_def]
  split
  · rfl
  · next hcons =>
    rw [hq] at hcons
    cases hcons

theorem round_of_queue_eq_cons {index : Nat} {rest : List Nat} (hq : w.queue = index :: rest) :
    w.round body =
      match { w with queue := rest }.step body index with
      | .error e => .error e
      | .ok w' => if w'.fresh then .ok w' else w'.round body := by
  rw [round.eq_def]
  split
  · next hnil =>
    rw [hq] at hnil
    cases hnil
  · next i r hcons =>
    rw [hq] at hcons
    obtain ⟨rfl, rfl⟩ := List.cons.inj hcons
    split
    · next he => rw [he]
    · next hw =>
      rw [hw]
      rfl

theorem run_eq_match (body : Layout) (w : Worklist) :
    w.run body =
      match { w with fresh := false }.round body with
      | .error e => .error e
      | .ok w' => if w'.fresh then w'.run body else .ok w' := by
  rw [run.eq_def]
  split
  · next he => rw [he]
  · next hw =>
    rw [hw]
    rfl

end Worklist

/-- Two bodies act alike: at each place both make the same of every frame or fail alike, control goes
on to the same places, and marks stand in the same places. -/
structure Layout.ActsAlike (body body' : Layout) : Prop where
  size : body'.instructions.size = body.instructions.size
  after : ∀ (i : Nat) (ins ins' : Instruction), body.instructions[i]? = some ins →
    body'.instructions[i]? = some ins' → ∀ f : Frame,
      f.after body'.thisClass i (body'.offsets.getD i 0) ins' =
        f.after body.thisClass i (body.offsets.getD i 0) ins
  successors : ∀ (i : Nat) (ins ins' : Instruction), body.instructions[i]? = some ins →
    body'.instructions[i]? = some ins' →
      Worklist.successors body' i ins' = Worklist.successors body i ins
  isMark : ∀ (i : Nat) (ins ins' : Instruction), body.instructions[i]? = some ins →
    body'.instructions[i]? = some ins' → ins'.isMark = ins.isMark

namespace Layout.ActsAlike

variable {body body' : Layout}

/-- Both bodies have an instruction at a place, or neither has. -/
theorem getElem?_cases (h : body.ActsAlike body') (i : Nat) :
    (body.instructions[i]? = none ∧ body'.instructions[i]? = none) ∨
      ∃ ins ins', body.instructions[i]? = some ins ∧ body'.instructions[i]? = some ins' := by
  have hsize := h.size
  by_cases hi : i < body.instructions.size
  · exact .inr ⟨_, _, Array.getElem?_eq_getElem hi, Array.getElem?_eq_getElem (hsize ▸ hi)⟩
  · exact .inl ⟨Array.getElem?_eq_none_iff.2 (by omega), Array.getElem?_eq_none_iff.2 (by omega)⟩

theorem step_eq (h : body.ActsAlike body') (w : Worklist) (index : Nat) :
    w.step body' index = w.step body index := by
  unfold Worklist.step
  rcases h.getElem?_cases index with ⟨hnone, hnone'⟩ | ⟨ins, ins', hins, hins'⟩
  · rw [hnone, hnone']
    cases (w.frames[index]?).join <;> rfl
  · rw [hins, hins']
    cases (w.frames[index]?).join with
    | none => rfl
    | some f =>
      dsimp only
      rw [h.after index ins ins' hins hins' f, h.successors index ins ins' hins hins']

theorem round_eq (h : body.ActsAlike body') (w : Worklist) : w.round body' = w.round body := by
  fun_induction Worklist.round body w with
  | case1 w hq => exact Worklist.round_of_queue_eq_nil hq
  | case2 w index rest hq e he => rw [Worklist.round_of_queue_eq_cons hq, h.step_eq, he]
  | case3 w index rest hq w₁ h₁ hf =>
    rw [Worklist.round_of_queue_eq_cons hq, h.step_eq, h₁]
    exact if_pos hf
  | case4 w index rest hq w₁ h₁ hf ih =>
    rw [Worklist.round_of_queue_eq_cons hq, h.step_eq, h₁, ← ih]
    exact if_neg hf

theorem run_eq (h : body.ActsAlike body') (w : Worklist) : w.run body' = w.run body := by
  fun_induction Worklist.run body w with
  | case1 w e he => rw [Worklist.run_eq_match, h.round_eq, he]
  | case2 w w₁ h₁ hf ih =>
    rw [Worklist.run_eq_match, h.round_eq, h₁, ← ih]
    exact if_pos hf
  | case3 w w₁ h₁ hf =>
    rw [Worklist.run_eq_match, h.round_eq, h₁]
    exact if_neg hf

theorem firstDead?_eq (h : body.ActsAlike body') (w : Worklist) :
    w.firstDead? body' = w.firstDead? body := by
  have hmark : ∀ i : Nat, (body'.instructions[i]?).any Instruction.isMark =
      (body.instructions[i]?).any Instruction.isMark := by
    intro i
    rcases h.getElem?_cases i with ⟨hnone, hnone'⟩ | ⟨ins, ins', hins, hins'⟩
    · rw [hnone, hnone']
    · rw [hins, hins', Option.any_some, Option.any_some, h.isMark i ins ins' hins hins']
  unfold Worklist.firstDead?
  simp only [h.size, hmark]

/-- Bodies that act alike are analyzed alike. -/
theorem analyze_eq (h : body.ActsAlike body') (entry : Frame) :
    body'.analyze entry = body.analyze entry := by
  have hempty : body'.instructions.isEmpty = body.instructions.isEmpty := by
    simp only [Array.isEmpty, h.size]
  unfold analyze
  simp only [hempty, h.size, h.run_eq, h.firstDead?_eq]

end Layout.ActsAlike

/-! ## Calls in place of accesses -/

/-- What may stand in place of an instruction in redirected code: the instruction itself, or the call
of its accessor if it reads or writes a field whose type is well formed and has values. -/
inductive Rerouted : Instruction → Instruction → Prop
  | kept (i : Instruction) : Rerouted i i
  | read (owner name : String) {descriptor : String} {d : Descriptor}
    (typed : Descriptor.ofText descriptor = .ok d) (hasValue : d ≠ .void) :
    Rerouted (.getField owner name descriptor)
      (.invokeVirtual owner (Names.fieldGetter name) (Names.getterOf descriptor))
  | write (owner name : String) {descriptor : String} {d : Descriptor}
    (typed : Descriptor.ofText descriptor = .ok d) (hasValue : d ≠ .void) :
    Rerouted (.putField owner name descriptor)
      (.invokeVirtual owner (Names.fieldSetter name) (Names.setterOf descriptor))

namespace Frame

variable {thisClass : String} {index offset : Nat}

theorem liftM_ok {α : Type} (a : α) :
    (liftM (Except.ok a : Except EmissionError α) : FrameAction α) = pure a := rfl

theorem execute_getField {owner name descriptor : String} {d : Descriptor}
    (h : Descriptor.ofText descriptor = .ok d) :
    execute thisClass index offset (.getField owner name descriptor) = (do
      let _ ← popExpecting index .reference
      push (.ofDescriptor d)) := by
  have htype : MemberRef.fieldType ⟨owner, name, descriptor⟩ = .ok d :=
    MemberRef.fieldType_eq_ok.2 h
  change (liftM (MemberRef.fieldType ⟨owner, name, descriptor⟩) >>= _) = _
  rw [htype, liftM_ok, pure_bind]

theorem execute_putField {owner name descriptor : String} {d : Descriptor}
    (h : Descriptor.ofText descriptor = .ok d) :
    execute thisClass index offset (.putField owner name descriptor) = (do
      popDeclared index d
      let _ ← popExpecting index .reference) := by
  have htype : MemberRef.fieldType ⟨owner, name, descriptor⟩ = .ok d :=
    MemberRef.fieldType_eq_ok.2 h
  change (liftM (MemberRef.fieldType ⟨owner, name, descriptor⟩) >>= _) = _
  rw [htype, liftM_ok, pure_bind]

/-- A call of a method that is no constructor pops its arguments, the last one first, and its
receiver, and pushes its result. -/
theorem execute_invokeVirtual {owner name descriptor : String} {d : MethodDescriptor}
    (h : MethodDescriptor.ofText descriptor = .ok d) (hname : name ≠ constructorName) :
    execute thisClass index offset (.invokeVirtual owner name descriptor) = (do
      d.params.reverse.forM (popDeclared index)
      let _ ← popExpecting index .reference
      pushResult d.result) := by
  have hconstruct : ∀ v, construct thisClass index ⟨owner, name, descriptor⟩ v = pure () :=
    fun v => if_neg hname
  have htype : MemberRef.methodType ⟨owner, name, descriptor⟩ = .ok d :=
    MemberRef.methodType_eq_ok.2 h
  change (liftM (MemberRef.methodType ⟨owner, name, descriptor⟩) >>= _) = _
  rw [htype, liftM_ok, pure_bind]
  simp [popReceiver, hconstruct]

end Frame

namespace Rerouted

variable {i i' : Instruction}

/-- A call asks of a frame what the access asks of it, and leaves the same frame. -/
theorem execute_eq (h : Rerouted i i') (thisClass : String) (index offset : Nat) :
    Frame.execute thisClass index offset i' = Frame.execute thisClass index offset i := by
  cases h with
  | kept => rfl
  | @read owner name _ d typed hasValue =>
    obtain ⟨hwell, rfl⟩ := Descriptor.ofText_eq_ok.1 typed
    have hresult : Frame.pushResult d = Frame.push (.ofDescriptor d) := if_neg hasValue
    refine (Frame.execute_invokeVirtual (Names.ofText_getterOf hwell)
      (Names.fieldGetter_ne name)).trans (Eq.trans ?_ (Frame.execute_getField typed).symm)
    simp [hresult]
  | write owner name typed hasValue =>
    obtain ⟨hwell, rfl⟩ := Descriptor.ofText_eq_ok.1 typed
    refine (Frame.execute_invokeVirtual (Names.ofText_setterOf hwell hasValue)
      (Names.fieldSetter_ne name)).trans (Eq.trans ?_ (Frame.execute_putField typed).symm)
    simp [Frame.pushResult]

/-- Control goes on from a call as it does from the access. -/
theorem successors_eq (h : Rerouted i i') (body body' : Layout)
    (htarget : body'.target? = body.target?) (index : Nat) :
    Worklist.successors body' index i' = Worklist.successors body index i := by
  cases h with
  | kept =>
    unfold Worklist.successors
    rw [htarget]
  | read => rfl
  | write => rfl

theorem isMark_eq (h : Rerouted i i') : i'.isMark = i.isMark := by
  cases h <;> rfl

end Rerouted

namespace Layout

variable {body : Layout} {calls : Array Instruction}

theorem actsAlike_of_rerouted
    (h : List.Forall₂ Rerouted body.instructions.toList calls.toList) :
    body.ActsAlike { body with instructions := calls } := by
  have hat : ∀ (i : Nat) (ins ins' : Instruction), body.instructions[i]? = some ins →
      calls[i]? = some ins' → Rerouted ins ins' := by
    intro i ins ins' hins hins'
    obtain ⟨hi, rfl⟩ := Array.getElem?_eq_some_iff.1 hins
    obtain ⟨hi', rfl⟩ := Array.getElem?_eq_some_iff.1 hins'
    exact (List.forall₂_iff_get.1 h).2 i hi hi'
  constructor
  case size => simpa using h.length_eq.symm
  case after =>
    intro i ins ins' hins hins' f
    unfold Frame.after
    rw [(hat i ins ins' hins hins').execute_eq]
  case successors =>
    exact fun i ins ins' hins hins' => (hat i ins ins' hins hins').successors_eq body _ rfl i
  case isMark => exact fun i ins ins' hins hins' => (hat i ins ins' hins hins').isMark_eq

/-- A body whose field accesses are replaced by calls of accessors, all of them or some, is analyzed
like the body before: with the same limits and frames, or with the same fault at the same
instruction. -/
theorem analyze_rerouted (h : List.Forall₂ Rerouted body.instructions.toList calls.toList)
    (entry : Frame) : { body with instructions := calls }.analyze entry = body.analyze entry :=
  (actsAlike_of_rerouted h).analyze_eq entry

/-- A loop that reads a field and writes it back. -/
def accessBody : Layout :=
  { thisClass := "a/B"
    instructions := #[.mark 0, .aload 0, .aload 0, .getField "a/B" "n" "J",
      .putField "a/B" "n" "J", .jump .goto 0]
    offsets := #[0, 0, 1, 2, 5, 8]
    target? := fun label => if label = 0 then some 0 else none }

/-- The loop with calls of the field's accessors. -/
def accessCalls : Array Instruction :=
  #[.mark 0, .aload 0, .aload 0,
    .invokeVirtual "a/B" (Names.fieldGetter "n") (Names.getterOf "J"),
    .invokeVirtual "a/B" (Names.fieldSetter "n") (Names.setterOf "J"), .jump .goto 0]

/-- The loop is analyzed, and its calls have the frames of its accesses. -/
theorem analyze_rerouted_loop :
    List.Forall₂ Rerouted accessBody.instructions.toList accessCalls.toList ∧
      ∃ a, accessBody.analyze (Frame.entry "a/B" "run" false ⟨[], .void⟩) = .ok a ∧
        { accessBody with instructions := accessCalls }.analyze
          (Frame.entry "a/B" "run" false ⟨[], .void⟩) = .ok a := by
  have hlong : Descriptor.ofText "J" = .ok .long := by decide
  have h : List.Forall₂ Rerouted accessBody.instructions.toList accessCalls.toList :=
    .cons (.kept _) (.cons (.kept _) (.cons (.kept _)
      (.cons (.read "a/B" "n" hlong (by decide)) (.cons (.write "a/B" "n" hlong (by decide))
        (.cons (.kept _) .nil)))))
  have hok : (accessBody.analyze (Frame.entry "a/B" "run" false ⟨[], .void⟩)).toOption.isSome := by
    decide +kernel
  refine ⟨h, ?_⟩
  rw [analyze_rerouted h]
  cases ha : accessBody.analyze (Frame.entry "a/B" "run" false ⟨[], .void⟩) with
  | error e =>
    rw [ha] at hok
    cases hok
  | ok a => exact ⟨a, rfl, rfl⟩

end Layout

end EntityLoom
