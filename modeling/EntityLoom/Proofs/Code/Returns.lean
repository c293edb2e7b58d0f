import EntityLoom.Proofs.Code.Layout
import EntityLoom.Proofs.Frame.Least

/-!
# Returns of assembled bodies

Assembly checks what a return finds on the stack against the return itself: an `lreturn` finds a
long.  Nothing compares the return with the result that the method declares.  So the returns of an
assembled method are the one of its declared result exactly where its paths bring values of that
type, or none for `void`; and the same body assembles to the same code whatever result is declared
(`MethodDecl.assemble_returns`).
-/

namespace EntityLoom

/-! ## What a return finds -/

/-- The return that takes a value. -/
def VerificationType.returnOp? : VerificationType → Option Opcode
  | .top => none
  | .integer => some .ireturn
  | .long => some .lreturn
  | .float => some .freturn
  | .double => some .dreturn
  | _ => some .areturn

/-- Where the given instruction returns, the stack holds what a method with the given result
returns: a value of its type on top, and none is taken where there is no result. -/
def Descriptor.Returned (result : Descriptor) (op : Opcode) (stack : List VerificationType) : Prop :=
  if op = .returnVoid then result = .void
  else ∃ v rest, stack = v :: rest ∧ (Expectation.ofDescriptor result).accepts v = true

/-- A value is of a type where its return is the one of the type. -/
theorem Expectation.accepts_iff_returnOp? (d : Descriptor) (v : VerificationType) :
    (Expectation.ofDescriptor d).accepts v = true ↔ v.returnOp? = some d.returnOp := by
  cases d <;> cases v <;>
    simp [ofDescriptor, VerificationType.ofDescriptor, accepts, VerificationType.returnOp?,
      Descriptor.returnOp, VerificationType.isReference]

theorem Descriptor.returnOp_eq_returnVoid (d : Descriptor) :
    .returnVoid = d.returnOp ↔ d = .void := by
  cases d <;> simp [returnOp]

namespace Frame

variable {index : Nat} {f f' : Frame} {op : Opcode} {u : Unit}

/-- A return takes a value of its kind, or none. -/
theorem returnOp?_of_executeSimple (hreturn : op.isReturn = true) (hop : op ≠ .returnVoid)
    (h : (executeSimple index op).run f = .ok (u, f')) :
    ∃ v, f.stack = v :: f'.stack ∧ v.returnOp? = some op := by
  have hdeclared : ∀ d : Descriptor, d.returnOp = op → (popDeclared index d).run f = .ok (u, f') →
      ∃ v, f.stack = v :: f'.stack ∧ v.returnOp? = some op := by
    intro d hd hpop
    obtain ⟨v, hacc, hstack, -⟩ := popDeclared_eq_ok.1 hpop
    rw [Expectation.accepts_iff_returnOp?, hd] at hacc
    exact ⟨v, hstack, hacc⟩
  cases op with
  | ireturn => exact hdeclared .int rfl h
  | lreturn => exact hdeclared .long rfl h
  | freturn => exact hdeclared .float rfl h
  | dreturn => exact hdeclared .double rfl h
  | areturn =>
    obtain ⟨v, g, hpop, hpure⟩ := run_bind_eq_ok.1 h
    obtain ⟨-, rfl⟩ := run_pure_eq_ok.1 hpure
    obtain ⟨hacc, hstack, -⟩ := popExpecting_eq_ok.1 hpop
    have hobject := (Expectation.accepts_iff_returnOp? (.object "") v).1 hacc
    exact ⟨v, hstack, hobject⟩
  | returnVoid => exact absurd rfl hop
  | _ => cases hreturn

/-- A return that executes is the one of a result where what it finds is of that type. -/
theorem returnOp_iff_returned (hreturn : op.isReturn = true)
    (h : (executeSimple index op).run f = .ok (u, f')) (result : Descriptor) :
    op = result.returnOp ↔ result.Returned op f.stack := by
  unfold Descriptor.Returned
  by_cases hop : op = .returnVoid
  · rw [if_pos hop, hop]
    exact result.returnOp_eq_returnVoid
  · obtain ⟨v, hstack, hv⟩ := returnOp?_of_executeSimple hreturn hop h
    rw [if_neg hop, hstack]
    have haccepts : (Expectation.ofDescriptor result).accepts v = true ↔ op = result.returnOp := by
      rw [Expectation.accepts_iff_returnOp?, hv, Option.some.injEq]
    constructor
    · intro heq
      exact ⟨v, f'.stack, rfl, haccepts.2 heq⟩
    · intro hreturned
      obtain ⟨w, rest, heq, hacc⟩ := hreturned
      obtain ⟨rfl, -⟩ := List.cons.inj heq
      exact haccepts.1 hacc

end Frame

/-! ## Assembled bodies -/

namespace MethodDecl

variable {m : MethodDecl} {thisClass : String} {withFrames : Bool} {p p' : Pool} {b : CodeBody}

/-- A method that differs in its declared result alone is assembled alike. -/
theorem assemble_eq_of_result {m' : MethodDecl} {d : MethodDescriptor} {result : Descriptor}
    (haccess : m'.access = m.access) (hname : m'.name = m.name) (hbody : m'.body = m.body)
    (hd : m.type = .ok d) (hd' : m'.type = .ok { d with result }) :
    m'.assemble thisClass withFrames = m.assemble thisClass withFrames := by
  unfold assemble
  rw [hd, hd', haccess, hname, hbody]
  rfl

namespace Assembled

variable (a : m.Assembled thisClass withFrames p b p')

theorem leastTyping : a.layout.LeastTyping a.entry a.analysis.frameAt ∧ a.layout.Live :=
  Layout.leastTyping_of_analyze (Frame.paired_entry thisClass m.name _ a.type) a.analysis_eq

/-- Control reaches every return of a body. -/
theorem exists_path {i : Nat} {ins : Instruction} (hins : m.body[i]? = some ins)
    (hmark : ins.isMark = false) : ∃ visited, a.layout.Path visited i :=
  a.leastTyping.2 i ins ((a.lays.getElem? i).trans hins) hmark

/-- A return executes with the frame of each path that arrives there. -/
theorem returnOp_iff {i : Nat} {op : Opcode} (hins : m.body[i]? = some (.simple op))
    (hreturn : op.isReturn = true) {visited : List Nat} (hpath : a.layout.Path visited i)
    (result : Descriptor) :
    ∃ f, a.layout.executeAlong a.entry visited = .ok f ∧
      (op = result.returnOp ↔ result.Returned op f.stack) := by
  obtain ⟨f, g, hf, hg, hfg⟩ := a.leastTyping.1.typed.executeAlong_below hpath
  obtain ⟨f', -, hf', -⟩ := a.leastTyping.1.typed.executeAt_below hg hfg
  refine ⟨f, hf, ?_⟩
  have hat : a.layout.instructions[i]? = some (.simple op) := (a.lays.getElem? i).trans hins
  rw [Layout.executeAt, hat] at hf'
  obtain ⟨u, hu⟩ := Frame.after_eq_ok.1 hf'
  exact Frame.returnOp_iff_returned hreturn hu result

end Assembled

/-- A method that assembles does so with every result that it might declare.  Control reaches each
of its returns, and each is the one of the declared result exactly where the paths that arrive there
bring what that result asks for. -/
theorem assemble_returns (h : Succeeds (m.assemble thisClass withFrames) p b p') :
    ∃ a : m.Assembled thisClass withFrames p b p', ∀ (result : Descriptor) (m' : MethodDecl),
      m'.access = m.access → m'.name = m.name → m'.body = m.body →
      m'.type = .ok { a.type with result } →
      Succeeds (m'.assemble thisClass withFrames) p b p' ∧
      ∀ i op, m'.body[i]? = some (.simple op) → op.isReturn = true →
        (∃ visited, a.layout.Path visited i) ∧
        ∀ visited, a.layout.Path visited i →
          ∃ f, a.layout.executeAlong a.entry visited = .ok f ∧
            (op = result.returnOp ↔ result.Returned op f.stack) := by
  obtain ⟨a⟩ := nonempty_assembled h
  refine ⟨a, fun result m' haccess hname hbody htype => ⟨?_, fun i op hins hreturn => ?_⟩⟩
  · rw [assemble_eq_of_result haccess hname hbody a.type_eq htype]
    exact h
  · rw [hbody] at hins
    have hmark : (Instruction.simple op).isMark = false := rfl
    exact ⟨a.exists_path hins hmark, fun visited hpath => a.returnOp_iff hins hreturn hpath result⟩

/-- A method that declares a `long` and returns an `int`. -/
def undeclared : MethodDecl where
  access := 0x0009
  name := "f"
  descriptor := "()J"
  body := [.simple .iconst0, .simple .ireturn]

/-- It assembles, though its path brings no long. -/
theorem assemble_returns_undeclared :
    ∃ b p', Succeeds (undeclared.assemble "A" false) .empty b p' ∧
      ∃ (a : undeclared.Assembled "A" false .empty b p') (f : Frame),
        undeclared.type = .ok { a.type with result := .long } ∧
        a.layout.executeAlong a.entry [0] = .ok f ∧
        ¬Descriptor.long.Returned .ireturn f.stack := by
  obtain ⟨b, p', h⟩ := exists_succeeds (x := undeclared.assemble "A" false) (s := .empty)
    (by decide +kernel)
  obtain ⟨a, hreturns⟩ := assemble_returns h
  have htype : undeclared.type = .ok { a.type with result := .long } := by
    have hdeclared : undeclared.type = .ok ⟨[], .long⟩ := by decide +kernel
    obtain htype := Except.ok.inj (a.type_eq.symm.trans hdeclared)
    rw [hdeclared, htype]
  have hat : a.layout.instructions[0]? = some (.simple .iconst0) := a.lays.getElem? 0
  have hpath : a.layout.Path [0] 1 := .step .start (.next hat rfl)
  obtain ⟨f, hf, hiff⟩ :=
    ((hreturns .long undeclared rfl rfl rfl htype).2 1 .ireturn rfl rfl).2 [0] hpath
  exact ⟨b, p', h, a, f, htype, hf, fun hreturned => absurd (hiff.2 hreturned) (by decide)⟩

end MethodDecl

end EntityLoom
