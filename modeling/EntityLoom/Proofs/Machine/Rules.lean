import EntityLoom.Proofs.Machine.Basic

/-!
# Running bodies

The machine takes each step in one way (`Runtime.Returns.unique`), so what an activation completes
with can be computed: one rule for each instruction says what is left to show when it was executed.
The rules are for simplification where the instruction stays in its body.  A call is followed through
`Runtime.Completes.invoke`, whether it runs a synthesized body or leaves the synthesized code.

`Runtime.refusing` takes methods away.  What returns without them does so without calling them
(`Runtime.Returns.not_calls`).
-/

namespace EntityLoom.Machine

variable {World : Type} {rt : Runtime World} {a a' : Activation} {s s' t : Store World}
  {v? w? : Option Value} {events events' : List Event}
  {Q : Option Value → Store World → List Event → Prop}

namespace Runtime

/-! ## One way to run -/

theorem steps_returned {log : List Event} {y : State World}
    (h : rt.Steps (.returned v? s log) y) : y = .returned v? s log := by
  rcases Relation.ReflTransGen.cases_head h with rfl | ⟨x, hx, -⟩
  · rfl
  · cases hx

theorem Returns.unique (h : rt.Returns a s v? s' events) (h' : rt.Returns a s w? t events') :
    v? = w? ∧ s' = t ∧ events = events' := by
  have hsteps : rt.Steps (.running a [] s []) (.returned v? s' events) := h [] []
  have hsteps' : rt.Steps (.running a [] s []) (.returned w? t events') := h' [] []
  have hdeterministic : Relator.RightUnique fun x y => rt.step x = some y :=
    fun x y z hy hz => Option.some.inj (hy.symm.trans hz)
  rcases Relation.ReflTransGen.total_of_right_unique hdeterministic hsteps hsteps' with hto | hto
  · cases steps_returned hto
    exact ⟨rfl, rfl, rfl⟩
  · cases steps_returned hto
    exact ⟨rfl, rfl, rfl⟩

/-- An activation does not return where it stands. -/
theorem running_ne_leave {callers : List Activation} {log log' : List Event} :
    (.running a callers s log : State World) ≠ leave v? callers s' log' := by
  cases callers with
  | nil => rintro ⟨⟩
  | cons c callers =>
    intro h
    exact List.cons_ne_self c callers (State.running.inj h).2.1

theorem returns_iff_of_step
    (h : ∀ callers log, rt.step (.running a callers s log) = some (.running a' callers t log)) :
    rt.Returns a s v? s' events ↔ rt.Returns a' t v? s' events := by
  constructor
  · intro hreturns callers log
    rcases Relation.ReflTransGen.cases_head (hreturns callers log) with heq | ⟨x, hx, hsteps⟩
    · exact absurd heq running_ne_leave
    · obtain rfl := Option.some.inj (hx.symm.trans (h callers log))
      exact hsteps
  · intro hreturns callers log
    exact .head (h callers log) (hreturns callers log)

/-- What an activation completes with is what it completes with after a step. -/
theorem completes_iff_of_step
    (h : ∀ callers log, rt.step (.running a callers s log) = some (.running a' callers t log)) :
    rt.Completes a s Q ↔ rt.Completes a' t Q := by
  unfold Completes
  simp only [returns_iff_of_step h]

theorem completes_iff_of_leave
    (h : ∀ callers log, rt.step (.running a callers s log) = some (leave v? callers s log)) :
    rt.Completes a s Q ↔ Q v? s [] := by
  have hreturns : rt.Returns a s v? s [] := fun callers log => by
    rw [List.append_nil]
    exact .single (h callers log)
  constructor
  · rintro ⟨w?, s', events, hreturns', hQ⟩
    obtain ⟨rfl, rfl, rfl⟩ := hreturns.unique hreturns'
    exact hQ
  · intro hQ
    exact ⟨_, _, _, hreturns, hQ⟩

theorem not_completes_of_step (h : ∀ callers log, rt.step (.running a callers s log) = none) :
    ¬rt.Completes a s Q := by
  rintro ⟨v?, s', events, hreturns, -⟩
  rcases Relation.ReflTransGen.cases_head (hreturns [] []) with heq | ⟨x, hx, -⟩
  · exact running_ne_leave heq
  · rw [h] at hx
    cases hx

theorem Completes.mono {P : Option Value → Store World → List Event → Prop}
    (h : rt.Completes a s P) (hPQ : ∀ v? s' events, P v? s' events → Q v? s' events) :
    rt.Completes a s Q := by
  obtain ⟨v?, s', events, hreturns, hP⟩ := h
  exact ⟨v?, s', events, hreturns, hPQ _ _ _ hP⟩

theorem Invokes.mono {op : Opcode} {r : MemberRef} {args : List Value}
    {P : Option Value → Store World → List Event → Prop} (h : rt.Invokes op r args s P)
    (hPQ : ∀ v? s' events, P v? s' events → Q v? s' events) : rt.Invokes op r args s Q := by
  unfold Invokes at h ⊢
  split at h
  · exact h.mono hPQ
  · obtain ⟨v?, s', hcall, hP⟩ := h
    exact ⟨v?, s', hcall, hPQ _ _ _ hP⟩

theorem Answers.mono {op : Opcode} {r : MemberRef} {args : List Value}
    {P P' : Option Value → Store World → Prop} (h : rt.Answers op r args s P)
    (hP : ∀ v? s', P v? s' → P' v? s') : rt.Answers op r args s P' := by
  obtain ⟨hbody, v?, s', hcall, h⟩ := h
  exact ⟨hbody, v?, s', hcall, hP _ _ h⟩

/-- A call of a synthesized body. -/
theorem invokes_of_body {op : Opcode} {r : MemberRef} {args : List Value}
    {body : List Instruction} (h : rt.body? op r args = some body) :
    rt.Invokes op r args s Q ↔ rt.Completes (.enter body args) s Q := by
  unfold Invokes
  rw [h]

/-- A call that leaves the synthesized code. -/
theorem invokes_of_call {op : Opcode} {r : MemberRef} {args : List Value}
    (h : rt.body? op r args = none) (hcall : rt.call? r args s = some (v?, s')) :
    rt.Invokes op r args s Q ↔ Q v? s' [⟨r, args, v?, s.fields⟩] := by
  unfold Invokes
  rw [h]
  dsimp only
  rw [hcall]
  constructor
  · rintro ⟨w?, t, heq, hQ⟩
    cases heq
    exact hQ
  · intro hQ
    exact ⟨v?, s', rfl, hQ⟩

/-! ## Rules -/

section Rules

open Instruction

variable {code rest : List Instruction} {locals : List (Option Value)} {stack : List Value}
  {v w : Value} {label : Label} {callers : List Activation} {log : List Event}

theorem step_var {op : Opcode} {slot : UInt16} (hop : op.isLoad = true) :
    rt.step (.running ⟨code, var op slot :: rest, locals, stack⟩ callers s log) =
      locals[slot.toNat]?.join.bind fun v =>
        some (.running ⟨code, rest, locals, v :: stack⟩ callers s log) :=
  if_pos hop

theorem step_newObject {name : String} :
    rt.step (.running ⟨code, newObject name :: rest, locals, stack⟩ callers s log) =
      (rt.new? name s).bind fun x =>
        some (.running ⟨code, rest, locals, .ref (.object x.1) :: stack⟩ callers x.2 log) :=
  rfl

theorem step_jump {op : Opcode} {taken : Bool} {stack' : List Value}
    (h : test? op stack = some (taken, stack')) :
    rt.step (.running ⟨code, jump op label :: rest, locals, stack⟩ callers s log) =
      (if taken then Activation.jumpTo? ⟨code, rest, locals, stack'⟩ label
        else some ⟨code, rest, locals, stack'⟩).map fun a => .running a callers s log := by
  change (test? op stack).bind _ = _
  rw [h]
  cases taken with
  | false => rfl
  | true => cases hjump : Activation.jumpTo? ⟨code, rest, locals, stack'⟩ label <;> simp [hjump]

theorem step_invoke {op : Opcode} {r : MemberRef} :
    rt.step (.running ⟨code, .invoke op r :: rest, locals, stack⟩ callers s log) =
      (arguments? op r.descriptor stack).bind fun x =>
        rt.invoke op r x.1 ⟨code, rest, locals, x.2⟩ callers s log :=
  rfl

@[simp] theorem completes_mark :
    rt.Completes ⟨code, mark label :: rest, locals, stack⟩ s Q ↔
      rt.Completes ⟨code, rest, locals, stack⟩ s Q :=
  completes_iff_of_step fun _ _ => rfl

@[simp] theorem completes_aconstNull :
    rt.Completes ⟨code, simple .aconstNull :: rest, locals, stack⟩ s Q ↔
      rt.Completes ⟨code, rest, locals, .ref .null :: stack⟩ s Q :=
  completes_iff_of_step fun _ _ => rfl

@[simp] theorem completes_iconst0 :
    rt.Completes ⟨code, simple .iconst0 :: rest, locals, stack⟩ s Q ↔
      rt.Completes ⟨code, rest, locals, .int 0 :: stack⟩ s Q :=
  completes_iff_of_step fun _ _ => rfl

@[simp] theorem completes_iconst1 :
    rt.Completes ⟨code, simple .iconst1 :: rest, locals, stack⟩ s Q ↔
      rt.Completes ⟨code, rest, locals, .int 1 :: stack⟩ s Q :=
  completes_iff_of_step fun _ _ => rfl

@[simp] theorem completes_dup :
    rt.Completes ⟨code, simple .dup :: rest, locals, v :: stack⟩ s Q ↔
      rt.Completes ⟨code, rest, locals, v :: v :: stack⟩ s Q :=
  completes_iff_of_step fun _ _ => rfl

@[simp] theorem completes_pop :
    rt.Completes ⟨code, simple .pop :: rest, locals, v :: stack⟩ s Q ↔
      rt.Completes ⟨code, rest, locals, stack⟩ s Q :=
  completes_iff_of_step fun _ _ => rfl

@[simp] theorem completes_returnVoid :
    rt.Completes ⟨code, simple .returnVoid :: rest, locals, stack⟩ s Q ↔ Q none s [] :=
  completes_iff_of_leave fun _ _ => rfl

@[simp] theorem completes_areturn :
    rt.Completes ⟨code, simple .areturn :: rest, locals, v :: stack⟩ s Q ↔ Q (some v) s [] :=
  completes_iff_of_leave fun _ _ => rfl

@[simp] theorem completes_ireturn :
    rt.Completes ⟨code, simple .ireturn :: rest, locals, v :: stack⟩ s Q ↔ Q (some v) s [] :=
  completes_iff_of_leave fun _ _ => rfl

@[simp] theorem completes_ldcString {text : String} :
    rt.Completes ⟨code, ldcString text :: rest, locals, stack⟩ s Q ↔
      rt.Completes ⟨code, rest, locals, .ref (.string text) :: stack⟩ s Q :=
  completes_iff_of_step fun _ _ => rfl

theorem completes_var {op : Opcode} {slot : UInt16} (hop : op.isLoad = true) :
    rt.Completes ⟨code, var op slot :: rest, locals, stack⟩ s Q ↔
      ∃ v, locals[slot.toNat]?.join = some v ∧
        rt.Completes ⟨code, rest, locals, v :: stack⟩ s Q := by
  cases hv : locals[slot.toNat]?.join with
  | none =>
    refine iff_of_false (not_completes_of_step fun callers log => ?_) (by simp)
    rw [step_var hop, hv, Option.bind_none]
  | some v =>
    have hstep : ∀ callers log, rt.step (.running ⟨code, var op slot :: rest, locals, stack⟩
        callers s log) = some (.running ⟨code, rest, locals, v :: stack⟩ callers s log) :=
      fun callers log => by
        rw [step_var hop, hv, Option.bind_some]
    rw [completes_iff_of_step hstep]
    simp

@[simp] theorem completes_aload {slot : UInt16} :
    rt.Completes ⟨code, aload slot :: rest, locals, stack⟩ s Q ↔
      ∃ v, locals[slot.toNat]?.join = some v ∧
        rt.Completes ⟨code, rest, locals, v :: stack⟩ s Q :=
  completes_var rfl

@[simp] theorem completes_load {d : Descriptor} {slot : UInt16} :
    rt.Completes ⟨code, Instruction.load d slot :: rest, locals, stack⟩ s Q ↔
      ∃ v, locals[slot.toNat]?.join = some v ∧
        rt.Completes ⟨code, rest, locals, v :: stack⟩ s Q :=
  completes_var (by cases d <;> rfl)

@[simp] theorem completes_astore {slot : UInt16} :
    rt.Completes ⟨code, var .astore slot :: rest, locals, v :: stack⟩ s Q ↔
      rt.Completes (Activation.store ⟨code, rest, locals, stack⟩ slot.toNat v) s Q :=
  completes_iff_of_step fun _ _ => rfl

@[simp] theorem completes_getField {owner name descriptor : String} {id : Nat} :
    rt.Completes ⟨code, getField owner name descriptor :: rest, locals,
        .ref (.object id) :: stack⟩ s Q ↔
      rt.Completes ⟨code, rest, locals,
        s.fields id (rt.field ⟨owner, name, descriptor⟩) :: stack⟩ s Q :=
  completes_iff_of_step fun _ _ => rfl

@[simp] theorem completes_putField {owner name descriptor : String} {id : Nat} :
    rt.Completes ⟨code, putField owner name descriptor :: rest, locals,
        v :: .ref (.object id) :: stack⟩ s Q ↔
      rt.Completes ⟨code, rest, locals, stack⟩
        (s.assign id (rt.field ⟨owner, name, descriptor⟩) (v.narrow descriptor)) Q :=
  completes_iff_of_step fun _ _ => rfl

theorem completes_checkCast {name : String} {r : Ref}
    (h : r = .null ∨ rt.isInstance r name = true) :
    rt.Completes ⟨code, checkCast name :: rest, locals, .ref r :: stack⟩ s Q ↔
      rt.Completes ⟨code, rest, locals, .ref r :: stack⟩ s Q :=
  completes_iff_of_step fun _ _ => if_pos h

theorem completes_newObject {name : String} {id : Nat} (h : rt.new? name s = some (id, t)) :
    rt.Completes ⟨code, newObject name :: rest, locals, stack⟩ s Q ↔
      rt.Completes ⟨code, rest, locals, .ref (.object id) :: stack⟩ t Q :=
  completes_iff_of_step fun _ _ => by
    rw [step_newObject, h, Option.bind_some]

/-! ### Jumps -/

/-- A jump that is not taken. -/
theorem completes_jump_of_false {op : Opcode} {stack' : List Value}
    (h : test? op stack = some (false, stack')) :
    rt.Completes ⟨code, jump op label :: rest, locals, stack⟩ s Q ↔
      rt.Completes ⟨code, rest, locals, stack'⟩ s Q :=
  completes_iff_of_step fun _ _ => by
    rw [step_jump h]
    rfl

/-- A jump that is taken, to the one mark of its label. -/
theorem completes_jump_of_true {op : Opcode} {stack' : List Value} {rest' : List Instruction}
    (h : test? op stack = some (true, stack'))
    (hmark : code.dropWhile (· ≠ .mark label) = .mark label :: rest') :
    rt.Completes ⟨code, jump op label :: rest, locals, stack⟩ s Q ↔
      rt.Completes ⟨code, .mark label :: rest', locals, stack'⟩ s Q :=
  completes_iff_of_step fun _ _ => by
    rw [step_jump h, if_pos rfl, Activation.jumpTo?, hmark]
    rfl

/-! ### Calls -/

/-- A call, and what follows it. -/
theorem Completes.invoke {op : Opcode} {r : MemberRef} {args below : List Value}
    (hargs : arguments? op r.descriptor stack = some (args, below))
    (hreceiver : op = .invokestatic ∨ args.head? ≠ some (.ref .null))
    (h : rt.Invokes op r args s fun v? s' events =>
      rt.Completes ⟨code, rest, locals, v?.toList ++ below⟩ s' fun w? t events' =>
        Q w? t (events ++ events')) :
    rt.Completes ⟨code, .invoke op r :: rest, locals, stack⟩ s Q := by
  have hstep : ∀ callers log, rt.step (.running ⟨code, .invoke op r :: rest, locals, stack⟩
      callers s log) = rt.invoke op r args ⟨code, rest, locals, below⟩ callers s log :=
    fun callers log => by
      rw [step_invoke, hargs, Option.bind_some]
  have hnull : ¬(op ≠ .invokestatic ∧ args.head? = some (.ref .null)) := by
    rintro ⟨hop, hhead⟩
    exact hreceiver.elim hop fun hne => hne hhead
  unfold Runtime.invoke at hstep
  simp only [if_neg hnull] at hstep
  unfold Invokes at h
  split at h
  · next body hbody =>
    obtain ⟨v?, s', events, hcallee, w?, t, events', hrest, hQ⟩ := h
    refine ⟨w?, t, events ++ events', fun callers log => ?_, hQ⟩
    refine .head ((hstep callers log).trans (by rw [hbody])) ((hcallee _ log).trans ?_)
    rw [← List.append_assoc]
    exact hrest callers (log ++ events)
  · next hbody =>
    obtain ⟨v?, s', hcall, w?, t, events', hrest, hQ⟩ := h
    refine ⟨w?, t, _, fun callers log => ?_, hQ⟩
    refine .head ((hstep callers log).trans (by rw [hbody, hcall]; rfl)) ?_
    rw [← List.append_assoc]
    exact hrest callers _

/-- A call that leaves the synthesized code, and what follows it. -/
theorem Completes.answer {op : Opcode} {r : MemberRef} {args below : List Value}
    {P : Option Value → Store World → Prop}
    (hargs : arguments? op r.descriptor stack = some (args, below))
    (hreceiver : op = .invokestatic ∨ args.head? ≠ some (.ref .null)) (h : rt.Answers op r args s P)
    (hrest : ∀ v? s', P v? s' →
      rt.Completes ⟨code, rest, locals, v?.toList ++ below⟩ s' fun w? t events =>
        Q w? t (⟨r, args, v?, s.fields⟩ :: events)) :
    rt.Completes ⟨code, .invoke op r :: rest, locals, stack⟩ s Q := by
  obtain ⟨hbody, v?, s', hcall, hP⟩ := h
  exact Completes.invoke hargs hreceiver ((invokes_of_call hbody hcall).2 (hrest v? s' hP))

end Rules

/-! ## Methods that are not called -/

/-- The same classes, without the methods of a name. -/
def refusing (rt : Runtime World) (name : String) : Runtime World where
  body? op r args := if r.name = name then none else rt.body? op r args
  call? r args s := if r.name = name then none else rt.call? r args s
  field := rt.field
  isInstance := rt.isInstance
  new? := rt.new?

variable {name : String}

theorem refusing_body? {op : Opcode} {r : MemberRef} {args : List Value} (h : r.name ≠ name) :
    (rt.refusing name).body? op r args = rt.body? op r args :=
  if_neg h

theorem Answers.refusing {op : Opcode} {r : MemberRef} {args : List Value}
    {P : Option Value → Store World → Prop} (h : rt.Answers op r args s P) (hr : r.name ≠ name) :
    (rt.refusing name).Answers op r args s P := by
  obtain ⟨hbody, v?, s', hcall, hP⟩ := h
  exact ⟨(if_neg hr).trans hbody, v?, s', (if_neg hr).trans hcall, hP⟩

theorem execute_refusing {i : Instruction} {callers : List Activation} {log : List Event}
    (h : ∀ op r, i ≠ .invoke op r) :
    (rt.refusing name).execute i a callers s log = rt.execute i a callers s log := by
  obtain ⟨code, rest, locals, stack⟩ := a
  cases i with
  | invoke op r => exact absurd rfl (h op r)
  | simple op => cases op <;> cases stack <;> rfl
  | field op r =>
    cases op with
    | getfield => rcases stack with _ | ⟨_ | _ | _ | _ | _ | _ | _, stack⟩ <;> rfl
    | putfield => rcases stack with _ | ⟨v, _ | ⟨_ | _ | _ | _ | _ | _ | _, stack⟩⟩ <;> rfl
    | _ => rfl
  | type op className =>
    cases op with
    | checkcast => rcases stack with _ | ⟨_ | _ | _ | _ | _, stack⟩ <;> rfl
    | _ => rfl
  | _ => rfl

/-- Without the methods the machine takes the same steps, but none that calls one of them. -/
theorem step_of_refusing {x y : State World} (h : (rt.refusing name).step x = some y) :
    rt.step x = some y ∧ ¬x.Calls name := by
  cases x with
  | returned => cases h
  | running a callers s log =>
    obtain ⟨code, rest, locals, stack⟩ := a
    cases rest with
    | nil => cases h
    | cons i rest =>
      by_cases hi : ∃ op r, i = .invoke op r
      · obtain ⟨op, r, rfl⟩ := hi
        rw [step_invoke] at h ⊢
        obtain ⟨⟨args, below⟩, hargs, h⟩ := Option.bind_eq_some_iff.1 h
        rw [hargs, Option.bind_some]
        unfold Runtime.invoke at h ⊢
        by_cases hname : r.name = name
        · simp [Runtime.refusing, hname] at h
        · refine ⟨by simpa [Runtime.refusing, hname] using h, ?_⟩
          rintro ⟨op', r', rest', heq, hr'⟩
          cases heq
          exact hname hr'
      · have hcalls : ¬(State.running ⟨code, i :: rest, locals, stack⟩ callers s log).Calls name := by
          rintro ⟨op, r, rest', heq, -⟩
          exact hi ⟨op, r, (List.cons.inj heq).1⟩
        exact ⟨(execute_refusing fun op r heq => hi ⟨op, r, heq⟩).symm.trans h, hcalls⟩

/-- An activation that returns without the methods does so without calling them. -/
theorem Returns.not_calls (h : (rt.refusing name).Returns a s v? s' events) {x : State World}
    (hx : rt.Steps (.running a [] s []) x) : ¬x.Calls name := by
  have hpath := h [] []
  generalize State.running a [] s [] = start at hpath hx
  induction hpath using Relation.ReflTransGen.head_induction_on with
  | refl =>
    rw [steps_returned hx]
    exact id
  | head hstep _ ih =>
    obtain ⟨hstep, hcalls⟩ := step_of_refusing hstep
    rcases Relation.ReflTransGen.cases_head hx with rfl | ⟨y, hy, hx⟩
    · exact hcalls
    · obtain rfl := Option.some.inj (hstep.symm.trans hy)
      exact ih hx

theorem Completes.not_calls (h : (rt.refusing name).Completes a s Q) {x : State World}
    (hx : rt.Steps (.running a [] s []) x) : ¬x.Calls name := by
  obtain ⟨v?, s', events, hreturns, -⟩ := h
  exact hreturns.not_calls hx

/-! ## Sequences of calls -/

/-- A body is called on an object with one value after the other: the events of each call, and the
store at the end. -/
inductive Calls (rt : Runtime World) (body : List Instruction) (this : Nat) :
    Store World → List Value → List (List Event) → Store World → Prop
  | nil (s : Store World) : Calls rt body this s [] [] s
  | cons {s s' t : Store World} {v : Value} {vs : List Value} {events : List Event}
    {traces : List (List Event)}
    (first : rt.Returns (.enter body [.ref (.object this), v]) s none s' events)
    (rest : Calls rt body this s' vs traces t) : Calls rt body this s (v :: vs) (events :: traces) t

/-- A sequence of calls goes in one way. -/
theorem Calls.unique {body : List Instruction} {this : Nat} {vs : List Value}
    {traces traces' : List (List Event)} (h : rt.Calls body this s vs traces s')
    (h' : rt.Calls body this s vs traces' t) : traces = traces' ∧ s' = t := by
  induction h generalizing traces' t with
  | nil =>
    cases h'
    exact ⟨rfl, rfl⟩
  | cons first _ ih =>
    cases h' with
    | cons first' rest' =>
      obtain ⟨-, rfl, rfl⟩ := first.unique first'
      obtain ⟨rfl, rfl⟩ := ih rest'
      exact ⟨rfl, rfl⟩

end Runtime

end EntityLoom.Machine
