import EntityLoom.Code.Instruction
import Mathlib.Data.Int.Init
import Mathlib.Logic.Function.Basic
import Mathlib.Logic.Relation

/-!
# The machine that runs synthesized code

What synthesized bodies do when they are run.  A state is a stack of activations, the fields of all
objects and a log of the calls that left the synthesized code.  Classes that are not synthesized are
given by a `Runtime`: what their methods answer, which objects are instances of which classes, and
which synthesized body a call arrives at.  A step that the machine would answer with an exception has
no successor, so what is shown to return was shown to throw nothing.

String constants are interned, so a reference to one is its text.
-/

namespace EntityLoom.Machine

/-! ## Values -/

/-- A reference. -/
inductive Ref where
  | null
  | string (text : String)
  | object (id : Nat)
  deriving DecidableEq, Repr

/-- A value of a field, of a local variable or on the stack.  Floating point values are their
bits. -/
inductive Value where
  | int (n : Int32)
  | long (n : Int64)
  | float (bits : UInt32)
  | double (bits : UInt64)
  | ref (r : Ref)
  deriving DecidableEq, Repr

namespace Value

/-- The slots of local variables that a value takes. -/
def slots : Value → List (Option Value)
  | v@(long _) | v@(double _) => [some v, none]
  | v => [some v]

/-- What a variable of a type keeps of an integer. -/
def narrowInt (d : Descriptor) (n : Int32) : Int32 :=
  match d with
  | .boolean => n &&& 1
  | .byte => n.toInt8.toInt32
  | .char => n.toUInt32.toUInt16.toUInt32.toInt32
  | .short => n.toInt16.toInt32
  | _ => n

/-- What a field with a descriptor keeps of a value. -/
def narrow (descriptor : String) : Value → Value
  | int n =>
    match Descriptor.ofText descriptor with
    | .ok d => int (narrowInt d n)
    | .error _ => int n
  | v => v

/-- The values that a variable of a type can hold. -/
def HasType (d : Descriptor) (v : Value) : Prop :=
  match d, v with
  | .boolean, int n | .byte, int n | .char, int n | .short, int n | .int, int n => narrowInt d n = n
  | .long, long _ | .float, float _ | .double, double _ => True
  | .object _, ref _ | .array _, ref _ => True
  | _, _ => False

end Value

/-! ## States -/

/-- The fields of all objects, and what else there is to the state of a program. -/
structure Store (World : Type) where
  fields : Nat → MemberRef → Value
  world : World

/-- A store after an assignment to a field of an object. -/
def Store.assign {World : Type} (s : Store World) (id : Nat) (field : MemberRef) (v : Value) :
    Store World :=
  { s with fields := Function.update s.fields id (Function.update (s.fields id) field v) }

@[simp] theorem Store.assign_self {World : Type} (s : Store World) (id : Nat) (field : MemberRef)
    (v : Value) : (s.assign id field v).fields id = Function.update (s.fields id) field v :=
  Function.update_self ..

/-- A call of a method that is not synthesized, with the fields as it found them. -/
structure Event where
  target : MemberRef
  args : List Value
  result : Option Value
  fields : Nat → MemberRef → Value

/-- A running body: what is left of it, its local variables and its stack, topmost value first. -/
structure Activation where
  code : List Instruction
  rest : List Instruction
  locals : List (Option Value)
  stack : List Value
  deriving DecidableEq, Repr

/-- A state of the machine: in the middle of a body, or with the answer of the outermost one. -/
inductive State (World : Type) where
  | running (a : Activation) (callers : List Activation) (store : Store World) (log : List Event)
  | returned (result : Option Value) (store : Store World) (log : List Event)

/-- The next step is a call of a method with the given name. -/
def State.Calls (name : String) : State World → Prop
  | .running a _ _ _ => ∃ op r rest, a.rest = .invoke op r :: rest ∧ r.name = name
  | .returned _ _ _ => False

/-- The classes around the synthesized code. -/
structure Runtime (World : Type) where
  /-- The synthesized body that a call with the given arguments runs, receiver first. -/
  body? : Opcode → MemberRef → List Value → Option (List Instruction)
  /-- What any other method answers, if it returns. -/
  call? : MemberRef → List Value → Store World → Option (Option Value × Store World)
  /-- The field that a reference is resolved to. -/
  field : MemberRef → MemberRef
  isInstance : Ref → String → Bool
  /-- Makes room for an object of a class. -/
  new? : String → Store World → Option (Nat × Store World)

namespace Activation

/-- A body that is called. -/
def enter (body : List Instruction) (args : List Value) : Activation :=
  ⟨body, body, args.flatMap Value.slots, []⟩

/-- An activation with the answer of a call. -/
def answered (a : Activation) (v? : Option Value) : Activation :=
  { a with stack := v?.toList ++ a.stack }

/-- Continues at the mark of a label. -/
def jumpTo? (a : Activation) (label : Label) : Option Activation :=
  match a.code.dropWhile (· ≠ .mark label) with
  | [] => none
  | rest => some { a with rest }

/-- Writes a local variable. -/
def store (a : Activation) (slot : Nat) (v : Value) : Activation :=
  let room := a.locals ++ List.replicate (slot + v.slots.length - a.locals.length) none
  { a with locals := room.take slot ++ v.slots ++ room.drop (slot + v.slots.length) }

end Activation

/-! ## Steps -/

/-- The arguments of a call, receiver first, and the stack below them. -/
def arguments? (op : Opcode) (descriptor : String) (stack : List Value) :
    Option (List Value × List Value) :=
  match MethodDescriptor.ofText descriptor with
  | .error _ => none
  | .ok d =>
    let n := d.params.length + if op = .invokestatic then 0 else 1
    if n ≤ stack.length then some ((stack.take n).reverse, stack.drop n) else none

/-- Whether a jump is taken, and the stack behind it. -/
def test? : Opcode → List Value → Option (Bool × List Value)
  | .goto, stack => some (true, stack)
  | .ifeq, .int n :: stack => some (n = 0, stack)
  | .ifne, .int n :: stack => some (n ≠ 0, stack)
  | .ifnull, .ref r :: stack => some (r = .null, stack)
  | .ifnonnull, .ref r :: stack => some (r ≠ .null, stack)
  | .ifAcmpeq, .ref r :: .ref r' :: stack => some (r = r', stack)
  | .ifAcmpne, .ref r :: .ref r' :: stack => some (r ≠ r', stack)
  | _, _ => none

variable {World : Type}

/-- Goes back to the caller. -/
def leave (v? : Option Value) : List Activation → Store World → List Event → State World
  | [], s, log => .returned v? s log
  | c :: callers, s, log => .running (c.answered v?) callers s log

namespace Runtime

variable (rt : Runtime World)

/-- Calls a method, from an activation that took the arguments off its stack. -/
def invoke (op : Opcode) (r : MemberRef) (args : List Value) (a : Activation)
    (callers : List Activation) (s : Store World) (log : List Event) : Option (State World) :=
  if op ≠ .invokestatic ∧ args.head? = some (.ref .null) then none
  else
    match rt.body? op r args with
    | some body => some (.running (.enter body args) (a :: callers) s log)
    | none => do
      let (v?, s') ← rt.call? r args s
      some (.running (a.answered v?) callers s' (log ++ [⟨r, args, v?, s.fields⟩]))

/-- Executes an instruction in an activation that stands behind it. -/
def execute (i : Instruction) (a : Activation) (callers : List Activation) (s : Store World)
    (log : List Event) : Option (State World) :=
  match i, a.stack with
  | .mark _, _ => some (.running a callers s log)
  | .simple .aconstNull, stack =>
    some (.running { a with stack := .ref .null :: stack } callers s log)
  | .simple .iconst0, stack => some (.running { a with stack := .int 0 :: stack } callers s log)
  | .simple .iconst1, stack => some (.running { a with stack := .int 1 :: stack } callers s log)
  | .simple .pop, _ :: stack => some (.running { a with stack } callers s log)
  | .simple .dup, v :: stack => some (.running { a with stack := v :: v :: stack } callers s log)
  | .simple .returnVoid, _ => some (leave none callers s log)
  | .simple .ireturn, v :: _ | .simple .lreturn, v :: _ | .simple .freturn, v :: _
  | .simple .dreturn, v :: _ | .simple .areturn, v :: _ => some (leave (some v) callers s log)
  | .var op slot, stack =>
    if op.isLoad then do
      let v ← a.locals[slot.toNat]?.join
      some (.running { a with stack := v :: stack } callers s log)
    else
      match stack with
      | v :: stack => some (.running ({ a with stack }.store slot.toNat v) callers s log)
      | [] => none
  | .ldcString text, stack =>
    some (.running { a with stack := .ref (.string text) :: stack } callers s log)
  | .field .getfield r, .ref (.object id) :: stack =>
    some (.running { a with stack := s.fields id (rt.field r) :: stack } callers s log)
  | .field .putfield r, v :: .ref (.object id) :: stack =>
    some (.running { a with stack } callers (s.assign id (rt.field r) (v.narrow r.descriptor)) log)
  | .invoke op r, stack => do
    let (args, stack) ← arguments? op r.descriptor stack
    rt.invoke op r args { a with stack } callers s log
  | .type .new name, stack => do
    let (id, s') ← rt.new? name s
    some (.running { a with stack := .ref (.object id) :: stack } callers s' log)
  | .type .checkcast name, .ref r :: stack =>
    if r = .null ∨ rt.isInstance r name then
      some (.running { a with stack := .ref r :: stack } callers s log)
    else none
  | .jump op label, stack => do
    let (taken, stack) ← test? op stack
    let a := { a with stack }
    let a ← if taken then a.jumpTo? label else some a
    some (.running a callers s log)
  | _, _ => none

/-- The next state. -/
def step : State World → Option (State World)
  | .returned _ _ _ => none
  | .running a callers s log =>
    match a.rest with
    | [] => none
    | i :: rest => rt.execute i { a with rest } callers s log

/-- The states that are reached from a state. -/
def Steps : State World → State World → Prop :=
  Relation.ReflTransGen fun x y => rt.step x = some y

/-- An activation returns: whoever called it and whatever was logged before, the machine comes back
to the caller. -/
def Returns (a : Activation) (s : Store World) (v? : Option Value) (s' : Store World)
    (events : List Event) : Prop :=
  ∀ callers log, rt.Steps (.running a callers s log) (leave v? callers s' (log ++ events))

/-- An activation returns with an answer, a store and events that have the given property. -/
def Completes (a : Activation) (s : Store World)
    (Q : Option Value → Store World → List Event → Prop) : Prop :=
  ∃ v? s' events, rt.Returns a s v? s' events ∧ Q v? s' events

/-- A call returns with an answer, a store and events that have the given property. -/
def Invokes (op : Opcode) (r : MemberRef) (args : List Value) (s : Store World)
    (Q : Option Value → Store World → List Event → Prop) : Prop :=
  match rt.body? op r args with
  | some body => rt.Completes (.enter body args) s Q
  | none => ∃ v? s', rt.call? r args s = some (v?, s') ∧ Q v? s' [⟨r, args, v?, s.fields⟩]

/-- A call leaves the synthesized code, and returns with an answer and a store that have the given
property. -/
def Answers (op : Opcode) (r : MemberRef) (args : List Value) (s : Store World)
    (P : Option Value → Store World → Prop) : Prop :=
  rt.body? op r args = none ∧ ∃ v? s', rt.call? r args s = some (v?, s') ∧ P v? s'

end Runtime

end EntityLoom.Machine
