import EntityLoom.Code.Instruction
import EntityLoom.Frame.Basic

/-!
# Executing instructions on frames

What each symbolic instruction does to a frame.  An instruction fails when the stack or a local
variable does not hold what it asks for, or when its descriptor is malformed.
-/

namespace EntityLoom

namespace MemberRef

/-- The type of a field reference. -/
def fieldType (r : MemberRef) : Except EmissionError Descriptor :=
  match Descriptor.ofText r.descriptor with
  | .ok d => .ok d
  | .error _ => .error (.badDescriptor r.descriptor)

/-- The parameters and result of a method reference. -/
def methodType (r : MemberRef) : Except EmissionError MethodDescriptor :=
  match MethodDescriptor.ofText r.descriptor with
  | .ok d => .ok d
  | .error _ => .error (.badDescriptor r.descriptor)

end MemberRef

namespace Frame

/-- Executes an instruction without operands. -/
def executeSimple (index : Nat) (op : Opcode) : FrameAction Unit :=
  match op with
  | .aconstNull => push .null
  | .iconst0 | .iconst1 => push .integer
  | .pop => do let _ ← popExpecting index .category1
  | .dup => do
    let v ← popExpecting index .category1
    push v
    push v
  | .athrow | .areturn => do let _ ← popExpecting index .reference
  | .ireturn => popDeclared index .int
  | .lreturn => popDeclared index .long
  | .freturn => popDeclared index .float
  | .dreturn => popDeclared index .double
  | .returnVoid => pure ()
  | other => throw (.typeMismatch index .operandFree (.opcode other))

/-- Executes an instruction on a field.  One that is neither a read nor `putfield` is taken for a
write of a static field. -/
def executeField (index : Nat) (op : Opcode) (r : MemberRef) : FrameAction Unit := do
  let d ← r.fieldType
  match op with
  | .getfield =>
    let _ ← popExpecting index .reference
    push (.ofDescriptor d)
  | .putfield =>
    popDeclared index d
    let _ ← popExpecting index .reference
  | .getstatic => push (.ofDescriptor d)
  | _ => popDeclared index d

/-- The class that a constructor call gives its receiver, unless it is constructed already. -/
def constructedClass? (thisClass owner : String) : VerificationType → Option String
  | .uninitializedThis => some thisClass
  | .uninitialized _ => some owner
  | _ => none

/-- Gives the receiver of a call its class, if the call is one of a constructor. -/
def construct (thisClass : String) (index : Nat) (r : MemberRef) (v : VerificationType) :
    FrameAction Unit :=
  if r.name = constructorName then
    match constructedClass? thisClass r.owner v with
    | some name => modify (replace v (.object name))
    | none => throw (.typeMismatch index .uninitializedReference (.type v))
  else pure ()

/-- Pops the receiver of a call, unless the call is `invokestatic`. -/
def popReceiver (thisClass : String) (index : Nat) (op : Opcode) (r : MemberRef) :
    FrameAction Unit :=
  if op = .invokestatic then pure ()
  else do
    let v ← popExpecting index .reference
    construct thisClass index r v

/-- Pushes the result of a call, if it has one. -/
def pushResult (d : Descriptor) : FrameAction Unit :=
  if d = .void then pure () else push (.ofDescriptor d)

/-- Executes a call. -/
def executeInvoke (thisClass : String) (index : Nat) (op : Opcode) (r : MemberRef) :
    FrameAction Unit := do
  let d ← r.methodType
  d.params.reverse.forM (popDeclared index)
  popReceiver thisClass index op r
  pushResult d.result

/-- Executes an instruction on a class; `offset` is its bytecode offset.  One that is neither `new`
nor `checkcast` is taken for `instanceof`. -/
def executeType (index offset : Nat) (op : Opcode) (className : String) : FrameAction Unit :=
  match op with
  | .new =>
    if offset < 0x10000 then push (.uninitialized (UInt16.ofNat offset))
    else throw (.codeTooLarge offset)
  | .checkcast => do
    let _ ← popExpecting index .reference
    push (.object className)
  | _ => do
    let _ ← popExpecting index .reference
    push .integer

/-- Executes the test of a jump. -/
def executeJump (index : Nat) (op : Opcode) : FrameAction Unit :=
  match op with
  | .ifeq | .ifne => popDeclared index .int
  | .ifAcmpeq | .ifAcmpne => do
    let _ ← popExpecting index .reference
    let _ ← popExpecting index .reference
  | .ifnull | .ifnonnull => do let _ ← popExpecting index .reference
  | _ => pure ()

/-- Executes an instruction in a method of `thisClass`; `index` is its place in the body and
`offset` its bytecode offset. -/
def execute (thisClass : String) (index offset : Nat) : Instruction → FrameAction Unit
  | .mark _ => pure ()
  | .simple op => executeSimple index op
  | .var op slot => if op.isLoad then load index op slot else store index op slot
  | .field op r => executeField index op r
  | .invoke op r => executeInvoke thisClass index op r
  | .type op name => executeType index offset op name
  | .ldcString _ => push (.object "java/lang/String")
  | .jump op _ => executeJump index op

/-- The frame after an instruction. -/
def after (thisClass : String) (index offset : Nat) (i : Instruction) (f : Frame) :
    Except EmissionError Frame :=
  match (execute thisClass index offset i).run f with
  | .ok (_, f') => .ok f'
  | .error e => .error e

end Frame

end EntityLoom
