import EntityLoom.Code.EmissionError

/-!
# Frames

A frame is what is known of the local variables and of the operand stack at one point of a body.
This file holds the frame on entry to a method, the locals as a stack map writes them, and the
actions on a frame that instructions are made of: pushing, popping with a check, loading, storing
and giving a constructed object its class.
-/

namespace EntityLoom

/-- What is known of a method's values at one point. -/
structure Frame where
  /-- One entry per slot; the second slot of a long or double is `top`. -/
  locals : List VerificationType
  /-- One entry per value, whatever its width, the topmost first. -/
  stack : List VerificationType
  deriving DecidableEq, Repr

namespace Frame

instance : Inhabited Frame := ⟨⟨[], []⟩⟩

/-- The slots that a value takes: a wide value is followed by `top`. -/
def valueSlots (v : VerificationType) : List VerificationType :=
  if v.isWide then [v, .top] else [v]

/-- The name of constructors. -/
def constructorName : String := "<init>"

/-- What is known of the receiver on entry to a method. -/
def receiver (thisClass method : String) : VerificationType :=
  if method = constructorName ∧ thisClass ≠ VerificationType.rootClass then .uninitializedThis
  else .object thisClass

/-- The frame on entry to a method: the receiver, unless the method is static, and the
parameters. -/
def entry (thisClass method : String) (isStatic : Bool) (d : MethodDescriptor) : Frame :=
  { locals := (if isStatic then [] else [receiver thisClass method]) ++
      d.params.flatMap fun p => valueSlots (.ofDescriptor p)
    stack := [] }

/-- How many slots the operand stack takes. -/
def stackSlots (f : Frame) : Nat :=
  total VerificationType.slots f.stack

/-! ## Locals in a stack map -/

/-- The locals without the second slots of wide values, last first and in front of `acc`. -/
def valuesReversed (acc : List VerificationType) (locals : List VerificationType) :
    List VerificationType :=
  match locals with
  | [] => acc
  | v :: rest => valuesReversed (v :: acc) (rest.drop (v.slots - 1))
termination_by locals.length
decreasing_by simp only [List.length_drop, List.length_cons]; omega

/-- The locals as a stack map writes them: one entry per value, without `top`s at the end. -/
def encodedLocals (f : Frame) : List VerificationType :=
  ((valuesReversed [] f.locals).dropWhile (· = .top)).reverse

end Frame

/-! ## What instructions ask for -/

namespace Expectation

/-- Whether a value is what is asked for. -/
def accepts (e : Expectation) (v : VerificationType) : Bool :=
  match e with
  | reference => v.isReference
  | category1 => !v.isWide && v ≠ .top
  | int => v = .integer
  | float => v = .float
  | long => v = .long
  | double => v = .double
  | uninitializedReference =>
    match v with
    | .uninitializedThis | .uninitialized _ => true
    | _ => false
  | value | operandFree => false

/-- What is asked for where a value of a declared type is taken. -/
def ofDescriptor (d : Descriptor) : Expectation :=
  match VerificationType.ofDescriptor d with
  | .object _ => reference
  | .integer => int
  | .float => float
  | .long => long
  | .double => double
  | _ => value

/-- What a load or store asks for.  An instruction that is neither is taken for one of
references. -/
def ofLocalOp : Opcode → Expectation
  | .iload | .istore => int
  | .lload | .lstore => long
  | .fload | .fstore => float
  | .dload | .dstore => double
  | _ => reference

end Expectation

/-! ## Actions on a frame -/

/-- A change of a frame that can fail. -/
abbrev FrameAction := StateT Frame (Except EmissionError)

namespace Frame

/-- Refuses a value that is not what the instruction at `index` asks for. -/
def check (index : Nat) (e : Expectation) (v : VerificationType) : FrameAction Unit :=
  if e.accepts v then pure () else throw (.typeMismatch index e (.type v))

/-- Pushes a value. -/
def push (v : VerificationType) : FrameAction Unit :=
  modify fun f => { f with stack := v :: f.stack }

/-- Pops a value; `index` is the instruction that asks for it. -/
def pop (index : Nat) : FrameAction VerificationType := fun f =>
  match f.stack with
  | v :: stack => .ok (v, { f with stack })
  | [] => .error (.stackUnderflow index)

/-- Pops a value that is what the instruction at `index` asks for. -/
def popExpecting (index : Nat) (e : Expectation) : FrameAction VerificationType := do
  let v ← pop index
  check index e v
  return v

/-- Pops a value of a declared type. -/
def popDeclared (index : Nat) (d : Descriptor) : FrameAction Unit := do
  let _ ← popExpecting index (.ofDescriptor d)

/-- Pushes the value of a local variable.  A slot that was never written holds `top`. -/
def load (index : Nat) (op : Opcode) (slot : UInt16) : FrameAction Unit := do
  let v := (← get).locals.getD slot.toNat .top
  check index (.ofLocalOp op) v
  push v

/-- Fills locals with `top` up to a number of slots. -/
def padTo (n : Nat) (locals : List VerificationType) : List VerificationType :=
  locals ++ List.replicate (n - locals.length) .top

/-- Locals with `top` in place of a wide value whose second slot is `slot`. -/
def breakPair (slot : Nat) (locals : List VerificationType) : List VerificationType :=
  if 0 < slot ∧ (locals.getD (slot - 1) .top).isWide then locals.set (slot - 1) .top else locals

/-- Locals after a value was written to `slot`. -/
def write (slot : Nat) (v : VerificationType) (locals : List VerificationType) :
    List VerificationType :=
  let written := (breakPair slot (padTo (slot + v.slots) locals)).set slot v
  if v.isWide then written.set (slot + 1) .top else written

/-- Pops a value into a local variable. -/
def store (index : Nat) (op : Opcode) (slot : UInt16) : FrameAction Unit := do
  let v ← popExpecting index (.ofLocalOp op)
  modify fun f => { f with locals := write slot.toNat v f.locals }

/-- Puts one verification type in place of another everywhere. -/
def replace (old new : VerificationType) (f : Frame) : Frame :=
  let swap := fun v => if v = old then new else v
  ⟨f.locals.map swap, f.stack.map swap⟩

end Frame

end EntityLoom
