import EntityLoom.ClassFile.Basic
import EntityLoom.Frame.Analysis
import EntityLoom.Frame.StackMap
import EntityLoom.Sorting
import Std.Data.TreeMap

/-!
# Assembling bodies

A body is assembled in four steps: the operands are interned in order, the instructions are laid out
and the labels bound, the frames are computed, and the instructions are encoded.  The targets of the
jumps then get a stack map, if the class file has one.
-/

namespace EntityLoom

/-! ## Operands and lengths -/

namespace Instruction

/-- Interns the operand of an instruction; one that names nothing in the pool has operand 0. -/
def internOperand : Instruction → Interning UInt16
  | field _ r => Interning.fieldRef r.owner r.name r.descriptor
  | invoke op r => Interning.methodRef r.owner r.name r.descriptor (op = .invokeinterface)
  | type _ name => Interning.classRef name
  | ldcString text => Interning.string text
  | _ => return 0

/-- The number of bytes of an instruction with the given operand. -/
def encodedLength (operand : UInt16) : Instruction → Nat
  | mark _ => 0
  | simple _ => 1
  | var op slot =>
    if (op.shortForm? slot).isSome then 1 else if slot ≤ 0xFF then 2 else 4
  | invoke op _ => if op = .invokeinterface then 5 else 3
  | field _ _ | type _ _ | jump _ _ => 3
  | ldcString _ => if operand ≤ 0xFF then 2 else 3

end Instruction

/-- An instruction with its operand and its bytecode offset. -/
structure Placed where
  instruction : Instruction
  operand : UInt16
  offset : Nat
  deriving DecidableEq, Repr

namespace Assembly

/-- The places of the labels of a body. -/
abbrev LabelTable := Std.TreeMap Label Nat

/-- A body with all offsets and labels fixed. -/
structure Plan where
  placed : List Placed
  labels : LabelTable
  /-- The number of bytes of the whole body. -/
  size : Nat

/-- The largest number of bytes of a body. -/
def maxSize : Nat := 65535

/-- Lays out instructions with their operands one after the other.  `acc` holds the instructions
placed so far, last first, `index` their number and `offset` their size. -/
def place (acc : List Placed) (labels : LabelTable) (index offset : Nat) :
    List (Instruction × UInt16) → Except EmissionError Plan
  | [] => .ok ⟨acc.reverse, labels, offset⟩
  | (i, operand) :: rest =>
    let next := offset + i.encodedLength operand
    match i with
    | .mark label =>
      if label ∈ labels then .error (.duplicateLabel label)
      else place (⟨i, operand, offset⟩ :: acc) (labels.insert label index) (index + 1) next rest
    | _ => place (⟨i, operand, offset⟩ :: acc) labels (index + 1) next rest

/-- Refuses a jump to a label that is not bound. -/
def checkJump (labels : LabelTable) : Instruction → Except EmissionError Unit
  | .jump _ label => if label ∈ labels then .ok () else .error (.unresolvedLabel label)
  | _ => .ok ()

/-- Lays out a body and checks its size and its jumps. -/
def plan (body : List (Instruction × UInt16)) : Except EmissionError Plan := do
  let plan ← place [] ∅ 0 0 body
  unless plan.size ≤ maxSize do throw (.codeTooLarge plan.size)
  body.forM fun (i, _) => checkJump plan.labels i
  return plan

/-- The body of a method of `thisClass` as the frame analysis takes it. -/
def Plan.layout (p : Plan) (thisClass : String) : Layout :=
  { thisClass
    instructions := (p.placed.map Placed.instruction).toArray
    offsets := (p.placed.map Placed.offset).toArray
    target? := fun label => p.labels[label]? }

/-! ## Encoding -/

/-- The argument count byte of a call through an interface: the slots of the arguments and one for
the receiver. -/
def countByte (d : MethodDescriptor) : UInt8 :=
  (d.argSlots + 1).toUInt8

/-- The two bytes of a branch distance. -/
def branchBytes (delta : Int) : Bytes :=
  Bytes.ofWord16 (Int16.ofInt delta).toUInt16

/-- The bytes of a placed instruction; `targetOffset?` answers the offset of a label. -/
def encode (targetOffset? : Label → Option Nat) (p : Placed) : Except EmissionError Bytes :=
  match p.instruction with
  | .mark _ => .ok []
  | .simple op => .ok [op.byte]
  | .var op slot =>
    match op.shortForm? slot with
    | some b => .ok [b]
    | none =>
      if slot ≤ 0xFF then .ok [op.byte, slot.toUInt8]
      else .ok (Opcode.wide.byte :: op.byte :: Bytes.ofWord16 slot)
  | .invoke op r =>
    if op = .invokeinterface then do
      let d ← r.methodType
      return op.byte :: (Bytes.ofWord16 p.operand ++ [countByte d, 0])
    else .ok (op.byte :: Bytes.ofWord16 p.operand)
  | .field op _ | .type op _ => .ok (op.byte :: Bytes.ofWord16 p.operand)
  | .ldcString _ =>
    if p.operand ≤ 0xFF then .ok [Opcode.ldc.byte, p.operand.toUInt8]
    else .ok (Opcode.ldcW.byte :: Bytes.ofWord16 p.operand)
  | .jump op label =>
    match targetOffset? label with
    | none => .error (.unresolvedLabel label)
    | some target =>
      let delta : Int := (target : Int) - (p.offset : Int)
      if -0x8000 ≤ delta ∧ delta < 0x8000 then .ok (op.byte :: branchBytes delta)
      else .error (.branchOutOfRange p.offset delta)

/-! ## Jump targets -/

/-- The instruction that a mark at place `i` names: the first one from there on that is no mark, or
the last mark of the body. -/
def landing (instructions : Array Instruction) (i : Nat) : Nat :=
  if (instructions[i]?).any Instruction.isMark ∧ i + 1 < instructions.size then
    landing instructions (i + 1)
  else i
termination_by instructions.size - i

/-- The place that a jump lands at. -/
def jumpLanding? (labels : LabelTable) (instructions : Array Instruction) :
    Instruction → Option Nat
  | .jump _ label => (labels[label]?).map (landing instructions)
  | _ => none

/-- The offset and frame of an instruction that a jump lands at. -/
def landingFrame (layout : Layout) (analysis : Analysis) (i : Nat) :
    Except EmissionError (Nat × Frame) :=
  match (analysis.frames[i]?).join with
  | some f => .ok (layout.offsets.getD i 0, f)
  | none => .error (.unreachable i)

/-- The offsets and frames of the instructions that jumps land at, each once and in order. -/
def landingFrames (labels : LabelTable) (layout : Layout) (analysis : Analysis) :
    Except EmissionError (List (Nat × Frame)) := do
  let landings := layout.instructions.toList.filterMap (jumpLanding? labels layout.instructions)
  landings.forM fun i => do
    let _ ← landingFrame layout analysis i
  (sortBy (· ≤ ·) landings).eraseReps.mapM (landingFrame layout analysis)

end Assembly

/-! ## Methods -/

/-- A method before assembly. -/
structure MethodDecl where
  access : UInt16
  name : String
  descriptor : String
  body : List Instruction
  deriving DecidableEq, Repr

/-- An assembled body. -/
structure CodeBody where
  maxStack : UInt16
  maxLocals : UInt16
  code : Bytes
  /-- The content of the stack map attribute, if the body has one. -/
  stackMap : Option Bytes
  deriving DecidableEq, Repr

namespace MethodDecl

/-- The name and the descriptor together, by which a class tells its methods apart. -/
def signature (m : MethodDecl) : String :=
  m.name ++ m.descriptor

/-- The parameters and result of the method. -/
def type (m : MethodDecl) : Except EmissionError MethodDescriptor :=
  match MethodDescriptor.ofText m.descriptor with
  | .ok d => .ok d
  | .error _ => .error (.badDescriptor m.descriptor)

/-- Assembles the body for a class; `withFrames` says whether its class file has stack maps. -/
def assemble (m : MethodDecl) (thisClass : String) (withFrames : Bool) : Interning CodeBody := do
  let d ← m.type
  let operands ← m.body.mapM Instruction.internOperand
  let plan ← Assembly.plan (m.body.zip operands)
  let entry := Frame.entry thisClass m.name (Access.isStatic m.access) d
  let layout := plan.layout thisClass
  let analysis ← layout.analyze entry
  let targetOffset? := fun label => (plan.labels[label]?).bind (layout.offsets[·]?)
  let parts : List Bytes ←
    plan.placed.mapM (m := Except EmissionError) (Assembly.encode targetOffset?)
  let landings ← if withFrames then Assembly.landingFrames plan.labels layout analysis else pure []
  let stackMap ←
    if landings.isEmpty then pure none else some <$> StackMap.write entry landings
  return ⟨analysis.maxStack, analysis.maxLocals, parts.flatten, stackMap⟩

end MethodDecl

end EntityLoom
