import EntityLoom.Code.Opcode

/-!
# Symbolic instructions

The instructions of a body before assembly: operands are names, and jumps go to labels.  A label is
bound by a mark, which takes no bytes and stands before the instruction that it names.
-/

namespace EntityLoom

/-- A label of a body. -/
abbrev Label := UInt32

/-- A reference to a field or method by names. -/
structure MemberRef where
  owner : String
  name : String
  descriptor : String
  deriving DecidableEq, Repr

/-- A symbolic instruction. -/
inductive Instruction where
  /-- An instruction without operands: a constant, a stack operation, a return. -/
  | simple (op : Opcode)
  /-- A load or store of a local variable. -/
  | var (op : Opcode) (slot : UInt16)
  | field (op : Opcode) (ref : MemberRef)
  | invoke (op : Opcode) (ref : MemberRef)
  /-- An instruction on a class, which is given by its internal name. -/
  | type (op : Opcode) (className : String)
  /-- Pushes a string constant. -/
  | ldcString (text : String)
  | jump (op : Opcode) (target : Label)
  /-- Binds a label to the next instruction. -/
  | mark (label : Label)
  deriving DecidableEq, Repr

namespace Instruction

/-- The opcode of an instruction; a mark has none. -/
def opcode? : Instruction → Option Opcode
  | simple op | var op _ | field op _ | invoke op _ | type op _ | jump op _ => some op
  | ldcString _ => some .ldc
  | mark _ => none

/-- Whether an instruction is a mark. -/
def isMark : Instruction → Bool
  | mark _ => true
  | _ => false

/-- Whether control can reach the instruction that follows. -/
def fallsThrough (i : Instruction) : Bool :=
  match i.opcode? with
  | some op => !op.endsBlock
  | none => true

/-! ## Shorthands -/

def load (d : Descriptor) (slot : UInt16) : Instruction := var d.loadOp slot
def store (d : Descriptor) (slot : UInt16) : Instruction := var d.storeOp slot
def ret (d : Descriptor) : Instruction := simple d.returnOp
def aload (slot : UInt16) : Instruction := var .aload slot

def getField (owner name descriptor : String) : Instruction :=
  field .getfield ⟨owner, name, descriptor⟩

def putField (owner name descriptor : String) : Instruction :=
  field .putfield ⟨owner, name, descriptor⟩

def invokeVirtual (owner name descriptor : String) : Instruction :=
  invoke .invokevirtual ⟨owner, name, descriptor⟩

def invokeSpecial (owner name descriptor : String) : Instruction :=
  invoke .invokespecial ⟨owner, name, descriptor⟩

def invokeStatic (owner name descriptor : String) : Instruction :=
  invoke .invokestatic ⟨owner, name, descriptor⟩

def invokeInterface (owner name descriptor : String) : Instruction :=
  invoke .invokeinterface ⟨owner, name, descriptor⟩

def newObject (className : String) : Instruction := type .new className

def checkCast (className : String) : Instruction := type .checkcast className

end Instruction

end EntityLoom
