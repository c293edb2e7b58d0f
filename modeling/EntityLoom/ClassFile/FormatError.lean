import EntityLoom.Bytes

/-!
# Faults of class file data

The causes for which class file data is refused, and the text of each.
-/

namespace EntityLoom

/-- The kind of constant that a reference into the pool asks for. -/
inductive ConstantKind where
  | utf8
  | classRef
  | fieldRef
  | nameAndType
  | memberRef
  deriving DecidableEq, Repr

/-- The name of a kind of constant in messages. -/
def ConstantKind.label : ConstantKind → String
  | utf8 => "Utf8"
  | classRef => "Class"
  | fieldRef => "Fieldref"
  | nameAndType => "NameAndType"
  | memberRef => "member reference"

/-- Why class file data is malformed. -/
inductive FormatError where
  /-- The data ends inside the item that starts at `offset`. -/
  | unexpectedEnd (offset : Nat)
  | invalidMagic (magic : UInt32)
  | invalidConstantTag (tag : UInt8) (index : UInt16)
  /-- The pool holds no constant of the wanted kind at `index`. -/
  | badConstantRef (index : UInt16) (expected : ConstantKind)
  | invalidDescriptor (text : String)
  | trailingBytes (count : Nat)
  | invalidInstruction (opcode : UInt8) (pc : Nat)
  deriving DecidableEq, Repr

/-- The text of a fault. -/
def FormatError.message : FormatError → String
  | unexpectedEnd offset => s!"Unexpected end of class data at offset {offset}"
  | invalidMagic magic => s!"Invalid magic number 0x{Bytes.hexPadded 8 magic.toNat}"
  | invalidConstantTag tag index => s!"Invalid constant pool tag {tag} at index {index}"
  | badConstantRef index expected =>
    s!"Constant pool index {index} is not a {expected.label} entry"
  | invalidDescriptor text => s!"Invalid descriptor: {text}"
  | trailingBytes count => s!"{count} trailing bytes after class data"
  | invalidInstruction opcode pc =>
    s!"Invalid instruction 0x{Bytes.hexPadded 2 opcode.toNat} at pc {pc}"

end EntityLoom
