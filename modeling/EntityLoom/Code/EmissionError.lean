import EntityLoom.Code.Opcode
import EntityLoom.Frame.VerificationType

/-!
# Faults of synthesized code

The causes for which a body, a member or a pool entry cannot be emitted, and the text of each.
-/

namespace EntityLoom

/-- What an instruction wanted on the stack or in a slot. -/
inductive Expectation where
  | reference
  | category1
  | int
  | float
  | long
  | double
  /-- A value of a declared type that no value has. -/
  | value
  | operandFree
  | uninitializedReference
  deriving DecidableEq, Repr

/-- The name of an expectation in messages. -/
def Expectation.label : Expectation → String
  | reference => "reference"
  | category1 => "category 1 value"
  | int => "int"
  | float => "float"
  | long => "long"
  | double => "double"
  | value => "value"
  | operandFree => "operand-free instruction"
  | uninitializedReference => "uninitialized reference"

/-- What stood in place of what an instruction wanted. -/
inductive Finding where
  | type (found : VerificationType)
  | opcode (found : Opcode)
  deriving DecidableEq, Repr

/-- The name of a finding in messages. -/
def Finding.label : Finding → String
  | type found => found.describe
  | opcode found => found.title

/-- Why code cannot be emitted. -/
inductive EmissionError where
  | unresolvedLabel (label : UInt32)
  | duplicateLabel (label : UInt32)
  | branchOutOfRange (offset : Nat) (delta : Int)
  | stackUnderflow (index : Nat)
  | stackMismatch (index expected actual : Nat)
  | typeMismatch (index : Nat) (expected : Expectation) (found : Finding)
  | fallOffEnd
  | unreachable (index : Nat)
  | constantPoolOverflow
  | codeTooLarge (size : Nat)
  | badDescriptor (text : String)
  deriving DecidableEq, Repr

/-- The text of a fault. -/
def EmissionError.message : EmissionError → String
  | unresolvedLabel label => s!"Label {label} is referenced but never bound"
  | duplicateLabel label => s!"Label {label} is bound more than once"
  | branchOutOfRange offset delta =>
    s!"Branch at offset {offset} cannot reach its target ({delta} bytes)"
  | stackUnderflow index => s!"Stack underflow at instruction {index}"
  | stackMismatch index expected actual =>
    s!"Stack height mismatch at instruction {index}: {expected} vs {actual}"
  | typeMismatch index expected found =>
    s!"Type mismatch at instruction {index}: expected {expected.label}, found {found.label}"
  | fallOffEnd => "Execution falls off the end of the method"
  | unreachable index => s!"Instruction {index} is unreachable"
  | constantPoolOverflow => "Constant pool overflow"
  | codeTooLarge size => s!"Method body too large ({size} bytes)"
  | badDescriptor text => s!"Malformed descriptor {text}"

end EntityLoom
