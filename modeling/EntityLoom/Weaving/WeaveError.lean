import EntityLoom.ClassFile.FormatError
import EntityLoom.Code.EmissionError
import EntityLoom.Model.ModelError

/-!
# Faults of weaving

The causes for which one class cannot be woven, and the text of each.
-/

namespace EntityLoom

/-- Why a class cannot be woven. -/
inductive WeaveError where
  | classFormat (cause : FormatError)
  | model (cause : ModelError)
  /-- The model does not map the class. -/
  | unknownClass (name : String)
  /-- The class file and the mapping disagree on a name. -/
  | classMismatch (expected found : String)
  | duplicateMember (className name descriptor : String)
  /-- A member of the class cannot be emitted. -/
  | emission (className member : String) (cause : EmissionError)
  deriving DecidableEq, Repr

/-- The text of a fault. -/
def WeaveError.message : WeaveError → String
  | classFormat cause => s!"Malformed class file: {cause.message}"
  | model cause => s!"Invalid weaving model: {cause.message}"
  | unknownClass name => s!"No weaving descriptor for class {name}"
  | classMismatch expected found =>
    s!"Class file declares {found} but descriptor is for {expected}"
  | duplicateMember className name descriptor =>
    s!"{className} already declares {name}{descriptor}"
  | emission className member cause => s!"Failed to emit {member} in {className}: {cause.message}"

/-- The outcome of a step that reads class file data. -/
def WeaveError.ofFormat : Except FormatError α → Except WeaveError α
  | .ok x => .ok x
  | .error e => .error (.classFormat e)

end EntityLoom
