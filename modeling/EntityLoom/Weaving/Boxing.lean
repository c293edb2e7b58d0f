import EntityLoom.Code.Instruction
import EntityLoom.Model.Mapping
import EntityLoom.Weaving.Names

/-!
# Boxing in synthesized code

The instructions that turn the value on top of the stack into an object, and back.  Boxing goes
through `valueOf`, which answers the same object for the same small value, so that an unchanged
primitive is seen as unchanged.
-/

namespace EntityLoom

open Instruction

/-- Boxes a primitive value; a reference stays as it is. -/
def Descriptor.boxCode (d : Descriptor) : List Instruction :=
  match d.wrapper? with
  | some wrapper => [invokeStatic wrapper "valueOf" (Names.boxingDesc d wrapper)]
  | none => []

/-- Casts an object to an attribute's type and unboxes a primitive. -/
def MappedAttribute.unboxCode (a : MappedAttribute) : List Instruction :=
  checkCast a.castTarget ::
    match a.type.wrapper?, a.type.unboxMethod? with
    | some wrapper, some method => [invokeVirtual wrapper method (Names.getterOf a.descriptor)]
    | _, _ => []

end EntityLoom
