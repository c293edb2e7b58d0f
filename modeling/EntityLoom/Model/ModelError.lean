/-!
# Faults of a model

The causes for which a set of mapped classes is refused, and the text of each.
-/

namespace EntityLoom

/-- A kind of support that a class can only have when its superclass has it. -/
inductive Capability where
  | internal
  | fetchGroups
  | rest
  deriving DecidableEq, Repr

/-- The name of a capability in messages. -/
def Capability.label : Capability → String
  | internal => "internal"
  | fetchGroups => "fetch group"
  | rest => "REST"

/-- Why a model is refused. -/
inductive ModelError where
  /-- The text is not the JSON of a model. -/
  | json
  | duplicateClass (name : String)
  | duplicateAttributeName (className attr : String)
  | missingSuperclass (className superclass : String)
  | cyclicHierarchy (className : String)
  | duplicateAttribute (className attr ancestor : String)
  | primitiveValueHolder (className attr descriptor : String)
  | unreachableValueHolder (className attr : String)
  | capabilityNotInherited (className : String) (capability : Capability) (superclass : String)
  deriving DecidableEq, Repr

/-- The text of a fault. -/
def ModelError.message : ModelError → String
  | json => "Failed to parse weaving model"
  | duplicateClass name => s!"Duplicate class descriptor {name}"
  | duplicateAttributeName className attr =>
    s!"Class {className} declares attribute {attr} twice"
  | missingSuperclass className superclass =>
    s!"Class {className} names superclass {superclass} which has no descriptor"
  | cyclicHierarchy className => s!"Superclass chain of {className} is cyclic"
  | duplicateAttribute className attr ancestor =>
    s!"Attribute {attr} of {className} is also declared by ancestor {ancestor}"
  | primitiveValueHolder className attr descriptor =>
    s!"Attribute {attr} of {className} requests a value holder but has type {descriptor}"
  | unreachableValueHolder className attr =>
    s!"Lazy attribute {attr} of {className} has neither a field nor accessors"
  | capabilityNotInherited className capability superclass =>
    s!"{className} enables {capability.label} weaving but its superclass {superclass} does not"

end EntityLoom
