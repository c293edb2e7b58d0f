import EntityLoom.Json.Reader
import EntityLoom.Json.Value
import EntityLoom.Model.Basic

/-!
# Models as JSON

The JSON form of a model: a record with the list of classes.  In a class every field may be missing;
in an attribute the name and the type must be given.  A type is written in either spelling.
-/

namespace EntityLoom

/-- Reads the type of an attribute. -/
def Descriptor.ofJson? (value : Json) : Option Descriptor := do
  match Descriptor.ofEither (← value.text?) with
  | .ok d => some d
  | .error _ => none

namespace MappedAttribute

/-- The fields of an attribute's record, in their order. -/
def jsonKeys : List String :=
  [ "name", "type", "has_field", "getter", "setter", "weave_value_holders",
    "weave_transient_field_value_holders", "attribute_on_superclass", "virtual_property",
    "map_accessor", "mapped_key_map_accessor" ]

/-- Reads an attribute. -/
def ofJson? (value : Json) : Option MappedAttribute := do
  match ← value.fields? jsonKeys with
  | [name, type, hasField, getter, setter, valueHolders, transientHolders, onSuperclass,
      virtualProperty, mapAccessor, keyMapAccessor] =>
    return {
      name := ← Json.required Json.text? name
      type := ← Json.required Descriptor.ofJson? type
      hasField := ← Json.withDefault true Json.flag? hasField
      getter := ← Json.withDefault none Json.optionalText? getter
      setter := ← Json.withDefault none Json.optionalText? setter
      valueHolders := ← Json.withDefault false Json.flag? valueHolders
      transientHolders := ← Json.withDefault false Json.flag? transientHolders
      onSuperclass := ← Json.withDefault false Json.flag? onSuperclass
      virtualProperty := ← Json.withDefault false Json.flag? virtualProperty
      mapAccessor := ← Json.withDefault false Json.flag? mapAccessor
      keyMapAccessor := ← Json.withDefault false Json.flag? keyMapAccessor }
  | _ => none

/-- The record of an attribute. -/
def toJson (a : MappedAttribute) : Json :=
  .record
    [ ("name", .text a.name), ("type", .text a.type.text), ("has_field", .bool a.hasField),
      ("getter", .textOrNull a.getter), ("setter", .textOrNull a.setter),
      ("weave_value_holders", .bool a.valueHolders),
      ("weave_transient_field_value_holders", .bool a.transientHolders),
      ("attribute_on_superclass", .bool a.onSuperclass),
      ("virtual_property", .bool a.virtualProperty), ("map_accessor", .bool a.mapAccessor),
      ("mapped_key_map_accessor", .bool a.keyMapAccessor) ]

end MappedAttribute

namespace MappedClass

/-- The fields of a class's record, in their order. -/
def jsonKeys : List String :=
  [ "name", "superclass", "weave_internal", "weave_value_holders", "weave_change_tracking",
    "weave_fetch_groups", "weave_rest", "can_weave_constructor_optimization", "embeddable",
    "uses_attribute_access", "attributes" ]

/-- Reads the attributes of a class. -/
def attributesOfJson? (value : Json) : Option (List MappedAttribute) := do
  (← value.items?).mapM MappedAttribute.ofJson?

/-- Reads a class. -/
def ofJson? (value : Json) : Option MappedClass := do
  match ← value.fields? jsonKeys with
  | [name, superclass, internal, valueHolders, changeTracking, fetchGroups, rest,
      constructorOptimization, embeddable, attributeAccess, attributes] =>
    return {
      name := ← Json.withDefault "" Json.text? name
      superclass := ← Json.withDefault none Json.optionalText? superclass
      internal := ← Json.withDefault false Json.flag? internal
      valueHolders := ← Json.withDefault false Json.flag? valueHolders
      changeTracking := ← Json.withDefault false Json.flag? changeTracking
      fetchGroups := ← Json.withDefault false Json.flag? fetchGroups
      rest := ← Json.withDefault false Json.flag? rest
      constructorOptimization := ← Json.withDefault false Json.flag? constructorOptimization
      embeddable := ← Json.withDefault false Json.flag? embeddable
      attributeAccess := ← Json.withDefault false Json.flag? attributeAccess
      attributes := ← Json.withDefault [] attributesOfJson? attributes }
  | _ => none

/-- The record of a class. -/
def toJson (c : MappedClass) : Json :=
  .record
    [ ("name", .text c.name), ("superclass", .textOrNull c.superclass),
      ("weave_internal", .bool c.internal), ("weave_value_holders", .bool c.valueHolders),
      ("weave_change_tracking", .bool c.changeTracking),
      ("weave_fetch_groups", .bool c.fetchGroups), ("weave_rest", .bool c.rest),
      ("can_weave_constructor_optimization", .bool c.constructorOptimization),
      ("embeddable", .bool c.embeddable), ("uses_attribute_access", .bool c.attributeAccess),
      ("attributes", .array (c.attributes.map MappedAttribute.toJson)) ]

end MappedClass

namespace Model

/-- Reads the list of classes. -/
def classesOfJson? (value : Json) : Option (List MappedClass) := do
  (← value.items?).mapM MappedClass.ofJson?

/-- Reads the classes of a model's text. -/
def classesOfText? (text : String) : Option (List MappedClass) := do
  match ← (← Json.ofText? text).fields? ["classes"] with
  | [classes] => Json.required classesOfJson? classes
  | _ => none

/-- The model of a text. -/
def ofText (text : String) : Except ModelError Model :=
  match classesOfText? text with
  | some classes => ofClasses classes
  | none => .error .json

end Model

end EntityLoom
