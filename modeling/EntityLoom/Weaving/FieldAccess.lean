import EntityLoom.Code.Walk
import EntityLoom.Weaving.Extension
import EntityLoom.Weaving.Names
import EntityLoom.Weaving.Plan

/-!
# Field access in existing methods

Reads and writes of an intercepted attribute's field become calls of its accessors in every method
that the class had before, but for constructors and the static initializer.  The call has the length
and the effect on the stack of the instruction that it replaces, so offsets, jumps and stack maps
stay valid.  All sites are found before the first one is changed.
-/

namespace EntityLoom

/-- A field access that goes through an accessor. -/
structure FieldAccess where
  /-- The name and descriptor of the method that holds the access. -/
  method : String
  pc : Nat
  field : String
  write : Bool
  deriving DecidableEq, Repr

namespace FieldAccess

/-- The place of a field access in a class file. -/
structure Site where
  /-- The place of the method in the class. -/
  method : Nat
  /-- The place of the code attribute in the method. -/
  codeAttribute : Nat
  /-- The place of the instruction in the content of the attribute. -/
  offset : Nat
  /-- The descriptor of the field. -/
  descriptor : String
  access : FieldAccess
  deriving DecidableEq, Repr

/-- The descriptor under which the field of an attribute is intercepted.  Of attributes with one
name the last counts. -/
def interceptedDescriptor? (p : Plan) (field : String) : Option String :=
  ((p.ownAttributes.filter p.intercepts).reverse.find? (·.name = field)).map
    MappedAttribute.descriptor

/-- Whether an instruction reads or writes a field: `some true` for a write. -/
def fieldWrite? (opcode : UInt8) : Option Bool :=
  if opcode = Opcode.getfield.byte then some false
  else if opcode = Opcode.putfield.byte then some true
  else none

/-- The operand of the instruction at `pc`. -/
def operandAt (code : Array UInt8) (pc : Nat) : UInt16 :=
  Bytes.word16 (code.getD (pc + 1) 0) (code.getD (pc + 2) 0)

/-- The owner's field that the instruction at `pc` reads or writes, if it is intercepted. -/
def interceptedAt? (p : Plan) (pool : Pool) (code : Array UInt8) (pc : Nat) (opcode : UInt8) :
    Except FormatError (Option (String × String × Bool)) :=
  match fieldWrite? opcode with
  | none => .ok none
  | some write => do
    let (owner, field, descriptor) ← pool.fieldRefAt (operandAt code pc)
    if owner = p.className ∧ interceptedDescriptor? p field = some descriptor then
      return some (field, descriptor, write)
    else return none

/-- The site at an instruction of a method's code, if the instruction is intercepted.  `name` is the
name of the method and `index` its place in the class. -/
def siteAt? (p : Plan) (c : ClassFile) (m : Member) (name : String) (index codeAttribute : Nat)
    (code : Array UInt8) (pc : Nat) (opcode : UInt8) : Except FormatError (Option Site) := do
  match ← interceptedAt? p c.pool code pc opcode with
  | none => return none
  | some (field, descriptor, write) =>
    let methodDescriptor ← c.pool.utf8At m.descriptor
    return some
      { method := index, codeAttribute, offset := Walk.codeStart + pc, descriptor
        access := ⟨name ++ methodDescriptor, pc, field, write⟩ : Site }

/-- The sites in the method at place `index` of a class. -/
def sitesOfMethod (p : Plan) (c : ClassFile) (m : Member) (index : Nat) :
    Except FormatError (List Site) := do
  let name ← c.pool.utf8At m.name
  if name = Names.constructor ∨ name = Names.staticInitializer then return []
  match c.findAttribute? m.attributes Attribute.codeName with
  | none => return []
  | some codeAttribute => do
    let info := (m.attributes[codeAttribute]?).elim [] Attribute.info
    let code ← Walk.readCode.onData info
    let bytes := code.toArray
    let walk := Walk.ofCode code
    let sites ← walk.visited.filterMapM fun (pc, opcode) =>
      siteAt? p c m name index codeAttribute bytes pc opcode
    match walk.fault with
    | some e => throw e
    | none => return sites

/-- The sites in all methods of a class. -/
def sites (p : Plan) (c : ClassFile) : Except FormatError (List Site) := do
  let parts ← c.methods.zipIdx.mapM fun (m, index) => sitesOfMethod p c m index
  return parts.flatten

/-- The accessor that a site is to call. -/
def Site.accessor (s : Site) : String :=
  if s.access.write then Names.fieldSetter s.access.field else Names.fieldGetter s.access.field

/-- The descriptor of the accessor that a site is to call. -/
def Site.accessorDescriptor (s : Site) : String :=
  if s.access.write then Names.setterOf s.descriptor else Names.getterOf s.descriptor

/-- Puts bytes in place of as many others. -/
def replaceAt (offset : Nat) (new bytes : Bytes) : Bytes :=
  bytes.take offset ++ new ++ bytes.drop (offset + new.length)

/-- Puts a call of the method in a slot of the pool in place of the instruction at a site. -/
def patch (methods : List Member) (s : Site) (slot : UInt16) : List Member :=
  let call := Opcode.invokevirtual.byte :: Bytes.ofWord16 slot
  methods.modify s.method fun m =>
    { m with
      attributes := m.attributes.modify s.codeAttribute fun a =>
        { a with info := replaceAt s.offset call a.info } }

/-- Interns the accessor that a site is to call. -/
def internAccessor (p : Plan) (s : Site) : Extending WeaveError UInt16 :=
  let call := Interning.methodRef p.className s.accessor s.accessorDescriptor false
  (ClassFile.interning call).adapt (.emission p.className s.accessor)

/-- Routes the field accesses of a class through the accessors and reports them. -/
def redirectAll (p : Plan) : Extending WeaveError (List FieldAccess) := do
  if p.ownAttributes.all (!p.intercepts ·) then return []
  let found ← WeaveError.ofFormat (sites p (← get))
  let slots ← found.mapM (internAccessor p)
  modify fun c =>
    { c with methods := (found.zip slots).foldl (fun ms (s, slot) => patch ms s slot) c.methods }
  return found.map Site.access

end FieldAccess

end EntityLoom
