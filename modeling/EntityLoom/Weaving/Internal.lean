import EntityLoom.Weaving.Boxing
import EntityLoom.Weaving.StateField

/-!
# Cloning, identity, construction and keyed access

The members of a class that is woven for the runtime's internal use.  A shallow clone is followed by
a call that copies the holders and drops what belongs to one object alone.  The root of a hierarchy
holds the identity.  A factory stands in for construction by reflection, and two dispatchers read
and write attributes by name.
-/

namespace EntityLoom

open Instruction

namespace Plan

/-! ## Cloning -/

/-- Replaces the holder of a lazy attribute by its clone, unless there is none. -/
def cloneHolder (p : Plan) (a : MappedAttribute) (skip : Label) : List Instruction :=
  let holder := Names.holderField a.name
  [ aload 0, getField p.className holder Names.holderInterfaceDesc, jump .ifnull skip,
    aload 0, aload 0, getField p.className holder Names.holderInterfaceDesc,
    invokeInterface Names.holderInterface "clone" Names.objectGetter,
    checkCast Names.holderInterface,
    putField p.className holder Names.holderInterfaceDesc, mark skip ]

/-- The state that a clone does not share with the object it was made from. -/
def ownState (p : Plan) : List StateField :=
  (if p.changeTracking then [.listener] else []) ++
  (if p.mapped.fetchGroups then [.fetchGroup, .session] else []) ++
  (if p.mapped.embeddable then [] else [.primaryKey])

/-- The method that finishes a shallow clone. -/
def postClone (p : Plan) : MethodDecl :=
  { access := Access.publicFlag
    name := Names.postClone
    descriptor := Names.objectGetter
    body :=
      (if p.superclassInternal then
        [aload 0, invokeSpecial p.superName Names.postClone Names.objectGetter, simple .pop]
      else []) ++
      p.lazyAttributes.zipIdx.flatMap (fun (a, i) => p.cloneHolder a (UInt32.ofNat i)) ++
      p.ownState.flatMap p.clearState ++
      [aload 0, simple .areturn] }

/-- The method that makes a shallow clone. -/
def shallowClone : MethodDecl :=
  { access := Access.publicFlag
    name := Names.shallowClone
    descriptor := Names.objectGetter
    body :=
      [aload 0, invokeSpecial Names.object "clone" Names.objectGetter, simple .areturn] }

/-! ## Identity -/

/-- The fields that identify an object of a hierarchy, with their accessors. -/
def identityMembers (p : Plan) : List MemberDecl :=
  [StateField.primaryKey.decl, StateField.cacheKey.decl] ++
  p.property .primaryKey "_persistence_getId" "_persistence_setId" ++
  p.property .cacheKey "_persistence_getCacheKey" "_persistence_setCacheKey"

/-! ## Construction -/

/-- The factory that stands in for construction by reflection. -/
def factory (p : Plan) : MethodDecl :=
  { access := Access.publicFlag
    name := Names.factory
    descriptor := Names.factoryDesc
    body :=
      [newObject p.className, simple .dup] ++
      (if p.mapped.constructorOptimization then
        [aload 1, invokeSpecial p.className Names.constructor Names.tokenConstructor]
      else [invokeSpecial p.className Names.constructor Names.noArgs]) ++
      [simple .areturn] }

/-- The constructor that leaves the fields of the class as they are.  It is told from the
application's constructors by its parameter, which it hands on where the superclass has such a
constructor too. -/
def tokenConstructor (p : Plan) : MethodDecl :=
  { access := Access.publicFlag
    name := Names.constructor
    descriptor := Names.tokenConstructor
    body :=
      [aload 0] ++
      (if p.superclassConstructorOptimization then
        [aload 1, invokeSpecial p.superName Names.constructor Names.tokenConstructor]
      else [invokeSpecial p.superName Names.constructor Names.noArgs]) ++
      [simple .returnVoid] }

/-! ## Keyed access -/

/-- The attributes that can be read and written by name: those of the class itself that a field
stands for. -/
def keyedAttributes (p : Plan) : List MappedAttribute :=
  p.ownAttributes.filter fun a => a.hasField && !a.virtualProperty

/-- One alternative of a dispatcher: runs `code` if the key is the attribute's name.  Keys are
compared by identity, for names are interned. -/
def dispatch (a : MappedAttribute) (next : Label) (code : List Instruction) : List Instruction :=
  [aload 1, ldcString a.name, jump .ifAcmpne next] ++ code ++ [mark next]

/-- The dispatchers' alternatives for all keyed attributes. -/
def dispatchAll (p : Plan) (code : MappedAttribute → List Instruction) : List Instruction :=
  p.keyedAttributes.zipIdx.flatMap fun (a, i) => dispatch a (UInt32.ofNat i) (code a)

/-- Reads what is no attribute of the class: the root answers null, other classes ask their
superclass. -/
def inheritedGet (p : Plan) : List Instruction :=
  if p.root then [simple .aconstNull]
  else [aload 0, aload 1, invokeSpecial p.superName Names.genericGet Names.keyedGetter]

/-- Writes what is no attribute of the class: the root ignores it, other classes hand it to their
superclass. -/
def inheritedSet (p : Plan) : List Instruction :=
  if p.root then []
  else
    [ aload 0, aload 1, aload 2,
      invokeSpecial p.superName Names.genericSet Names.genericSetDesc ]

/-- The method that reads an attribute by name. -/
def genericGet (p : Plan) : MethodDecl :=
  { access := Access.publicFlag
    name := Names.genericGet
    descriptor := Names.keyedGetter
    body :=
      p.dispatchAll (fun a =>
        [aload 0, getField p.className a.name a.descriptor] ++ a.type.boxCode ++
          [simple .areturn]) ++
      p.inheritedGet ++ [simple .areturn] }

/-- The method that writes an attribute by name. -/
def genericSet (p : Plan) : MethodDecl :=
  { access := Access.publicFlag
    name := Names.genericSet
    descriptor := Names.genericSetDesc
    body :=
      p.dispatchAll (fun a =>
        [aload 0, aload 2] ++ a.unboxCode ++
          [putField p.className a.name a.descriptor, simple .returnVoid]) ++
      p.inheritedSet ++ [simple .returnVoid] }

/-- The members for cloning, identity and construction, in order. -/
def lifecycleMembers (p : Plan) : List MemberDecl :=
  [.method p.postClone] ++
  (if p.root then
    .method shallowClone :: if p.mapped.embeddable then [] else p.identityMembers
  else []) ++
  [.method p.factory] ++
  (if p.mapped.constructorOptimization then [.method p.tokenConstructor] else [])

/-- The members of a class that is woven for the runtime's internal use, in order. -/
def internalMembers (p : Plan) : List MemberDecl :=
  p.lifecycleMembers ++ [.method p.genericGet, .method p.genericSet]

end Plan

end EntityLoom
