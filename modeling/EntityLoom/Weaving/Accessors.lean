import EntityLoom.Code.Assembly
import EntityLoom.Weaving.Boxing
import EntityLoom.Weaving.Extension
import EntityLoom.Weaving.Plan

/-!
# Members of an attribute

The members that are synthesized for an attribute.  A lazy attribute gets a field for its holder, a
method that makes sure the holder exists, and a getter and a setter of the holder.  An intercepted
attribute gets a getter and a setter of its field, which check that it was fetched, bring it into
step with its holder and announce the change before it is made.
-/

namespace EntityLoom

open Instruction

namespace Plan

/-! ## The holder of a lazy attribute -/

/-- The field of the holder.  An annotation on the field would turn a class with access through
properties into one with access through fields, so the field of an attribute with a getter is only
annotated on demand. -/
def holderField (p : Plan) (a : MappedAttribute) : FieldDecl :=
  { access := Access.protectedFlag
    name := Names.holderField a.name
    descriptor := Names.holderInterfaceDesc
    annotations :=
      if a.getterName?.isNone ∨ a.transientHolders then p.transientAnnotations else [] }

/-- The class by which code refers to the type of a lazy attribute. -/
def holderTarget (a : MappedAttribute) : String :=
  a.type.classOperand?.getD Names.object

/-- Pushes the holder. -/
def loadHolder (p : Plan) (a : MappedAttribute) : List Instruction :=
  [aload 0, getField p.className (Names.holderField a.name) Names.holderInterfaceDesc]

/-- Calls a method of the holder on the stack. -/
def holderCall (name descriptor : String) : List Instruction :=
  [invokeInterface Names.holderInterface name descriptor]

/-- Pushes the receiver and makes sure that the holder exists. -/
def ensureHolder (p : Plan) (a : MappedAttribute) : List Instruction :=
  [aload 0, invokeVirtual p.className (Names.holderInitializer a.name) Names.noArgs]

/-- Copies the value of the holder into the field. -/
def syncFromHolder (p : Plan) (a : MappedAttribute) : List Instruction :=
  p.ensureHolder a ++ [aload 0] ++ p.loadHolder a ++
    holderCall "getValue" Names.objectGetter ++
    [checkCast (holderTarget a), putField p.className a.name a.descriptor]

/-- Pushes the value of a lazy attribute through the application's getter, or through the
synthesized one. -/
def callGetter (p : Plan) (a : MappedAttribute) : List Instruction :=
  let target := holderTarget a
  let plain := Names.getterOf ("L" ++ target ++ ";")
  aload 0 ::
    match a.getterName? with
    | some getter =>
      if a.usesKeyedAccessors then
        [ldcString a.name, invokeVirtual p.className getter Names.keyedGetter, checkCast target]
      else [invokeVirtual p.className getter plain, checkCast target]
    | none => [invokeVirtual p.className (Names.fieldGetter a.name) plain]

/-- Gives a lazy attribute the value that `value` pushes, through the application's setter or
through the synthesized one. -/
def callSetter (p : Plan) (a : MappedAttribute) (value : List Instruction) : List Instruction :=
  let plain := Names.setterOf ("L" ++ holderTarget a ++ ";")
  aload 0 ::
    match a.setterName? with
    | some setter =>
      if a.usesKeyedAccessors then
        ldcString a.name :: value ++
          [invokeVirtual p.className setter Names.keyedSetter, simple .pop]
      else value ++ [invokeVirtual p.className setter plain]
    | none => value ++ [invokeVirtual p.className (Names.fieldSetter a.name) plain]

/-- The method that makes sure the holder exists.  A new holder starts with the value of the
field. -/
def holderInitializer (p : Plan) (a : MappedAttribute) : MethodDecl :=
  { access := Access.protectedFlag
    name := Names.holderInitializer a.name
    descriptor := Names.noArgs
    body :=
      p.loadHolder a ++
      [jump .ifnonnull 0, aload 0, newObject Names.valueHolder, simple .dup] ++
      (if a.hasField then
        [ aload 0, getField p.className a.name a.descriptor,
          invokeSpecial Names.valueHolder Names.constructor Names.objectConsumer ]
      else [invokeSpecial Names.valueHolder Names.constructor Names.noArgs]) ++
      [putField p.className (Names.holderField a.name) Names.holderInterfaceDesc] ++
      p.loadHolder a ++ [simple .iconst1] ++
      holderCall "setIsNewlyWeavedValueHolder" "(Z)V" ++
      [mark 0, simple .returnVoid] }

/-- The getter of the holder.  It first brings the attribute into step with a holder that follows
it. -/
def holderGetter (p : Plan) (a : MappedAttribute) : MethodDecl :=
  { access := Access.publicFlag
    name := Names.holderGetter a.name
    descriptor := Names.getterOf Names.holderInterfaceDesc
    body :=
      p.ensureHolder a ++
      p.loadHolder a ++ holderCall "isCoordinatedWithProperty" Names.flagGetter ++
      [jump .ifne 0] ++
      p.loadHolder a ++ holderCall "isNewlyWeavedValueHolder" Names.flagGetter ++
      [jump .ifeq 1, mark 0] ++
      p.callGetter a ++ [var .astore 1, aload 1] ++
      p.loadHolder a ++ holderCall "getValue" Names.objectGetter ++
      [jump .ifAcmpeq 1] ++
      p.callSetter a [aload 1] ++
      [mark 1] ++ p.loadHolder a ++ [simple .areturn] }

/-- The setter of the holder.  The value of a holder that is loaded goes to the attribute when it
differs; a holder that is not clears the field. -/
def holderSetter (p : Plan) (a : MappedAttribute) : MethodDecl :=
  let push := p.callSetter a [aload 3, checkCast (holderTarget a)]
  { access := Access.publicFlag
    name := Names.holderSetter a.name
    descriptor := Names.setterOf Names.holderInterfaceDesc
    body :=
      [ aload 0, aload 1,
        putField p.className (Names.holderField a.name) Names.holderInterfaceDesc, aload 1 ] ++
      holderCall "isInstantiated" Names.flagGetter ++ [jump .ifeq 0] ++
      p.callGetter a ++ [var .astore 2, aload 1] ++
      holderCall "getValue" Names.objectGetter ++ [var .astore 3, aload 2, aload 3] ++
      (if a.setterName?.isSome then [jump .ifAcmpeq 0] ++ push ++ [mark 0]
      else
        [jump .ifAcmpeq 1] ++ push ++ [mark 1, jump .goto 2, mark 0] ++
        (if a.hasField then
          [aload 0, simple .aconstNull, putField p.className a.name a.descriptor]
        else []) ++
        [mark 2]) ++
      [simple .returnVoid] }

/-! ## The accessors of a field -/

/-- Calls one of the methods that check whether an attribute was fetched. -/
def checkFetched (p : Plan) (a : MappedAttribute) (guard : String) : List Instruction :=
  [aload 0, ldcString a.name, invokeVirtual p.className guard Names.stringConsumer]

/-- What both accessors of a field start with: the fetch check and the step with the holder. -/
def accessPrologue (p : Plan) (a : MappedAttribute) (guard : String) : List Instruction :=
  (if p.mapped.fetchGroups then p.checkFetched a guard else []) ++
  (if p.weavesHolder a then p.syncFromHolder a else [])

/-- The getter of a field. -/
def fieldGetter (p : Plan) (a : MappedAttribute) : MethodDecl :=
  { access := Access.publicFlag
    name := Names.fieldGetter a.name
    descriptor := Names.getterOf a.descriptor
    body :=
      p.accessPrologue a Names.checkFetched ++
      [aload 0, getField p.className a.name a.descriptor, ret a.type] }

/-- Calls the method that announces a change. -/
def announce (p : Plan) : Instruction :=
  invokeVirtual p.className Names.propertyChange Names.propertyChangeDesc

/-- Announces a change of a field with its old and its new value. -/
def announceChange (p : Plan) (a : MappedAttribute) : List Instruction :=
  [aload 0, ldcString a.name, aload 0, getField p.className a.name a.descriptor] ++
  a.type.boxCode ++ [load a.type 1] ++ a.type.boxCode ++ [p.announce]

/-- The setter of a field.  The change is announced before it is made, and the holder follows. -/
def fieldSetter (p : Plan) (a : MappedAttribute) : MethodDecl :=
  { access := Access.publicFlag
    name := Names.fieldSetter a.name
    descriptor := Names.setterOf a.descriptor
    body :=
      p.accessPrologue a Names.checkFetchedForSet ++
      (if p.changeTracking then p.announceChange a else []) ++
      [aload 0, load a.type 1, putField p.className a.name a.descriptor] ++
      (if p.weavesHolder a then
        p.loadHolder a ++ [aload 1] ++ holderCall "setValue" Names.objectConsumer
      else []) ++
      [simple .returnVoid] }

/-- The members of an attribute, in order. -/
def attributeMembers (p : Plan) (a : MappedAttribute) : List MemberDecl :=
  (if p.weavesHolder a then
    [ .field (p.holderField a), .method (p.holderInitializer a), .method (p.holderGetter a),
      .method (p.holderSetter a) ]
  else []) ++
  (if p.intercepts a then [.method (p.fieldGetter a), .method (p.fieldSetter a)] else [])

end Plan

end EntityLoom
