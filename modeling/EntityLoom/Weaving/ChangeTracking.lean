import EntityLoom.Weaving.StateField

/-!
# Change tracking

The listener of a class that tracks its changes, and the method through which the setters announce a
change.  The first class of a hierarchy that tracks changes holds both.
-/

namespace EntityLoom

open Instruction

namespace Plan

/-- The method that announces a change to the listener, if there is one and the values differ. -/
def propertyChange (p : Plan) : MethodDecl :=
  { access := Access.publicFlag
    name := Names.propertyChange
    descriptor := Names.propertyChangeDesc
    body :=
      p.loadState .listener ++
      [jump .ifnull 0, aload 2, aload 3, jump .ifAcmpeq 0] ++
      p.loadState .listener ++
      [ newObject Names.changeEvent, simple .dup, aload 0, aload 1, aload 2, aload 3,
        invokeSpecial Names.changeEvent Names.constructor Names.changeEventConstructor,
        invokeInterface Names.listener "propertyChange" Names.changeEventConsumer,
        mark 0, simple .returnVoid ] }

/-- The members for change tracking, in order. -/
def changeTrackingMembers (p : Plan) : List MemberDecl :=
  [StateField.listener.decl] ++
  p.property .listener "_persistence_getPropertyChangeListener"
    "_persistence_setPropertyChangeListener" ++
  [.method p.propertyChange]

end Plan

end EntityLoom
