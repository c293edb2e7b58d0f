import EntityLoom.Weaving.StateField

/-!
# Fetch groups

A fetch group says which attributes of an object were loaded.  The root of a hierarchy holds the
group, and the checks that accessors make before they touch a field.  An attribute that was not
loaded is handed to the runtime, which loads it.
-/

namespace EntityLoom

open Instruction

namespace Plan

/-- The field of the fetch group, hidden from the layers that would otherwise map it. -/
def fetchGroupField (p : Plan) : FieldDecl :=
  { access := Access.protectedFlag
    name := StateField.fetchGroup.name
    descriptor := StateField.fetchGroup.type.text
    annotations :=
      (if p.mapped.attributeAccess then [Names.mappingTransient] else []) ++
      (if p.xmlTransient then [Names.xmlTransient] else []) }

/-- The method that resets the fetch group; there is nothing to do. -/
def resetFetchGroup : MethodDecl :=
  { access := Access.publicFlag
    name := "_persistence_resetFetchGroup"
    descriptor := Names.noArgs
    body := [simple .returnVoid] }

/-- The method that tells whether an attribute was fetched.  Without a group all of them were. -/
def isAttributeFetched (p : Plan) : MethodDecl :=
  { access := Access.publicFlag
    name := Names.isAttributeFetched
    descriptor := Names.stringTest
    body :=
      p.loadState .fetchGroup ++ [jump .ifnull 0] ++
      p.loadState .fetchGroup ++
      [ aload 1, invokeVirtual Names.fetchGroup "containsAttributeInternal" Names.stringTest,
        jump .ifeq 1, mark 0, simple .iconst1, jump .goto 2, mark 1, simple .iconst0, mark 2,
        simple .ireturn ] }

/-- A method that hands an attribute to the runtime if it was not fetched. -/
def fetchGuard (p : Plan) (name callback : String) : MethodDecl :=
  { access := Access.publicFlag
    name
    descriptor := Names.stringConsumer
    body :=
      [ aload 0, aload 1,
        invokeVirtual p.className Names.isAttributeFetched Names.stringTest, jump .ifne 0,
        aload 0, checkCast Names.fetchGroupTracker, aload 1,
        invokeStatic Names.entityManager callback Names.unfetchedCallback,
        mark 0, simple .returnVoid ] }

/-- The members for fetch groups, in order. -/
def fetchGroupMembers (p : Plan) : List MemberDecl :=
  [.field p.fetchGroupField, StateField.refreshFlag.decl, StateField.session.decl] ++
  p.property .session "_persistence_getSession" "_persistence_setSession" ++
  p.property .fetchGroup "_persistence_getFetchGroup" "_persistence_setFetchGroup" ++
  p.property .refreshFlag "_persistence_shouldRefreshFetchGroup"
    "_persistence_setShouldRefreshFetchGroup" ++
  [ .method resetFetchGroup, .method p.isAttributeFetched,
    .method (p.fetchGuard Names.checkFetched "processUnfetchedAttribute"),
    .method (p.fetchGuard Names.checkFetchedForSet "processUnfetchedAttributeForSet") ]

end Plan

end EntityLoom
