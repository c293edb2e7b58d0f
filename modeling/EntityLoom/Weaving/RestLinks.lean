import EntityLoom.Weaving.StateField

/-!
# Links

The fields in which the root of a hierarchy keeps the links of an object that is served over HTTP.
-/

namespace EntityLoom.Plan

/-- The members for links, in order. -/
def restMembers (p : Plan) : List MemberDecl :=
  [StateField.relationships.decl, StateField.href.decl, StateField.links.decl] ++
  p.property .relationships "_persistence_getRelationships" "_persistence_setRelationships" ++
  p.property .href "_persistence_getHref" "_persistence_setHref" ++
  p.property .links "_persistence_getLinks" "_persistence_setLinks"

end EntityLoom.Plan
