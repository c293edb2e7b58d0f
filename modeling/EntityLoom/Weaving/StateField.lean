import EntityLoom.Code.Assembly
import EntityLoom.Weaving.Extension
import EntityLoom.Weaving.Plan

/-!
# State of a woven object

The fields in which a woven object keeps what the runtime needs to know of it, apart from the
holders of its lazy attributes, and the pairs of accessors through which the runtime reaches them.
-/

namespace EntityLoom

open Instruction

/-- A field for the runtime's own state. -/
structure StateField where
  name : String
  type : Descriptor
  deriving DecidableEq, Repr

namespace StateField

def primaryKey : StateField := ⟨"_persistence_primaryKey", .object Names.object⟩
def cacheKey : StateField := ⟨"_persistence_cacheKey", .object Names.cacheKey⟩
def listener : StateField := ⟨"_persistence_listener", .object Names.listener⟩
def fetchGroup : StateField := ⟨"_persistence_fetchGroup", .object Names.fetchGroup⟩
def refreshFlag : StateField := ⟨"_persistence_shouldRefreshFetchGroup", .boolean⟩
def session : StateField := ⟨"_persistence_session", .object Names.session⟩
def relationships : StateField := ⟨"_persistence_relationshipInfo", .object Names.list⟩
def href : StateField := ⟨"_persistence_href", .object Names.link⟩
def links : StateField := ⟨"_persistence_links", .object Names.itemLinks⟩

/-- The field as a member that is not serialized. -/
def decl (f : StateField) : MemberDecl :=
  .field
    { access := Access.protectedFlag ||| Access.transientFlag
      name := f.name
      descriptor := f.type.text }

end StateField

namespace Plan

/-- Pushes the content of a state field. -/
def loadState (p : Plan) (f : StateField) : List Instruction :=
  [aload 0, getField p.className f.name f.type.text]

/-- Clears a state field. -/
def clearState (p : Plan) (f : StateField) : List Instruction :=
  [aload 0, simple .aconstNull, putField p.className f.name f.type.text]

/-- The accessors of a state field. -/
def property (p : Plan) (f : StateField) (getter setter : String) : List MemberDecl :=
  [ .method
      { access := Access.publicFlag
        name := getter
        descriptor := Names.getterOf f.type.text
        body := p.loadState f ++ [ret f.type] },
    .method
      { access := Access.publicFlag
        name := setter
        descriptor := Names.setterOf f.type.text
        body :=
          [aload 0, load f.type 1, putField p.className f.name f.type.text, simple .returnVoid] } ]

end Plan

end EntityLoom
