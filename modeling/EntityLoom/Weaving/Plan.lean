import EntityLoom.Weaving.Context
import EntityLoom.Weaving.WeaveError

/-!
# Plans

A plan is what is woven into one class: its mapping after the hierarchy and the context had their
say.
-/

namespace EntityLoom

/-- What is woven into a class. -/
structure Plan where
  mapped : MappedClass
  /-- The superclass as the class file names it; calls to the superclass go there. -/
  superName : String
  /-- Whether changes are tracked by woven code rather than by hand. -/
  changeTracking : Bool
  /-- Whether the mapping of an ancestor asks for change tracking. -/
  superclassTracksChanges : Bool
  superclassInternal : Bool
  superclassConstructorOptimization : Bool
  xmlTransient : Bool
  deriving DecidableEq, Repr

namespace Plan

/-- The plan for a mapped class whose file names the given superclass and interfaces.  A mapped
superclass must be the one that the file names. -/
def make (mapped : MappedClass) (m : Model) (context : Context) (fileSuper : Option String)
    (interfaces : List String) : Except WeaveError Plan := do
  let superName := fileSuper.getD Names.object
  match mapped.superclass with
  | some expected =>
    unless expected = superName do
      throw (.classMismatch s!"{mapped.name} extends {expected}"
        s!"{mapped.name} extends {superName}")
  | none => pure ()
  let parent? := m.superclassOf? mapped
  let native := context.tracksNatively m mapped || Names.changeTracker ∈ interfaces
  return {
    mapped
    superName
    changeTracking := mapped.changeTracking && !native
    superclassTracksChanges := m.ancestorTracksChanges mapped
    superclassInternal := parent?.any MappedClass.internal
    superclassConstructorOptimization :=
      parent?.any fun p => p.internal && p.constructorOptimization
    xmlTransient := context.xmlTransient }

/-- The name of the class. -/
def className (p : Plan) : String := p.mapped.name

/-- Whether the class is the root of its hierarchy. -/
def root (p : Plan) : Bool := p.mapped.isRoot

/-- The attributes that members are synthesized for. -/
def ownAttributes (p : Plan) : List MappedAttribute := p.mapped.ownAttributes

/-- Whether an attribute gets a holder. -/
def weavesHolder (p : Plan) (a : MappedAttribute) : Bool :=
  p.mapped.valueHolders && a.valueHolders

/-- The own attributes that get a holder. -/
def lazyAttributes (p : Plan) : List MappedAttribute :=
  p.ownAttributes.filter p.weavesHolder

/-- Whether reads and writes of an attribute's field go through synthesized accessors. -/
def intercepts (p : Plan) (a : MappedAttribute) : Bool :=
  a.hasField && (p.changeTracking || p.mapped.fetchGroups || p.weavesHolder a)

/-- Whether the class holds the change listener: it is the first of its hierarchy to track
changes. -/
def ownsListener (p : Plan) : Bool :=
  p.changeTracking && (p.root || !p.superclassTracksChanges)

/-- The annotations that hide a synthesized field from the mapping layer. -/
def transientAnnotations (p : Plan) : List String :=
  Names.mappingTransient :: if p.xmlTransient then [Names.xmlTransient] else []

end Plan

end EntityLoom
