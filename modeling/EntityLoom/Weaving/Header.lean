import EntityLoom.Weaving.Extension
import EntityLoom.Weaving.Plan

/-!
# The header of a woven class

The interfaces that weaving adds to a class, and the signature that names them too.  The marker
interface of woven classes is always among them.
-/

namespace EntityLoom.Header

/-- The interfaces of a woven class, in order.  Those that stand for state held once per hierarchy
are added to its root alone. -/
def wovenInterfaces (p : Plan) : List String :=
  (if p.mapped.internal ∧ p.root then [Names.cloneable] else []) ++
  [Names.woven] ++
  (if p.mapped.internal then
    (if p.root ∧ ¬p.mapped.embeddable then [Names.persistenceEntity] else []) ++
      [Names.persistenceObject]
  else []) ++
  (if p.mapped.fetchGroups then
    (if p.root then [Names.fetchGroupTracker] else []) ++ [Names.wovenFetchGroups]
  else []) ++
  (if p.mapped.valueHolders then [Names.wovenLazy] else []) ++
  (if p.changeTracking then
    (if ¬p.superclassTracksChanges then [Names.changeTracker] else []) ++
      [Names.wovenChangeTracking]
  else []) ++
  (if p.mapped.rest ∧ p.root then [Names.wovenRest] else [])

/-- The interfaces that are added to a class which has some already. -/
def addedInterfaces (p : Plan) (existing : List String) : List String :=
  (wovenInterfaces p).filter (· ∉ existing)

/-- A signature with interfaces appended. -/
def extendSignature (signature : String) (interfaces : List String) : String :=
  interfaces.foldl (fun s i => s ++ ("L" ++ i ++ ";")) signature

/-- Adds the interfaces, to the signature too if the class has one. -/
def apply (p : Plan) (existing : List String) : Extension.Step Unit := do
  let added := addedInterfaces p existing
  added.forM Extension.addInterface
  match ← WeaveError.ofFormat (← get).file.signature with
  | some signature => Extension.setSignature (extendSignature signature added)
  | none => pure ()

end EntityLoom.Header
