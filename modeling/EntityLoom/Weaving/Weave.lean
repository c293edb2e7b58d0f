import EntityLoom.Weaving.Accessors
import EntityLoom.Weaving.ChangeTracking
import EntityLoom.Weaving.FetchGroups
import EntityLoom.Weaving.FieldAccess
import EntityLoom.Weaving.Header
import EntityLoom.Weaving.Internal
import EntityLoom.Weaving.RestLinks

/-!
# Weaving a class

A class file becomes a woven one: field accesses in its methods are routed through accessors, its
header is extended, and members are added.  A class that carries the marker of woven classes is left
alone.  A class that cannot be woven yields a fault and nothing else.
-/

namespace EntityLoom

/-- What weaving did to a class. -/
structure WeaveReport where
  className : String
  added : Added
  redirected : List FieldAccess
  /-- Whether the synthesized methods carry stack maps. -/
  stackMaps : Bool
  deriving DecidableEq, Repr

/-- The outcome of weaving a class. -/
inductive WeaveOutcome where
  /-- The class carries the marker of woven classes; it is its own output. -/
  | alreadyWoven
  | woven (bytes : Bytes) (report : WeaveReport)
  deriving DecidableEq, Repr

namespace Plan

/-- All members that a plan adds to a class, in order. -/
def members (p : Plan) : List MemberDecl :=
  (if p.mapped.internal then p.internalMembers else []) ++
  p.ownAttributes.flatMap p.attributeMembers ++
  (if p.ownsListener then p.changeTrackingMembers else []) ++
  (if p.mapped.fetchGroups ∧ p.root then p.fetchGroupMembers else []) ++
  (if p.mapped.rest ∧ p.root then p.restMembers else [])

/-- Carries out a plan on a class file with the given interfaces. -/
def extend (p : Plan) (interfaces : List String) (file : ClassFile) :
    Except WeaveError (ClassFile × WeaveReport) := do
  let (accesses, file) := (FieldAccess.redirectAll p).run.run file
  let redirected ← accesses
  let extension ← WeaveError.ofFormat (Extension.ofFile file)
  let (done, extension) := (do
    Header.apply p interfaces
    p.members.forM Extension.addMember : Extension.Step Unit).run.run extension
  done
  return (extension.file,
    { className := p.className, added := extension.added, redirected,
      stackMaps := extension.withFrames })

end Plan

/-- The outcome of weaving a class, from the extended class file unless the class was woven
before. -/
def WeaveOutcome.ofExtended : Option (ClassFile × WeaveReport) → WeaveOutcome
  | none => alreadyWoven
  | some (file, report) => woven file.toBytes report

/-- The data of a class after weaving; a class that was woven before keeps its data. -/
def WeaveOutcome.output (data : Bytes) : WeaveOutcome → Bytes
  | alreadyWoven => data
  | woven bytes _ => bytes

namespace Context

/-- Extends a class file as its mapping says, unless it is woven already. -/
def extendFile (context : Context) (m : Model) (file : ClassFile) (mapped : MappedClass) :
    Except WeaveError (Option (ClassFile × WeaveReport)) := do
  let interfaces ← WeaveError.ofFormat file.interfaceNames
  if Names.woven ∈ interfaces then return none
  let superName ← WeaveError.ofFormat file.superName
  let plan ← Plan.make mapped m context superName interfaces
  some <$> plan.extend interfaces file

/-- Extends a class with the mapping that the model has for it. -/
def extend (context : Context) (m : Model) (data : Bytes) :
    Except WeaveError (Option (ClassFile × WeaveReport)) := do
  let file ← WeaveError.ofFormat (ClassFile.parse data)
  let name ← WeaveError.ofFormat file.name
  match m.get? name with
  | none => throw (.unknownClass name)
  | some mapped => context.extendFile m file mapped

/-- Weaves a class with the mapping that the model has for it. -/
def weave (context : Context) (m : Model) (data : Bytes) : Except WeaveError WeaveOutcome :=
  WeaveOutcome.ofExtended <$> context.extend m data

/-- Weaves a class with a mapping of its own, which must name it. -/
def weaveAs (context : Context) (m : Model) (data : Bytes) (mapped : MappedClass) :
    Except WeaveError WeaveOutcome := do
  let file ← WeaveError.ofFormat (ClassFile.parse data)
  let name ← WeaveError.ofFormat file.name
  unless name = mapped.name do throw (.classMismatch mapped.name name)
  WeaveOutcome.ofExtended <$> context.extendFile m file mapped

end Context

end EntityLoom
