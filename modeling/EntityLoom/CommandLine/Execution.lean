import EntityLoom.CommandLine.Answer
import EntityLoom.CommandLine.Arguments
import EntityLoom.Ledger.File
import EntityLoom.Release
import EntityLoom.Run.ArchiveInput
import EntityLoom.Run.ClassPath
import EntityLoom.Run.DirectoryInput
import EntityLoom.Run.ModelFile

/-!
# Carrying out commands

Weaving looks at all inputs before it weaves the first one, and passes over the inputs for which the
ledger says that nothing has changed.
-/

namespace EntityLoom.CommandLine

/-- What the surroundings of the program say. -/
structure Surroundings where
  /-- The version text of the runtime that woven classes are meant for. -/
  versionText : Option String
  /-- Where programs keep their data, if that is an absolute path. -/
  dataHome : Option String
  home : Option String
  deriving DecidableEq, Repr

namespace Surroundings

/-- Reads the surroundings from variables. -/
def ofVariables (lookup? : String → Option String) : Surroundings :=
  { versionText := lookup? "CLASS_WEAVER_JAVA_VERSION"
    dataHome := (lookup? "XDG_DATA_HOME").filter fun text => (Path.mk text).isAbsolute
    home := (lookup? "HOME").filter (· ≠ "") }

/-- Where the ledger is kept unless it is said. -/
def ledger? (s : Surroundings) : Option Path := do
  let data ← (s.dataHome.map Path.mk) <|>
    (s.home.map fun home => (Path.mk home).join ".local/share")
  return (data.join "class-weaver").join "ledger.lmdb"

/-- The release that classes are woven for.  The version that is asked for comes before the one that
the surroundings give. -/
def target (s : Surroundings) (asked : Option String) : Release :=
  Release.ofVersionText (asked <|> s.versionText)

end Surroundings

variable {m : Type → Type} [Monad m] [FileStore m]

/-- The ledger that a command works on. -/
def ledgerPath (s : Surroundings) (asked : Option Path) : Attempt m Path :=
  match asked <|> s.ledger? with
  | some path => return path
  | none => throw .noDataDirectory

/-! ## Weaving -/

/-- Looks at the headers of all classes in an input. -/
def observeInput (context : Context) (input : Path) : Attempt m Context := do
  if ← FileStore.isDirectory input then return (← DirectoryInput.observe input context).2
  else return (← ArchiveInput.observe input context).2

/-- Weaves an input. -/
def weaveInput (w : Weaver) (input output : Path) : Attempt m WeaveSummary := do
  if ← FileStore.isDirectory input then DirectoryInput.weave w input output
  else ArchiveInput.weave w input output

/-- The settings that a context is woven with. -/
def settingsOf (modelDigest : String) (context : Context) (classPath : List String) :
    WeaveSettings :=
  .ofClassPath modelDigest context.target.major context.xmlTransient classPath

/-- Weaves an input unless it has not changed since it was last woven. -/
def visitInput (ledger : LedgerFile) (w : Weaver) (settings : WeaveSettings)
    (request : WeaveRequest) (input : Path) : Attempt m InputAnswer := do
  let output := request.output.getD input
  unless request.force do
    if ← ledger.isCurrent input output settings then return .skipped input output
  let summary ← weaveInput w input output
  ledger.record input output settings summary.classes summary.woven
  return .ofSummary summary request.report

/-- Weaves all inputs. -/
def weave (s : Surroundings) (ledger : Option Path) (request : WeaveRequest) :
    Attempt m WeaveAnswer := do
  let started ← FileStore.now
  if request.output.isSome ∧ 1 < request.inputs.length then throw .severalInputs
  let (model, modelDigest) ← ModelFile.load request.model
  let xmlTransient ← ClassPath.providesXmlTransient (request.classPath ++ request.inputs)
  let context ← request.inputs.foldlM observeInput
    (Context.new (s.target request.versionText) xmlTransient)
  let settings := settingsOf modelDigest context (← request.classPath.mapM LedgerFile.key)
  let ledger ← LedgerFile.enter (← ledgerPath s ledger)
  let inputs ← request.inputs.mapM (visitInput ledger ⟨model, context⟩ settings request)
  return {
    target := context.target, xmlTransient, modelDigest
    nativeTrackers := context.nativeTrackers.length
    elapsed := ((← FileStore.now) - started) / 1000000
    inputs }

/-! ## Inspecting -/

/-- What a model makes of a class. -/
def prospect (className : String) (data : Bytes) (model : Path) : Attempt m Prospect := do
  let (model, _) ← ModelFile.load model
  match Context.default.weave model data with
  | .error fault => throw (.classWeaving className fault)
  | .ok .alreadyWoven => return .alreadyWoven
  | .ok (.woven _ report) => return .woven report

/-- Inspects a class file. -/
def inspect (classFile : Path) (model : Option Path) : Attempt m InspectAnswer := do
  match ← FileStore.read? classFile with
  | none => throw (.unreadableClass classFile)
  | some data =>
    match ClassFile.parse data with
    | .error fault => throw (.malformedClass classFile fault)
    | .ok file =>
      match file.summary with
      | .error fault => throw (.unnamedMembers fault)
      | .ok summary =>
        return { summary, prospect := ← model.mapM (prospect summary.name data) }

/-! ## All commands -/

/-- Carries out a command.  What it answers is to be printed. -/
def Invocation.run (s : Surroundings) (i : Invocation) : Attempt m (Option Json) :=
  match i.command with
  | .weave request => do return some (← weave s i.ledger request).toJson
  | .inspect classFile model => do return some (← inspect classFile model).toJson
  | .stats => do
    let ledger ← LedgerFile.enter (← ledgerPath s i.ledger)
    return some (statsToJson ledger.path (← ledger.ledger).stats)
  | .clear => do
    LedgerFile.clear (← ledgerPath s i.ledger)
    return none

/-- How the program ends. -/
inductive Outcome where
  | done (answer : Option Json)
  | failed (fault : RunError)
  | stopped (why : Stop)

/-- The exit code of the program. -/
def Outcome.exitCode : Outcome → Nat
  | done _ | stopped .help => 0
  | failed _ => 1
  | stopped .misuse => 2

/-- Carries out what the arguments of the program say. -/
def execute (s : Surroundings) (args : List String) : m Outcome := do
  match Invocation.ofArguments args with
  | .error why => return .stopped why
  | .ok invocation =>
    match ← (invocation.run s).run with
    | .ok answer => return .done answer
    | .error fault => return .failed fault

end EntityLoom.CommandLine
