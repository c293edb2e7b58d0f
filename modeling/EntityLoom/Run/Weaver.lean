import EntityLoom.Files.Path
import EntityLoom.Weaving.Json

/-!
# Weaving by name

A run weaves the class files whose names are those of classes in its model.  All other files are
left as they are.  A summary counts what a run over one input did.
-/

namespace EntityLoom

/-- What weaves the classes of a run. -/
structure Weaver where
  model : Model
  context : Context

/-- What a run makes of a file. -/
inductive FileOutcome where
  /-- The file is not that of a class in the model. -/
  | untouched
  | alreadyWoven
  | woven (data : Bytes) (report : WeaveReport)
  deriving DecidableEq, Repr

namespace FileOutcome

/-- The content of a file after a run. -/
def content (given : Bytes) : FileOutcome → Bytes
  | woven data _ => data
  | untouched | alreadyWoven => given

/-- The report on a woven file. -/
def report? : FileOutcome → Option WeaveReport
  | woven _ report => some report
  | untouched | alreadyWoven => none

end FileOutcome

/-- What a run makes of a file with the given class name. -/
def Weaver.weaveNamed (w : Weaver) (className : Option String) (data : Bytes) :
    Except WeaveError FileOutcome :=
  match className.bind w.model.get? with
  | none => .ok .untouched
  | some _ => do
    match ← w.context.weave w.model data with
    | .alreadyWoven => return .alreadyWoven
    | .woven bytes report => return .woven bytes report

/-- What a run over one input did. -/
structure WeaveSummary where
  input : Path
  output : Path
  classes : Nat
  woven : Nat
  alreadyWoven : Nat
  reports : List WeaveReport
  deriving DecidableEq, Repr

/-- The summary of outcomes. -/
def WeaveSummary.ofOutcomes (input output : Path) (classes : Nat) (outcomes : List FileOutcome) :
    WeaveSummary :=
  let reports := outcomes.filterMap FileOutcome.report?
  { input, output, classes, reports, woven := reports.length
    alreadyWoven := outcomes.countP (· = .alreadyWoven) }

/-- The JSON value of a summary. -/
def WeaveSummary.toJson (s : WeaveSummary) : Json :=
  .record
    [ ("input", .text s.input.text), ("output", .text s.output.text), ("classes", .nat s.classes),
      ("woven", .nat s.woven), ("already_woven", .nat s.alreadyWoven),
      ("reports", .array (s.reports.map WeaveReport.toJson)) ]

end EntityLoom
