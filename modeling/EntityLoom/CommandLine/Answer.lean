import EntityLoom.ClassFile.Json
import EntityLoom.Ledger.Basic
import EntityLoom.Run.Weaver

/-!
# Answers of commands

What each command answers, and the JSON values in which it is printed.
-/

namespace EntityLoom.CommandLine

/-! ## Weaving -/

/-- What became of an input. -/
structure InputAnswer where
  input : Path
  output : Path
  /-- What was done, unless the input has not changed since it was last woven. -/
  done : Option WeaveSummary
  /-- The reports that are answered. -/
  reports : List WeaveReport
  deriving DecidableEq, Repr

namespace InputAnswer

/-- The answer for an input that has not changed. -/
def skipped (input output : Path) : InputAnswer :=
  { input, output, done := none, reports := [] }

/-- The answer for an input that was woven. -/
def ofSummary (s : WeaveSummary) (withReports : Bool) : InputAnswer :=
  { input := s.input, output := s.output, done := some s
    reports := if withReports then s.reports else [] }

/-- The JSON value of what became of an input. -/
def toJson (a : InputAnswer) : Json :=
  let count (f : WeaveSummary → Nat) : Json := .nat (a.done.elim 0 f)
  .record
    ([ ("input", .text a.input.text), ("output", .text a.output.text),
       ("skipped", .bool a.done.isNone), ("classes", count WeaveSummary.classes),
       ("woven", count WeaveSummary.woven), ("already_woven", count WeaveSummary.alreadyWoven) ] ++
     if a.reports = [] then [] else [("reports", .array (a.reports.map WeaveReport.toJson))])

end InputAnswer

/-- What became of all inputs. -/
structure WeaveAnswer where
  target : Release
  xmlTransient : Bool
  modelDigest : String
  nativeTrackers : Nat
  /-- How long it took, in milliseconds. -/
  elapsed : Nat
  inputs : List InputAnswer
  deriving DecidableEq, Repr

/-- The JSON value of what became of all inputs. -/
def WeaveAnswer.toJson (a : WeaveAnswer) : Json :=
  .record
    [ ("target_java", .text a.target.name), ("xml_transient", .bool a.xmlTransient),
      ("model_sha256", .text a.modelDigest), ("native_change_trackers", .nat a.nativeTrackers),
      ("elapsed_ms", .nat a.elapsed), ("inputs", .array (a.inputs.map InputAnswer.toJson)) ]

/-! ## Inspecting -/

/-- What weaving would make of an inspected class. -/
inductive Prospect where
  | alreadyWoven
  | woven (report : WeaveReport)
  deriving DecidableEq, Repr

/-- An inspected class, with what a model would make of it. -/
structure InspectAnswer where
  summary : ClassSummary
  prospect : Option Prospect
  deriving DecidableEq, Repr

/-- The JSON value of an inspected class. -/
def InspectAnswer.toJson (a : InspectAnswer) : Json :=
  .record
    (("class", a.summary.toJson) ::
      match a.prospect with
      | none => []
      | some .alreadyWoven => [("already_woven", .bool true)]
      | some (.woven report) => [("already_woven", .bool false), ("weave", report.toJson)])

/-! ## Statistics -/

/-- The JSON value of an input in an overview. -/
def recentToJson (r : Ledger.RecentInput) : Json :=
  .record [("input", .text r.input), ("woven", .nat r.woven), ("woven_at", .nat r.wovenAt)]

/-- The JSON value of the overview of the ledger at a path. -/
def statsToJson (path : Path) (s : Ledger.Stats) : Json :=
  .record
    [ ("db_path", .text path.text), ("inputs", .nat s.inputs),
      ("woven_classes", .nat s.wovenClasses), ("recent", .array (s.recent.map recentToJson)) ]

end EntityLoom.CommandLine
