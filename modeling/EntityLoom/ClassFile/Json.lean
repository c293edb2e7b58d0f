import EntityLoom.ClassFile.Basic
import EntityLoom.Json.Value

/-!
# Summaries of classes as JSON

A summary is written as an object whose keys stand in the order of its fields.  What a class does
not have is written as `null`.
-/

namespace EntityLoom

/-- The JSON value of a member in a summary. -/
def MemberSummary.toJson (s : MemberSummary) : Json :=
  .record
    [ ("name", .text s.name), ("descriptor", .text s.descriptor),
      ("access_flags", .nat s.access.toNat) ]

/-- The JSON value of the summary of a class. -/
def ClassSummary.toJson (s : ClassSummary) : Json :=
  .record
    [ ("name", .text s.name), ("super_name", .textOrNull s.superName),
      ("major_version", .nat s.major.toNat), ("interfaces", .texts s.interfaces),
      ("signature", .textOrNull s.signature),
      ("fields", .array (s.fields.map MemberSummary.toJson)),
      ("methods", .array (s.methods.map MemberSummary.toJson)) ]

end EntityLoom
