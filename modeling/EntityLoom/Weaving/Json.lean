import EntityLoom.Json.Value
import EntityLoom.Weaving.Weave

/-!
# Reports on woven classes as JSON

A report is written as an object whose keys stand in the order of its fields.
-/

namespace EntityLoom

/-- The JSON value of a field access. -/
def FieldAccess.toJson (a : FieldAccess) : Json :=
  .record
    [ ("method", .text a.method), ("pc", .nat a.pc), ("field", .text a.field),
      ("write", .bool a.write) ]

/-- The JSON value of the report on a woven class. -/
def WeaveReport.toJson (r : WeaveReport) : Json :=
  .record
    [ ("class", .text r.className), ("interfaces", .texts r.added.interfaces),
      ("fields", .texts r.added.fields), ("methods", .texts r.added.methods),
      ("rewritten_accesses", .array (r.redirected.map FieldAccess.toJson)),
      ("stack_maps", .bool r.stackMaps) ]

end EntityLoom
