import EntityLoom.Json.Reader
import EntityLoom.Ledger.Basic
import EntityLoom.Text.Utf8

/-!
# The written form of ledgers

A ledger is written as a JSON object that has the paths of the inputs as keys.
-/

namespace EntityLoom

namespace WeaveSettings

/-- The keys of settings. -/
def jsonKeys : List String :=
  ["model_sha256", "target_major", "xml_transient", "classpath_sha256"]

/-- The JSON value of settings. -/
def toJson (s : WeaveSettings) : Json :=
  .record
    [ ("model_sha256", .text s.modelDigest), ("target_major", .nat s.targetMajor.toNat),
      ("xml_transient", .bool s.xmlTransient), ("classpath_sha256", .text s.classPathDigest) ]

/-- Reads settings. -/
def ofJson? (value : Json) : Option WeaveSettings := do
  match ← value.fields? jsonKeys with
  | [modelDigest, targetMajor, xmlTransient, classPathDigest] =>
    return {
      modelDigest := ← Json.required Json.text? modelDigest
      targetMajor := UInt16.ofNat (← Json.required Json.nat? targetMajor)
      xmlTransient := ← Json.required Json.flag? xmlTransient
      classPathDigest := ← Json.required Json.text? classPathDigest }
  | _ => none

end WeaveSettings

namespace LedgerRow

/-- The keys of a row. -/
def jsonKeys : List String :=
  ["fingerprint", "settings", "output", "classes", "woven", "woven_at"]

/-- The JSON value of a row. -/
def toJson (row : LedgerRow) : Json :=
  .record
    [ ("fingerprint", .text row.fingerprint), ("settings", row.settings.toJson),
      ("output", .text row.output), ("classes", .nat row.classes), ("woven", .nat row.woven),
      ("woven_at", .nat row.wovenAt) ]

/-- Reads a row. -/
def ofJson? (value : Json) : Option LedgerRow := do
  match ← value.fields? jsonKeys with
  | [fingerprint, settings, output, classes, woven, wovenAt] =>
    return {
      fingerprint := ← Json.required Json.text? fingerprint
      settings := ← Json.required WeaveSettings.ofJson? settings
      output := ← Json.required Json.text? output
      classes := ← Json.required Json.nat? classes
      woven := ← Json.required Json.nat? woven
      wovenAt := ← Json.required Json.nat? wovenAt }
  | _ => none

end LedgerRow

namespace Ledger

/-- The JSON value of a ledger. -/
def toJson (ledger : Ledger) : Json :=
  .record (ledger.rows.map fun (input, row) => (input, row.toJson))

/-- Reads a ledger. -/
def ofJson? : Json → Option Ledger
  | .object fields =>
    Ledger.mk <$> fields.mapM fun (input, row) => do return (← input, ← LedgerRow.ofJson? row)
  | _ => none

/-- The written form of a ledger. -/
def toBytes (ledger : Ledger) : Bytes :=
  Text.Utf8.encode (ledger.toJson.pretty 0)

/-- Reads a written ledger. -/
def ofBytes? (data : Bytes) : Option Ledger := do
  ofJson? (← Json.ofText? (← Text.Utf8.decode? data))

end Ledger

end EntityLoom
