import EntityLoom.Text.Blank

/-!
# Java SE releases

The table of releases with their class file versions, oldest first, and the two ways to look a
release up: by a version text such as `1.8` or `17.0.2`, and by the major version of a class file.
A look-up that misses answers the nearest end of the table.
-/

namespace EntityLoom

/-- A release and the version of the class files it introduced. -/
structure Release where
  /-- The spelling of the release in its version texts. -/
  name : String
  /-- The feature number: 8 for `1.8`, 17 for `17`. -/
  feature : Nat
  major : UInt16
  minor : UInt16
  deriving DecidableEq, Repr

namespace Release

/-- The releases, oldest first. -/
def table : List Release :=
  [ ⟨"1.1", 1, 45, 3⟩, ⟨"1.2", 2, 46, 0⟩, ⟨"1.3", 3, 47, 0⟩, ⟨"1.4", 4, 48, 0⟩,
    ⟨"1.5", 5, 49, 0⟩, ⟨"1.6", 6, 50, 0⟩, ⟨"1.7", 7, 51, 0⟩, ⟨"1.8", 8, 52, 0⟩,
    ⟨"9", 9, 53, 0⟩, ⟨"10", 10, 54, 0⟩, ⟨"11", 11, 55, 0⟩, ⟨"12", 12, 56, 0⟩,
    ⟨"13", 13, 57, 0⟩, ⟨"14", 14, 58, 0⟩, ⟨"15", 15, 59, 0⟩, ⟨"16", 16, 60, 0⟩,
    ⟨"17", 17, 61, 0⟩, ⟨"18", 18, 62, 0⟩, ⟨"19", 19, 63, 0⟩, ⟨"20", 20, 64, 0⟩,
    ⟨"21", 21, 65, 0⟩, ⟨"22", 22, 66, 0⟩, ⟨"23", 23, 67, 0⟩, ⟨"24", 24, 68, 0⟩,
    ⟨"25", 25, 69, 0⟩ ]

/-- The first release of the table. -/
def oldest : Release := ⟨"1.1", 1, 45, 3⟩

/-- The last release of the table. -/
def latest : Release := ⟨"25", 25, 69, 0⟩

/-- The first class file version whose verifier reads stack maps. -/
def stackMapMajor : UInt16 := 50

/-- Whether class files of the release carry stack maps. -/
def hasStackMaps (r : Release) : Bool :=
  stackMapMajor ≤ r.major

/-! ## Version texts -/

/-- Whether a character separates the parts of a version text. -/
def isSeparator (c : Char) : Bool :=
  c == '.' || c == '-' || c == '+' || c == '_'

/-- The number spelled by decimal digits. -/
def digitsValue (ds : List Char) : Nat :=
  ds.foldl (fun n d => n * 10 + (d.toNat - '0'.toNat)) 0

/-- Reads a part of a version text: one or more decimal digits whose value fits 32 bits. -/
def readPart? (ds : List Char) : Option Nat :=
  if !ds.isEmpty && ds.all Char.isDigit && digitsValue ds < 0x100000000 then some (digitsValue ds)
  else none

/-- The feature number a version text spells: its first part, or its second when the first is 1. -/
def readFeature? (text : List Char) : Option Nat := do
  let cs := Text.trim text
  let first ← readPart? (cs.takeWhile (!isSeparator ·))
  if first = 1 then
    match cs.dropWhile (!isSeparator ·) with
    | [] => none
    | _ :: rest => readPart? (rest.takeWhile (!isSeparator ·))
  else
    some first

/-- The release of a feature number, or the nearer end of the table. -/
def ofFeature (n : Nat) : Release :=
  match table.find? (·.feature == n) with
  | some r => r
  | none => if latest.feature < n then latest else oldest

/-- The release a version text names.  A missing or unreadable text names the oldest one. -/
def ofVersionText (text : Option String) : Release :=
  match text.bind (readFeature? ·.toList) with
  | some n => ofFeature n
  | none => oldest

/-! ## Reports of a runtime -/

/-- The property under which a runtime reports its version text. -/
def versionProperty : String := "java.specification.version"

/-- The version text on a line of a report, such as `java.specification.version = 17`. -/
def versionOfLine? (line : List Char) : Option String :=
  match line.dropWhile (· ≠ '=') with
  | [] => none
  | _ :: value =>
    let value := Text.trim value
    if Text.trim (line.takeWhile (· ≠ '=')) = versionProperty.toList ∧ value ≠ [] then
      some (String.ofList value)
    else none

/-- The version text in a report: the one on the first line that has one. -/
def reportedVersion? (report : String) : Option String :=
  (report.splitOn "\n").findSome? (versionOfLine? ·.toList)

/-! ## Class file versions -/

/-- The release of a class file's major version, and whether the version had to be clamped into the
table. -/
def ofMajor (major : UInt16) : Release × Bool :=
  match table.find? (·.major == major) with
  | some r => (r, false)
  | none => (if latest.major < major then latest else oldest, true)

end Release

end EntityLoom
