import EntityLoom.Ledger.Settings
import EntityLoom.Total

/-!
# The ledger

The ledger keeps a row for each input that was woven, under the canonical path of the input.  The
row says what the input looked like afterwards and how it was woven, so an input that has not
changed since need not be woven again.
-/

namespace EntityLoom

/-- What is kept of a woven input. -/
structure LedgerRow where
  /-- The fingerprint of the input after it was woven. -/
  fingerprint : String
  settings : WeaveSettings
  /-- The canonical path of the output. -/
  output : String
  classes : Nat
  woven : Nat
  /-- When the input was woven, in seconds since the start of 1970. -/
  wovenAt : Nat
  deriving DecidableEq, Repr

/-- Whether a row tells of a weave with the given settings into the given output, of an input that
has the given fingerprint.  An empty fingerprint is that of an input that cannot be looked at. -/
def LedgerRow.covers (row : LedgerRow) (settings : WeaveSettings) (output fingerprint : String) :
    Bool :=
  row.settings = settings && row.output = output && row.fingerprint ≠ "" &&
    row.fingerprint = fingerprint

/-- The rows of woven inputs, each under the canonical path of its input. -/
structure Ledger where
  rows : List (String × LedgerRow)
  deriving DecidableEq, Repr

namespace Ledger

/-- The ledger without rows. -/
def empty : Ledger := ⟨[]⟩

/-- The row of an input. -/
def get? (ledger : Ledger) (input : String) : Option LedgerRow :=
  ledger.rows.lookup input

/-- Puts the row of an input in the place of an earlier one. -/
def put (ledger : Ledger) (input : String) (row : LedgerRow) : Ledger :=
  ⟨(input, row) :: ledger.rows.filter (·.1 ≠ input)⟩

/-! ## Statistics -/

/-- A row in an overview. -/
structure RecentInput where
  input : String
  woven : Nat
  wovenAt : Nat
  deriving DecidableEq, Repr

/-- Whether an input comes before another one in an overview: the later one does, and of two inputs
of one time the one with the smaller path. -/
def RecentInput.precedes (a b : RecentInput) : Bool :=
  b.wovenAt < a.wovenAt || (a.wovenAt = b.wovenAt && a.input ≤ b.input)

/-- An overview of a ledger. -/
structure Stats where
  inputs : Nat
  wovenClasses : Nat
  recent : List RecentInput
  deriving DecidableEq, Repr

/-- The number of inputs that an overview lists. -/
def recentLimit : Nat := 10

/-- The overview of a ledger. -/
def stats (ledger : Ledger) : Stats :=
  { inputs := ledger.rows.length
    wovenClasses := total (·.2.woven) ledger.rows
    recent :=
      (sortBy RecentInput.precedes (ledger.rows.map fun (input, row) =>
        ⟨input, row.woven, row.wovenAt⟩)).take recentLimit }

end Ledger

end EntityLoom
