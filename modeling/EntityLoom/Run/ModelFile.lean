import EntityLoom.Digest.Sha256
import EntityLoom.Files.Store
import EntityLoom.Model.Json
import EntityLoom.RunError
import EntityLoom.Text.Utf8

/-!
# Model files

A model is read from a JSON file.  Its digest is that of the bytes of the file.
-/

namespace EntityLoom.ModelFile

variable {m : Type → Type} [Monad m] [FileStore m]

/-- The bytes of a model file. -/
def bytes (file : Path) : Attempt m Bytes := do
  match ← FileStore.read? file with
  | some data => return data
  | none => throw (.unreadableModel file)

/-- The model of a text that was read from a file. -/
def ofText (file : Path) (text : String) : Attempt m Model :=
  match Model.ofText text with
  | .ok model => return model
  | .error fault => throw (.invalidModel file fault)

/-- Reads a model with its digest. -/
def load (file : Path) : Attempt m (Model × String) := do
  let data ← bytes file
  match Text.Utf8.decode? data with
  | none => throw (.undecodableModel file)
  | some text => return (← ofText file text, Sha256.hexDigest data)

/-- Reads a model from a file that must hold a text. -/
def read (file : Path) : Attempt m Model := do
  match Text.Utf8.decode? (← bytes file) with
  | none => throw (.unreadableModel file)
  | some text => ofText file text

end EntityLoom.ModelFile
