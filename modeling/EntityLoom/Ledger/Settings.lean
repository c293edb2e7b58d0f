import EntityLoom.Digest.Sha256
import EntityLoom.Sorting

/-!
# Settings of a weave

Everything besides the input that is kept with a woven input.  The class path counts as a set: its
paths are listed in order, each once, and the listing is digested.
-/

namespace EntityLoom

/-- What an input was woven with. -/
structure WeaveSettings where
  modelDigest : String
  targetMajor : UInt16
  xmlTransient : Bool
  classPathDigest : String
  deriving DecidableEq, Repr

namespace WeaveSettings

/-- The paths of a class path in order, each once and on a line of its own. -/
def listing (paths : List String) : String :=
  String.join ((sortBy (· ≤ ·) paths).eraseReps.map (· ++ "\n"))

/-- The settings for a class path whose entries are given by their canonical paths. -/
def ofClassPath (modelDigest : String) (targetMajor : UInt16) (xmlTransient : Bool)
    (paths : List String) : WeaveSettings :=
  { modelDigest, targetMajor, xmlTransient
    classPathDigest := Sha256.hexDigest (listing paths).toUTF8.toList }

end WeaveSettings

end EntityLoom
