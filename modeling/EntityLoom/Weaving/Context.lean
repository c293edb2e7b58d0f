import EntityLoom.ClassFile.Codec
import EntityLoom.Model.Basic
import EntityLoom.Release
import EntityLoom.Weaving.Names

/-!
# The context of a session

What all classes of a session share: the release they are meant for, whether XML binding is there to
be told of synthesized fields, and which classes track their changes by hand.  The context is filled
by looking at the header of every input before the first class is woven.
-/

namespace EntityLoom

/-- What the classes of a session share. -/
structure Context where
  /-- The release that woven classes are meant for; woven output keeps its own version. -/
  target : Release
  xmlTransient : Bool
  /-- The classes that implement change tracking by hand, each once. -/
  nativeTrackers : List String
  deriving DecidableEq, Repr

namespace Context

/-- A context that no input was looked at for. -/
def new (target : Release) (xmlTransient : Bool) : Context :=
  ⟨target, xmlTransient, []⟩

/-- The context for the newest release. -/
def default : Context :=
  new Release.latest true

/-- Records that a class implements change tracking by hand. -/
def record (c : Context) (className : String) : Context :=
  if className ∈ c.nativeTrackers then c
  else { c with nativeTrackers := className :: c.nativeTrackers }

/-- Looks at the header of a class.  Woven classes are passed over: their change tracking may be
woven. -/
def observe (c : Context) (data : Bytes) : Except FormatError Context := do
  let file ← ClassFile.parse data
  let interfaces ← file.interfaceNames
  if Names.woven ∉ interfaces ∧ Names.changeTracker ∈ interfaces then
    return c.record (← file.name)
  else return c

/-- Looks at the header of some data.  What is no class is passed over. -/
def observeInput (c : Context) (data : Bytes) : Context :=
  (c.observe data).toOption.getD c

/-- Looks at the headers of some inputs. -/
def observeInputs (c : Context) (inputs : List Bytes) : Context :=
  inputs.foldl observeInput c

/-- Whether a class or an ancestor of it tracks changes by hand. -/
def tracksNatively (c : Context) (m : Model) (mapped : MappedClass) : Bool :=
  mapped.name ∈ c.nativeTrackers || (m.ancestors mapped).any (·.name ∈ c.nativeTrackers)

end Context

end EntityLoom
