import EntityLoom.CommandLine.Execution
import Std.Time.DateTime.Timestamp

/-!
# The program

The command line over the files of the system.  Answers go to the standard output, all else to the
standard error.  The release of an installed runtime is not asked for.
-/

namespace EntityLoom

namespace SystemFiles

/-- What an action yields, unless it fails. -/
def attempt? (action : IO α) : IO (Option α) :=
  try return some (← action) catch _ => return none

/-- Whether an action succeeds. -/
def succeeds (action : IO Unit) : IO Bool := do
  return (← attempt? action).isSome

/-- A time in nanoseconds since the start of 1970; earlier times count as that. -/
def nanoseconds (t : IO.FS.SystemTime) : Nat :=
  (t.sec * 1000000000 + t.nsec.toNat).toNat

/-- The status of what is at a path. -/
def status? (path : Path) : IO (Option FileStatus) := do
  let found ← attempt? do (← IO.FS.realPath path.text).metadata
  return found.map fun data =>
    match data.type with
    | .dir => .directory
    | _ => .file data.byteSize.toNat (nanoseconds data.modified)

/-- All files below a directory; links to directories are not followed. -/
partial def filesBelow (directory : String) : IO (List (List String)) := do
  let entries ← (← IO.FS.realPath directory).readDir
  let found ← entries.toList.mapM fun entry => do
    let inside ← attempt? do
      if (← entry.path.symlinkMetadata).type matches .dir then
        return (← filesBelow entry.path.toString).map (entry.fileName :: ·)
      else if (← entry.path.metadata).type matches .file then return [[entry.fileName]]
      else return []
    return inside.getD []
  return found.flatten

/-- The files of the system. -/
instance : FileStore IO where
  status? := status?
  read? path := attempt? do return (← IO.FS.readBinFile path.text).toList
  canonical? path := attempt? do return ⟨(← IO.FS.realPath path.text).toString⟩
  filesBelow path := do return (← attempt? (filesBelow path.text)).getD []
  makeDirectories path :=
    if path.text = "" then return true else succeeds (IO.FS.createDirAll path.text)
  create path := succeeds (IO.FS.writeBinFile path.text ByteArray.empty)
  write path data := succeeds (IO.FS.writeBinFile path.text ⟨data.toArray⟩)
  rename source target := succeeds (IO.FS.rename source.text target.text)
  remove path := succeeds (IO.FS.removeFile path.text)
  now := do return (← Std.Time.Timestamp.now).toNanosecondsSinceUnixEpoch.toInt.toNat

end SystemFiles

namespace CommandLine

/-- The names of the variables that are read. -/
def variableNames : List String := ["CLASS_WEAVER_JAVA_VERSION", "XDG_DATA_HOME", "HOME"]

/-- What the system says of the surroundings of the program. -/
def readSurroundings : IO Surroundings := do
  let found ← variableNames.mapM fun name => do return (name, ← IO.getEnv name)
  return .ofVariables fun name => (found.lookup name).join

/-- How the program is used. -/
def usage : String :=
  "Usage: class-weaver [--db FILE] [--log-format pretty|compact|json] COMMAND\n\n" ++
  "Commands:\n" ++
  "  weave -m FILE [-o PATH] [--classpath PATH]... [--java-version VER] [--force] [--report] " ++
  "INPUT...\n" ++
  "  inspect CLASS_FILE [-m FILE]\n" ++
  "  stats\n" ++
  "  clear\n" ++
  "  help [COMMAND]"

/-- Prints how the program ends. -/
def Outcome.print : Outcome → IO Unit
  | done none => return
  | done (some answer) => IO.println (answer.pretty 0)
  | stopped .help => IO.println usage
  | stopped .misuse => IO.eprintln usage
  | failed fault => do
    IO.eprintln s!"Error: {fault.message}"
    if let some cause := fault.cause? then IO.eprintln s!"\nCaused by:\n    {cause.message}"

end CommandLine

end EntityLoom

open EntityLoom in
/-- Carries out the arguments of the program. -/
def main (args : List String) : IO UInt32 := do
  let outcome ← CommandLine.execute (← CommandLine.readSurroundings) args
  outcome.print
  return UInt32.ofNat outcome.exitCode
