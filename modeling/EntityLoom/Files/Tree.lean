import EntityLoom.Files.Store

/-!
# Trees of files

A tree of files as a value.  Paths are followed name by name from the root or from the working
directory, and every place that is passed must be a directory.  A clock moves on by one nanosecond
with each change of a file, so no two changes happen at one time.
-/

namespace EntityLoom

/-- The names that lead from the root to a place. -/
abbrev Location := List String

/-- The path from the root to a place. -/
def Location.path (here : Location) : Path :=
  ⟨"/" ++ "/".intercalate here⟩

/-- What is at a place. -/
inductive FileNode where
  /-- A file with the time of its last change. -/
  | file (data : Bytes) (modified : Nat)
  | directory
  deriving DecidableEq, Repr

/-- A tree of files.  The root is a directory and is not listed. -/
structure FileTree where
  nodes : List (Location × FileNode)
  workingDirectory : Location
  /-- The time in nanoseconds since the start of 1970. -/
  clock : Nat
  deriving Repr

namespace FileTree

/-! ## Places -/

/-- What is at a place. -/
def node? (t : FileTree) (here : Location) : Option FileNode :=
  if here = [] then some .directory else (t.nodes.find? (·.1 = here)).map (·.2)

/-- Puts something at a place. -/
def put (t : FileTree) (here : Location) (node : FileNode) : FileTree :=
  { t with nodes := (here, node) :: t.nodes.filter (·.1 ≠ here) }

/-- Takes away what is at a place. -/
def erase (t : FileTree) (here : Location) : FileTree :=
  { t with nodes := t.nodes.filter (·.1 ≠ here) }

/-- The place that a part of a path leads to. -/
def step (here : Location) (part : String) : Location :=
  if Path.isVoid part then here else if part = ".." then here.dropLast else here ++ [part]

/-- The place where following a path starts. -/
def start (t : FileTree) (p : Path) : Location :=
  if p.isAbsolute then [] else t.workingDirectory

/-- Follows parts of a path.  There need not be anything at the last place. -/
def follow? (t : FileTree) (here : Location) : List String → Option Location
  | [] => some here
  | part :: rest =>
    if t.node? here = some .directory then t.follow? (step here part) rest else none

/-- The place that a path leads to.  The empty path leads nowhere. -/
def locate? (t : FileTree) (p : Path) : Option Location :=
  if p.text = "" then none else t.follow? (t.start p) p.parts

/-- What a path leads to. -/
def lookup? (t : FileTree) (p : Path) : Option FileNode :=
  (t.locate? p).bind t.node?

/-! ## Requests -/

/-- The status of what is at a path. -/
def status? (t : FileTree) (p : Path) : Option FileStatus :=
  (t.lookup? p).map fun
    | .file data modified => .file data.length modified
    | .directory => .directory

/-- The content of the file at a path. -/
def read? (t : FileTree) (p : Path) : Option Bytes :=
  (t.lookup? p).bind fun
    | .file data _ => some data
    | .directory => none

/-- The path from the root to what is at a path. -/
def canonical? (t : FileTree) (p : Path) : Option Path := do
  let here ← t.locate? p
  let _ ← t.node? here
  return here.path

/-- The files below the directory at a path. -/
def filesBelow (t : FileTree) (p : Path) : List (List String) :=
  match t.locate? p with
  | none => []
  | some here =>
    t.nodes.filterMap fun (there, node) =>
      match node, here.isPrefixOf? there with
      | .file .., some (name :: rest) => some (name :: rest)
      | _, _ => none

/-- Makes the directories that are missing on the way along parts of a path. -/
def makeFrom (t : FileTree) (here : Location) : List String → Bool × FileTree
  | [] => (true, t)
  | part :: rest =>
    let next := step here part
    match t.node? next with
    | some .directory => t.makeFrom next rest
    | some (.file ..) => (false, t)
    | none => (t.put next .directory).makeFrom next rest

/-- Makes the directory at a path. -/
def makeDirectories (t : FileTree) (p : Path) : Bool × FileTree :=
  if p.text = "" then (true, t) else t.makeFrom (t.start p) p.parts

/-- Puts a file at a place, changed now. -/
def putFile (t : FileTree) (here : Location) (data : Bytes) : FileTree :=
  { t.put here (.file data t.clock) with clock := t.clock + 1 }

/-- Makes the file at a path empty. -/
def create (t : FileTree) (p : Path) : Bool × FileTree :=
  match t.locate? p with
  | none => (false, t)
  | some here => if t.node? here = some .directory then (false, t) else (true, t.putFile here [])

/-- Replaces the content of the file at a path. -/
def write (t : FileTree) (p : Path) (data : Bytes) : Bool × FileTree :=
  match t.locate? p with
  | none => (false, t)
  | some here =>
    match t.node? here with
    | some (.file ..) => (true, t.putFile here data)
    | _ => (false, t)

/-- Moves the file at a path to another path. -/
def rename (t : FileTree) (source target : Path) : Bool × FileTree :=
  match t.locate? source, t.locate? target with
  | some here, some there =>
    match t.node? here, t.node? there with
    | some (.file ..), some .directory => (false, t)
    | some (.file data modified), _ => (true, (t.erase here).put there (.file data modified))
    | _, _ => (false, t)
  | _, _ => (false, t)

/-- Removes the file at a path. -/
def remove (t : FileTree) (p : Path) : Bool × FileTree :=
  match t.locate? p with
  | none => (false, t)
  | some here =>
    match t.node? here with
    | some (.file ..) => (true, t.erase here)
    | _ => (false, t)

/-- Removes what is at a path with all below it. -/
def removeAll (t : FileTree) (p : Path) : FileTree :=
  match t.locate? p with
  | none => t
  | some here => { t with nodes := t.nodes.filter fun (there, _) => !here.isPrefixOf there }

/-- Sets the time when the file at a path was changed. -/
def setModified (t : FileTree) (p : Path) (modified : Nat) : Bool × FileTree :=
  match t.locate? p with
  | none => (false, t)
  | some here =>
    match t.node? here with
    | some (.file data _) => (true, t.put here (.file data modified))
    | _ => (false, t)

/-- A tree of files carries out requests. -/
instance : FileStore (StateM FileTree) where
  status? path := return (← get).status? path
  read? path := return (← get).read? path
  canonical? path := return (← get).canonical? path
  filesBelow path := return (← get).filesBelow path
  makeDirectories path := modifyGet (·.makeDirectories path)
  create path := modifyGet (·.create path)
  write path data := modifyGet (·.write path data)
  rename source target := modifyGet (·.rename source target)
  remove path := modifyGet (·.remove path)
  now := return (← get).clock

end FileTree

end EntityLoom
