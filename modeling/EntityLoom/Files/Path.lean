/-!
# Paths

A path is kept as it was written, for that is how it is printed.  What it means is read off its
components: separators count once, and `.` counts at the start alone.
-/

namespace EntityLoom

/-- A path as it was written. -/
structure Path where
  text : String
  deriving DecidableEq, Repr, Inhabited

namespace Path

/-- A part of the meaning of a path. -/
inductive Component where
  | root
  /-- A `.` at the start. -/
  | current
  | parent
  | name (text : String)
  deriving DecidableEq, Repr

/-- The spelling of a component. -/
def Component.text : Component → String
  | root => "/"
  | current => "."
  | parent => ".."
  | name text => text

/-- The texts between the separators of a path. -/
def parts (p : Path) : List String :=
  (p.text.toList.splitOn '/').map String.ofList

/-- Whether a path starts at the root. -/
def isAbsolute (p : Path) : Bool :=
  p.text.toList.head? = some '/'

/-- Whether a part behind the first one means nothing. -/
def isVoid (part : String) : Bool :=
  part = "" || part = "."

/-- What a part behind the first one means. -/
def ofPart (part : String) : List Component :=
  if isVoid part then [] else if part = ".." then [.parent] else [.name part]

/-- The components of a path. -/
def components (p : Path) : List Component :=
  match p.parts with
  | [] => []
  | first :: rest =>
    (if p.isAbsolute then [.root] else if first = "." then [.current] else ofPart first) ++
      rest.flatMap ofPart

/-- Whether two paths have the same components. -/
def same (p q : Path) : Bool :=
  p.components = q.components

/-- The path that is reached by following another path from this one. -/
def join (p : Path) (text : String) : Path :=
  if (Path.mk text).isAbsolute ∨ p.text = "" then ⟨text⟩
  else if p.text.toList.getLast? = some '/' then ⟨p.text ++ text⟩
  else ⟨p.text ++ "/" ++ text⟩

/-- The path with names followed from it. -/
def below (p : Path) (names : List String) : Path :=
  p.join ("/".intercalate names)

/-- The path with a text written behind it. -/
def withSuffix (p : Path) (suffix : String) : Path :=
  ⟨p.text ++ suffix⟩

/-- The path without its last component; the empty path and the root have none. -/
def parent? (p : Path) : Option Path :=
  match p.components.getLast?, p.parts with
  | none, _ | some .root, _ | _, [] => none
  | some _, first :: rest =>
    match rest.reverse.dropWhile isVoid with
    | [] => some ⟨""⟩
    | _ :: before =>
      match (before.dropWhile isVoid).reverse with
      | [] => some ⟨if p.isAbsolute then "/" else first⟩
      | rest => some ⟨"/".intercalate (first :: rest)⟩

/-- The components of a path behind those of another one that it starts with. -/
def behind? (base p : Path) : Option (List Component) :=
  base.components.isPrefixOf? p.components

/-- The extension of a file name: what follows its last dot, unless that is its first character. -/
def extension? (name : String) : Option String :=
  if name = ".." then none
  else
    let cs := name.toList.reverse
    match cs.dropWhile (· ≠ '.') with
    | _ :: _ :: _ => some (String.ofList (cs.takeWhile (· ≠ '.')).reverse)
    | _ => none

end Path

end EntityLoom
