import EntityLoom.Files.Glob
import EntityLoom.Text.Blank

/-!
# Ignore files

A directory may hold a file of rules that say what is to be passed over below it.  A rule is a glob
on a line of its own; of the rules that match, the last one decides.
-/

namespace EntityLoom

/-- A line of an ignore file. -/
structure IgnoreRule where
  glob : Glob
  /-- Whether what matches is kept after all. -/
  keeps : Bool
  /-- Whether the rule is about folders alone. -/
  foldersOnly : Bool
  deriving Repr

namespace IgnoreRule

/-- The name of ignore files. -/
def fileName : String := ".ignore"

/-! ## Reading rules -/

/-- Drops the blanks at the end of a line, unless the last one is marked to be kept. -/
def trimLine (line : List Char) : List Char :=
  if ['\\', ' '].isSuffixOf line then line else (Text.trimFront line.reverse).reverse

/-- What a line says before its glob: whether the rule keeps what it matches, and whether the glob
is about whole paths. -/
def readMarks : List Char → Bool × Bool × List Char
  | '\\' :: '!' :: rest => (false, false, '!' :: rest)
  | '\\' :: '#' :: rest => (false, false, '#' :: rest)
  | '!' :: '/' :: rest => (true, true, rest)
  | '!' :: rest => (true, false, rest)
  | '/' :: rest => (false, true, rest)
  | rest => (false, false, rest)

/-- Takes the slash off the end of a glob.  An escape before it goes as well. -/
def readFolderMark (line : List Char) : Bool × List Char :=
  match line.reverse with
  | '/' :: '\\' :: rest => (true, rest.reverse)
  | '/' :: rest => (true, rest.reverse)
  | _ => (false, line)

/-- Whether a glob starts with any folders. -/
def startsWithFolders (line : List Char) : Bool :=
  ['*', '*', '/'].isPrefixOf line || line = ['*', '*']

/-- Completes a glob: one without a slash matches below any folders, and one for the contents of a
folder does not match the folder. -/
def complete (wholePath : Bool) (line : List Char) : List Char :=
  let line :=
    if !wholePath && !line.contains '/' && !startsWithFolders line then ['*', '*', '/'] ++ line
    else line
  if ['/', '*', '*'].isSuffixOf line then line ++ ['/', '*'] else line

/-- The rule of a line.  A line that is empty, a remark or no glob gives none. -/
def ofLine? (line : List Char) : Option IgnoreRule := do
  guard (line.head? ≠ some '#')
  let line := trimLine line
  guard (line ≠ [])
  let (keeps, wholePath, line) := readMarks line
  let (foldersOnly, line) := readFolderMark line
  return { glob := ← Glob.ofText? (complete wholePath line), keeps, foldersOnly }

/-- The bytes of each line. -/
def lines (data : Bytes) : List Bytes :=
  (data.splitOn 0x0A).map fun line =>
    if line.getLast? = some 0x0D then line.dropLast else line

/-- The rules in an ignore file.  Lines are read up to the first one that is not UTF-8, and a mark
of the byte order is passed over. -/
def ofBytes (data : Bytes) : List IgnoreRule :=
  let texts := (lines data).map Text.Utf8.decode?
  let texts := (texts.takeWhile Option.isSome).filterMap id |>.map String.toList
  match texts with
  | [] => []
  | first :: rest => (first.dropWhile (· = '\uFEFF') :: rest).filterMap ofLine?

/-! ## Applying rules -/

/-- What rules say of a path below their directory: whether it is passed over. -/
def verdict? (rules : List IgnoreRule) (names : List String) (isFolder : Bool) : Option Bool :=
  let path := Text.Utf8.encode ("/".intercalate names)
  (rules.reverse.find? fun rule =>
    (!rule.foldersOnly || isFolder) && rule.glob.matches path).map (!·.keeps)

end IgnoreRule

end EntityLoom
