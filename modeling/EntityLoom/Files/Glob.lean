import EntityLoom.Text.Utf8

/-!
# Globs

Patterns for paths.  A glob is read into the list of its alternatives, each a row of parts without
groups, and a row is matched against the bytes of a path.  A wildcard does not reach over a slash
unless it is written twice and stands for whole folders.
-/

namespace EntityLoom

/-- A part of a glob. -/
inductive GlobPart where
  | byte (b : UInt8)
  /-- One byte that is no slash. -/
  | any
  /-- Bytes that are no slashes. -/
  | many
  /-- Any folders at the front, or none. -/
  | leadingFolders
  /-- A slash, or folders between two slashes. -/
  | innerFolders
  /-- Everything behind a slash. -/
  | contents
  /-- A byte in some ranges, or in none of them. -/
  | oneOf (negated : Bool) (ranges : List (UInt8 × UInt8))
  deriving DecidableEq, Repr

/-- The alternatives of a glob. -/
abbrev Glob := List (List GlobPart)

namespace GlobPart

/-- The byte of a slash. -/
def slash : UInt8 := 0x2F

/-! ## Matching -/

/-- The rests of some bytes behind bytes that are no slashes. -/
def restsInName : Bytes → List Bytes
  | [] => [[]]
  | b :: bs => (b :: bs) :: if b = slash then [] else restsInName bs

/-- The rests of some bytes behind a slash. -/
def restsBehindSlash : Bytes → List Bytes
  | [] => []
  | b :: bs => if b = slash then bs :: restsBehindSlash bs else restsBehindSlash bs

/-- The rests of some bytes behind a part at their front. -/
def rests : GlobPart → Bytes → List Bytes
  | leadingFolders, bs => bs :: restsBehindSlash bs
  | many, bs => restsInName bs
  | _, [] => []
  | byte c, b :: bs => if b = c then [bs] else []
  | any, b :: bs => if b = slash then [] else [bs]
  | innerFolders, b :: bs => if b = slash then bs :: restsBehindSlash bs else []
  | contents, b :: _ => if b = slash then [[]] else []
  | oneOf negated ranges, b :: bs =>
    if ranges.any (fun (low, high) => low ≤ b && b ≤ high) = negated then [] else [bs]

/-- Whether a row of parts matches some bytes as a whole. -/
def matchesAll : List GlobPart → Bytes → Bool
  | [], bs => bs.isEmpty
  | part :: parts, bs => (part.rests bs).any (matchesAll parts)

end GlobPart

/-- Whether a glob matches some bytes as a whole. -/
def Glob.matches (g : Glob) (bs : Bytes) : Bool :=
  g.any fun parts => GlobPart.matchesAll parts bs

namespace Glob

/-! ## Reading character classes -/

/-- What stands behind an opening bracket. -/
inductive ClassText where
  /-- There is no closing bracket; the bracket stands for itself. -/
  | unclosed
  /-- A range ends before it starts. -/
  | invalid
  | closed (ranges : List (Char × Char)) (rest : List Char)

/-- Ends the last range at a character. -/
def endRange? (c : Char) : List (Char × Char) → Option (List (Char × Char))
  | [] => none
  | (low, _) :: ranges => if c < low then none else some ((low, c) :: ranges)

/-- Reads the characters of a class up to its closing bracket.  The ranges so far have the last one
first; `first` says that nothing has been read yet, and `open_` that a range waits for its end. -/
def readClass (ranges : List (Char × Char)) (first open_ : Bool) : List Char → ClassText
  | [] => .unclosed
  | c :: cs =>
    if c = ']' ∧ !first then .closed (if open_ then ('-', '-') :: ranges else ranges) cs
    else if c = '-' ∧ !first ∧ !open_ then readClass ranges false true cs
    else if open_ then
      match endRange? c ranges with
      | none => .invalid
      | some ranges => readClass ranges false false cs
    else readClass ((c, c) :: ranges) false false cs

theorem length_of_readClass_eq_closed {ranges : List (Char × Char)} {first open_ : Bool}
    {cs : List Char} {found : List (Char × Char)} {rest : List Char}
    (h : readClass ranges first open_ cs = .closed found rest) : rest.length < cs.length := by
  fun_induction readClass ranges first open_ cs with
  | case1 => simp at h
  | case2 => simp_all
  | case3 _ _ _ _ _ _ _ ih => simp only [List.length_cons]; have := ih h; omega
  | case4 => simp at h
  | case5 =>
    rename_i ih
    simp only [List.length_cons]
    have := ih h
    omega
  | case6 =>
    rename_i ih
    simp only [List.length_cons]
    have := ih h
    omega

/-- Whether a class is of the bytes outside its ranges, and what follows the mark that says so. -/
def readNegation : List Char → Bool × List Char
  | '!' :: rest | '^' :: rest => (true, rest)
  | cs => (false, cs)

theorem length_readNegation_le (cs : List Char) : (readNegation cs).2.length ≤ cs.length := by
  fun_cases readNegation cs <;> simp

/-- The ranges of bytes for a range of characters. -/
def byteRanges (low high : Char) : List (UInt8 × UInt8) :=
  let single (b : UInt8) := (b, b)
  let lows := Text.Utf8.encode low.toString
  let highs := Text.Utf8.encode high.toString
  if low = high then lows.map single
  else
    lows.dropLast.map single ++ [(lows.getLast?.getD 0, highs.head?.getD 0)] ++
      highs.tail.map single

/-! ## Reading globs -/

/-- What has been read of a glob. -/
structure Reading where
  /-- For each open group, the innermost first, what stands before it and its branches so far. -/
  groups : List (Glob × List Glob)
  current : Glob

namespace Reading

/-- Nothing has been read. -/
def nothing : Reading := ⟨[], [[]]⟩

/-- Adds parts. -/
def add (r : Reading) (parts : List GlobPart) : Reading :=
  { r with current := r.current.map (· ++ parts) }

/-- Adds a character that stands for itself. -/
def addChar (r : Reading) (c : Char) : Reading :=
  r.add ((Text.Utf8.encode c.toString).map .byte)

/-- Starts a group. -/
def openGroup (r : Reading) : Reading :=
  ⟨(r.current, []) :: r.groups, [[]]⟩

/-- Ends a branch of the innermost group.  Outside groups a comma stands for itself. -/
def nextBranch (r : Reading) : Reading :=
  match r.groups with
  | [] => r.addChar ','
  | (before, branches) :: groups => ⟨(before, branches ++ [r.current]) :: groups, [[]]⟩

/-- Ends the innermost group.  Empty branches do not count. -/
def closeGroup? (r : Reading) : Option Reading :=
  match r.groups with
  | [] => none
  | (before, branches) :: groups =>
    let inner := ((branches ++ [r.current]).filter (· ≠ [[]])).flatten
    let current := before.flatMap fun parts =>
      if inner = [] then [parts] else inner.map (parts ++ ·)
    some ⟨groups, current⟩

/-- Puts folders in the place of the slash before them. -/
def addFolders (r : Reading) (folders : GlobPart) : Reading :=
  { r with current := r.current.map fun parts =>
      match parts.getLast? with
      | some .leadingFolders => parts
      | some .contents => parts
      | _ => parts.dropLast ++ [folders] }

/-- Whether two stars behind a character can stand for folders. -/
def mayBeFolders (r : Reading) (previous : Option Char) : Bool :=
  previous = some '/' || (!r.groups.isEmpty && (previous = some ',' || previous = some '{'))

end Reading

/-- Reads a glob; `previous` is the character before the text. -/
def read? (r : Reading) (previous : Option Char) (cs : List Char) : Option Reading :=
  match cs with
  | [] => if r.groups.isEmpty then some r else none
  | '*' :: '*' :: rest =>
    if r.current = [[]] then
      match _h : rest with
      | [] => read? (r.add [.leadingFolders]) (some '*') []
      | '/' :: rest => read? (r.add [.leadingFolders]) (some '/') rest
      | _ => read? (r.add [.many, .many]) (some '*') rest
    else if !r.mayBeFolders previous then read? (r.add [.many, .many]) (some '*') rest
    else
      match _h : rest with
      | [] => read? (r.addFolders .contents) (some '*') []
      | '/' :: rest => read? (r.addFolders .innerFolders) (some '/') rest
      | c :: _ =>
        if (c = ',' ∨ c = '}') ∧ !r.groups.isEmpty then
          read? (r.addFolders .contents) (some '*') rest
        else read? (r.add [.many, .many]) (some '*') rest
  | '*' :: rest => read? (r.add [.many]) (some '*') rest
  | '?' :: rest => read? (r.add [.any]) (some '?') rest
  | '\\' :: rest =>
    match _h : rest with
    | [] => none
    | c :: rest => read? (r.addChar c) (some c) rest
  | '{' :: rest => read? r.openGroup (some '{') rest
  | '}' :: rest => r.closeGroup?.bind fun r => read? r (some '}') rest
  | ',' :: rest => read? r.nextBranch (some ',') rest
  | '[' :: rest =>
    match _h : readClass [] true false (readNegation rest).2 with
    | .unclosed => read? (r.addChar '[') (some '[') rest
    | .invalid => none
    | .closed ranges after =>
      let ranges := ranges.flatMap fun (low, high) => byteRanges low high
      read? (r.add [.oneOf (readNegation rest).1 ranges]) (some ']') after
  | c :: rest => read? (r.addChar c) (some c) rest
  termination_by cs.length
  decreasing_by
    all_goals grind [→ length_of_readClass_eq_closed, length_readNegation_le]

/-- The glob of a text. -/
def ofText? (cs : List Char) : Option Glob :=
  (read? .nothing none cs).map (·.current)

end Glob

end EntityLoom
