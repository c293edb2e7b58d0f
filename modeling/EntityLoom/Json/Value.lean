import EntityLoom.Bytes

/-!
# JSON values

JSON values with their keys in written order, and their indented written form.  A number is kept as
it is spelled.
-/

namespace EntityLoom

/-- A JSON value.  A string constant whose escapes leave a surrogate without its partner has no
text. -/
inductive Json where
  | null
  | bool (value : Bool)
  | number (literal : String)
  | string (text : Option String)
  | array (items : List Json)
  | object (fields : List (Option String × Json))
  deriving Inhabited

namespace Json

/-- A string constant. -/
def text (s : String) : Json := string (some s)

/-- A natural number. -/
def nat (n : Nat) : Json := number (toString n)

/-- A string constant, or `null`. -/
def textOrNull (s : Option String) : Json := s.elim null text

/-- An array of string constants. -/
def texts (ss : List String) : Json := array (ss.map text)

/-- An object with the given keys. -/
def record (fields : List (String × Json)) : Json :=
  object (fields.map fun (key, value) => (some key, value))

/-! ## Written form -/

/-- A character inside a string constant. -/
def escapeChar (c : Char) : String :=
  if c = '"' then "\\\""
  else if c = '\\' then "\\\\"
  else if c.toNat = 0x08 then "\\b"
  else if c.toNat = 0x09 then "\\t"
  else if c.toNat = 0x0A then "\\n"
  else if c.toNat = 0x0C then "\\f"
  else if c.toNat = 0x0D then "\\r"
  else if c.toNat < 0x20 then "\\u" ++ Bytes.hexPadded 4 c.toNat
  else c.toString

/-- The written form of a string constant. -/
def quoted (s : String) : String :=
  "\"" ++ String.join (s.toList.map escapeChar) ++ "\""

/-- A line break and the indentation of a depth. -/
def newline (depth : Nat) : String :=
  "\n" ++ String.join (List.replicate depth "  ")

mutual

/-- The written form of a value, two blanks deeper for each level. -/
def pretty (depth : Nat) : Json → String
  | null => "null"
  | bool value => if value then "true" else "false"
  | number literal => literal
  | string s => quoted (s.getD "")
  | array [] => "[]"
  | array (item :: items) =>
    "[" ++ newline (depth + 1) ++ item.pretty (depth + 1) ++ prettyItems depth items ++
      newline depth ++ "]"
  | object [] => "\x7b\x7d"
  | object ((key, value) :: fields) =>
    "\x7b" ++ newline (depth + 1) ++ quoted (key.getD "") ++ ": " ++ value.pretty (depth + 1) ++
      prettyFields depth fields ++ newline depth ++ "\x7d"

/-- The items of an array after the first. -/
def prettyItems (depth : Nat) : List Json → String
  | [] => ""
  | item :: items =>
    "," ++ newline (depth + 1) ++ item.pretty (depth + 1) ++ prettyItems depth items

/-- The fields of an object after the first. -/
def prettyFields (depth : Nat) : List (Option String × Json) → String
  | [] => ""
  | (key, value) :: fields =>
    "," ++ newline (depth + 1) ++ quoted (key.getD "") ++ ": " ++ value.pretty (depth + 1) ++
      prettyFields depth fields

end

end Json

end EntityLoom
