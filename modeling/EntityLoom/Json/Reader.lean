import EntityLoom.Json.Value
import EntityLoom.Text.Utf16

/-!
# Reading JSON

A reader for JSON texts: one value with nothing but blanks around it, four blank characters, no
leading zeros, no control characters in string constants, no comma at an end.  Each function takes
what it reads off the front of a text.  The functions that call each other count down a fuel, and
every call takes at least one character, so the length of the text is fuel enough.
-/

namespace EntityLoom.Json

/-- Whether a character may stand between the parts of a value. -/
def isSpace (c : Char) : Bool :=
  c == ' ' || c == '\t' || c == '\n' || c == '\r'

/-- Drops the blanks at the front. -/
def skipSpace (cs : List Char) : List Char :=
  cs.dropWhile isSpace

/-! ## Numbers -/

/-- Takes one or more digits. -/
def takeDigits? (cs : List Char) : Option (List Char × List Char) :=
  match cs.takeWhile Char.isDigit with
  | [] => none
  | ds => some (ds, cs.dropWhile Char.isDigit)

/-- Takes the digits before the point: a zero, or digits that start with another one. -/
def takeInteger? (cs : List Char) : Option (List Char × List Char) :=
  match cs with
  | '0' :: rest => some (['0'], rest)
  | _ => takeDigits? cs

/-- Takes a point and digits, if there is a point. -/
def takeFraction? (cs : List Char) : Option (List Char × List Char) :=
  match cs with
  | '.' :: rest => do
    let (ds, rest) ← takeDigits? rest
    return ('.' :: ds, rest)
  | _ => some ([], cs)

/-- Takes an exponent, if there is one. -/
def takeExponent? (cs : List Char) : Option (List Char × List Char) :=
  let digits (head : List Char) (rest : List Char) : Option (List Char × List Char) := do
    let (ds, rest) ← takeDigits? rest
    return (head ++ ds, rest)
  match cs with
  | 'e' :: '+' :: rest | 'E' :: '+' :: rest => digits ['e', '+'] rest
  | 'e' :: '-' :: rest | 'E' :: '-' :: rest => digits ['e', '-'] rest
  | 'e' :: rest | 'E' :: rest => digits ['e'] rest
  | _ => some ([], cs)

/-- Takes a number. -/
def takeNumber? (cs : List Char) : Option (Json × List Char) := do
  let (sign, cs) := match cs with
    | '-' :: rest => (['-'], rest)
    | _ => ([], cs)
  let (whole, cs) ← takeInteger? cs
  let (fraction, cs) ← takeFraction? cs
  let (exponent, cs) ← takeExponent? cs
  return (number (String.ofList (sign ++ whole ++ fraction ++ exponent)), cs)

/-! ## String constants -/

/-- Takes four hexadecimal digits. -/
def takeHex? : List Char → Option (UInt16 × List Char)
  | a :: b :: c :: d :: rest => do
    let a ← Bytes.hexValue? a
    let b ← Bytes.hexValue? b
    let c ← Bytes.hexValue? c
    let d ← Bytes.hexValue? d
    return (UInt16.ofNat (((a * 16 + b) * 16 + c) * 16 + d), rest)
  | _ => none

/-- The character of an escape with one letter. -/
def simpleEscape? : Char → Option Char
  | '"' => some '"'
  | '\\' => some '\\'
  | '/' => some '/'
  | 'b' => some '\x08'
  | 'f' => some '\x0C'
  | 'n' => some '\n'
  | 'r' => some '\r'
  | 't' => some '\t'
  | _ => none

/-- Takes the escape of a unit after its `\u`.  A surrogate that has no partner gives no
character. -/
def takeUnit? (cs : List Char) : Option (Option Char × List Char) := do
  let (u, rest) ← takeHex? cs
  if Text.isHighSurrogate u then
    match rest with
    | '\\' :: 'u' :: rest' => do
      let (v, rest'') ← takeHex? rest'
      if Text.isLowSurrogate v then return (some (Text.pairChar u v), rest'')
      else return (none, rest)
    | _ => return (none, rest)
  else if Text.isLowSurrogate u then return (none, rest)
  else return (some (Char.ofNat u.toNat), rest)

/-- Takes the rest of a string constant after its opening quote.  `acc` holds the characters taken
so far, last first, unless one of them could not be told. -/
def takeString? (acc : Option (List Char)) : Nat → List Char → Option (Option String × List Char)
  | 0, _ => none
  | _ + 1, [] => none
  | fuel + 1, c :: cs =>
    if c = '"' then some (acc.map fun out => String.ofList out.reverse, cs)
    else if c = '\\' then
      match cs with
      | [] => none
      | 'u' :: cs =>
        match takeUnit? cs with
        | none => none
        | some (unit, rest) => takeString? (acc.bind fun out => unit.map (· :: out)) fuel rest
      | e :: cs =>
        match simpleEscape? e with
        | none => none
        | some c => takeString? (acc.map (c :: ·)) fuel cs
    else if c.toNat < 0x20 then none
    else takeString? (acc.map (c :: ·)) fuel cs

/-! ## Values -/

mutual

/-- Takes a value. -/
def takeValue? : Nat → List Char → Option (Json × List Char)
  | 0, _ => none
  | fuel + 1, cs =>
    match cs with
    | 'n' :: 'u' :: 'l' :: 'l' :: rest => some (null, rest)
    | 't' :: 'r' :: 'u' :: 'e' :: rest => some (bool true, rest)
    | 'f' :: 'a' :: 'l' :: 's' :: 'e' :: rest => some (bool false, rest)
    | '"' :: rest =>
      match takeString? (some []) fuel rest with
      | none => none
      | some (s, rest) => some (string s, rest)
    | '[' :: rest =>
      match skipSpace rest with
      | ']' :: rest => some (array [], rest)
      | rest => takeItems? [] fuel rest
    | '\x7b' :: rest =>
      match skipSpace rest with
      | '\x7d' :: rest => some (object [], rest)
      | rest => takeFields? [] fuel rest
    | _ => takeNumber? cs

/-- Takes the items of an array from the next one to the closing bracket.  `acc` holds the items
taken so far, last first. -/
def takeItems? (acc : List Json) : Nat → List Char → Option (Json × List Char)
  | 0, _ => none
  | fuel + 1, cs =>
    match takeValue? fuel (skipSpace cs) with
    | none => none
    | some (item, rest) =>
      match skipSpace rest with
      | ']' :: rest => some (array (item :: acc).reverse, rest)
      | ',' :: rest => takeItems? (item :: acc) fuel rest
      | _ => none

/-- Takes the fields of an object from the next one to the closing brace.  `acc` holds the fields
taken so far, last first. -/
def takeFields? (acc : List (Option String × Json)) :
    Nat → List Char → Option (Json × List Char)
  | 0, _ => none
  | fuel + 1, cs =>
    match skipSpace cs with
    | '"' :: rest =>
      match takeString? (some []) fuel rest with
      | none => none
      | some (key, rest) =>
        match skipSpace rest with
        | ':' :: rest =>
          match takeValue? fuel (skipSpace rest) with
          | none => none
          | some (value, rest) =>
            match skipSpace rest with
            | '\x7d' :: rest => some (object ((key, value) :: acc).reverse, rest)
            | ',' :: rest => takeFields? ((key, value) :: acc) fuel rest
            | _ => none
        | _ => none
    | _ => none

end

/-- Reads a text that is one value. -/
def ofText? (s : String) : Option Json :=
  let cs := s.toList
  match takeValue? (cs.length + 1) (skipSpace cs) with
  | some (value, rest) => if skipSpace rest = [] then some value else none
  | none => none

/-! ## Records

A record is written as an object, with its fields in any order and unknown ones passed over, or as
an array of its fields in their order, which may stop early. -/

/-- The text of a string constant. -/
def text? : Json → Option String
  | string s => s
  | _ => none

/-- The value of a truth value. -/
def flag? : Json → Option Bool
  | bool b => some b
  | _ => none

/-- The text of a string constant, where `null` stands for none. -/
def optionalText? : Json → Option (Option String)
  | null => some none
  | string (some s) => some (some s)
  | _ => none

/-- The items of an array. -/
def items? : Json → Option (List Json)
  | array items => some items
  | _ => none

/-- The natural number of a number without sign, point and exponent. -/
def nat? : Json → Option Nat
  | number literal => if literal.toList.all Char.isDigit then literal.toNat? else none
  | _ => none

/-- The values of a record's fields, in the order of the given keys.  An object must not give a key
twice. -/
def fields? (keys : List String) : Json → Option (List (Option Json))
  | array items =>
    if items.length ≤ keys.length then
      some (items.map some ++ List.replicate (keys.length - items.length) none)
    else none
  | object fields => do
    let known ← fields.mapM fun (key, value) => key.map (·, value)
    keys.mapM fun key =>
      match known.filter (·.1 = key) with
      | [] => some none
      | [(_, value)] => some (some value)
      | _ => none
  | _ => none

/-- Reads a field that may be missing. -/
def withDefault (default : α) (read? : Json → Option α) : Option Json → Option α
  | none => some default
  | some value => read? value

/-- Reads a field that must be given. -/
def required (read? : Json → Option α) : Option Json → Option α :=
  (·.bind read?)

end EntityLoom.Json
