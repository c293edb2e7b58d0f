/-!
# Options on a command line

A command line is a list of arguments.  Options may stand anywhere; the value of an option follows
its name, or is attached to it.  Behind `--` everything is an operand.  Arguments are taken from the
left, and the first one that asks for help or is misused decides.
-/

namespace EntityLoom.CommandLine

/-- What an option does. -/
inductive OptionRole where
  /-- It asks for help. -/
  | help
  /-- It stands for itself, once. -/
  | switch
  /-- It has a value of some form, once. -/
  | value (accepts : String → Bool)
  /-- It has a value of some form, any number of times. -/
  | values (accepts : String → Bool)

/-- An option of a command. -/
structure OptionSpec where
  name : String
  letter : Option Char
  role : OptionRole

/-- The arguments that a command takes. -/
structure CommandSpec where
  options : List OptionSpec
  /-- How many operands there may be, if that is limited. -/
  operandLimit : Option Nat
  acceptsOperand : String → Bool
  /-- The commands that may follow. -/
  commands : List String

/-- Why a command line is not carried out. -/
inductive Stop where
  | help
  | misuse
  deriving DecidableEq, Repr

/-- What has been taken off a command line. -/
structure Taken where
  /-- Options by name, each with its value, the last one first. -/
  options : List (String × String)
  operands : List String
  /-- The option named last, with the value behind it, before it is checked. -/
  pending : Option (OptionSpec × Option String)

namespace Taken

/-- What has been taken before the first argument. -/
def nothing : Taken := ⟨[], [], none⟩

/-- The value of an option. -/
def value? (t : Taken) (name : String) : Option String :=
  t.options.lookup name

/-- The values of an option, in order. -/
def values (t : Taken) (name : String) : List String :=
  (t.options.reverse.filter (·.1 = name)).map (·.2)

/-- Whether an option was given. -/
def has (t : Taken) (name : String) : Bool :=
  (t.value? name).isSome

/-- Whether a value is still missing. -/
def isAwaiting (t : Taken) : Bool :=
  match t.pending with
  | some (_, none) => true
  | _ => false

/-- Takes an option with a value. -/
def add (t : Taken) (o : OptionSpec) (value : String) : Except Stop Taken :=
  let added := { t with options := (o.name, value) :: t.options }
  match o.role with
  | .help => .error .help
  | .switch => if t.has o.name then .error .misuse else .ok added
  | .value accepts => if t.has o.name || !accepts value then .error .misuse else .ok added
  | .values accepts => if accepts value then .ok added else .error .misuse

/-- Takes the pending option. -/
def settle (t : Taken) : Except Stop Taken :=
  match t.pending with
  | none => .ok t
  | some (_, none) => .error .misuse
  | some (o, some value) => { t with pending := none }.add o value

/-- Takes the name of an option.  `attached` is the value attached to it. -/
def enter (t : Taken) (o : OptionSpec) (attached : Option String) : Except Stop Taken :=
  match o.role, attached with
  | .help, some _ | .switch, some _ => .error .misuse
  | .help, none | .switch, none => do (← t.settle).add o ""
  | _, some value => do (← t.settle).add o value
  | _, none => do return { ← t.settle with pending := some (o, none) }

/-- Takes an option that is given by its name, with what stands behind the dashes. -/
def enterName (t : Taken) (spec : CommandSpec) (text : List Char) : Except Stop Taken :=
  let name := String.ofList (text.takeWhile (· ≠ '='))
  let attached := match text.dropWhile (· ≠ '=') with
    | [] => none
    | _ :: value => some (String.ofList value)
  match spec.options.find? (·.name = name) with
  | none => .error .misuse
  | some o => t.enter o attached

/-- Takes options that are given by their letters.  What follows the letter of an option with a
value is its value. -/
def enterLetters (t : Taken) (spec : CommandSpec) : List Char → Except Stop Taken
  | [] => .ok t
  | letter :: rest =>
    match spec.options.find? (·.letter = some letter) with
    | none => .error .misuse
    | some o =>
      match o.role, rest with
      | .help, _ | .switch, _ => do enterLetters (← t.enter o none) spec rest
      | _, [] => t.enter o none
      | _, '=' :: value => t.enter o (some (String.ofList value))
      | _, value => t.enter o (some (String.ofList value))

/-- Takes an operand. -/
def addOperand (t : Taken) (spec : CommandSpec) (text : String) : Except Stop Taken := do
  if spec.operandLimit.any (· ≤ t.operands.length) || !spec.acceptsOperand text then throw .misuse
  let t ← t.settle
  return { t with operands := t.operands ++ [text] }

/-- Takes an argument that is not marked as an option: the value of one, or an operand. -/
def addText (t : Taken) (spec : CommandSpec) (text : String) : Except Stop Taken :=
  match t.pending with
  | some (o, none) => .ok { t with pending := some (o, some text) }
  | _ => t.addOperand spec text

/-- Takes arguments up to the name of a command, which is answered with the arguments behind it. -/
def scan (t : Taken) (spec : CommandSpec) :
    List String → Except Stop (Taken × Option (String × List String))
  | [] => .ok (t, none)
  | text :: rest =>
    if !t.isAwaiting && spec.commands.contains text then .ok (t, some (text, rest))
    else do
      match text.toList with
      | ['-', '-'] => return (← rest.foldlM (·.addOperand spec) t, none)
      | '-' :: '-' :: name => scan (← t.enterName spec name) spec rest
      | '-' :: letter :: letters => scan (← t.enterLetters spec (letter :: letters)) spec rest
      | _ => scan (← t.addText spec text) spec rest

end Taken

end EntityLoom.CommandLine
