import EntityLoom.CommandLine.Options
import EntityLoom.Files.Path

/-!
# The command line

The commands of the program with their options.  The options for the ledger and for messages may
stand before a command or behind it; the ones behind it count.
-/

namespace EntityLoom.CommandLine

/-- What is to be woven, and how. -/
structure WeaveRequest where
  model : Path
  inputs : List Path
  output : Option Path
  classPath : List Path
  versionText : Option String
  /-- Whether inputs that have not changed are woven too. -/
  force : Bool
  /-- Whether the reports on classes are answered. -/
  report : Bool
  deriving DecidableEq, Repr

/-- A command. -/
inductive Command where
  | weave (request : WeaveRequest)
  | inspect (classFile : Path) (model : Option Path)
  | stats
  | clear
  deriving DecidableEq, Repr

/-- A command with the ledger that it works on. -/
structure Invocation where
  ledger : Option Path
  command : Command
  deriving DecidableEq, Repr

/-! ## Options -/

/-- Whether a text is a path. -/
def isPath (text : String) : Bool := text ≠ ""

/-- The forms in which messages can be written. -/
def messageForms : List String := ["pretty", "compact", "json"]

def helpOption : OptionSpec := ⟨"help", some 'h', .help⟩
def ledgerOption : OptionSpec := ⟨"db", none, .value isPath⟩
def messageOption : OptionSpec := ⟨"log-format", none, .value messageForms.contains⟩
def modelOption : OptionSpec := ⟨"model", some 'm', .value isPath⟩
def outputOption : OptionSpec := ⟨"output", some 'o', .value isPath⟩
def classPathOption : OptionSpec := ⟨"classpath", none, .values isPath⟩
def versionOption : OptionSpec := ⟨"java-version", none, .value fun _ => true⟩
def forceOption : OptionSpec := ⟨"force", none, .switch⟩
def reportOption : OptionSpec := ⟨"report", none, .switch⟩

/-- The options that all commands have. -/
def sharedOptions : List OptionSpec := [helpOption, ledgerOption, messageOption]

/-- The names of the commands. -/
def commandNames : List String := ["weave", "inspect", "stats", "clear", "help"]

/-- What stands before a command. -/
def programSpec : CommandSpec := ⟨sharedOptions, some 0, isPath, commandNames⟩

def weaveSpec : CommandSpec :=
  { options := sharedOptions ++ [modelOption, outputOption, classPathOption, versionOption,
      forceOption, reportOption]
    operandLimit := none, acceptsOperand := isPath, commands := [] }

def inspectSpec : CommandSpec := ⟨sharedOptions ++ [modelOption], some 1, isPath, []⟩
def plainSpec : CommandSpec := ⟨sharedOptions, some 0, isPath, []⟩

/-! ## Commands -/

/-- Takes all arguments of a command. -/
def CommandSpec.takeAll (spec : CommandSpec) (args : List String) : Except Stop Taken := do
  (← Taken.nothing.scan spec args).1.settle

/-- The path that an option gives. -/
def Taken.path? (t : Taken) (o : OptionSpec) : Option Path :=
  (t.value? o.name).map Path.mk

/-- What is to be woven, from the arguments. -/
def WeaveRequest.ofTaken (t : Taken) : Except Stop WeaveRequest :=
  match t.path? modelOption, t.operands with
  | none, _ | _, [] => .error .misuse
  | some model, inputs =>
    .ok
      { model, inputs := inputs.map Path.mk, output := t.path? outputOption
        classPath := (t.values classPathOption.name).map Path.mk
        versionText := t.value? versionOption.name
        force := t.has forceOption.name, report := t.has reportOption.name }

/-- What is to be inspected, from the arguments. -/
def inspectOfTaken (t : Taken) : Except Stop Command :=
  match t.operands with
  | [classFile] => .ok (.inspect ⟨classFile⟩ (t.path? modelOption))
  | _ => .error .misuse

/-- Asks for help, in general or about a command. -/
def help : List String → Stop
  | [] => .help
  | [name] => if commandNames.contains name then .help else .misuse
  | _ => .misuse

/-- The command of a name and arguments, with what was taken behind its name. -/
def commandOf (name : String) (args : List String) : Except Stop (Taken × Command) :=
  match name with
  | "weave" => do
    let t ← weaveSpec.takeAll args
    return (t, .weave (← WeaveRequest.ofTaken t))
  | "inspect" => do
    let t ← inspectSpec.takeAll args
    return (t, ← inspectOfTaken t)
  | "stats" => do return (← plainSpec.takeAll args, .stats)
  | "clear" => do return (← plainSpec.takeAll args, .clear)
  | _ => .error (help args)

/-- What the arguments of the program say.  An option that is pending before the command is checked
last. -/
def Invocation.ofArguments (args : List String) : Except Stop Invocation := do
  match ← Taken.nothing.scan programSpec args with
  | (_, none) => throw .misuse
  | (before, some (name, rest)) =>
    let (behind, command) ← commandOf name rest
    let before ← before.settle
    return { ledger := (behind.path? ledgerOption) <|> (before.path? ledgerOption), command }

end EntityLoom.CommandLine
