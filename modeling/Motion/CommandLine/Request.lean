/-!
Requests of the command line: `collapse FILE` and `compile FILE` with their switches. Switches of
the program stand before the command, switches of a command before or after its file. What follows
a lone `--` is no switch.
-/

set_option autoImplicit false
set_option relaxedAutoImplicit false

namespace Motion

/-- The switches of the program and of its commands. -/
inductive Switch where
  | verbose
  | help
  | noCombine
  | multiple
deriving DecidableEq, Repr

namespace Switch

/-- The long name, without its dashes. -/
def name : Switch → String
  | verbose => "verbose"
  | help => "help"
  | noCombine => "no-combine"
  | multiple => "multiple"

/-- The letter that stands for the switch behind a single dash. -/
def letter? : Switch → Option Char
  | verbose => some 'v'
  | multiple => some 'm'
  | help | noCombine => none

end Switch

/-- Why a command line is refused. -/
inductive UsageError where
  | noCommand
  | unknownCommand (name : String)
  | unknownSwitch (name : String)
  | switchTakesNoValue (name : String)
  | noFile
  | extraArgument (argument : String)
deriving DecidableEq, Repr

namespace UsageError

def message : UsageError → String
  | noCommand => "Missing command"
  | unknownCommand name => "No such command: " ++ name
  | unknownSwitch name => "No such option: " ++ name
  | switchTakesNoValue name => "Option " ++ name ++ " does not take a value"
  | noFile => "Missing argument FILE"
  | extraArgument argument => "Unexpected argument: " ++ argument

end UsageError

/-- What a command works with. -/
inductive Command where
  /-- Cleans and collapses the document in a file; without `combine`, no transforms are merged. -/
  | collapse (combine : Bool)
  /-- Compiles the property in a file; with `multiple`, each component for itself. -/
  | compile (multiple : Bool)
deriving DecidableEq, Repr

/-- What a command line asks for. -/
inductive Request where
  | help
  | run (command : Command) (file : String)
deriving DecidableEq, Repr

namespace Request

/-- The switches in an argument that begins with a dash and goes on. A long name is behind two
dashes; behind one, each letter is a switch. -/
def switches? (known : List Switch) (argument : List Char) : Except UsageError (List Switch) :=
  match argument with
  | '-' :: '-' :: rest =>
    let name := rest.takeWhile (· ≠ '=')
    match known.find? fun switch => switch.name.toList = name with
    | none => .error (.unknownSwitch (String.ofList ('-' :: '-' :: name)))
    | some switch =>
      if rest.contains '=' then .error (.switchTakesNoValue switch.name) else .ok [switch]
  | _ =>
    (argument.drop 1).mapM fun letter =>
      match known.find? fun switch => switch.letter? = some letter with
      | none => .error (.unknownSwitch (String.ofList ['-', letter]))
      | some switch => .ok switch

/-- The switches and the other arguments of a command line. Unless they are `mixed`, the first
argument that is no switch ends the switches. -/
def split (known : List Switch) (mixed : Bool) :
    List String → Except UsageError (List Switch × List String)
  | [] => .ok ([], [])
  | argument :: rest =>
    if argument = "--" then .ok ([], rest)
    else if argument.toList.head? = some '-' ∧ argument ≠ "-" then do
      let found ← switches? known argument.toList
      let (switches, others) ← split known mixed rest
      return (found ++ switches, others)
    else if mixed then do
      let (switches, others) ← split known mixed rest
      return (switches, argument :: others)
    else .ok ([], argument :: rest)

/-- The request for a command with a file. A request for help goes before all but unknown
switches. -/
def ofCommand (own : Switch) (command : Bool → Command) (arguments : List String) :
    Except UsageError Request := do
  let (switches, others) ← split [own, .help] true arguments
  if switches.contains .help then return .help
  match others with
  | [] => .error .noFile
  | [file] => return .run (command (switches.contains own)) file
  | _ :: extra :: _ => .error (.extraArgument extra)

/-- The request that the arguments of the program make. -/
def ofArguments (arguments : List String) : Except UsageError Request := do
  let (switches, others) ← split [.verbose, .help] false arguments
  if switches.contains .help then return .help
  match others with
  | [] => .error .noCommand
  | name :: rest =>
    if name = "collapse" then ofCommand .noCombine (fun off => .collapse !off) rest
    else if name = "compile" then ofCommand .multiple .compile rest
    else .error (.unknownCommand name)

end Request

/-- The name of a file without its last extension. A point at either end of the name begins no
extension. -/
def fileStem (file : String) : String :=
  let name := (file.toList.reverse.takeWhile (· ≠ '/')).reverse
  let extension := name.reverse.takeWhile (· ≠ '.')
  let stem := name.take (name.length - extension.length - 1)
  String.ofList (if extension.isEmpty || stem.isEmpty then name else stem)

end Motion
