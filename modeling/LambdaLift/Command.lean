import LambdaLift.Text.Character
import LambdaLift.Text.Similarity
import LambdaLift.Transform.File

/-!
# The command line

* `Command.ofArguments`: what a list of arguments asks for.
* `Command.execute`: does it, and says with which status and texts the program ends.
-/

namespace LambdaLift

/-- What the program is asked to do. -/
inductive Command
  | help
  | transform (input output : String)
deriving DecidableEq, Inhabited

/-- Why arguments make no sense. -/
inductive UsageError
  | unknownLetter (letter : Char)
  | unknownOption (name : String)
  /-- An option that takes no value has one. -/
  | unexpectedValue (name value : String)
  | tooManyArguments (argument : String)
  | missingArguments (names : List String)
  | emptyArgument (name : String)
deriving DecidableEq, Inhabited

namespace Command

/-- The names of the two arguments. -/
def argumentNames : List String :=
  ["<INPUT>", "<OUTPUT>"]

/-- How the program is called with the given options. -/
def usageWith (options : List String) : String :=
  "Usage: jslift " ++ " ".intercalate (options ++ argumentNames)

/-- How the program is called. -/
def usage : String :=
  usageWith []

/-- The name of the only option. -/
def helpName : String :=
  "help"

/-- The help text. -/
def helpText : String :=
  "jslift - Lift nested JavaScript functions to the top level\n\n" ++ usage ++ "\n\n" ++
  "Arguments:\n" ++
  "  <INPUT>   JavaScript file to transform\n" ++
  "  <OUTPUT>  File to write the transformed program to\n\n" ++
  "Options:\n" ++
  "  -h, --help  Print help\n"

/-! ## Arguments -/

/-- What kind of argument a text is. -/
inductive Argument
  | positional
  /-- From here on all arguments are positional. -/
  | separator
  | letter (letter : Char)
  /-- An option by its name, with a value if an equals sign follows the name. -/
  | option (name : String) (value : Option String)
deriving DecidableEq

/-- The name of an option and its value, from the text after the dashes. -/
def splitOption (text : List Char) : Argument :=
  let name := text.takeWhile (· ≠ '=')
  match text.dropWhile (· ≠ '=') with
  | [] => .option (String.ofList name) none
  | _ :: value => .option (String.ofList name) (some (String.ofList value))

/-- The kind of an argument before a separator. A single dash is positional. Options of one letter
may be joined, and only the first of them counts: either it is not known, or it is obeyed at
once. -/
def classify (argument : String) : Argument :=
  match argument.toList with
  | ['-'] => .positional
  | ['-', '-'] => .separator
  | '-' :: '-' :: text => splitOption text
  | '-' :: letter :: _ => .letter letter
  | _ => .positional

/-- An argument that was read but not yet looked at must not be empty. -/
def settle (taken : List String) : Except UsageError Unit :=
  if taken.getLast? = some "" then
    .error (.emptyArgument (argumentNames.getD (taken.length - 1) ""))
  else .ok ()

/-- Takes a positional argument after those in `taken`. The one before it is looked at first, unless
there is one too many. -/
def takePositional (taken : List String) (argument : String) :
    Except UsageError (List String) :=
  if argumentNames.length ≤ taken.length then .error (.tooManyArguments argument)
  else do
    settle taken
    return taken ++ [argument]

/-- The command, once all arguments have been taken. -/
def ofPositionals (taken : List String) : Except UsageError Command := do
  settle taken
  match taken with
  | [input, output] => return .transform input output
  | _ => .error (.missingArguments (argumentNames.drop taken.length))

/-- Reads arguments that are all positional. -/
def readPositionals (taken : List String) : List String → Except UsageError Command
  | [] => ofPositionals taken
  | a :: as => do readPositionals (← takePositional taken a) as

/-- The command for help, after the positional arguments in `taken`. -/
def askHelp (taken : List String) : Except UsageError Command := do
  settle taken
  return .help

/-- The command that an option asks for. -/
def ofOption (taken : List String) (name : String) (value : Option String) :
    Except UsageError Command :=
  if name = helpName then
    match value with
    | none => askHelp taken
    | some value => .error (.unexpectedValue name value)
  else .error (.unknownOption name)

/-- Reads arguments from left to right. -/
def read (taken : List String) : List String → Except UsageError Command
  | [] => ofPositionals taken
  | a :: as =>
    match classify a with
    | .positional => do read (← takePositional taken a) as
    | .separator => readPositionals taken as
    | .letter letter => if letter = 'h' then askHelp taken else .error (.unknownLetter letter)
    | .option name value => ofOption taken name value

/-- What a list of arguments asks for. -/
def ofArguments (arguments : List String) : Except UsageError Command :=
  read [] arguments

end Command

namespace UsageError

/-- The options in the usage line about an unknown one: the one that may be meant. -/
def meantOptions (name : String) : List String :=
  if Similarity.isSimilar name Command.helpName then ["--" ++ Command.helpName] else []

/-- The usage line of the message. It shows the options that the error is about, and there is none
for an empty argument. -/
def usage? : UsageError → Option String
  | unknownLetter _ | tooManyArguments _ | missingArguments _ => some Command.usage
  | unknownOption name => some (Command.usageWith (meantOptions name))
  | unexpectedValue name _ => some (Command.usageWith ["--" ++ name])
  | emptyArgument _ => none

/-- Whether the message says how the program is called in general. -/
def showsUsage (e : UsageError) : Bool :=
  e.usage? = some Command.usage

/-- What is wrong with the arguments. -/
def problem : UsageError → String
  | unknownLetter letter => "unexpected argument '-" ++ String.singleton letter ++ "' found"
  | unknownOption name => "unexpected argument '--" ++ name ++ "' found"
  | unexpectedValue name value =>
    "unexpected value '" ++ value ++ "' for '--" ++ name ++ "' found; no more were expected"
  | tooManyArguments argument => "unexpected argument '" ++ argument ++ "' found"
  | missingArguments names =>
    "the following required arguments were not provided: " ++ " ".intercalate names
  | emptyArgument name => "a value is required for '" ++ name ++ "' but none was supplied"

/-- The message about the arguments. -/
def message (e : UsageError) : String :=
  "error: " ++ e.problem ++ "\n\n" ++ e.usage?.elim "" (· ++ "\n\n") ++
    "For more information, try '--help'.\n"

end UsageError

/-! ## Results -/

/-- How the program ends. -/
structure Outcome where
  code : Nat
  output : String := ""
  errors : String := ""
deriving DecidableEq, Inhabited

namespace TransformError

/-- The name of a failure other than one to read the text. -/
def code : TransformError → String
  | parseFailure .. => "jslift::parse_failure"
  | unsupported .. => "jslift::unsupported_construct"
  | invalidOutput .. => "jslift::invalid_output_path"
  | inaccessible .. => "jslift::io"

/-- Text with a mark before its first line and a bar before the others. Nothing follows a mark or
a bar on a blank line. -/
def marked (mark bar : String) (text : String) : String :=
  let line (mark content : String) :=
    if content.toList.all Character.isWhiteSpace then "  " ++ mark ++ content
    else "  " ++ mark ++ " " ++ content
  match text.splitOn "\n" with
  | [] => ""
  | first :: rest => "\n".intercalate (line mark first :: rest.map (line bar))

/-- What can be done about a failure, or its cause. -/
def remark : TransformError → String
  | unsupported .. =>
    "  help: only variable declarations, function declarations, blocks, expression statements " ++
      "and returns can be lifted\n"
  | inaccessible _ cause => "  ╰─▶ " ++ cause.text ++ "\n"
  | parseFailure .. | invalidOutput .. => ""

/-- The summary of a number of faults. -/
def countText (n : Nat) : String :=
  "\nFound " ++ toString n ++ " error" ++ (if n = 1 then "" else "s") ++ ".\n"

/-- All that is printed about a failure. -/
def report : TransformError → String
  | parseFailure _ lines => String.join (lines.map (· ++ "\n")) ++ countText lines.length
  | e => e.code ++ "\n\n" ++ marked "×" "│" e.message ++ "\n" ++ e.remark ++ "\n"

end TransformError

namespace Command

variable {m : Type → Type} [Monad m]

/-- Carries out a command. -/
def perform (fs : FileSystem m) : Command → m Outcome
  | help => return { code := 0, output := helpText }
  | transform input output => do
    match ← Transform.file fs input output with
    | .ok () => return { code := 0 }
    | .error e => return { code := e.exitCode, errors := e.report }

/-- Does what the arguments ask for. Arguments that make no sense end the program with status
`2`. -/
def execute (fs : FileSystem m) (arguments : List String) : m (Except UsageError Outcome) := do
  match ofArguments arguments with
  | .ok command => return .ok (← perform fs command)
  | .error e => return .error e

/-- The outcome for arguments that make no sense. -/
def refused (e : UsageError) : Outcome :=
  { code := 2, errors := e.message }

end Command

end LambdaLift
