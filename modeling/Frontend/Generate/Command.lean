import Frontend.Generate.Task

/-!
# Commands

A command line names a task, `lexer` or `parser`, and then gives its options: each has a
short and a long form, and all but the switch `-d` take a value. Of an option given twice
the later value counts.
-/

namespace Frontend

/-- A task to carry out. -/
inductive Command where
  | lexer (task : LexerTask)
  | parser (task : ParserTask)
  deriving DecidableEq, Repr

/-- Why a command line was refused. -/
inductive UsageError where
  | unknownTask (name : String)
  | unknownOption (text : String)
  | missingValue (option : String)
  | missingOption (name : String)
  deriving DecidableEq, Repr

/-- What a usage error says to the user. -/
def UsageError.message : UsageError → String
  | unknownTask name => "unknown task " ++ Text.quoted name ++ ": expected lexer or parser"
  | unknownOption text => "unexpected argument " ++ Text.quoted text
  | missingValue option => "a value is required for " ++ option
  | missingOption name => "the option --" ++ name ++ " is required"

namespace Command

/-- An option of a task: its letter, its name and whether it takes a value. -/
structure OptionSpec where
  letter : Char
  name : String
  takesValue : Bool
  deriving DecidableEq, Repr

/-- The options of a lexer task. -/
def lexerOptions : List OptionSpec :=
  [⟨'s', "spec", true⟩, ⟨'o', "output-dir", true⟩, ⟨'n', "name", true⟩, ⟨'i', "input", true⟩,
    ⟨'d', "debug", false⟩]

/-- The options of a parser task. -/
def parserOptions : List OptionSpec :=
  [⟨'g', "grammar", true⟩, ⟨'o', "output-dir", true⟩, ⟨'n', "name", true⟩,
    ⟨'t', "tokens", true⟩, ⟨'s', "spec", true⟩, ⟨'d', "debug", false⟩]

/-- The option that an argument stands for. -/
def findOption? (specs : List OptionSpec) (argument : String) : Option OptionSpec :=
  specs.find? fun spec =>
    argument == "--" ++ spec.name || argument == String.ofList ['-', spec.letter]

/-- Collects the values of the options in a list of arguments. -/
def collect (specs : List OptionSpec) (values : OrdMap String String) :
    List String → Except UsageError (OrdMap String String)
  | [] => .ok values
  | argument :: rest =>
    match findOption? specs argument, rest with
    | none, _ => .error (.unknownOption argument)
    | some spec, value :: more =>
      if spec.takesValue then collect specs (values.insert spec.name value) more
      else collect specs (values.insert spec.name "") (value :: more)
    | some spec, [] =>
      if spec.takesValue then .error (.missingValue argument)
      else .ok (values.insert spec.name "")

/-- The value of an option that must be given. -/
def required (values : OrdMap String String) (name : String) : Except UsageError String :=
  match values.get? name with
  | some value => .ok value
  | none => .error (.missingOption name)

/-- Reads a command line. -/
def ofArgs : List String → Except UsageError Command
  | "lexer" :: rest => do
    let values ← collect lexerOptions ∅ rest
    return .lexer
      ⟨← required values "spec", ← required values "output-dir", ← required values "name",
        values.get? "input"⟩
  | "parser" :: rest => do
    let values ← collect parserOptions ∅ rest
    return .parser
      ⟨← required values "grammar", ← required values "output-dir", ← required values "name",
        values.get? "tokens", values.get? "spec", values.contains "debug"⟩
  | name :: _ => .error (.unknownTask name)
  | [] => .error (.unknownTask "")

/-- Carries out a command. -/
def run {m : Type → Type} [Monad m] (access : FileAccess m) : Command → ExceptT Failure m Unit
  | lexer task => task.run access
  | parser task => task.run access

end Command

end Frontend
