import Frontend.Automaton.Persisted
import Frontend.Files.Access
import Frontend.Grammar.Reader
import Frontend.Lexer.Classifier
import Frontend.LR.Parse
import Frontend.LR.Report

/-!
# Generating lexers and parsers from files

A lexer task writes the automaton of a file of definitions and, if there are words, their
lexemes. A parser task writes the table of a grammar, with a report if one is wanted, and, if
there is a stream of lexemes, the trace of its parse. A task that fails leaves what it has
written; its messages go from the task at hand to the cause.
-/

namespace Frontend

/-- The messages of a failure, the outermost first. -/
abbrev Failure := List String

/-- What to make a lexer from. -/
structure LexerTask where
  definitions : String
  directory : String
  name : String
  words : Option String
  deriving DecidableEq, Repr

/-- What to make a parser from. -/
structure ParserTask where
  grammar : String
  directory : String
  name : String
  lexemes : Option String
  definitions : Option String
  /-- Whether a report is wanted. -/
  report : Bool
  deriving DecidableEq, Repr

namespace Generate

variable {m : Type → Type} [Monad m] (access : FileAccess m)

/-- Reads a file, or fails saying what it was for. -/
def readFile (purpose path : String) : ExceptT Failure m String := do
  match ← access.read path with
  | some text => return text
  | none => throw ["cannot read " ++ purpose ++ " " ++ path]

/-- Makes the output directory. The empty path is the working directory, which exists. -/
def makeDirectory (path : String) : ExceptT Failure m Unit := do
  if path.toList.isEmpty then return ()
  else if ← access.makeDirectory path then return ()
  else throw ["cannot create output directory " ++ path]

/-- Writes an output file. -/
def writeFile (path content : String) : ExceptT Failure m Unit := do
  if ← access.write path content then return ()
  else throw ["cannot create " ++ path]

/-- Goes on unless there was an error, and puts a message before that of the error. -/
def within (context : String) (result : Except Error α) : ExceptT Failure m α :=
  match result with
  | .ok a => return a
  | .error e => throw [context, e.message]

/-- The path of an output file in a directory; a name may be a path from the root itself. -/
def outputPath (directory name extension : String) : String :=
  let file := name ++ "." ++ extension
  if file.toList.head? == some '/' then file
  else if directory.toList.isEmpty || directory.toList.getLast? == some '/' then directory ++ file
  else directory ++ "/" ++ file

end Generate

open Generate

variable {m : Type → Type} [Monad m]

/-- Makes a lexer. -/
def LexerTask.run (task : LexerTask) (access : FileAccess m) : ExceptT Failure m Unit := do
  let text ← readFile access "definitions" task.definitions
  let definitions ← within ("in " ++ task.definitions) (Definitions.read text)
  let lexer ← within ("cannot build lexer from " ++ task.definitions)
    (Lexer.ofDefinitions definitions)
  makeDirectory access task.directory
  let path := outputPath task.directory task.name "fa"
  match lexer.automaton.write with
  | .error e =>
    writeFile access path ""
    throw ["cannot write " ++ path, e.message]
  | .ok text => writeFile access path text
  if let some words := task.words then
    let text ← readFile access "words" words
    let lexemes := lexer.scan (Text.lines text.toList)
    writeFile access (outputPath task.directory task.name "tokens") (Lexeme.renderAll lexemes)

/-- Makes a parser. -/
def ParserTask.run (task : ParserTask) (access : FileAccess m) : ExceptT Failure m Unit := do
  let text ← readFile access "grammar" task.grammar
  let grammar ← within ("in " ++ task.grammar) (Grammar.read text)
  if let some path := task.definitions then
    let text ← readFile access "definitions" path
    let definitions ← within ("in " ++ path) (Definitions.read text)
    within (task.grammar ++ " does not match " ++ path) (grammar.checkTokens definitions.tokens)
  let analysis := Analysis.ofGrammar grammar
  makeDirectory access task.directory
  let output := outputPath task.directory task.name
  writeFile access (output "csv") analysis.table.csv
  if task.report then
    writeFile access (output "report") analysis.report
  if let some path := task.lexemes then
    let text ← readFile access "tokens" path
    let tokens ←
      match tokenColumn text with
      | .ok tokens => pure tokens
      | .error e => throw ["in " ++ path, e.message]
    match analysis.table.parse? tokens with
    | some (.ok outcome) => writeFile access (output "trace") outcome.renderTrace
    | some (.error e) => throw [e.message]
    | none => throw ["the parse of " ++ path ++ " does not end"]

end Frontend
