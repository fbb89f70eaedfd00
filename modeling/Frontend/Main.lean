import Frontend.Generate.Command

/-!
# The command line

The program carries out one command on the files of the system. It prints why a command
failed, from the task at hand to the cause, and ends with status 1 then, with status 2 if it
could not read its command line.
-/

namespace Frontend

/-- Access to the files of the system. -/
def systemFiles : FileAccess IO where
  read path := do
    try
      return some (← IO.FS.readFile path)
    catch _ => return none
  makeDirectory path := do
    try
      IO.FS.createDirAll path
      return true
    catch _ => return false
  write path content := do
    try
      IO.FS.writeFile path content
      return true
    catch _ => return false

end Frontend

open Frontend in
/-- Carries out the command of the command line. -/
def main (args : List String) : IO UInt32 := do
  match Command.ofArgs args with
  | .error e =>
    IO.eprintln ("error: " ++ e.message)
    return 2
  | .ok command =>
    match ← (command.run systemFiles).run with
    | .ok () => return 0
    | .error messages =>
      IO.eprintln ("error: " ++ String.intercalate ": " messages)
      return 1
