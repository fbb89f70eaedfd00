import Frontend.Files.Location
import Frontend.OrdMap

/-!
# Trees of files

A tree holds files and directories at their locations. Paths are followed step by step from
the working directory or from the root, and every step leaves from a directory that exists;
so a path may name what does not exist only with its last step.
-/

namespace Frontend

/-- What is at a location. -/
inductive Entry where
  | file (content : String)
  | directory
  deriving DecidableEq, Repr

/-- Files and directories at their locations. -/
structure FileTree where
  entries : OrdMap Location Entry
  /-- Where paths begin that do not begin at the root. -/
  workingDirectory : Location
  deriving DecidableEq

namespace FileTree

/-- The tree whose one directory besides the root is the working directory. -/
def empty : FileTree :=
  let home := Location.root.child "work"
  ⟨(∅ : OrdMap Location Entry).insert home .directory, home⟩

instance : EmptyCollection FileTree := ⟨empty⟩

/-- What is at a location, if anything is; the root is always a directory. -/
def entry? (t : FileTree) (l : Location) : Option Entry :=
  if l = .root then some .directory else t.entries.get? l

/-- Puts an entry at a location, in place of what was there. -/
def put (t : FileTree) (l : Location) (entry : Entry) : FileTree :=
  { t with entries := t.entries.insert l entry }

/-! ## Following paths -/

/-- The location that steps lead to. -/
def walk? (t : FileTree) (l : Location) : List PathStep → Option Location
  | [] => some l
  | step :: rest =>
    if t.entry? l = some .directory then
      match step with
      | .stay => t.walk? l rest
      | .up => t.walk? l.parent rest
      | .into name => t.walk? (l.child name) rest
    else none

/-- Where a path begins. -/
def origin (t : FileTree) (p : Path) : Location := if p.fromRoot then .root else t.workingDirectory

/-- The location that a path leads to. -/
def locate? (t : FileTree) (path : String) : Option Location :=
  (Path.ofText? path).bind fun p => t.walk? (t.origin p) p.steps

/-! ## Reading and writing -/

/-- The content of the file that a path leads to. -/
def read? (t : FileTree) (path : String) : Option String :=
  match (t.locate? path).bind t.entry? with
  | some (.file content) => some content
  | _ => none

/-- Writes the file that a path leads to; a directory cannot be written. -/
def write? (t : FileTree) (path content : String) : Option FileTree :=
  (t.locate? path).bind fun l =>
    if t.entry? l = some .directory then none else some (t.put l (.file content))

/-- Makes the directories along steps that do not exist yet. -/
def makeSteps? (t : FileTree) (l : Location) : List PathStep → Option FileTree
  | [] => some t
  | .stay :: rest => t.makeSteps? l rest
  | .up :: rest => t.makeSteps? l.parent rest
  | .into name :: rest =>
    let l := l.child name
    match t.entry? l with
    | some .directory => t.makeSteps? l rest
    | some (.file _) => none
    | none => (t.put l .directory).makeSteps? l rest

/-- Makes a directory, and those on the way to it; a file must not be in the way. -/
def makeDirectory? (t : FileTree) (path : String) : Option FileTree :=
  (Path.ofText? path).bind fun p => t.makeSteps? (t.origin p) p.steps

/-! ## Lists of files -/

/-- Adds a file, and the directories on the way to it, if its path is one that allows it. -/
def addFile (t : FileTree) (path content : String) : FileTree :=
  let held :=
    match Text.cutLast? '/' path.toList with
    | some (directory, _) => t.makeDirectory? (String.ofList directory)
    | none => some t
  (held.bind fun t => t.write? path content).getD t

/-- The tree of the given files. -/
def ofFiles (files : List (String × String)) : FileTree :=
  files.foldl (fun t (path, content) => t.addFile path content) ∅

/-- The files below a directory, by their paths from there. -/
def filesIn (t : FileTree) (directory : String) : List (String × String) :=
  match t.locate? directory with
  | none => []
  | some base =>
    t.entries.toList.filterMap fun (l, entry) =>
      match entry with
      | .file content => (base.pathTo? l).map fun path => (path, content)
      | .directory => none

end FileTree

end Frontend
