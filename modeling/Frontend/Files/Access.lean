import Frontend.Files.Tree

/-!
# Access to files

The generators read and write files through a `FileAccess`, whose operations may fail. One
of them works on a `FileTree`; it changes nothing where it fails.
-/

namespace Frontend

/-- The operations on files that the generators need. -/
structure FileAccess (m : Type → Type) where
  /-- The content of a file, if it can be read. -/
  read : String → m (Option String)
  /-- Makes a directory unless it exists; tells whether it is there now. -/
  makeDirectory : String → m Bool
  /-- Writes a file; tells whether it could be created. -/
  write : String → String → m Bool

namespace FileTree

/-- Takes the changed tree, if there is one, and tells whether there was. -/
def attempt (change : FileTree → Option FileTree) : StateM FileTree Bool :=
  modifyGet fun t =>
    match change t with
    | some changed => (true, changed)
    | none => (false, t)

/-- Access to the files of a tree. -/
def access : FileAccess (StateM FileTree) where
  read path := return (← get).read? path
  makeDirectory path := attempt fun t => t.makeDirectory? path
  write path content := attempt fun t => t.write? path content

end FileTree

end Frontend
