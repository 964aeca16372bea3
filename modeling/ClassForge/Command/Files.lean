import ClassForge.Bytes

namespace ClassForge

inductive FileError where
  | notFound | notDirectory | isDirectory | exists | nameTooLong | badName | notText
  | other (text : String)
  deriving DecidableEq, Repr

def FileError.message : FileError → String
  | .notFound => "No such file or directory (os error 2)"
  | .notDirectory => "Not a directory (os error 20)"
  | .isDirectory => "Is a directory (os error 21)"
  | .exists => "File exists (os error 17)"
  | .nameTooLong => "File name too long (os error 36)"
  | .badName => "file name contained an unexpected NUL byte"
  | .notText => "stream did not contain valid UTF-8"
  | .other text => text

abbrev Path := List String

inductive FileKind where
  | file (bytes : Bytes)
  | directory

/-- Files with their contents, and directories other than the root. -/
structure FileTree where
  files : List (Path × Bytes)
  directories : List Path

namespace FileTree

def maxNameLength : Nat := 255
def maxPathLength : Nat := 4095

def empty : FileTree := ⟨[], []⟩

def kind? (tree : FileTree) (path : Path) : Option FileKind :=
  if path.isEmpty || tree.directories.contains path then some .directory
  else (tree.files.lookup path).map .file

def put (tree : FileTree) (path : Path) (bytes : Bytes) : FileTree :=
  { tree with files := (path, bytes) :: tree.files.filter fun entry => entry.1 != path }

def addDirectory (tree : FileTree) (path : Path) : FileTree :=
  if path.isEmpty || tree.directories.contains path then tree
  else { tree with directories := path :: tree.directories }

def steps (path : String) : List String := path.splitOn "/"

def checkPath (path : String) : Except FileError Unit :=
  if path.toList.contains '\x00' then .error .badName
  else if path.utf8ByteSize > maxPathLength then .error .nameTooLong
  else .ok ()

def stepFrom (directory : Path) (step : String) : Except FileError Path :=
  if step.isEmpty || step == "." then .ok directory
  else if step == ".." then .ok directory.dropLast
  else if step.utf8ByteSize > maxNameLength then .error .nameTooLong
  else .ok (directory ++ [step])

def follow (tree : FileTree) (current : Path) : List String → Except FileError Path
  | [] => .ok current
  | step :: rest =>
    match tree.kind? current with
    | some .directory => do tree.follow (← stepFrom current step) rest
    | some (.file _) => .error .notDirectory
    | none => .error .notFound

def read (tree : FileTree) (path : String) : Except FileError Bytes := do
  checkPath path
  let found ← tree.follow [] (steps path)
  match tree.kind? found with
  | some (.file bytes) => .ok bytes
  | some .directory => .error .isDirectory
  | none => .error .notFound

abbrev Change := EStateM FileError FileTree

def liftResult {α : Type} : Except FileError α → Change α
  | .ok a => pure a
  | .error e => throw e

def makeDirectories (current : Path) : List String → Change Path
  | [] => return current
  | step :: rest => do
    let next ← liftResult (stepFrom current step)
    match (← get).kind? next with
    | some .directory => makeDirectories next rest
    | some (.file _) => throw (if rest.isEmpty then .exists else .notDirectory)
    | none =>
      modify (·.addDirectory next)
      makeDirectories next rest

def save (path : String) (bytes : Bytes) : Change Unit := do
  let parents := (steps path).dropLast
  liftResult (checkPath (String.intercalate "/" parents))
  let directory ← makeDirectories [] parents
  liftResult (checkPath path)
  let target ← liftResult (stepFrom directory ((steps path).getLastD ""))
  match (← get).kind? target with
  | some .directory => throw .isDirectory
  | _ => modify (·.put target bytes)

end FileTree

/-- How a command reads and writes files. -/
structure FileAccess (m : Type → Type) where
  read : String → m (Except FileError Bytes)
  /-- Directories that are missing are made. -/
  save : String → Bytes → m (Except FileError Unit)

def FileTree.access : FileAccess (StateM FileTree) where
  read path := return (← get).read path
  save path bytes := fun tree =>
    match FileTree.save path bytes tree with
    | .ok () tree => (.ok (), tree)
    | .error e tree => (.error e, tree)

end ClassForge
