import FortranJulia.Files.Path

/-!
A file system as a value: the files and directories by their places, and a working directory.
-/

namespace FortranJulia

set_option autoImplicit false

/-! ## Errors -/

inductive FileAction where
  | opening
  | reading
  | makingDirectory
  deriving DecidableEq, Repr

inductive FileCause where
  | notFound
  | isDirectory
  | notDirectory
  /-- A name or a path is longer than any can be. -/
  | tooLong
  /-- A path holds the character that ends paths. -/
  | invalid
  | other (text : String)
  deriving DecidableEq, Repr

structure FileError where
  action : FileAction
  path : String
  cause : FileCause
  deriving DecidableEq, Repr

def FileAction.text : FileAction → String
  | .opening => "open"
  | .reading => "read"
  | .makingDirectory => "mkdir"

def FileCause.text : FileCause → String
  | .notFound => "no such file or directory"
  | .isDirectory => "is a directory"
  | .notDirectory => "not a directory"
  | .tooLong => "file name too long"
  | .invalid => "invalid argument"
  | .other s => s

def FileError.message (e : FileError) : String :=
  e.action.text ++ " " ++ e.path ++ ": " ++ e.cause.text

/-! ## Disks -/

/-- A place is the list of names on the way to it from the root. -/
abbrev Place := List String

inductive Entry where
  | file (content : String)
  | directory
  deriving DecidableEq, Repr

structure Disk where
  /-- The working directory, which exists. -/
  here : Place := []
  entries : List (Place × Entry) := []

namespace Disk

/-- The entry at a place. The root and the directories above the working directory are there. -/
def get? (d : Disk) (p : Place) : Option Entry :=
  if p.isPrefixOf d.here then some .directory else d.entries.lookup p

/-- Puts an entry at a place, in front of an older one. -/
def put (d : Disk) (p : Place) (e : Entry) : Disk :=
  { d with entries := (p, e) :: d.entries.filter (·.1 != p) }

/-- The number of bytes that a name may have. -/
def maxName : Nat := 255

/-- The number of bytes that no path reaches. -/
def maxPath : Nat := 4096

/-- Goes one element further; only a directory has elements. -/
def step (d : Disk) (p : Place) (part : List Char) : Except FileCause Place :=
  match d.get? p with
  | none => .error .notFound
  | some (.file _) => .error .notDirectory
  | some .directory =>
    if part == [] || part == ['.'] then .ok p
    else if part == ['.', '.'] then .ok p.dropLast
    else if (String.ofList part).utf8ByteSize > maxName then .error .tooLong
    else .ok (p ++ [String.ofList part])

/-- The place a path names. Everything before its last element exists. -/
def place (d : Disk) (path : String) : Except FileCause Place :=
  if path == "" then .error .notFound
  else if path.toList.contains '\x00' then .error .invalid
  else if path.utf8ByteSize ≥ maxPath then .error .tooLong
  else
    let start := if path.toList.head? == some '/' then [] else d.here
    (Path.split path.toList).foldlM d.step start

def read (d : Disk) (path : String) : Except FileError String :=
  match d.place path with
  | .error c => .error ⟨.opening, path, c⟩
  | .ok p =>
    match d.get? p with
    | none => .error ⟨.opening, path, .notFound⟩
    | some .directory => .error ⟨.reading, path, .isDirectory⟩
    | some (.file s) => .ok s

/-- Is it certain that a path names nothing? -/
def isMissing (d : Disk) (path : String) : Bool :=
  match d.place path with
  | .error c => c == .notFound
  | .ok p => (d.get? p).isNone

/-- Does a path ask for a directory by a slash at its end? -/
def endsInSlash (path : String) : Bool :=
  path.toList.getLast? == some '/'

/-- The place of a file to be written. A slash at the end makes it a directory, there or not. -/
def target (d : Disk) (path : String) : Except FileCause Place :=
  match Path.withoutSlashes path.toList with
  | [] => d.place path
  | cs => do
    if !endsInSlash path then d.place path
    else
      let _ ← d.place (String.ofList cs)
      throw .isDirectory

def write (d : Disk) (path content : String) : Except FileError Disk :=
  match d.target path with
  | .error c => .error ⟨.opening, path, c⟩
  | .ok p =>
    match d.get? p with
    | some .directory => .error ⟨.opening, path, .isDirectory⟩
    | _ => .ok (d.put p (.file content))

/-- Makes the last directory of a path whose other directories are there. -/
def makeLast (d : Disk) (path : String) : Except FileError Disk :=
  match d.place path with
  | .error c => .error ⟨.makingDirectory, path, c⟩
  | .ok p =>
    match d.get? p with
    | some .directory => .ok d
    | some (.file _) => .error ⟨.makingDirectory, path, .notDirectory⟩
    | none => .ok (d.put p .directory)

/-- Is there something at a path? -/
def isPresent (d : Disk) (path : String) : Bool :=
  match d.place path with
  | .error _ => false
  | .ok p => (d.get? p).isSome

/-- The path of the directory above, if the path has more than one element. -/
def above? (path : String) : Option String :=
  match Path.upToSlash (Path.withoutSlashes path.toList) with
  | [] | [_] => none
  | cs => some (String.ofList cs.dropLast)

/-- Makes a directory and those above it, from the top. A path has at most as many directories as
characters. -/
def makeUpTo (d : Disk) : Nat → String → Except FileError Disk
  | 0, path => d.makeLast path
  | fuel + 1, path =>
    if d.isPresent path then d.makeLast path
    else
      match above? path with
      | none => d.makeLast path
      | some up => do (← d.makeUpTo fuel up).makeLast path

def makeDirectories (d : Disk) (path : String) : Except FileError Disk :=
  d.makeUpTo path.length path

end Disk

end FortranJulia
