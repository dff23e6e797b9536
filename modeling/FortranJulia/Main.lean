import Std.Time.DateTime
import FortranJulia.CommandLine.Run

/-!
The program: a command line run on the files of the system.
-/

namespace FortranJulia

set_option autoImplicit false

/-! ## Files -/

/-- The cause of a failure of the system, by its code where one kind has several. -/
def FileCause.ofError : IO.Error → FileCause
  | .noFileOrDirectory .. => .notFound
  | .inappropriateType _ code _ => if code == 21 then .isDirectory else .notDirectory
  | .invalidArgument _ code _ => if code == 36 then .tooLong else .invalid
  | e => .other e.toString

/-- Runs an action on a file and keeps its failure. -/
def attempt {α : Type} (action : FileAction) (path : String) (act : IO α) :
    IO (Except FileError α) := do
  match ← act.toBaseIO with
  | .ok a => return .ok a
  | .error e => return .error ⟨action, path, .ofError e⟩

/-- Reads a file. A directory can be opened, but not read. -/
def readFile (path : String) : IO (Except FileError String) := do
  match ← attempt .opening path (IO.FS.readFile path) with
  | .error ⟨_, p, .isDirectory⟩ => return .error ⟨.reading, p, .isDirectory⟩
  | r => return r

/-- Can a path be opened? -/
def canOpen (path : String) : IO Bool := do
  match ← (IO.FS.Handle.mk path .read).toBaseIO with
  | .ok _ => return true
  | .error _ => return false

def isMissingFile (path : String) : IO Bool := do
  match ← attempt .opening path (IO.FS.Handle.mk path .read) with
  | .error e => return e.cause == .notFound
  | .ok _ => return false

/-- Makes a directory and those above it, from the top. A path has at most as many directories as
characters. -/
def makeDirectoriesUpTo : Nat → String → IO (Except FileError Unit)
  | 0, path => attempt .makingDirectory path (IO.FS.createDir path)
  | fuel + 1, path => do
    if ← canOpen (path ++ "/.") then return .ok ()
    if ← canOpen path then return .error ⟨.makingDirectory, path, .notDirectory⟩
    let above ←
      match Disk.above? path with
      | none => pure (.ok ())
      | some up => makeDirectoriesUpTo fuel up
    match above with
    | .error e => return .error e
    | .ok () => attempt .makingDirectory path (IO.FS.createDir path)

/-! ## Marks of a run -/

/-- A random name for a run: 32 digits in groups, of which two say how it was made. -/
def randomId : IO String := do
  let digits ← (List.range 32).mapM fun i => do
    let d ← IO.rand 0 15
    return if i == 12 then 4 else if i == 16 then 8 + d % 4 else d
  let text := digits.map Nat.digitChar
  let group (start count : Nat) : String := String.ofList ((text.drop start).take count)
  return "-".intercalate [group 0 8, group 8 4, group 12 4, group 16 4, group 20 12]

/-- A number with at least some digits. -/
def padded (width : Nat) (n : Int) : String :=
  let ds := Decimal.digits n.toNat
  String.ofList (List.replicate (width - ds.length) '0') ++ ds

/-- A time with the date first; the fraction of a second has no zeros at its end. -/
def timeText (t : Std.Time.PlainDateTime) : String :=
  let date := "-".intercalate
    [padded 4 t.date.year, padded 2 t.date.month.val, padded 2 t.date.day.val]
  let time := ":".intercalate
    [padded 2 t.time.hour.val, padded 2 t.time.minute.val, padded 2 t.time.second.val]
  let fraction := Text.dropTrailing (· == '0') (padded 9 t.time.nanosecond.val).toList
  date ++ "T" ++ time ++ (if fraction.isEmpty then "" else "." ++ String.ofList fraction) ++ "Z"

instance : Host IO where
  read := readFile
  isMissing := isMissingFile
  write path content := attempt .opening path (IO.FS.writeFile path content)
  makeDirectories path := makeDirectoriesUpTo path.length path
  getVariable name := do return (← IO.getEnv name).getD ""
  runMark := do
    let now ← Std.Time.Timestamp.now
    return ⟨← randomId, timeText (.ofWallTime (now.toWallTime .zero))⟩

end FortranJulia

def main (args : List String) : IO UInt32 := do
  let outcome ← FortranJulia.CommandLine.run (m := IO) args
  (← IO.getStdout).putStr outcome.stdout
  (← IO.getStderr).putStr outcome.stderr
  return outcome.code.toUInt32
