import FortranJulia.Files.Disk

/-!
What a program needs from its surroundings: files, environment variables and the marks that tell
one run from another. The commands are written for any monad that provides them; a disk held in a
state is one.
-/

namespace FortranJulia

set_option autoImplicit false

/-- The name of a run and its time, as reports give them. -/
structure RunMark where
  id : String
  time : String
  deriving DecidableEq, Repr

class Host (m : Type → Type) where
  read : String → m (Except FileError String)
  isMissing : String → m Bool
  write : String → String → m (Except FileError Unit)
  makeDirectories : String → m (Except FileError Unit)
  /-- The value of an environment variable, empty if it is not set. -/
  getVariable : String → m String
  runMark : m RunMark

/-- Surroundings as a value. -/
structure World where
  disk : Disk := {}
  environment : List (String × String) := []
  mark : RunMark := ⟨"", ""⟩

namespace World

/-- Replaces the disk unless the change fails. -/
def change (f : Disk → Except FileError Disk) : StateM World (Except FileError Unit) := do
  match f (← get).disk with
  | .error e => return .error e
  | .ok d =>
    modify fun w => { w with disk := d }
    return .ok ()

instance : Host (StateM World) where
  read path := do return (← get).disk.read path
  isMissing path := do return (← get).disk.isMissing path
  write path content := change (·.write path content)
  makeDirectories path := change (·.makeDirectories path)
  getVariable name := do return ((← get).environment.lookup name).getD ""
  runMark := do return (← get).mark

end World

end FortranJulia
