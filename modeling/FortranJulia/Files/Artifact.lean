import FortranJulia.Conversion
import FortranJulia.Files.Host

/-!
The files made by a conversion: the program, named after its source, and the support file beside
it.
-/

namespace FortranJulia

set_option autoImplicit false

/-- Where the files of a conversion go. Empty parts stand for the directory of the source, the
usual extension and the usual support file. -/
structure Destination where
  directory : String := ""
  extension : String := ""
  support : String := ""

inductive ArtifactError where
  | directory (e : FileError)
  | file (e : FileError)

namespace ArtifactError

def message : ArtifactError → String
  | .directory e => "create output directory: " ++ e.message
  | .file e => "write artifact: " ++ e.message

end ArtifactError

namespace Destination

def directoryFor (d : Destination) (source : String) : String :=
  if d.directory == "" then Path.dir source else d.directory

def programPath (d : Destination) (source : String) : String :=
  let ext := if d.extension == "" then ".jl" else d.extension
  Path.join (d.directoryFor source) (Path.outputName source ext)

def supportPath (d : Destination) (source : String) : String :=
  let name := if d.support == "" then Intrinsic.supportFile else d.support
  Path.join (d.directoryFor source) name

end Destination

/-- The paths of the files that were written, and the error that stopped the writing. -/
structure Written where
  paths : List String := []
  error : Option ArtifactError := none

/-- Writes files in order up to the first that fails. -/
def writeFiles {m : Type → Type} [Monad m] [Host m] (done : List String) :
    List (String × String) → m Written
  | [] => return { paths := done.reverse }
  | (path, content) :: rest => do
    match ← Host.write path content with
    | .error e => return { paths := done.reverse, error := some (.file e) }
    | .ok () => writeFiles (path :: done) rest

def Conversion.write {m : Type → Type} [Monad m] [Host m] (r : Conversion) (source : String)
    (d : Destination) : m Written := do
  match ← Host.makeDirectories (m := m) (d.directoryFor source) with
  | .error e => return { error := some (.directory e) }
  | .ok () =>
    writeFiles [] [(d.programPath source, r.program), (d.supportPath source, r.support)]

end FortranJulia
