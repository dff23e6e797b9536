import FortranJulia.Conversion
import FortranJulia.Files.Host
import FortranJulia.Report.Scalar

/-!
The report of a run as a YAML document: what was read, what was written and the diagnostics.
-/

namespace FortranJulia

set_option autoImplicit false

structure Report where
  mark : RunMark
  source : String
  program : String
  outputs : List String
  diagnostics : List Diagnostic

namespace Report

def field (key value : String) : String :=
  key ++ ": " ++ endLine value

/-- A list under a key; each item starts after a dash. -/
def listField (key : String) (items : List String) : String :=
  if items.isEmpty then key ++ ": []\n"
  else key ++ ":\n" ++ String.join (items.map fun i => "    - " ++ endLine i)

def diagnosticText (d : Diagnostic) : String :=
  field "severity" (scalar 8 d.severity.text) ++ "      " ++
    field "rule" (scalar 8 d.rule) ++ "      " ++
    field "line" (Decimal.ofInt d.line) ++ "      " ++
    field "col" (Decimal.ofInt d.col) ++ "      " ++
    field "message" (scalar 8 d.message)

def text (r : Report) : String :=
  field "run_id" (scalar 4 r.mark.id) ++ field "time" r.mark.time ++
    field "source" (scalar 4 r.source) ++
    (if r.program == "" then "" else field "program" (scalar 4 r.program)) ++
    listField "outputs" (r.outputs.map (scalar 6)) ++
    listField "diagnostics" (r.diagnostics.map diagnosticText)

/-- Writes the report of a conversion to a path. -/
def write {m : Type → Type} [Monad m] [Host m] (path source : String) (c : Conversion)
    (outputs : List String) : m (Except FileError Unit) := do
  let mark ← Host.runMark (m := m)
  Host.write path (text ⟨mark, source, c.name, outputs, c.diagnostics⟩)

end Report

end FortranJulia
