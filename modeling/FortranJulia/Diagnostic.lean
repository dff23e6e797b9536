import FortranJulia.Decimal.Reading

/-!
Diagnostics: constructs that are left out or written only approximately, each with the phrase it
is about and its place in the source.
-/

namespace FortranJulia

set_option autoImplicit false

inductive Severity where
  /-- Something is written with a known loss. -/
  | info
  /-- Something produces no code, or code that may not run. -/
  | warning
  /-- A rank that has no name. -/
  | rank (n : Int)
  deriving DecidableEq, Repr

namespace Severity

def text : Severity → String
  | .info => "info"
  | .warning => "warning"
  | .rank n => "severity(" ++ Decimal.ofInt n ++ ")"

def ofNumber (n : Int) : Severity :=
  if n == 0 then .info else if n == 1 then .warning else .rank n

end Severity

structure Diagnostic where
  severity : Severity
  /-- The label of the construct, or a rule of its own for references and program units. -/
  rule : String
  line : Int
  col : Int
  message : String
  deriving DecidableEq, Repr

namespace Diagnostic

def unresolvedReference : String := "UnresolvedReference"

def programUnit : String := "ProgramUnit"

/-- Place, severity and rule, and the message if there is one. -/
def text (d : Diagnostic) : String :=
  Decimal.ofInt d.line ++ ":" ++ Decimal.ofInt d.col ++ ": " ++ d.severity.text ++ ": " ++ d.rule ++
    (if d.message == "" then "" else ": " ++ d.message)

/-- Order by place in the source. -/
def notAfter (a b : Diagnostic) : Bool :=
  a.line < b.line || (a.line == b.line && a.col ≤ b.col)

/-- Diagnostics in the order of their places; those of one place stay in order. -/
def sorted (ds : List Diagnostic) : List Diagnostic :=
  ds.mergeSort notAfter

def warnings (ds : List Diagnostic) : Nat :=
  ds.countP (·.severity == .warning)

end Diagnostic

end FortranJulia
