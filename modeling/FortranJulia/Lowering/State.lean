import FortranJulia.Diagnostic
import FortranJulia.Fault
import FortranJulia.Julia.Code
import FortranJulia.Symbol.Collect
import FortranJulia.Text.Blank

/-!
The state of a lowering: the symbols declared so far, the diagnostics, the lines of code and what
is known about the program unit at hand. Lowering follows the statements in source order, so that
whether a name with a list in parentheses is an array element or a call depends on the declarations
before it.
-/

namespace FortranJulia

set_option autoImplicit false

open Julia (Expr Code Line Binding)

/-! ## State -/

/-- A statement label without zeros in front. -/
def labelKey (label : String) : String :=
  match label.toList with
  | [] => ""
  | cs =>
    match cs.dropWhile (· == '0') with
    | [] => "0"
    | ds => String.ofList ds

/-- A loop that has not reached its last statement. -/
structure OpenLoop where
  label : String
  /-- The depth of the line that opens the loop. -/
  depth : Nat
  /-- The key of the loop variable. -/
  index : String
  deriving DecidableEq, Repr

/-- A format as a Julia string and the number of values it takes. -/
structure PrintFormat where
  literal : String
  values : Nat
  deriving DecidableEq, Repr

/-- What is known about a program unit. Sets of names hold keys. -/
structure UnitState where
  kind : Label := .program
  name : String := ""
  /-- The formats by label, the last one first; a format that has no Julia string has none. -/
  formats : List (String × Option PrintFormat) := []
  /-- The labels that are jumped to. -/
  targets : List String := []
  /-- The names in common blocks. -/
  common : List String := []
  /-- The named constants. -/
  params : List String := []
  /-- The names that were given a value. -/
  declared : List String := []
  /-- The names that were given an array. -/
  arrays : List String := []
  /-- The open loops, innermost first. -/
  loops : List OpenLoop := []
  /-- The names to be given a value before the first executable statement. -/
  locals : List String := []
  localsDone : Bool := false

namespace UnitState

/-- Are the variables of the unit Julia globals? -/
def isGlobal (u : UnitState) : Bool :=
  u.kind == .mainProgram || u.kind == .blockDataSubprogram

def isRoutine (u : UnitState) : Bool :=
  u.kind == .functionSubprogram || u.kind == .subroutineSubprogram

end UnitState

structure LowerState where
  collection : Collection := {}
  diagnostics : List Diagnostic := []
  /-- The keys of variables that block data units give values to. -/
  blockData : List String := []
  lines : List Line := []
  depth : Nat := 0
  unit : UnitState := {}
  /-- A format needs more blanks than memory can hold. -/
  overflow : Bool := false

/-- Lowering is an action on the state that may meet a fault. -/
abbrev Lower := StateT LowerState (Except Fault)

namespace Lower

def table : Lower Table := do
  return (← get).collection.table

def unit : Lower UnitState := do
  return (← get).unit

def modifyTable (f : Table → Table) : Lower Unit :=
  modify fun s => { s with collection := { s.collection with table := f s.collection.table } }

def modifyUnit (f : UnitState → UnitState) : Lower Unit :=
  modify fun s => { s with unit := f s.unit }

/-! ## Parts of lists -/

/-- The last of some nodes, of which there has to be one. -/
def lastOf (ns : List Node) : Lower Node :=
  match ns.getLast? with
  | some n => return n
  | none => throw .child

/-- The items from an index on, which has to lie in the list or at its end. -/
def itemsFrom {α : Type} (n : Nat) (xs : List α) : Lower (List α) :=
  if n ≤ xs.length then return xs.drop n else throw .slice

/-- The first items of a list, which has to have so many. -/
def itemsUpTo {α : Type} (n : Nat) (xs : List α) : Lower (List α) :=
  if n ≤ xs.length then return xs.take n else throw .slice

/-! ## Lines and diagnostics -/

/-- Adds a line at the current depth. The lines are kept last first. -/
def line (c : Code) : Lower Unit :=
  modify fun s => { s with lines := .code s.depth c :: s.lines }

/-- Does something one level deeper. -/
def nested (act : Lower Unit) : Lower Unit := do
  modify fun s => { s with depth := s.depth + 1 }
  act
  modify fun s => { s with depth := s.depth - 1 }

def report (severity : Severity) (place : Nat × Nat) (rule message : String) : Lower Unit :=
  modify fun s =>
    { s with diagnostics := s.diagnostics ++ [⟨severity, rule, place.1, place.2, message⟩] }

def warn (n : Node) (rule message : String) : Lower Unit :=
  report .warning n.place rule message

def note (n : Node) (rule message : String) : Lower Unit :=
  report .info n.place rule message

/-- A comment without its marker and the blanks around it. -/
def comment (text : String) : Lower Unit := do
  match Text.trimChars text.toList with
  | [] => line (.comment "")
  | cs => line (.comment (Text.trim (String.ofList (← itemsFrom 1 cs))))

/-- The comments at the end of a statement. -/
def trailing (stmt : Node) : Lower Unit :=
  match stmt.child? .endOfStmt with
  | none => pure ()
  | some e =>
    (e.lexemes.filter (·.kind == .comment)).forM fun lx => comment lx.text

/-! ## Names -/

/-- The Julia words that cannot be names. -/
def reservedWords : List String :=
  ["abstract", "baremodule", "begin", "break", "catch", "const", "continue", "do", "else", "elseif",
   "end", "export", "false", "finally", "for", "function", "global", "if", "import", "in", "isa",
   "let", "local", "macro", "module", "mutable", "outer", "primitive", "quote", "return", "struct",
   "true", "try", "type", "using", "where", "while"]

/-- A name that is not a reserved word in any letter case. -/
def escaped (name : String) : String :=
  if reservedWords.contains name.toLower then name ++ "_" else name

/-- The first spelling of a name. -/
def spell (name : String) : Lower String := do
  let t ← table
  modifyTable (·.spell name)
  return t.spelling name

/-- The Julia name of a procedure. -/
def callee (name : String) : Lower String := do
  return escaped (← spell name)

/-- Is the name that of the function at hand, and so its result? -/
def isResult (name : String) : Lower Bool := do
  let u ← unit
  return u.kind == .functionSubprogram && nameKey name == nameKey u.name

/-- The Julia name of a variable. The result of a function has an underscore in front, so that it
does not hide the function. -/
def ident (name : String) : Lower String := do
  if ← isResult name then return "_" ++ (← spell name)
  callee name

/-- How a new variable of the unit is bound. -/
def binding : Lower Binding := do
  return if (← unit).isGlobal then .globally else .plain

end Lower

end FortranJulia
