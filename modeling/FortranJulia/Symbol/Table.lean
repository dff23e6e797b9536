import FortranJulia.Symbol.Scope

/-!
The symbol table: a global scope that holds the program units, the scopes of the units entered so
far, and the spelling of each name where it occurred first. At most one unit is open at a time, and
a new unit starts with the implicit rules of the global scope.
-/

namespace FortranJulia

set_option autoImplicit false

structure Table where
  global : Scope := { name := "", kind := .global }
  /-- The scopes that were entered before the open one. -/
  closed : List Scope := []
  /-- The scope of the open unit. -/
  opened : Option Scope := none
  /-- The names that have occurred, each as it was spelled first. -/
  spellings : List String := []

namespace Table

def empty : Table := {}

/-- The innermost scope. -/
def current (t : Table) : Scope := t.opened.getD t.global

/-- The scopes of program units in the order in which they were entered. -/
def units (t : Table) : List Scope := t.closed ++ t.opened.toList

/-- Changes the innermost scope. -/
def modify (t : Table) (f : Scope → Scope) : Table :=
  match t.opened with
  | some s => { t with opened := some (f s) }
  | none => { t with global := f t.global }

def exit (t : Table) : Table :=
  { t with closed := t.units, opened := none }

def enter (t : Table) (name : String) (kind : ScopeKind) : Table :=
  { t.exit with opened := some { name, kind, implicit := t.global.implicit } }

/-- The symbol of a name in the innermost scope or else in the global one. -/
def lookup (t : Table) (name : String) : Option Symbol :=
  (t.current.get? name).or (t.global.get? name)

/-! ## Spelling -/

/-- The spelling of a name where it occurred first, if it has. -/
def spelling? (t : Table) (name : String) : Option String :=
  let k := nameKey name
  t.spellings.find? (nameKey · == k)

def spelling (t : Table) (name : String) : String :=
  (t.spelling? name).getD name

/-- Records a spelling unless the name occurred before. -/
def spell (t : Table) (name : String) : Table :=
  match t.spelling? name with
  | some _ => t
  | none => { t with spellings := t.spellings ++ [name] }

/-! ## Program units -/

/-- Registers a program unit in the global scope. -/
def defineUnit (t : Table) (name : String) (kind : SymbolKind) (type : Option TypeName)
    (params : List String) : Table :=
  let t := t.spell name
  { t with
    global := t.global.update (t.spelling name) fun y =>
      { y with kind := kind, params := params, type := type.or y.type } }

/-! ## Questions -/

/-- Is the name an array of the innermost scope? -/
def isArray (t : Table) (name : String) : Bool :=
  (t.current.get? name).any (·.isArray)

/-- Is the name called with arguments? An array hides a procedure of the same name. -/
def isCallable (t : Table) (name : String) : Bool :=
  let globally := (t.global.get? name).any (·.kind.isCallable)
  match t.current.get? name with
  | some y => if y.isArray then false else y.kind.isCallable || globally
  | none => globally

/-- The kind of procedure a name stands for. An array hides a procedure of the same name. -/
def procedure (t : Table) (name : String) : SymbolKind :=
  let globally :=
    match t.global.get? name with
    | some y => if y.kind.isCallable then y.kind else .unknown
    | none => .unknown
  match t.current.get? name with
  | some y =>
    if y.isArray then .variableName else if y.kind.isCallable then y.kind else globally
  | none => globally

/-- The declared type of a name, or that of the implicit rules. -/
def typeOf (t : Table) (name : String) : Option TypeName :=
  match (t.lookup name).bind (·.type) with
  | some y => some y
  | none => t.current.implicit.typeOf name

end Table

end FortranJulia
