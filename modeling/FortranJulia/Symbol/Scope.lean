import FortranJulia.Symbol.Implicit

/-!
Scopes: the symbols of one program unit. Names are the same if they differ in letter case only. A
scope keeps its symbols in the order in which they were first named, the names assigned in the
order of their first assignment, and its dummy arguments.
-/

namespace FortranJulia

set_option autoImplicit false

/-! ## Symbols -/

/-- What a name stands for. -/
inductive SymbolKind where
  | unknown | variableName | function | subroutine | statementFunction | externalName | intrinsic
  | program
  deriving DecidableEq, Repr

namespace SymbolKind

def text : SymbolKind → String
  | .unknown => "Unknown"
  | .variableName => "Variable"
  | .function => "Function"
  | .subroutine => "Subroutine"
  | .statementFunction => "StatementFunction"
  | .externalName => "External"
  | .intrinsic => "Intrinsic"
  | .program => "Program"

def all : List SymbolKind :=
  [.unknown, .variableName, .function, .subroutine, .statementFunction, .externalName, .intrinsic,
   .program]

/-- The kind with a name; other names are of unknown kind. -/
def ofText (s : String) : SymbolKind :=
  (all.find? (·.text == s)).getD .unknown

/-- Is the name used with the syntax of a call? -/
def isCallable : SymbolKind → Bool
  | .function | .subroutine | .statementFunction | .externalName | .intrinsic => true
  | _ => false

end SymbolKind

/-- Facts about a symbol that statements add. -/
inductive Flag where
  /-- The type was given by the implicit rules. -/
  | implicit
  | array
  /-- A dummy argument. -/
  | formal
  /-- Listed in a common block. -/
  | common
  | assigned
  /-- A named constant. -/
  | parameter
  deriving DecidableEq, Repr

namespace Flag

def all : List Flag := [.implicit, .array, .formal, .common, .assigned, .parameter]

def text : Flag → String
  | .implicit => "implicit"
  | .array => "array"
  | .formal => "formal"
  | .common => "common"
  | .assigned => "assigned"
  | .parameter => "parameter"

def ofText? (s : String) : Option Flag := all.find? (·.text == s)

end Flag

/-- A set of flags. -/
structure Flags where
  implicit : Bool := false
  array : Bool := false
  formal : Bool := false
  common : Bool := false
  assigned : Bool := false
  parameter : Bool := false
  deriving DecidableEq, Repr

namespace Flags

def empty : Flags := {}

def has (f : Flags) : Flag → Bool
  | .implicit => f.implicit
  | .array => f.array
  | .formal => f.formal
  | .common => f.common
  | .assigned => f.assigned
  | .parameter => f.parameter

/-- The flags with one of them set or cleared. -/
def put (f : Flags) (b : Bool) : Flag → Flags
  | .implicit => { f with implicit := b }
  | .array => { f with array := b }
  | .formal => { f with formal := b }
  | .common => { f with common := b }
  | .assigned => { f with assigned := b }
  | .parameter => { f with parameter := b }

def toList (f : Flags) : List Flag := Flag.all.filter f.has

/-- The flags as bits, the first one lowest. -/
def bits (f : Flags) : Nat :=
  Flag.all.foldr (fun g n => 2 * n + (if f.has g then 1 else 0)) 0

end Flags

structure Symbol where
  /-- The spelling of the first occurrence. -/
  name : String
  type : Option TypeName := none
  kind : SymbolKind := .variableName
  /-- The upper bounds of the dimensions. -/
  dims : List String := []
  flags : Flags := {}
  /-- The dummy arguments of a procedure. -/
  params : List String := []
  deriving DecidableEq, Repr

namespace Symbol

def isArray (s : Symbol) : Bool := s.flags.array

def mark (s : Symbol) (f : Flag) : Symbol := { s with flags := s.flags.put true f }

end Symbol

/-! ## Scopes -/

/-- The kinds of program units, and the scope around them. -/
inductive ScopeKind where
  | global | program | subroutine | function | blockData
  deriving DecidableEq, Repr

namespace ScopeKind

def text : ScopeKind → String
  | .global => "Global"
  | .program => "Program"
  | .subroutine => "Subroutine"
  | .function => "Function"
  | .blockData => "BlockData"

/-- The kind with a name; other names are of the global kind. -/
def ofText (s : String) : ScopeKind :=
  ([.program, .subroutine, .function, .blockData].find? (·.text == s)).getD .global

end ScopeKind

/-- What two spellings of one name have in common. -/
def nameKey (name : String) : String := Text.upper name

structure Scope where
  name : String
  kind : ScopeKind
  /-- The symbols by key, in the order in which they were defined. -/
  symbols : List (String × Symbol) := []
  /-- The keys of assigned names, in the order of the first assignment. -/
  assigned : List String := []
  formals : List String := []
  implicit : ImplicitRules := .default

namespace Scope

def get? (s : Scope) (name : String) : Option Symbol :=
  s.symbols.lookup (nameKey name)

/-- Defines a name as a variable unless it is defined. -/
def define (s : Scope) (name : String) : Scope :=
  match s.get? name with
  | some _ => s
  | none => { s with symbols := s.symbols ++ [(nameKey name, { name })] }

/-- Changes the symbol of a name, after defining it. -/
def update (s : Scope) (name : String) (f : Symbol → Symbol) : Scope :=
  let k := nameKey name
  let t := s.define name
  { t with symbols := t.symbols.map fun e => if e.1 == k then (e.1, f e.2) else e }

/-- The symbol of a name once it is defined. -/
def getOrNew (s : Scope) (name : String) : Symbol :=
  (s.get? name).getD { name }

/-- Gives a name a declared type. -/
def declare (s : Scope) (name : String) (type : Option TypeName) : Scope :=
  s.update name fun y => { y with type := type, flags := y.flags.put false .implicit }

/-- Makes a name an array; without a type it gets that of the implicit rules. -/
def declareArray (s : Scope) (name : String) (dims : List String) : Scope :=
  s.update name fun y =>
    let z := { y with dims := dims, flags := y.flags.put true .array }
    match z.type with
    | some _ => z
    | none =>
      { z with type := s.implicit.typeOf name, flags := z.flags.put true .implicit }

/-- Records the dummy arguments. -/
def setFormals (s : Scope) (names : List String) : Scope :=
  names.foldl
    (fun t name =>
      let u := t.update name (·.mark .formal)
      { u with formals := u.formals ++ [(u.getOrNew name).name] })
    { s with formals := [] }

def markCommon (s : Scope) (name : String) : Scope :=
  s.update name (·.mark .common)

def isAssigned (s : Scope) (name : String) : Bool :=
  s.assigned.contains (nameKey name)

/-- Records an assignment to a name. -/
def markAssigned (s : Scope) (name : String) : Scope :=
  if s.isAssigned name then s
  else
    let t := s.update name (·.mark .assigned)
    { t with assigned := t.assigned ++ [nameKey name] }

/-- The assigned names as they were first spelled. -/
def assignedNames (s : Scope) : List String :=
  s.assigned.map fun k => ((s.symbols.lookup k).map (·.name)).getD ""

def isFormal (s : Scope) (name : String) : Bool :=
  (s.get? name).any (·.flags.formal)

def isCommon (s : Scope) (name : String) : Bool :=
  (s.get? name).any (·.flags.common)

end Scope

end FortranJulia
