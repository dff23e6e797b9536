import FortranJulia.Symbol.Table
import FortranJulia.Tree.Text

/-!
Declarations of a program: the symbol table of a syntax tree. Statements are recorded one by one,
so that a table may also be built up along with other work on the statements.
-/

namespace FortranJulia

set_option autoImplicit false

/-! ## Parts of statements -/

namespace Label

def isUnit : Label → Bool
  | .mainProgram | .functionSubprogram | .subroutineSubprogram | .blockDataSubprogram => true
  | _ => false

end Label

namespace Node

/-- The type a type specification names. -/
def typeName? (spec : Option Node) : Option TypeName :=
  match spec.bind (·.firstLexeme?) with
  | some lx =>
    match lx.kind with
    | .keyword .DOUBLE | .keyword .DOUBLEPRECISION => some .doublePrecision
    | k => TypeName.ofText? k.label
  | none => none

/-- The source of the upper bounds of an array specification. -/
def bounds (spec : Node) : List String :=
  (spec.childrenWith .explicitShapeSpec).map fun d =>
    ((d.child? .upperBound).map (·.source)).getD ""

end Node

/-! ## Collections -/

/-- A declaration that cannot be recorded as it stands. -/
inductive DeclarationError where
  | redefined (line : Nat) (kind : SymbolKind) (name : String)
  | wordRange (line : Nat) (first last : String)
  | range (line : Nat) (error : RangeError)
  | emptyTree
  deriving DecidableEq, Repr

namespace DeclarationError

def message : DeclarationError → String
  | .redefined line kind name =>
    "line " ++ Decimal.digits line ++ ": " ++ kind.text ++ " " ++ Text.quoted name ++ " redefined"
  | .wordRange line a b =>
    "line " ++ Decimal.digits line ++ ": implicit range " ++ a ++ "-" ++ b ++
      " is not a letter range"
  | .range line e => "line " ++ Decimal.digits line ++ ": " ++ e.message
  | .emptyTree => "empty tree"

end DeclarationError

/-- A table under construction and the errors found so far. -/
structure Collection where
  table : Table := .empty
  errors : List DeclarationError := []

namespace Collection

def modifyScope (c : Collection) (f : Scope → Scope) : Collection :=
  { c with table := c.table.modify f }

def report (c : Collection) (e : DeclarationError) : Collection :=
  { c with errors := c.errors ++ [e] }

/-- The spelling of the name that starts a phrase, which is recorded. -/
def spell (c : Collection) (n : Node) : String × Collection :=
  (c.table.spelling n.text, { c with table := c.table.spell n.text })

/-- Does something for each of the nodes in turn. -/
def each (c : Collection) (ns : List Node) (f : Collection → Node → Collection) : Collection :=
  ns.foldl f c

/-! ## Program units -/

/-- What the first statement of a program unit says. -/
structure Header where
  line : Nat
  name : String
  type : Option TypeName
  kind : SymbolKind
  scope : ScopeKind
  params : List String

/-- The dummy arguments of a statement in order; alternate returns are left out. -/
def params (c : Collection) (stmt : Option Node) : List String × Collection :=
  match stmt with
  | none => ([], c)
  | some n =>
    (n.findAll .dummyArgName).foldl
      (fun (ps, c) arg =>
        let (s, c) := c.spell arg
        (ps ++ [s], c))
      ([], c)

/-- The text of a phrase below a statement, or the empty text. -/
def nameIn (stmt : Option Node) (l : Label) : String :=
  ((stmt.bind (·.find? l)).map (·.text)).getD ""

def header (c : Collection) (unit : Node) : Header × Collection :=
  let line := unit.place.1
  match unit.label? with
  | some .functionSubprogram =>
    let stmt := unit.child? .functionStmt
    let name := nameIn stmt .functionName
    let declared := Node.typeName? (stmt.bind (·.child? .typeSpec))
    let (ps, c) := c.params stmt
    (⟨line, name, declared.or (ImplicitRules.default.typeOf name), .function, .function, ps⟩, c)
  | some .subroutineSubprogram =>
    let stmt := unit.child? .subroutineStmt
    let (ps, c) := c.params stmt
    (⟨line, nameIn stmt .subroutineName, none, .subroutine, .subroutine, ps⟩, c)
  | some .blockDataSubprogram =>
    (⟨line, nameIn (unit.child? .blockDataStmt) .blockDataName, none, .program, .blockData, []⟩, c)
  | _ => (⟨line, nameIn (unit.child? .programStmt) .programName, none, .program, .program, []⟩, c)

/-- Defines a unit in the global scope, if it has a name. -/
def register (c : Collection) (h : Header) : Collection :=
  if h.name == "" then c
  else
    let again :=
      (c.table.global.get? h.name).any (·.kind.isCallable) && h.kind.isCallable
    let c := if again then c.report (.redefined h.line h.kind h.name) else c
    { c with table := c.table.defineUnit h.name h.kind h.type h.params }

/-- Opens the scope of a unit. -/
def enter (c : Collection) (h : Header) : Collection :=
  let t := c.table.spell h.name
  let t := t.enter (t.spelling h.name) h.scope
  let t := t.modify (·.setFormals h.params)
  let t := if h.kind == .function then t.modify (·.declare h.name h.type) else t
  { c with table := t }

/-- Opens the scope of a unit by its node. -/
def enterUnit (c : Collection) (unit : Node) : Collection :=
  let (h, c) := c.header unit
  c.enter h

def exitUnit (c : Collection) : Collection :=
  { c with table := c.table.exit }

/-! ## Statements -/

def typeDeclaration (c : Collection) (stmt : Node) : Collection :=
  let type := Node.typeName? (stmt.child? .typeSpec)
  c.each (stmt.findAll .entityDecl) fun c decl =>
    let (name, c) := c.spell decl
    let c := c.modifyScope (·.declare name type)
    match decl.child? .arraySpec with
    | some spec => c.modifyScope (·.declareArray name spec.bounds)
    | none => c

/-- Sets the rules of one range of letters. -/
def implicitRange (type : Option TypeName) (c : Collection) (range : Node) : Collection :=
  let letters := (range.children.filter (·.hasKind .name)).map (·.text)
  match letters.head?, letters.getLast? with
  | some a, some b =>
    match a.toList, b.toList with
    | [x], [y] =>
      match c.table.current.implicit.setRange type x y with
      | .ok rules => c.modifyScope fun s => { s with implicit := rules }
      | .error e => c.report (.range range.place.1 e)
    | _, _ => c.report (.wordRange range.place.1 a b)
  | _, _ => c

def implicitTypes (c : Collection) (stmt : Node) : Collection :=
  if stmt.hasToken (.keyword .NONE) then
    c.modifyScope fun s => { s with implicit := .setNone }
  else
    c.each (stmt.findAll .implicitSpec) fun c spec =>
      c.each (spec.findAll .implicitRange)
        (implicitRange (Node.typeName? (spec.child? .typeSpec)))

/-- The dummy arguments among the subscripts of an assignment, if all are bare names. The names
before the first that is not are recorded all the same. -/
def bareNames (t : Table) : List Node → Option (List String) × Table
  | [] => (some [], t)
  | sub :: rest =>
    match sub.lexemes with
    | [lx] =>
      if lx.kind == .name then
        let s := t.spelling lx.text
        let (args, t) := bareNames (t.spell lx.text) rest
        (args.map (s :: ·), t)
      else (none, t)
    | _ => (none, t)

/-- The dummy arguments of an assignment that defines a statement function: the name is neither an
array nor a dummy argument and all subscripts are bare names. -/
def statementFunctionArgs (t : Table) (stmt : Node) : Option (List String) × Table :=
  match stmt.child? .variableRef with
  | none => (none, t)
  | some target =>
    match target.childrenWith .complexDataRefTail with
    | [tail] =>
      if t.isArray target.text || t.current.isFormal target.text then (none, t)
      else
        match bareNames t (tail.findAll .sectionSubscript) with
        | (some [], t) => (none, t)
        | r => r
    | _ => (none, t)

def assignment (c : Collection) (stmt : Node) : Collection :=
  match stmt.child? .variableRef with
  | none => c
  | some target =>
    let (name, c) := c.spell target
    let (args, t) := statementFunctionArgs c.table stmt
    let c := { c with table := t }
    match args with
    | some args =>
      c.modifyScope fun s => s.update name fun y =>
        { y with
          kind := .statementFunction
          params := args
          type := y.type.or (s.implicit.typeOf name) }
    | none => c.modifyScope (·.markAssigned name)

/-- Records what a statement declares, if it is one that may declare something. -/
def statement? (c : Collection) (stmt : Node) : Option Collection :=
  match stmt.label? with
  | some .typeDeclarationStmt => some (c.typeDeclaration stmt)
  | some .dimensionStmt =>
    some (c.each (stmt.findAll .arrayDeclarator) fun c decl =>
      let (name, c) := c.spell decl
      let dims := ((decl.child? .arraySpec).map (·.bounds)).getD []
      c.modifyScope (·.declareArray name dims))
  | some .commonStmt =>
    some (c.each (stmt.findAll .commonBlockObject) fun c object =>
      let (name, c) := c.spell object
      let c := c.modifyScope (·.markCommon name)
      match object.child? .arraySpec with
      | some spec =>
        c.modifyScope fun s => s.declareArray (s.getOrNew name).name spec.bounds
      | none => c)
  | some .parameterStmt =>
    some (c.each (stmt.findAll .namedConstantDef) fun c constant =>
      let (name, c) := c.spell constant
      c.modifyScope (·.update name (·.mark .parameter)))
  | some .externalStmt =>
    some (c.each (stmt.findAll .externalName) fun c n =>
      let (name, c) := c.spell n
      c.modifyScope (·.update name fun y =>
        if y.kind.isCallable then y else { y with kind := .externalName }))
  | some .intrinsicStmt =>
    some (c.each (stmt.findAll .intrinsicProcedureName) fun c n =>
      let (name, c) := c.spell n
      c.modifyScope (·.update name fun y => { y with kind := .intrinsic }))
  | some .implicitStmt => some (c.implicitTypes stmt)
  | some .assignmentStmt => some (c.assignment stmt)
  | some .formatStmt | some .dataStmt | some .endOfStmt => some c
  | _ => none

/-! ## Trees -/

mutual

/-- Records everything declared below a node. With `unitsOnly` the units themselves are registered
and nothing inside them. -/
def visit (unitsOnly : Bool) (c : Collection) : Node → Collection
  | .leaf _ _ => c
  | .inner i l cs =>
    if l.isUnit then
      let (h, c) := c.header (.inner i l cs)
      let c := c.register h
      if unitsOnly then c else (visitAll unitsOnly (c.enter h) cs).exitUnit
    else
      match c.statement? (.inner i l cs) with
      | some c => c
      | none => visitAll unitsOnly c cs

def visitAll (unitsOnly : Bool) (c : Collection) : List Node → Collection
  | [] => c
  | n :: ns => visitAll unitsOnly (visit unitsOnly c n) ns

end

/-- Everything a program declares. -/
def ofTree (unitsOnly : Bool) (root : Option Node) (table : Table) : Collection :=
  match root with
  | some n => visit unitsOnly { table } n
  | none => { table, errors := [.emptyTree] }

end Collection

end FortranJulia
