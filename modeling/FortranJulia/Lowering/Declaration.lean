import FortranJulia.Lowering.Expression

/-!
Lowering of declarations, assignments and initial values. Julia has no declarations: each declared
variable is bound to a zero or to an array of zeros. Initial values become assignments, with values
matched to objects in order; an array takes as many as it has elements.
-/

namespace FortranJulia

set_option autoImplicit false

open Julia (Expr Binding)

namespace Lower

/-! ## Declarations -/

def declare (name : String) : Lower Unit :=
  modifyUnit fun u => { u with declared := nameKey name :: u.declared }

/-- Does a name get no initial value here? Dummy arguments, function results and named constants
have one, procedures are no variables, and common variables belong to the main program unless block
data has made them. -/
def skipsDeclaration (name : String) : Lower Bool := do
  let t ← table
  let u ← unit
  let k := nameKey name
  if t.current.isFormal name || (← isResult name) || u.params.contains k then return true
  if !t.isArray name && (t.procedure name).isCallable then return true
  if u.common.contains k then
    return !u.isGlobal || (u.kind == .mainProgram && (← get).blockData.contains k)
  return false

/-- The sizes of the dimensions of an array, or none if the last bound is not given. Lower bounds
other than one are dropped. -/
def shapes (name : String) : List Node → Lower (Option (List Expr))
  | [] => return some []
  | shape :: rest => do
    match (shape.child? .lowerBound).bind (·.children.head?) with
    | some low =>
      let e ← exprOf low
      if e.text != "1" then
        note shape Label.explicitShapeSpec.name
          ("lower bound " ++ e.text ++ " of " ++ name ++ " dropped, indices start at 1")
    | none => pure ()
    match (shape.child? .upperBound).bind (·.children.head?) with
    | none => shapes name rest
    | some up =>
      if up.hasKind .star then
        warn shape Label.explicitShapeSpec.name
          ("assumed size array " ++ name ++ " is not allocated")
        return none
      let e ← exprOf up
      let es ← shapes name rest
      return es.map (e :: ·)

/-- Binds a name to the zero of its type or, with dimensions, to an array of zeros. An array
replaces a scalar of the same name. -/
def bindZero (name : String) (spec : Option Node) : Lower Unit := do
  let u ← unit
  let k := nameKey name
  let type := (← table).typeOf name
  match spec with
  | none =>
    if u.declared.contains k then return
    declare name
    line (.assign (← binding) [.name (← ident name)] (zeroValue type))
  | some spec =>
    if u.arrays.contains k then return
    match ← shapes name (spec.childrenWith .explicitShapeSpec) with
    | none => return
    | some dims =>
      declare name
      modifyUnit fun u => { u with arrays := k :: u.arrays }
      line (.assign (← binding) [.name (← ident name)]
        (.call "create_array" (.str (Text.juliaString (TypeName.textOf type)) :: dims)))

/-- Binds what is declared by phrases of one kind. -/
def bindAll (nameLabel : Label) (decls : List Node) : Lower Unit :=
  decls.forM fun decl => do
    let name := childText decl nameLabel
    if ← skipsDeclaration name then return
    bindZero name (decl.child? .arraySpec)

/-- Names of a list one after the other. -/
def idents : List String → Lower (List String)
  | [] => return []
  | n :: ns => do
    let s ← ident n
    let ss ← idents ns
    return s :: ss

/-- Common variables are globals: the main program and block data make them and routines refer to
them. -/
def common (stmt : Node) : Lower Unit := do
  let objects := stmt.findAll .commonBlockObject
  if (← unit).isGlobal then bindAll .variableName objects
  else line (.globals (← idents (objects.map (childText · .variableName))))

def parameters (stmt : Node) : Lower Unit := do
  let b := if (← unit).isGlobal then Binding.constant else .plain
  (stmt.findAll .namedConstantDef).forM fun constant => do
    let name := childText constant .namedConstant
    let type := (← table).typeOf name
    let id ← ident name
    match constant.child? .expr with
    | some e => line (.assign b [.name id] (← converted type e))
    | none => pure ()
    declare name

/-! ## Assignments -/

/-- A statement function as a function in one line. -/
def statementFunction (y : Symbol) (body : Node) : Lower Unit := do
  let params ← idents y.params
  let f ← callee y.name
  line (.shortFunction f params (← converted y.type body))

/-- An assignment, with the conversion to the type of its target. -/
def assignment (stmt : Node) : Lower Unit := do
  match stmt.child? .variableRef, stmt.child? .expr with
  | some v, some e =>
    let name := childText v .variableName
    let tails := v.childrenWith .complexDataRefTail
    let t ← table
    match (t.current.get? name).filter fun y =>
      y.kind == .statementFunction && !tails.isEmpty with
    | some y => statementFunction y e
    | none =>
      let type := t.typeOf name
      if tails.isEmpty || t.isArray name then
        let (b, left) ← target v
        line (.assign b [left] (← converted type e))
      else if type == some .character && (tails.head?.map (·.subscripts)).any (·.any (·.isSpan))
      then
        warn stmt Label.assignmentStmt.name
          ("assignment to substring of " ++ name ++ " is not translated")
      else
        warn stmt Diagnostic.unresolvedReference
          (name ++ " is assigned with subscripts but not declared as an array")
        let (b, left) ← target v
        line (.assign b [left] (← exprOf e))
  | _, _ => pure ()

/-- First spellings of names one after the other. -/
def spellings : List String → Lower (List String)
  | [] => return []
  | n :: ns => do
    let s ← spell n
    let ss ← spellings ns
    return s :: ss

/-- A statement function that is one by its form, without dummy arguments. -/
def stmtFunction (stmt : Node) : Lower Unit := do
  let name ← spell (childText stmt .refName)
  let args ← spellings ((stmt.findAll .sfDummyArgName).map (·.text))
  modifyTable (·.modify fun s => s.update name fun y =>
    { y with
      kind := .statementFunction
      params := args
      type := y.type.or (s.implicit.typeOf y.name) })
  match (← table).current.get? name, stmt.child? .expr with
  | some y, some e => statementFunction y e
  | _, _ => pure ()

/-! ## Initial values -/

/-- A constant of a list of values. -/
structure DataValue where
  expr : Expr
  type : Option TypeName

namespace DataValue

def convertedTo (type : Option TypeName) (v : DataValue) : Expr :=
  convertValue type v.type v.expr

end DataValue

/-- The constant of a value: an optional sign and a constant or the name of one. -/
def dataConstant : List Node → Lower DataValue
  | [] => return ⟨.verbatim "", none⟩
  | part :: rest => do
    match part.label? with
    | some .sign =>
      let v ← dataConstant rest
      return ⟨.signed part.text v.expr, v.type⟩
    | some .namedConstantUse =>
      let e := Expr.name (← ident part.text)
      return ⟨e, (← table).typeOf part.text⟩
    | _ =>
      let e ← exprOf part
      return ⟨e, ← typeOfNode part⟩

/-- How often a value is repeated. A count that is not a number counts as one. -/
def dataRepeat (value : Node) : Lower Nat := do
  match value.child? .dataRepeat with
  | none => return 1
  | some r =>
    match (r.children.head?.bind (·.lexeme?)).bind (·.value) with
    | some (.int n) => return n.toNat
    | _ =>
      warn r Label.dataRepeat.name
        ("repeat count " ++ r.text ++ " is not a literal, used once")
      return 1

/-- The values of a list, each as often as it is repeated. -/
def dataValues : List Node → Lower (List DataValue)
  | [] => return []
  | value :: rest => do
    let n ← dataRepeat value
    let v ← dataConstant (grandchildren value .dataConstant)
    let vs ← dataValues rest
    return List.replicate n v ++ vs

/-- The value of an integer constant times a sign. -/
def constantOf (sign : Int) (lx : Lexeme) : Option Int :=
  match lx.value with
  | some (.int v) => some (Decimal.wrap (sign * v))
  | _ => none

/-- The value of a bound that is an integer constant with an optional minus sign. -/
def constantBound? (n : Node) : Option Int :=
  match n.lexemes with
  | [lx] => constantOf 1 lx
  | [sign, lx] => if sign.kind == .minus then constantOf (-1) lx else none
  | _ => none

/-- How often a loop with constant bounds and step is run, in 64-bit numbers. -/
def tripCount (first last step : Int) : Nat :=
  (Decimal.wrap ((Decimal.wrap (Decimal.wrap (last - first) + step)).tdiv step)).toNat

/-- Puts the values of bounds that are all constants in their places, from an index on. -/
def placeBounds (places : List Int) (i : Nat) : List Node → Lower (Option (List Int))
  | [] => return some places
  | b :: rest =>
    match constantBound? b with
    | none => return none
    | some v => if i < places.length then placeBounds (places.set i v) (i + 1) rest else throw .bound

/-- How often an implied loop with constant bounds is run. There are places for a first value, a
last value and a step, which is one if it is missing. -/
def constantTrips (bounds : List Node) : Lower (Option Nat) := do
  if bounds.length < 2 then return none
  match ← placeBounds [0, 0, 1] 0 bounds with
  | some [a, b, c] => return if c == 0 then none else some (tripCount a b c)
  | _ => return none

/-- The number of elements of an array with constant bounds, negative if it is not known. -/
def arraySize (t : Table) (name : String) : Int :=
  match t.current.get? name with
  | none => -1
  | some y =>
    if y.dims.isEmpty then -1
    else
      match y.dims.mapM Decimal.int? with
      | some ns => ns.foldl (fun a b => Decimal.wrap (a * b)) 1
      | none => -1

/-- An implied loop over one variable with constant bounds. The answer is the number of values it
takes. -/
def dataImpliedDo (object : Node) (vals : List DataValue) : Lower Nat := do
  let bounds := object.childrenWith .expr
  let item? : Option Node :=
    match grandchildren object .dataIDoObjectList with
    | [item] => if item.hasLabel .variableRef then some item else none
    | _ => none
  match item? with
  | none => refuse
  | some item =>
    match ← constantTrips bounds with
    | none => refuse
    | some trips =>
      let count := min trips vals.length
      let type := (← table).typeOf (childText item .variableName)
      let texts := (← itemsUpTo count vals).map (·.convertedTo type)
      let v ← ident (childText object .impliedDoVariable)
      line (.forPairs v (← rangeOf bounds) (.vector texts))
      nested do
        let (b, left) ← target item
        line (.assign b [left] (.name "_v"))
      line .close
      return count
where
  refuse : Lower Nat := do
    warn object Label.dataImpliedDo.name "implied DO is not translated"
    return 0

/-- Gives an object its values. The answer is the number of values it takes. -/
def dataObject (object : Node) (vals : List DataValue) (isLast : Bool) : Lower Nat := do
  if object.hasLabel .dataImpliedDo then dataImpliedDo object vals
  else
    let name := childText object .variableName
    let t ← table
    let type := t.typeOf name
    let tails := object.childrenWith .complexDataRefTail
    if !tails.isEmpty || !t.isArray name then
      match vals with
      | [] => return 0
      | v :: _ =>
        if tails.isEmpty then declare name
        let (b, left) ← target object
        line (.assign b [left] (v.convertedTo type))
        return 1
    else
      let size := arraySize t name
      if size < 0 && !isLast then
        warn object Label.dataStmtObject.name ("size of " ++ name ++ " is not a constant")
        return 0
      let n := if size < 0 then vals.length else min size.toNat vals.length
      let items := (← itemsUpTo n vals).map (·.convertedTo type)
      let base := Expr.name (← ident name)
      line (.assign .plain
        [.index base [.range [.number "1", .number (Decimal.digits n)]]] (.vector items))
      return n

/-- Gives the objects of a set their values in order, after a number of values that are taken. The
answer is the number of values taken in the end. -/
def dataObjects (vals : List DataValue) (taken : Nat) : List Node → Lower Nat
  | [] => return taken
  | object :: rest => do
    let n ← dataObject object (← itemsFrom (min taken vals.length) vals) rest.isEmpty
    dataObjects vals (taken + n) rest

def dataStmt (stmt : Node) : Lower Unit :=
  (stmt.childrenWith .dataStmtSet).forM fun set => do
    let vals ← dataValues
      ((grandchildren set .dataStmtValueList).filter (·.hasLabel .dataStmtValue))
    let objects := (grandchildren set .dataStmtObjectList).filter fun n =>
      n.hasLabel .variableRef || n.hasLabel .dataImpliedDo
    let taken ← dataObjects vals 0 objects
    if taken != vals.length then
      warn set Label.dataStmtSet.name
        (Decimal.digits vals.length ++ " values for " ++ Decimal.digits taken ++ " elements")

end Lower

end FortranJulia
