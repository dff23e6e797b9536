import FortranJulia.Lowering.InputOutput

/-!
Lowering of executable statements: calls, jumps, loops and blocks. A loop is closed by the statement
with its label, if that stands in the same block. A call rebinds the arguments that name a variable
or an array element, since a subroutine returns its dummy arguments.
-/

namespace FortranJulia

set_option autoImplicit false

open Julia (Expr Binding Code)

namespace Lower

/-! ## Labels -/

/-- The label of a statement, empty if it has none. -/
def labelOf (stmt : Node) : String :=
  labelKey (childText stmt .lblDef)

/-- The Julia name of a label. -/
def labelName (label : String) : String :=
  "_" ++ labelKey label

/-- Marks a statement that is jumped to. -/
def labelMark (stmt : Node) : Lower Unit := do
  let label := labelOf stmt
  if label != "" && (← unit).targets.contains label then line (.label (labelName label))

/-- A choice among labels by the value of an expression. -/
def jumpTable (selector : Expr) (number : Nat) : List Node → Lower Unit
  | [] => pure ()
  | l :: rest => do
    let condition := Expr.operation "==" selector (.number (Decimal.digits number))
    line (if number == 1 then .ifHead condition else .elseifHead condition)
    nested (line (.goto (labelName l.text)))
    jumpTable selector (number + 1) rest

def computedGoto (stmt : Node) : Lower Unit := do
  let labels := (grandchildren stmt .lblRefList).filter (·.hasLabel .lblRef)
  match stmt.child? .expr with
  | none => pure ()
  | some e =>
    let k ← exprOf e
    let selector ←
      if e.lexemes.length == 1 then pure k
      else
        line (.assign (← binding) [.name "_k"] k)
        pure (Expr.name "_k")
    jumpTable selector 1 labels
    if !labels.isEmpty then line .close

/-! ## Calls -/

/-- What a call does with the value returned for an argument. -/
inductive WriteBack where
  | drop
  | variableName (name : String)
  | element (e : Expr)

namespace WriteBack

/-- The target in a list of targets. -/
def expr : WriteBack → Expr
  | .drop => .name "_"
  | .variableName s => .name s
  | .element e => e

def isBound : WriteBack → Bool
  | .drop => false
  | _ => true

def isName : WriteBack → Bool
  | .variableName _ => true
  | _ => false

end WriteBack

/-- Is the name the variable of an open loop? -/
def isLoopIndex (name : String) : Lower Bool := do
  return (← unit).loops.any (·.index == nameKey name)

/-- Where the value returned for an argument goes: to the variable or array element it names.
Expressions, constants and the variables of open loops are not changed by a call. -/
def writeBack (e : Expression) : Lower WriteBack := do
  match e with
  | .reference lx suffixes =>
    let t ← table
    if (t.lookup lx.text).any (·.flags.parameter) then return .drop
    if ← isLoopIndex lx.text then return .drop
    match suffixes with
    | [] =>
      if (t.procedure lx.text).isCallable then return .drop
      return .variableName (← ident lx.text)
    | [items] =>
      if t.isArray lx.text && !items.any (·.isSpan) then return .element (← expr e)
      return .drop
    | _ => return .drop
  | _ => return .drop

/-- The arguments of a call with what becomes of their values. Alternate returns are left out. -/
def callArguments : List Node → Lower (List (Expr × WriteBack))
  | [] => return []
  | arg :: rest => do
    match arg.children.head? with
    | some (.leaf _ lx) =>
      if lx.kind == .hollerithConst then
        let more ← callArguments rest
        return (.str (Text.juliaString lx.textValue), .drop) :: more
      warn arg Label.subroutineArg.name "alternate return argument dropped"
      callArguments rest
    | some n =>
      let e ← expressionOf n
      let value ← expr e
      let back ← writeBack e
      let more ← callArguments rest
      return (value, back) :: more
    | none => callArguments rest

/-- Takes the values out of the result of a call one by one. -/
def unpack (number : Nat) : List WriteBack → Lower Unit
  | [] => pure ()
  | w :: rest => do
    if w.isBound then
      line (.assign (if w.isName then .globally else .plain) [w.expr]
        (.index (.name "_r") [.number (Decimal.digits number)]))
    unpack (number + 1) rest

/-- A call that binds the values of its arguments. Global names cannot be bound together with array
elements, so these are taken out of the result one by one. -/
def bindResults (call : Expr) (targets : List WriteBack) : Lower Unit := do
  let global := (← unit).isGlobal
  let names := targets.countP (·.isName)
  if !targets.any (·.isBound) then line (.run call)
  else if !global || names == targets.length || names == 0 then
    let b := if global && names == targets.length then Binding.globally else .plain
    line (.assign b (targets.map (·.expr)) call)
  else
    line (.assign .globally [.name "_r"] call)
    unpack 1 targets

def callStmt (stmt : Node) : Lower Unit := do
  let name := childText stmt .subroutineNameUse
  let args ← callArguments
    ((grandchildren stmt .subroutineArgList).filter (·.hasLabel .subroutineArg))
  let call := Expr.call (← callee name) (args.map (·.1))
  match ((← table).global.get? name).filter (·.kind == .subroutine) with
  | none =>
    warn stmt Diagnostic.unresolvedReference
      ("subroutine " ++ name ++ " is not defined in this file")
    line (.run call)
  | some y =>
    if y.params.length != args.length then
      warn stmt Label.callStmt.name
        (Decimal.digits args.length ++ " arguments passed to " ++ y.name ++ " which takes " ++
          Decimal.digits y.params.length)
    bindResults call ((args.map (·.2)).take y.params.length)

/-! ## Returns and stops -/

/-- The return from the unit at hand: the result of a function, the dummy arguments of a subroutine
or the end of the program. -/
def returnCode : Lower Code := do
  let u ← unit
  match u.kind with
  | .functionSubprogram => return .returns [← ident u.name]
  | .subroutineSubprogram => return .returns (← idents (← table).current.formals)
  | _ => return .run (.call "exit" [])

def returnStmt (stmt : Node) : Lower Unit := do
  if stmt.hasChild .expr then
    warn stmt Label.returnStmt.name "alternate return index dropped"
  line (← returnCode)

/-- Ends the program, with a code or after a message. -/
def stopStmt (stmt : Node) : Lower Unit := do
  match stmt.children.filterMap (·.lexeme?) with
  | [_, lx] =>
    match lx.kind with
    | .integerConst =>
      match lx.text.toList.dropWhile (· == '0') with
      | [] => line (.run (.call "exit" []))
      | ds => line (.run (.call "exit" [.number (String.ofList ds)]))
    | .charConst =>
      line (.run (.call "println" [.str lx.text]))
      line (.run (.call "exit" []))
    | _ => line (.run (.call "exit" []))
  | _ => line (.run (.call "exit" []))

/-! ## Loops -/

def doStmt (stmt : Node) : Lower Unit := do
  match stmt.child? .loopControl with
  | none => pure ()
  | some control =>
    let index := childText control .variableName
    let v ← ident index
    line (.forHead v (← rangeOf (control.childrenWith .expr)))
    modify fun s =>
      { s with
        depth := s.depth + 1
        unit := { s.unit with
          loops := ⟨labelKey (childText stmt .doLblRef), s.depth, nameKey index⟩ :: s.unit.loops } }

/-- Ends the innermost loop. -/
def closeLoop : Lower Unit := do
  match (← unit).loops with
  | [] => throw .loop
  | _ :: rest =>
    modify fun s => { s with depth := s.depth - 1, unit := { s.unit with loops := rest } }
    line .close

/-- Ends the loops, innermost first, that end with a label in the block at hand. -/
def closeLoops (label : String) : List OpenLoop → Lower Unit
  | [] => pure ()
  | loop :: rest => do
    if loop.label == label && loop.depth + 1 == (← get).depth then
      closeLoop
      closeLoops label rest

/-! ## Variables without a declaration -/

/-- May the statement stand before the executable statements of a unit? -/
def isSpecification (t : Table) (stmt : Node) : Bool :=
  match stmt.label? with
  | some .typeDeclarationStmt | some .dimensionStmt | some .commonStmt | some .parameterStmt
  | some .dataStmt | some .implicitStmt | some .formatStmt | some .equivalenceStmt
  | some .externalStmt | some .intrinsicStmt | some .saveStmt | some .entryStmt
  | some .stmtFunctionStmt => true
  | some .assignmentStmt =>
    (t.current.get? (childText stmt .variableRef)).any (·.kind == .statementFunction)
  | _ => false

/-- Does a variable that no statement declares need a value of its own? -/
def needsZero (name : String) : Lower Bool := do
  let t ← table
  let u ← unit
  let k := nameKey name
  if u.declared.contains k || u.params.contains k || t.current.isFormal name ||
    t.current.isCommon name || (← isResult name) then return false
  if (t.procedure name).isCallable then return false
  return !(t.current.get? name).any fun y =>
    y.isArray || y.kind == .statementFunction || y.flags.parameter

/-- Gives the variables that no statement declares a value, so that one assigned inside a loop is
known after it. -/
def bindLocals : Lower Unit := do
  modifyUnit fun u => { u with localsDone := true }
  (← unit).locals.forM fun name => do
    if ← needsZero name then
      let type := (← table).typeOf name
      let b ← binding
      line (.assign b [.name (← ident name)] (zeroValue type))
      declare name

/-! ## All statements -/

/-- A statement that holds no other statement. -/
def simple (stmt : Node) : Lower Unit := do
  match stmt.label? with
  | some .assignmentStmt => assignment stmt
  | some .stmtFunctionStmt => stmtFunction stmt
  | some .labelDoStmt => doStmt stmt
  | some .gotoStmt => line (.goto (labelName (childText stmt .lblRef)))
  | some .computedGotoStmt => computedGoto stmt
  | some .continueStmt | some .implicitStmt | some .formatStmt => pure ()
  | some .callStmt => callStmt stmt
  | some .returnStmt => returnStmt stmt
  | some .stopStmt => stopStmt stmt
  | some .printStmt => printStmt stmt
  | some .writeStmt => writeStmt stmt
  | some .readStmt => readStmt stmt
  | some .openStmt => openStmt stmt
  | some .closeStmt => onFile "close" (specUnit (stmt.child? .closeSpecList))
  | some .rewindStmt => onFile "seekstart" (positionUnit stmt)
  | some .typeDeclarationStmt => bindAll .objectName (stmt.findAll .entityDecl)
  | some .dimensionStmt => bindAll .variableName (stmt.findAll .arrayDeclarator)
  | some .commonStmt => common stmt
  | some .parameterStmt => parameters stmt
  | some .dataStmt => dataStmt stmt
  | some .externalStmt | some .intrinsicStmt =>
    note stmt stmt.labelName "declaration has no Julia equivalent"
  | some .arithmeticIfStmt => warn stmt stmt.labelName "arithmetic IF is not translated"
  | some .equivalenceStmt => warn stmt stmt.labelName "storage association is not translated"
  | some .saveStmt =>
    warn stmt stmt.labelName "saved variables are not preserved between calls"
  | some .assignStmt | some .assignedGotoStmt =>
    warn stmt stmt.labelName "label variables are not translated"
  | some .pauseStmt | some .entryStmt | some .backspaceStmt | some .endfileStmt
  | some .inquireStmt => warn stmt stmt.labelName "statement is not translated"
  | _ => warn stmt stmt.labelName ("no translation for " ++ stmt.labelName)

/-- Records what a statement declares. -/
def collect (stmt : Node) : Lower Unit :=
  modify fun s => { s with collection := (s.collection.statement? stmt).getD s.collection }

/-- What comes before the code of a statement in a block. -/
def before (stmt : Node) : Lower Unit := do
  collect stmt
  if !(← unit).localsDone && !isSpecification (← table) stmt then bindLocals
  labelMark stmt

/-- The label that can end loops: that of a statement, or of the END IF of a block. -/
def closingLabel (stmt : Node) : Lower String := do
  if stmt.hasLabel .ifConstruct then return labelOf (← lastOf stmt.children)
  return labelOf stmt

/-- What comes after the code of a statement in a block. -/
def after (stmt : Node) : Lower Unit := do
  trailing stmt
  let label ← closingLabel stmt
  if label != "" then closeLoops label (← unit).loops

/-- The condition of a statement. -/
def condition (stmt : Node) : Lower Expr :=
  match stmt.child? .expr with
  | some e => exprOf e
  | none => return .verbatim ""

/-- The line of a statement that begins or ends a part of an IF block. -/
def blockMark (stmt : Node) : Lower Unit := do
  match stmt.label? with
  | some .ifThenStmt =>
    labelMark stmt
    line (.ifHead (← condition stmt))
  | some .elseIfStmt => line (.elseifHead (← condition stmt))
  | some .elseStmt => line .elseHead
  | some .endIfStmt =>
    nested (labelMark stmt)
    line .close
  | _ => pure ()
  trailing stmt

mutual

/-- The code of a statement. -/
def statement : Node → Lower Unit
  | .leaf i lx => simple (.leaf i lx)
  | .inner i l cs =>
    match l with
    | .ifConstruct => blocks cs
    | .ifStmt => do
      line (.ifHead (← condition (.inner i l cs)))
      nested (action cs)
      line .close
    | _ => simple (.inner i l cs)

/-- The parts of an IF block. -/
def blocks : List Node → Lower Unit
  | [] => pure ()
  | .leaf i lx :: rest => do
    blockMark (.leaf i lx)
    blocks rest
  | .inner i l cs :: rest => do
    if l == .conditionalBody then nested (statements cs) else blockMark (.inner i l cs)
    blocks rest

/-- The last of some nodes, as the statement of a logical IF. -/
def action : List Node → Lower Unit
  | [] => throw .child
  | [stmt] => do
    collect stmt
    statement stmt
    trailing stmt
  | _ :: rest => action rest

/-- The statements of a block. -/
def statements : List Node → Lower Unit
  | [] => pure ()
  | stmt :: rest => do
    before stmt
    statement stmt
    after stmt
    statements rest

end

end Lower

end FortranJulia
