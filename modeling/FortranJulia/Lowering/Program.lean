import FortranJulia.Lowering.Statement

/-!
Lowering of program units and whole programs. Each unit is surveyed before its first statement is
lowered: its formats, the labels it jumps to and the names that need a value. Routines and block
data come first and main programs last, so that every routine is defined before it is called.
-/

namespace FortranJulia

set_option autoImplicit false

open Julia (Expr Code Line)

namespace Lower

/-! ## Survey of a unit -/

/-- Is the variable a name without subscripts? -/
def isPlain (v : Node) : Bool :=
  !v.hasChild .complexDataRefTail

/-- The names that assignments and READ statements of a unit give values to. -/
def assignedNames (unit : Node) : List String :=
  ((unit.findAll .assignmentStmt).filterMap (·.child? .variableRef) ++
    (unit.findAll .inputItemList).flatMap (·.childrenWith .variableRef)).filter isPlain
    |>.map (·.text)

/-- The name an argument of a call consists of. -/
def argumentName? (arg : Node) : Option String := do
  let n ← arg.children.head?
  if n.isLeaf then none
  let lx ← (← n.expression?).bareName?
  return lx.text

/-- The names that a unit passes to subroutines. -/
def passedNames (unit : Node) : List String :=
  (unit.findAll .callStmt).flatMap fun call =>
    ((grandchildren call .subroutineArgList).filter (·.hasLabel .subroutineArg)).filterMap
      argumentName?

/-- Each name once, at its first place and in its first letter case. -/
def distinctNames (names : List String) : List String :=
  (names.foldl (fun kept n => if kept.any (nameKey · == nameKey n) then kept else n :: kept)
    []).reverse

/-- The labels that a unit jumps to. -/
def jumpTargets (unit : Node) : List String :=
  (unit.findAll .gotoStmt ++ unit.findAll .computedGotoStmt).flatMap fun jump =>
    (jump.findAll .lblRef).map (labelKey ·.text)

/-- The keys of the names that start the phrases with a label. -/
def keysOf (unit : Node) (l : Label) : List String :=
  (unit.findAll l).map (nameKey ·.text)

/-- The formats of a unit, the last one first. -/
def formatsOf : List Node → List (String × Option PrintFormat) →
    Lower (List (String × Option PrintFormat))
  | [], found => return found
  | stmt :: rest, found => do
    let f ← printFormat stmt (formatSpec (stmt.child? .fmtSpec))
    formatsOf rest ((labelOf stmt, f) :: found)

/-- What is known about a unit before its scope is open. -/
def survey (unit : Node) : Lower UnitState := do
  let u : UnitState :=
    { kind := unit.label?.getD .program
      targets := jumpTargets unit
      common := keysOf unit .commonBlockObject
      params := keysOf unit .namedConstantDef }
  let assigned := if u.isGlobal then [] else assignedNames unit
  return { u with
    formats := ← formatsOf (unit.findAll .formatStmt) []
    locals := distinctNames (assigned ++ passedNames unit) }

/-! ## Units -/

/-- The head of a routine. The result of a function starts at zero. -/
def routineHead (stmt : Node) : Lower Unit := do
  let u ← unit
  let params ← idents (← table).current.formals
  line (.functionHead (← callee u.name) params)
  modify fun s => { s with depth := s.depth + 1 }
  trailing stmt
  if u.kind == .functionSubprogram then
    let type := (← table).typeOf u.name
    line (.assign .plain [.name (← ident u.name)] (zeroValue type))

/-- Ends the loops that no statement of the unit has ended. -/
def abandonLoops (stmt : Node) : List OpenLoop → Lower Unit
  | [] => pure ()
  | loop :: rest => do
    warn stmt Label.labelDoStmt.name ("DO loop ending at label " ++ loop.label ++ " is never closed")
    closeLoop
    abandonLoops stmt rest

/-- Is the last statement of a unit a RETURN? -/
def endsWithReturn (unit : Node) : Bool :=
  (grandchildren unit .body).getLast?.any (·.hasLabel .returnStmt)

/-- The END of a unit. -/
def unitEnd (whole stmt : Node) : Lower Unit := do
  abandonLoops stmt (← unit).loops
  labelMark stmt
  if (← unit).isRoutine then
    if !endsWithReturn whole then line (← returnCode)
    modify fun s => { s with depth := s.depth - 1 }
    line .close
  trailing stmt

/-- A part of a unit: its first statement, its body or its END. -/
def unitPart (whole part : Node) : Lower Unit :=
  match part.label? with
  | some .functionStmt | some .subroutineStmt => routineHead part
  | some .programStmt | some .blockDataStmt => trailing part
  | some .body => statements part.children
  | some .endProgramStmt | some .endFunctionStmt | some .endSubroutineStmt
  | some .endBlockDataStmt => unitEnd whole part
  | _ => pure ()

def programUnit (whole : Node) : Lower Unit := do
  let u ← survey whole
  modify fun s =>
    let c := s.collection.enterUnit whole
    { s with collection := c, unit := { u with name := c.table.current.name } }
  whole.children.forM (unitPart whole)
  modify fun s => { s with collection := s.collection.exitUnit, unit := {}, depth := 0 }

/-! ## Programs -/

/-- The keys of the variables that block data units give values to. -/
def blockDataKeys (units : List Node) : List String :=
  (units.filter (·.hasLabel .blockDataSubprogram)).flatMap fun unit =>
    (unit.findAll .dataStmt).flatMap fun d => keysOf d .variableName

/-- Units with an empty line between any two. -/
def programUnits : List Node → Lower Unit
  | [] => pure ()
  | [u] => programUnit u
  | u :: rest => do
    programUnit u
    modify fun s => { s with lines := .gap :: s.lines }
    programUnits rest

def wholeProgram (units : List Node) : Lower Unit := do
  modify fun s => { s with blockData := blockDataKeys units ++ s.blockData }
  let (mains, others) := units.partition (·.hasLabel .mainProgram)
  programUnits (others ++ mains)

/-- A part of a source: a comment, its program units, or the name it consists of. -/
def sourcePart (n : Node) : Lower Unit :=
  match n with
  | .leaf _ lx =>
    match lx.kind with
    | .comment => comment lx.text
    | .name | .editConst => do line (.run (.name (← callee lx.text)))
    | _ => pure ()
  | .inner _ .executableProgram units => wholeProgram units
  | .inner _ _ _ => pure ()

end Lower

end FortranJulia
