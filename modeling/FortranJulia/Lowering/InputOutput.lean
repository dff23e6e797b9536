import FortranJulia.Format.Printf
import FortranJulia.Format.Read
import FortranJulia.Lowering.Declaration

/-!
Lowering of input and output. List-directed output is printed with blanks between the items and
formatted output with `@printf`; input is read line by line and split into values. Units are
variables that hold open files; the console is the unit of star, 5 and 6.
-/

namespace FortranJulia

set_option autoImplicit false

open Julia (Expr Binding)

namespace Lower

/-! ## Formats -/

/-- The Julia string of a format specification. What has none is reported at a node. -/
def printFormat (n : Node) (spec : String) : Lower (Option PrintFormat) := do
  match Format.read spec with
  | .error e =>
    warn n n.labelName (e.message spec)
    return none
  | .ok items =>
    let p := Format.printItems items
    match p.error with
    | none => return some ⟨Text.juliaString (p.text ++ "\n"), p.values⟩
    | some .tooManyBlanks =>
      modify fun s => { s with overflow := true }
      return none
    | some e =>
      warn n n.labelName e.message
      return none

/-- The specification of a FORMAT statement, from its tokens. -/
def formatSpec (spec : Option Node) : String :=
  match spec with
  | none => ""
  | some n =>
    Expr.separated " " (n.lexemes.map fun lx =>
      match lx.kind with
      | .charConst | .hollerithConst => Text.fortranConstant lx.textValue
      | _ => lx.text)

/-- The specification in a text that holds one, without its outer parentheses. -/
def innerSpec (text : String) : String :=
  let cs := Text.trimChars text.toList
  if cs.head? == some '(' && cs.getLast? == some ')' then String.ofList ((cs.drop 1).dropLast)
  else String.ofList cs

/-- The format with a label. -/
def labelledFormat (id : Node) (label : String) : Lower (Option PrintFormat) := do
  match (← unit).formats.lookup label with
  | some f => return f
  | none =>
    warn id Label.formatIdentifier.name ("no FORMAT statement labeled " ++ label)
    return none

/-- The format of a single token: a star, a label or a text. -/
def tokenFormat (id : Node) (lx : Lexeme) : Lower (Option PrintFormat) := do
  match lx.kind with
  | .star => return none
  | .integerConst => labelledFormat id (labelKey lx.text)
  | .charConst => printFormat id (innerSpec lx.textValue)
  | _ =>
    warn id Label.formatIdentifier.name "format held in a variable is written list-directed"
    return none

/-- The format an identifier stands for. There is none for list-directed output, which is also
used where a format has no Julia string. -/
def formatOf (id : Option Node) : Lower (Option PrintFormat) := do
  match id with
  | none => return none
  | some id =>
    match id.children.head? with
    | none => return none
    | some (.leaf _ lx) => tokenFormat id lx
    | some n =>
      if n.hasLabel .expr then
        match n.lexemes with
        | [lx] => tokenFormat id lx
        | _ =>
          warn id Label.formatIdentifier.name "format expression is not translated"
          return none
      else if n.hasLabel .lblRef then labelledFormat id (labelKey n.text)
      else
        warn id Label.formatIdentifier.name "format held in a variable is written list-directed"
        return none

/-! ## Units -/

/-- The Julia side of a unit. -/
inductive Handle where
  | console
  | errors
  | file (name : String)
  deriving DecidableEq, Repr

namespace Handle

/-- The handle as an argument; the console is not named. -/
def args : Handle → List Expr
  | .console => []
  | .errors => [.name "stderr"]
  | .file h => [.name h]

end Handle

/-- The handle of a unit number. -/
def Handle.ofNumber (n : Int) : Handle :=
  if n == 5 || n == 6 then .console
  else if n == 0 then .errors
  else .file ("_" ++ Decimal.ofInt n)

/-- The handle of a unit. A variable has a handle of its own name. -/
def handleOf (id : Option Node) : Lower Handle := do
  match id with
  | none => return .console
  | some id =>
    match id.children.head? with
    | none => return .console
    | some first =>
      if first.hasKind .star then return .console
      match first.lexemes with
      | [lx] =>
        match lx.kind with
        | .integerConst =>
          match lx.value with
          | some (.int n) => return .ofNumber n
          | _ => return .errors
        | .name =>
          let h := "_" ++ (← spell lx.text)
          note id Label.unitIdentifier.name
            ("unit variable " ++ lx.text ++ " is bound to handle " ++ h)
          return .file h
        | _ => console id
      | _ => console id
where
  console (id : Node) : Lower Handle := do
    warn id Label.unitIdentifier.name "unit expression is not translated, console used"
    return .console

/-- The unit among the specifiers of a statement. -/
def specUnit (list : Option Node) : Option Node :=
  let specs := (list.map (·.children)).getD []
  (specs.find? fun spec =>
    spec.children.head?.any fun n =>
      n.hasLabel .unitIdentifier || n.hasKind (.specifier .UNIT)).bind
    (·.child? .unitIdentifier)

/-- The unit of a statement that positions a file. -/
def positionUnit (stmt : Node) : Option Node :=
  match stmt.child? .positionSpecList with
  | some list => specUnit (some list)
  | none => stmt.child? .unitIdentifier

/-- The unit and the format of a transfer of data. -/
structure Control where
  unit : Option Node := none
  format : Option Node := none
  /-- The number of specifiers without a word. -/
  positional : Nat := 0

/-- Takes a specifier into account. -/
def control (c : Control) (spec : Node) : Lower Control := do
  match spec.children.head? with
  | none => return c
  | some (.leaf _ lx) =>
    match lx.kind with
    | .specifier .FMT => return { c with format := spec.child? .formatIdentifier }
    | .specifier .UNIT => return { c with unit := spec.child? .unitIdentifier }
    | _ =>
      warn spec Label.ioControlSpec.name (lx.text ++ " specifier is not translated")
      return c
  | some first =>
    match c.positional with
    | 0 => return { c with unit := some first, positional := 1 }
    | 1 => return { c with format := some first, positional := 2 }
    | n => return { c with positional := n + 1 }

def controls (list : Option Node) : Lower Control :=
  (((list.map (·.childrenWith .ioControlSpec)).getD [])).foldlM control {}

/-! ## Output -/

mutual

/-- The values of an implied loop, in the order in which they are transferred. -/
def impliedDo : Node → Lower Expr
  | .leaf _ lx => return .verbatim lx.text
  | .inner i l cs => do
    let n : Node := .inner i l cs
    let v ← ident (childText n .impliedDoVariable)
    let r ← rangeOf (n.childrenWith .expr)
    let elements ← impliedLists cs
    match elements with
    | [.spread e] => return .flattened v r e
    | [e] => return .generator e v r
    | es => return .flattened v r (.tuple es)

/-- The items of the list among the children of an implied loop. -/
def impliedLists : List Node → Lower (List Expr)
  | [] => return []
  | .leaf _ _ :: rest => impliedLists rest
  | .inner _ l items :: rest =>
    if l == .outputItemList then impliedItems items else impliedLists rest

/-- The items of an implied loop; the values of inner loops are spread. -/
def impliedItems : List Node → Lower (List Expr)
  | [] => return []
  | n :: rest => do
    match n.label? with
    | some .outputImpliedDo =>
      let e ← impliedDo n
      let es ← impliedItems rest
      return .spread e :: es
    | some .expr =>
      let e ← exprOf n
      let es ← impliedItems rest
      return e :: es
    | _ => impliedItems rest

end

/-- An item of an output list and whether it is an implied loop. -/
structure OutputItem where
  expr : Expr
  implied : Bool

def outputItems : List Node → Lower (List OutputItem)
  | [] => return []
  | n :: rest => do
    match n.label? with
    | some .outputImpliedDo =>
      let e ← impliedDo n
      let es ← outputItems rest
      return ⟨e, true⟩ :: es
    | some .expr =>
      let e ← exprOf n
      let es ← outputItems rest
      return ⟨e, false⟩ :: es
    | _ => outputItems rest

namespace OutputItem

/-- The item as an argument of list-directed output. -/
def printed (i : OutputItem) : Expr :=
  if i.implied then .call "join" [i.expr, .str "\" \""] else i.expr

/-- The item as an argument of formatted output. -/
def formatted (i : OutputItem) : Expr :=
  if i.implied then .spread i.expr else i.expr

end OutputItem

/-- Output with or without a format. -/
def output (stmt : Node) (h : Handle) (format : Option Node) : Lower Unit := do
  let items ← outputItems (grandchildren stmt .outputItemList)
  match ← formatOf format with
  | none =>
    let args := (items.map (·.printed)).intersperse (.str "\" \"")
    line (.run (.call "println" (h.args ++ args)))
  | some f =>
    if !items.any (·.implied) && items.length != f.values then
      note stmt stmt.labelName
        (Decimal.digits items.length ++ " values written with a format for " ++
          Decimal.digits f.values)
    line (.run (.call "@printf" (h.args ++ .str f.literal :: items.map (·.formatted))))

def printStmt (stmt : Node) : Lower Unit :=
  output stmt .console (stmt.child? .formatIdentifier)

def writeStmt (stmt : Node) : Lower Unit := do
  let c ← controls (stmt.child? .ioControlSpecList)
  let h ← handleOf c.unit
  output stmt h c.format

/-! ## Input -/

/-- Assigns the values of a record to the items of a list, the first of them number `k`. -/
def readItems (k : Nat) : List Node → Lower Unit
  | [] => pure ()
  | item :: rest => do
    let number := Expr.number (Decimal.digits k)
    if item.hasLabel .variableRef then
      let (b, left) ← target item
      line (.assign b [left] (.index (.name "_vals") [number]))
    else
      match rest, grandchildren item .inputItemList with
      | [], [v] =>
        if v.hasLabel .variableRef then
          let index ← ident (childText item .impliedDoVariable)
          let r ← rangeOf (item.childrenWith .expr)
          line (.forPairs index r (.index (.name "_vals") [.range [number, .name "end"]]))
          nested do
            let (b, left) ← target v
            line (.assign b [left] (.name "_v"))
          line .close
        else refuse item
      | _, _ => refuse item
    readItems (k + 1) rest
where
  refuse (item : Node) : Lower Unit :=
    warn item Label.inputImpliedDo.name "only a trailing implied DO of one variable is read"

/-- Input of a line, of one value or of a record with several values. -/
def readStmt (stmt : Node) : Lower Unit := do
  let mut h := Handle.console
  let mut format := stmt.child? .formatIdentifier
  match stmt.child? .ioControlSpecList with
  | some list =>
    let c ← controls (some list)
    h ← handleOf c.unit
    format := c.format
  | none => pure ()
  if (← formatOf format).isSome then
    note stmt Label.readStmt.name "formatted input is read list-directed"
  let items := (grandchildren stmt .inputItemList).filter fun n =>
    n.hasLabel .variableRef || n.hasLabel .inputImpliedDo
  let record := Expr.call "readline" h.args
  match items with
  | [] => line (.run record)
  | [item] =>
    if item.hasLabel .variableRef then
      let (b, left) ← target item
      let isText := (← table).typeOf item.text == some .character
      line (.assign b [left] (if isText then record else .call "parse_input" [record]))
    else readRecord h items
  | _ => readRecord h items
where
  readRecord (h : Handle) (items : List Node) : Lower Unit := do
    line (.assign (← binding) [.name "_vals"] (.call "read_values" h.args))
    readItems 1 items

/-! ## Files -/

/-- The file and the status of an OPEN statement. -/
structure Connection where
  file : Option Expr := none
  status : String := ""

/-- Takes a specifier of an OPEN statement into account. -/
def connect (c : Connection) (spec : Node) : Lower Connection := do
  match spec.children.head? with
  | some (.leaf _ lx) =>
    match lx.kind, spec.child? .expr with
    | .specifier .FILE, some e => return { c with file := some (← exprOf e) }
    | .specifier .STATUS, some e =>
      let s := (← exprOf e).text.toList
      let bare := Text.dropTrailing (· == '"') (s.dropWhile (· == '"'))
      return { c with status := Text.upper (String.ofList bare) }
    | .specifier .ACCESS, _ | .specifier .FORM, _ | .specifier .RECL, _ | .specifier .BLANK, _ =>
      note spec Label.connectSpec.name (lx.text ++ " specifier ignored")
      return c
    | .specifier .ERR, _ | .specifier .IOSTAT, _ =>
      warn spec Label.connectSpec.name (lx.text ++ " specifier is not translated")
      return c
    | _, _ => return c
  | _ => return c

/-- How a file is opened. One of unknown status is made if it is missing and kept if not. -/
def openMode (status : String) (file : Expr) : Expr :=
  match status with
  | "OLD" => .str "\"r+\""
  | "NEW" | "REPLACE" | "SCRATCH" => .str "\"w+\""
  | _ => .conditional (.call "isfile" [file]) (.str "\"r+\"") (.str "\"w+\"")

/-- Opens a file. Handles are global, so that all units see them. -/
def openStmt (stmt : Node) : Lower Unit := do
  let list := stmt.child? .connectSpecList
  match ← handleOf (specUnit list) with
  | .file h =>
    let c ← ((list.map (·.childrenWith .connectSpec)).getD []).foldlM connect {}
    let file ←
      match c.file with
      | some e => pure e
      | none =>
        let named := Text.juliaString ("fort." ++ String.ofList (h.toList.drop 1))
        note stmt Label.openStmt.name ("no FILE specifier, opening " ++ named)
        pure (Expr.str named)
    line (.assign .globally [.name h] (.call "open" [file, openMode c.status file]))
  | _ => warn stmt Label.openStmt.name "console units cannot be opened"

/-- Calls a function of the handle of a unit, unless it is the console. -/
def onFile (f : String) (unit : Option Node) : Lower Unit := do
  match ← handleOf unit with
  | .file h => line (.run (.call f [.name h]))
  | _ => pure ()

end Lower

end FortranJulia
