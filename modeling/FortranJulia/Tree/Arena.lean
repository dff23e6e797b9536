import FortranJulia.Tree.Text

/-!
An arena of tree nodes under construction. Nodes are named by their numbers and refer to each other
by them; a mark is a length of the arena and of one list of children to which it may be cut back.
What lies beyond a length is kept until it is overwritten, so that a later mark brings it back.
-/

namespace FortranJulia

set_option autoImplicit false

/-- What a node of an arena is called: a phrase of the language, or any other name. -/
inductive Tag where
  | phrase (label : Label)
  | named (name : String)
  deriving DecidableEq, Repr

namespace Tag

def text : Tag → String
  | .phrase l => l.name
  | .named s => s

end Tag

/-- A node of an arena. The name of a leaf is its kind; a leaf without a kind is like a rule with
a text. -/
structure Cell where
  tag : Tag
  kind : Option Kind := none
  text : String := ""
  value : Option Literal := none
  line : Int := 0
  col : Int := 0
  parent : Option Nat := none
  /-- All children ever attached, of which the first `count` are the present ones. -/
  slots : List Nat := []
  count : Nat := 0

namespace Cell

def label (c : Cell) : String :=
  c.tag.text

def isLeaf (c : Cell) : Bool :=
  c.kind.isSome

def children (c : Cell) : List Nat :=
  c.slots.take c.count

def under (parent : Option Nat) (c : Cell) : Cell := { c with parent }

/-- Puts a child behind the present ones. -/
def adopt (child : Nat) (c : Cell) : Cell :=
  let count := c.count + 1
  { c with slots := c.children ++ child :: c.slots.drop count, count }

/-- Keeps only so many of the children. -/
def cut (count : Nat) (c : Cell) : Cell := { c with count }

/-- A rule without children. -/
def rule (label : String) : Cell := { tag := .named label }

/-- A phrase without children. -/
def phrase (l : Label) : Cell := { tag := .phrase l }

def leaf (kind : Option Kind) (text : String) (value : Option Literal) (line col : Int) : Cell :=
  { tag := .named ((kind.map Kind.label).getD Kind.undefinedLabel), kind, text, value, line, col }

/-- The leaf of a lexeme. -/
def ofLexeme (lx : Lexeme) : Cell :=
  leaf (some lx.kind) lx.text lx.value lx.line lx.col

/-- A cell that stands for no node. -/
def absent : Cell := rule ""

/-- The value of the literal of a cell as text, or its own text. -/
def literalText (c : Cell) : String :=
  match c.value with
  | some v => v.render
  | none => c.text

end Cell

/-- A point to cut an arena back to. -/
structure Mark where
  length : Nat
  owner : Option Nat
  count : Nat

inductive ArenaError where
  /-- There is no node of that number, or no such part of the arena. -/
  | outOfRange
  | attached
  deriving DecidableEq, Repr

namespace ArenaError

/-- The text of an error; a number that does not exist has none. -/
def message? : ArenaError → Option String
  | .outOfRange => none
  | .attached => some "ast: attach of already attached node"

end ArenaError

structure Arena where
  /-- All cells ever made, of which the first `length` are the present ones. -/
  cells : Array Cell := #[]
  length : Nat := 0
  root : Option Nat := none

namespace Arena

abbrev Result (α : Type) := Except ArenaError α

/-! ## Nodes -/

def get (a : Arena) (id : Nat) : Result Cell :=
  if id < a.length then (a.cells[id]?).elim (.error .outOfRange) .ok else .error .outOfRange

/-- The cell of a node, or an empty one for no node. -/
def cell (a : Arena) : Option Nat → Result Cell
  | none => .ok .absent
  | some id => a.get id

def set (a : Arena) (id : Nat) (c : Cell) : Arena :=
  { a with cells := a.cells.setIfInBounds id c }

/-- Adds a cell; its number is the length before. -/
def push (a : Arena) (c : Cell) : Nat × Arena :=
  let cells :=
    if a.length < a.cells.size then a.cells.setIfInBounds a.length c else a.cells.push c
  (a.length, { a with cells, length := a.length + 1 })

/-- Empties the arena. -/
def reset (a : Arena) : Arena :=
  { a with length := 0, root := none }

/-! ## Children -/

/-- Attaches a node without a parent as the last child and gives the number of children. -/
def attach (a : Arena) (parent child : Nat) : Result (Nat × Arena) := do
  let c ← a.get child
  if c.parent.isSome then throw .attached
  let a := a.set child (c.under (some parent))
  let p ← a.get parent
  return (p.count + 1, a.set parent (p.adopt child))

/-- A node whose only child is a rule gives way to it. -/
def unwrap (a : Arena) (id : Nat) : Result (Nat × Arena) := do
  let c ← a.get id
  match c.children with
  | [only] =>
    let k ← a.get only
    if k.isLeaf then return (id, a)
    let a := a.set id (c.cut 0)
    let k ← a.get only
    return (only, a.set only (k.under none))
  | _ => return (id, a)

def mark (a : Arena) (owner : Option Nat) : Result Mark := do
  match owner with
  | none => return ⟨a.length, none, 0⟩
  | some id => return ⟨a.length, some id, (← a.get id).count⟩

/-- Cuts the arena, and the children of the owner of the mark, back to a mark. -/
def rollback (a : Arena) (m : Mark) : Result Arena := do
  let a := { a with length := m.length }
  match m.owner with
  | none => return a
  | some id =>
    let c ← a.get id
    if c.slots.length < m.count then throw .outOfRange
    return a.set id (c.cut m.count)

/-! ## Views

Recursion into children is bounded by the number of cells: a path down a tree visits no cell
twice. -/

/-- The numbers of the nodes of a subtree, each before its children. -/
def nodesFrom (a : Arena) : Nat → Nat → Result (List Nat)
  | 0, _ => .error .outOfRange
  | fuel + 1, id => do
    let c ← a.get id
    return id :: (← c.children.mapM (a.nodesFrom fuel)).flatten

/-- The numbers of the nodes of a subtree; there are none below no node. -/
def nodes (a : Arena) : Option Nat → Result (List Nat)
  | none => .ok []
  | some id => a.nodesFrom (a.length + 1) id

/-- The nodes among some with a property of their cells. -/
def pick (a : Arena) (p : Cell → Bool) (ids : List Nat) : Result (List Nat) :=
  ids.filterM fun id => do return p (← a.get id)

def findAll (a : Arena) (id : Option Nat) (label : String) : Result (List Nat) := do
  a.pick (·.label == label) (← a.nodes id)

def leaves (a : Arena) (id : Option Nat) : Result (List Nat) := do
  a.pick (·.isLeaf) (← a.nodes id)

def children (a : Arena) (id : Option Nat) : Result (List Nat) := do
  return (← a.cell id).children

def childrenLabeled (a : Arena) (id : Option Nat) (label : String) : Result (List Nat) := do
  a.pick (·.label == label) (← a.children id)

def childLabeled (a : Arena) (id : Option Nat) (label : String) : Result (Option Nat) := do
  (← a.children id).findM? fun c => do return (← a.get c).label == label

def firstLeafFrom (a : Arena) : Nat → Nat → Result (Option Nat)
  | 0, _ => .error .outOfRange
  | fuel + 1, id => do
    let c ← a.get id
    if c.isLeaf then return some id
    c.children.findSomeM? (a.firstLeafFrom fuel)

def firstLeaf (a : Arena) : Option Nat → Result (Option Nat)
  | none => .ok none
  | some id => a.firstLeafFrom (a.length + 1) id

/-- The first node with a label; below a leaf and a found node nothing is looked at. -/
def findFrom (a : Arena) (label : String) : Nat → Nat → Result (Option Nat)
  | 0, _ => .error .outOfRange
  | fuel + 1, id => do
    let c ← a.get id
    if c.label == label then return some id
    c.children.findSomeM? (a.findFrom label fuel)

def find (a : Arena) (id : Option Nat) (label : String) : Result (Option Nat) :=
  match id with
  | none => .ok none
  | some i => a.findFrom label (a.length + 1) i

/-- The syntax tree below a node. -/
def treeFrom (a : Arena) : Nat → Nat → Result Node
  | 0, _ => .error .outOfRange
  | fuel + 1, id => do
    let c ← a.get id
    match c.kind, c.tag with
    | some k, _ => return .leaf id ⟨k, c.text, c.value, c.line.toNat, c.col.toNat⟩
    | none, .phrase l => return .inner id l (← c.children.mapM (a.treeFrom fuel))
    | none, .named _ => throw .outOfRange

/-- The syntax tree below the root. -/
def rootTree (a : Arena) : Result Node :=
  match a.root with
  | none => .error .outOfRange
  | some id => a.treeFrom (a.length + 1) id

/-- The nearest node above with a label. -/
def ancestorFrom (a : Arena) (label : String) : Nat → Nat → Result (Option Nat)
  | 0, _ => .error .outOfRange
  | fuel + 1, id => do
    match (← a.get id).parent with
    | none => return none
    | some p => if (← a.get p).label == label then return some p else a.ancestorFrom label fuel p

def ancestor (a : Arena) (id : Nat) (label : String) : Result (Option Nat) :=
  a.ancestorFrom label (a.length + 1) id

/-! ## Texts -/

/-- The text of the first leaf. -/
def text (a : Arena) (id : Option Nat) : Result String := do
  match ← a.firstLeaf id with
  | none => return ""
  | some l => return (← a.get l).text

/-- Line and column of the first leaf. -/
def place (a : Arena) (id : Option Nat) : Result (Int × Int) := do
  match ← a.firstLeaf id with
  | none => return (0, 0)
  | some l =>
    let c ← a.get l
    return (c.line, c.col)

def sexprFrom (a : Arena) : Nat → Option Nat → Result String
  | 0, _ => .error .outOfRange
  | fuel + 1, id => do
    let c ← a.cell id
    if c.isLeaf then
      return if c.kind.any (·.endsStatement) && c.text == "\n" then "\\n" else c.text
    let parts ← c.children.mapM fun k => do return " " ++ (← a.sexprFrom fuel (some k))
    return "(" ++ c.label ++ String.join parts ++ ")"

def sexpr (a : Arena) (id : Option Nat) : Result String :=
  a.sexprFrom (a.length + 1) id

def outlineFrom (a : Arena) : Nat → Nat → Option Nat → Result String
  | 0, _, _ => .error .outOfRange
  | fuel + 1, depth, id => do
    let c ← a.cell id
    let head := if c.isLeaf then Lexeme.describe c.label true c.text c.line c.col else c.label
    let parts ← c.children.mapM fun k => a.outlineFrom fuel (depth + 1) (some k)
    return Node.margin depth ++ head ++ "\n" ++ String.join parts

def outline (a : Arena) (id : Option Nat) : Result String :=
  a.outlineFrom (a.length + 1) 0 id

/-- The source that the leaves of a subtree spell. -/
def source (a : Arena) (id : Option Nat) : Result String := do
  let lexemes ← (← a.leaves id).mapM fun l => do
    let c ← a.get l
    return (c.kind.getD .eof, c.text)
  return spelled lexemes

end Arena

end FortranJulia
