import FortranJulia.Token.Lexeme
import FortranJulia.Tree.Label

/-!
Syntax trees: a leaf holds a lexeme and an inner node a label and its children in order. Nodes are
numbered in the order in which they were made, a node before its children; numbers of nodes that
were given up again are used anew, and a level that holds nothing but another phrase gives way to
it and leaves its number unused.
-/

namespace FortranJulia

set_option autoImplicit false

inductive Node where
  | leaf (id : Nat) (lexeme : Lexeme)
  | inner (id : Nat) (label : Label) (children : List Node)
  deriving Repr

namespace Node

instance : Inhabited Node := ⟨.leaf 0 default⟩

/-! ## One node -/

def id : Node → Nat
  | .leaf i _ => i
  | .inner i _ _ => i

def children : Node → List Node
  | .leaf _ _ => []
  | .inner _ _ cs => cs

def isLeaf : Node → Bool
  | .leaf _ _ => true
  | .inner _ _ _ => false

/-- The name of the label, or of the token kind for a leaf. -/
def labelName : Node → String
  | .leaf _ lx => lx.kind.label
  | .inner _ l _ => l.name

def lexeme? : Node → Option Lexeme
  | .leaf _ lx => some lx
  | .inner _ _ _ => none

def label? : Node → Option Label
  | .leaf _ _ => none
  | .inner _ l _ => some l

/-- Is the node an inner one with this label? -/
def hasLabel (l : Label) (n : Node) : Bool :=
  n.label? == some l

/-- Is the node a leaf of this kind? -/
def hasKind (k : Kind) (n : Node) : Bool :=
  n.lexeme?.any (·.kind == k)

/-- A node whose only child is an inner node gives way to it. -/
def collapse : Node → Node
  | .inner _ _ [.inner i l cs] => .inner i l cs
  | n => n

/-! ## Children -/

/-- The first child with a label. -/
def child? (n : Node) (l : Label) : Option Node :=
  n.children.find? (·.hasLabel l)

def childrenWith (n : Node) (l : Label) : List Node :=
  n.children.filter (·.hasLabel l)

def hasChild (n : Node) (l : Label) : Bool :=
  n.children.any (·.hasLabel l)

/-- Is one of the children a leaf of this kind? -/
def hasToken (n : Node) (k : Kind) : Bool :=
  n.children.any (·.hasKind k)

/-! ## The subtree -/

mutual

/-- The node and all nodes below it, each before its children. -/
def nodes : Node → List Node
  | .leaf i lx => [.leaf i lx]
  | .inner i l cs => .inner i l cs :: nodesOf cs

def nodesOf : List Node → List Node
  | [] => []
  | n :: ns => nodes n ++ nodesOf ns

end

mutual

/-- The lexemes of the leaves from left to right. -/
def lexemes : Node → List Lexeme
  | .leaf _ lx => [lx]
  | .inner _ _ cs => lexemesOf cs

def lexemesOf : List Node → List Lexeme
  | [] => []
  | n :: ns => lexemes n ++ lexemesOf ns

end

mutual

/-- The first leaf of the subtree. -/
def firstLexeme? : Node → Option Lexeme
  | .leaf _ lx => some lx
  | .inner _ _ cs => firstLexemeOf? cs

def firstLexemeOf? : List Node → Option Lexeme
  | [] => none
  | n :: ns =>
    match firstLexeme? n with
    | some lx => some lx
    | none => firstLexemeOf? ns

end

/-- The text of the first leaf, or the empty text. -/
def text (n : Node) : String :=
  (n.firstLexeme?.map (·.text)).getD ""

/-- Line and column of the first leaf, or zeros. -/
def place (n : Node) : Nat × Nat :=
  (n.firstLexeme?.map fun lx => (lx.line, lx.col)).getD (0, 0)

mutual

/-- The first node with a label, in the order of `nodes`. -/
def find? (l : Label) : Node → Option Node
  | .leaf _ _ => none
  | .inner i m cs => if m == l then some (.inner i m cs) else findOf? l cs

def findOf? (l : Label) : List Node → Option Node
  | [] => none
  | n :: ns =>
    match find? l n with
    | some m => some m
    | none => findOf? l ns

end

/-- All nodes with a label, in the order of `nodes`. -/
def findAll (l : Label) (n : Node) : List Node :=
  n.nodes.filter (·.hasLabel l)

/-! ## Nodes with their surroundings -/

/-- A node together with its ancestors, the parent first. -/
structure Located where
  node : Node
  ancestors : List Node

mutual

/-- All nodes of the subtree, each before its children, with their ancestors. -/
def located (above : List Node) : Node → List Located
  | .leaf i lx => [⟨.leaf i lx, above⟩]
  | .inner i l cs => ⟨.inner i l cs, above⟩ :: locatedOf (.inner i l cs :: above) cs

def locatedOf (above : List Node) : List Node → List Located
  | [] => []
  | n :: ns => located above n ++ locatedOf above ns

end

/-- An event of a traversal: a node is entered, or all its children have been visited. -/
inductive Event where
  | enter (label : String)
  | leave
  deriving DecidableEq, Repr

mutual

/-- The events of a traversal that does not look below nodes labelled `prune`. -/
def walk (prune : String) : Node → List Event
  | .leaf i lx =>
    let n : Node := .leaf i lx
    if n.labelName == prune then [.enter n.labelName] else [.enter n.labelName, .leave]
  | .inner i l cs =>
    let n : Node := .inner i l cs
    if n.labelName == prune then [.enter n.labelName]
    else .enter n.labelName :: walkAll prune cs ++ [.leave]

def walkAll (prune : String) : List Node → List Event
  | [] => []
  | n :: ns => walk prune n ++ walkAll prune ns

end

end Node

end FortranJulia
