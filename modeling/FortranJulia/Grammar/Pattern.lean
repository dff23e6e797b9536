import FortranJulia.Token.Kind
import FortranJulia.Tree.Label

/-!
Patterns: the grammar of the language is a value. A pattern matches tokens from the front of the
input, with ordered choice and without looking for other ways to match once it has succeeded. The
phrases that contain themselves are nonterminals; every other phrase is a pattern in full.
-/

namespace FortranJulia

set_option autoImplicit false

/-- The phrases that may contain themselves. -/
inductive Nonterminal where
  | expr | multOperand | fmtSpec | outputItem | inputItem | dataStmtObject | actionStmt
  | executableConstruct
  deriving DecidableEq, Repr

/-- Questions about the tokens ahead. -/
inductive Guard where
  /-- The next token is of one of these kinds. -/
  | next (kinds : List Kind)
  /-- The next token is of none of these kinds. -/
  | notNext (kinds : List Kind)
  /-- A comma comes next that is not followed by a name and an equals sign. -/
  | moreItems
  deriving DecidableEq, Repr

inductive Pattern where
  /-- One token of a kind. -/
  | token (kind : Kind)
  /-- One token of any of these kinds. -/
  | oneOf (kinds : List Kind)
  /-- A name. -/
  | word
  /-- One token, whatever it is. -/
  | any
  /-- Nothing, if the guard holds. -/
  | check (guard : Guard)
  /-- One of two patterns, as the guard says. -/
  | branch (guard : Guard) (yes no : Pattern)
  | seq (first second : Pattern)
  /-- The second pattern where the first does not match; nothing of the first remains. -/
  | alt (first second : Pattern)
  /-- The pattern as often as it matches. -/
  | star (body : Pattern)
  /-- The pattern, or nothing if it does not match. -/
  | opt (body : Pattern)
  /-- The pattern; nothing of it remains if it does not match. -/
  | attempt (body : Pattern)
  /-- The pattern for as long as the guard holds. -/
  | whileDo (guard : Guard) (body : Pattern)
  /-- A node with a label around what the pattern matches. -/
  | node (label : Label) (body : Pattern)
  /-- A node that gives way to its child if it has only one and that is an inner node. -/
  | level (label : Label) (body : Pattern)
  | call (phrase : Nonterminal)
  deriving DecidableEq, Repr

namespace Pattern

/-- The patterns one after the other. -/
def all : List Pattern → Pattern
  | [] => .check (.notNext [])
  | [p] => p
  | p :: ps => .seq p (all ps)

/-- The first of the patterns that matches. -/
def first : List Pattern → Pattern
  | [] => .check (.next [])
  | [p] => p
  | p :: ps => .alt p (first ps)

def kw (k : Keyword) : Pattern := .token (.keyword k)

def spec (s : Specifier) : Pattern := .token (.specifier s)

/-- One or more of a pattern. -/
def plus (p : Pattern) : Pattern := .seq p (.star p)

/-- Items divided by commas, under one node. -/
def list (label : Label) (item : Pattern) : Pattern :=
  .node label (.seq item (.star (.attempt (.seq (.token .comma) item))))

/-- A name under a node that tells its role. -/
def name (label : Label) : Pattern := .node label .word

end Pattern

end FortranJulia
