import FortranJulia.Grammar.Pattern
import FortranJulia.Fault

/-!
Matching of patterns. The state of a match is the next token, the arena in which the tree grows,
and what was looked for at the furthest token where a match of a single token failed. A pattern is
matched for an open node, which gets the nodes that it makes as its last children; a pattern for a
whole source has no open node, and its node becomes the root. A node that does not match leaves
nothing behind but the furthest token.
-/

namespace FortranJulia

set_option autoImplicit false

namespace Match

inductive Outcome where
  | matched
  | failed
  /-- The bound on the depth of the match was reached. -/
  | exhausted
  deriving DecidableEq, Repr

/-! ## The furthest token -/

/-- The furthest token at which a token was looked for in vain, and the kinds looked for there. -/
structure Reach where
  furthest : Nat := 0
  expected : List Kind := []

/-- Records that a kind was looked for at a token. -/
def Reach.miss (pos : Nat) (r : Reach) (k : Kind) : Reach :=
  if pos > r.furthest then ⟨pos, [k]⟩
  else if pos == r.furthest && !r.expected.contains k then ⟨r.furthest, r.expected ++ [k]⟩
  else r

/-! ## Tokens -/

/-- The token at an index. -/
def current (tokens : Array Lexeme) (i : Nat) : Except Fault Lexeme :=
  tokens[i]?.elim (.error .token) .ok

/-- The token at an index, or the last token beyond the end. -/
def peek (tokens : Array Lexeme) (i : Nat) : Except Fault Lexeme :=
  current tokens (min i (tokens.size - 1))

/-- Can the token be read as a name? Descriptors without a point can. -/
def isName (lx : Lexeme) : Bool :=
  lx.kind == .name || (lx.kind == .editConst && !lx.text.toList.contains '.')

/-- Do a name and an equals sign stand at an index? -/
def atLoopControl (tokens : Array Lexeme) (i : Nat) : Except Fault Bool := do
  let first := (← peek tokens i).kind
  let second := (← peek tokens (i + 1)).kind
  return (first == .name || first == .editConst) && second == .equal

def holds (tokens : Array Lexeme) (pos : Nat) : Guard → Except Fault Bool
  | .next ks => do return ks.contains (← peek tokens pos).kind
  | .notNext ks => do return !ks.contains (← peek tokens pos).kind
  | .moreItems => do
    return (← peek tokens pos).kind == .comma && !(← atLoopControl tokens (pos + 1))

/-! ## State -/

structure State where
  pos : Nat := 0
  tree : Arena := {}
  reach : Reach := {}

/-- A point of a match to go back to. -/
structure Checkpoint where
  pos : Nat
  mark : Mark

namespace State

@[noinline]
def checkpoint (s : State) (owner : Option Nat) : Except Fault Checkpoint := do
  return ⟨s.pos, ← Fault.ofArena (s.tree.mark owner)⟩

def backTo (s : State) (c : Checkpoint) : Except Fault State := do
  return { s with pos := c.pos, tree := ← Fault.ofArena (s.tree.rollback c.mark) }

def miss (s : State) (k : Kind) : State :=
  { s with reach := s.reach.miss s.pos k }

def missAny (s : State) (ks : List Kind) : State :=
  { s with reach := ks.foldl (Reach.miss s.pos) s.reach }

/-- Makes a node without a parent. -/
def push (s : State) (c : Cell) : Nat × State :=
  let (id, tree) := s.tree.push c
  (id, { s with tree })

/-- Makes a node the last child of another. -/
def attach (s : State) (parent child : Nat) : Except Fault State := do
  let (_, tree) ← Fault.ofArena (s.tree.attach parent child)
  return { s with tree }

/-- Adds the current token to the open node. The position does not leave the last token. -/
def take (tokens : Array Lexeme) (parent : Option Nat) (s : State) : Except Fault State := do
  let lx ← current tokens s.pos
  let (id, s) := s.push (.ofLexeme lx)
  match parent with
  | none => throw (.arena .outOfRange)
  | some q =>
    let s ← s.attach q id
    return { s with pos := if s.pos + 1 < tokens.size then s.pos + 1 else s.pos }

/-- A node whose only child is an inner one gives way to it. -/
def unwrap (s : State) (id : Nat) : Except Fault (Nat × State) := do
  let (id, tree) ← Fault.ofArena (s.tree.unwrap id)
  return (id, { s with tree })

/-- Adds a finished node to the open node, or makes it the root. -/
def commit (s : State) (parent : Option Nat) (id : Nat) : Except Fault State :=
  match parent with
  | none => .ok { s with tree := { s.tree with root := some id } }
  | some q => s.attach q id

end State

/-! ## Matching -/

/-- Matches a pattern with nonterminals as the grammar defines them, to a bounded depth. -/
def run (grammar : Nonterminal → Pattern) (tokens : Array Lexeme) :
    Nat → Pattern → Option Nat → State → Except Fault (Outcome × State)
  | 0, _, _, s => .ok (.exhausted, s)
  | depth + 1, p, parent, s =>
    match p with
    | .token k => do
      if (← current tokens s.pos).kind == k then return (.matched, ← s.take tokens parent)
      else return (.failed, s.miss k)
    | .oneOf ks => do
      if ks.contains (← current tokens s.pos).kind then return (.matched, ← s.take tokens parent)
      else return (.failed, s.missAny ks)
    | .word => do
      if isName (← current tokens s.pos) then return (.matched, ← s.take tokens parent)
      else return (.failed, s.miss .name)
    | .any => do return (.matched, ← s.take tokens parent)
    | .check g => do return (if ← holds tokens s.pos g then .matched else .failed, s)
    | .branch g yes no => do
      run grammar tokens depth (if ← holds tokens s.pos g then yes else no) parent s
    | .seq a b => do
      match ← run grammar tokens depth a parent s with
      | (.matched, t) => run grammar tokens depth b parent t
      | r => return r
    | .alt a b => do
      let c ← s.checkpoint parent
      match ← run grammar tokens depth a parent s with
      | (.failed, t) => run grammar tokens depth b parent (← t.backTo c)
      | r => return r
    | .star body => do
      match ← run grammar tokens depth body parent s with
      | (.matched, t) => run grammar tokens depth (.star body) parent t
      | (.failed, t) => return (.matched, t)
      | r => return r
    | .opt body => do
      match ← run grammar tokens depth body parent s with
      | (.failed, t) => return (.matched, t)
      | r => return r
    | .attempt body => do
      let c ← s.checkpoint parent
      match ← run grammar tokens depth body parent s with
      | (.failed, t) => return (.failed, ← t.backTo c)
      | r => return r
    | .whileDo g body => do
      if ← holds tokens s.pos g then
        match ← run grammar tokens depth body parent s with
        | (.matched, t) => run grammar tokens depth (.whileDo g body) parent t
        | r => return r
      else return (.matched, s)
    | .node l body => do
      let c ← s.checkpoint none
      let (id, t) := s.push (.phrase l)
      match ← run grammar tokens depth body (some id) t with
      | (.matched, t) => return (.matched, ← t.commit parent id)
      | (o, t) => return (o, ← t.backTo c)
    | .level l body => do
      let c ← s.checkpoint none
      let (id, t) := s.push (.phrase l)
      match ← run grammar tokens depth body (some id) t with
      | (.matched, t) =>
        let (kept, t) ← t.unwrap id
        return (.matched, ← t.commit parent kept)
      | (o, t) => return (o, ← t.backTo c)
    | .call phrase => run grammar tokens depth (grammar phrase) parent s

end Match

end FortranJulia
