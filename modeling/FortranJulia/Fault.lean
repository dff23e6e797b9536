import FortranJulia.Tree.Arena

/-!
Faults: a step that needs something which is not there. A token beyond the last one, a child that
a node does not have, a loop to close where none is open: no source leads there, and the functions
that could meet one say so in their result.
-/

namespace FortranJulia

set_option autoImplicit false

inductive Fault where
  /-- There is no token at the index. -/
  | token
  /-- The arena refuses a step. -/
  | arena (e : ArenaError)
  /-- A node does not have the children that its label promises. -/
  | child
  /-- No loop is open that could be closed. -/
  | loop
  /-- A loop has more bounds than a first value, a last value and a step. -/
  | bound
  /-- A list is shorter than the part that is taken of it. -/
  | slice
  deriving DecidableEq, Repr

namespace Fault

/-- The result of a step on an arena. -/
def ofArena {α : Type} (r : Arena.Result α) : Except Fault α :=
  r.mapError .arena

end Fault

end FortranJulia
