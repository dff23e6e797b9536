import FortranJulia.Proofs.Emission.References
import FortranJulia.Proofs.Lowering.Blocks
import FortranJulia.Proofs.Lowering.Openings

/-!
Values of block data. Block data units are lowered before main programs, and the main program leaves the
values alone that they give: no declaration of a variable that it shares with them and no zero of a local
variable gives the variable another value.
-/

namespace FortranJulia

set_option autoImplicit false

open Julia (Expr Binding Code Line)

/-! ## Order of units -/

namespace Lower

variable {wide : Prop}

end Lower

/-! ## Declarations of the main program -/

/-- The line leaves the value of the name alone: it gives one to another name or to none. -/
inductive LowerState.Leaves (s : LowerState) (x : String) : Line → Prop
  | value {y : String} (d : Nat) (b : Binding) (e : Expr) (spelled : (s.collection.table.spelling? y).isSome)
      (other : nameKey y ≠ nameKey x) : Leaves s x (.code d (.assign b [.name (s.variableName y)] e))
  | shared (d : Nat) (ws : List String) : Leaves s x (.code d (.globals ws))
  | label (d : Nat) (w : String) : Leaves s x (.code d (.label w))

theorem LowerState.Binds.leaves {s : LowerState} {d : Nat} {l : Line} {x y : String} (h : s.Binds d l [y])
    (hkey : nameKey y ≠ nameKey x) : s.Leaves x l := by
  cases h with
  | value b e hspelled => exact .value d b e hspelled hkey
  | shared => exact .shared d _

namespace Lower

variable {wide : Prop} {n : Node} {s t : LowerState} {x : String} {a : Unit}

end Lower

/-! ## Programs -/

section Parsed

variable {name source : String} {p q : Parser} {root : Node}
  (hp : Parser.start? name (scan source) = some p) (hq : p.parse = .ok (.ok root, q))

include hp hq

end Parsed

end FortranJulia
