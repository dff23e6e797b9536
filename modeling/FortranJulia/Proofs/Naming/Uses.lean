import FortranJulia.Lowering.Program
import FortranJulia.Proofs.Lowering.Names

/-!
The names that lines of code use. `Expr.uses` lists the names in an expression and `Code.uses` those in a
line, each with its place: that of a value or that of a function. A `Naming` says what may be written
there once the spellings of a whole program are known. What is made of parts that keep to a naming keeps to
it.
-/

namespace FortranJulia

set_option autoImplicit false

open Julia (Expr Code Line)

/-! ## Names in code -/

namespace Julia

/-- A name and the place where it stands. -/
inductive Use where
  | value (name : String)
  | callee (name : String)
  deriving DecidableEq, Repr

namespace Expr

mutual

@[simp] def uses : Expr → List Use
  | .number _ | .str _ | .truth _ | .verbatim _ | .colon => []
  | .name w => [.value w]
  | .paren e | .signed _ e | .negated _ e | .spread e => uses e
  | .operation _ l r => uses l ++ uses r
  | .call f args | .typedCall f _ args => .callee f :: usesOf args
  | .joined _ es | .range es | .vector es | .tuple es => usesOf es
  | .index e subs => uses e ++ usesOf subs
  | .generator e v r => uses e ++ .value v :: uses r
  | .flattened v r es => .value v :: uses r ++ uses es
  | .conditional c a b => uses c ++ uses a ++ uses b

@[simp] def usesOf : List Expr → List Use
  | [] => []
  | e :: es => uses e ++ usesOf es

end

theorem mem_usesOf {u : Use} {es : List Expr} : u ∈ usesOf es ↔ ∃ e ∈ es, u ∈ e.uses := by
  induction es with
  | nil => simp
  | cons e es ih => simp [ih]

end Expr

/-- The names in a line of code. -/
@[simp] def Code.uses : Code → List Use
  | .functionHead f params => .callee f :: params.map .value
  | .forHead v r => .value v :: r.uses
  | .forPairs v r xs => .value v :: r.uses ++ xs.uses
  | .ifHead c | .elseifHead c => c.uses
  | .elseHead | .close | .label _ | .goto _ | .comment _ => []
  | .returns names | .globals names => names.map .value
  | .assign _ targets e => Expr.usesOf targets ++ e.uses
  | .shortFunction f params e => .callee f :: params.map .value ++ e.uses
  | .run e => e.uses

def Line.uses : Line → List Use
  | .code _ c => c.uses
  | .gap => []

end Julia

open Julia (Use)

/-! ## Namings -/

/-- The parts that a name of the source plays: that of a variable, that of a procedure and that of a
variable that holds the number of a file. -/
inductive Role where
  | variable
  | procedure
  | file
  deriving DecidableEq, Repr

/-- How names are written in a unit, in terms of the table at the end of a lowering. -/
structure Naming where
  final : Table
  /-- Is the name that of the result of the function at hand? -/
  result : String → Bool

namespace Naming

/-- What is written for a name. -/
def written (ν : Naming) : Role → String → String
  | .variable, x =>
    if ν.result x then "_" ++ ν.final.spelling x else Lower.escaped (ν.final.spelling x)
  | .procedure, x => Lower.escaped (ν.final.spelling x)
  | .file, x => "_" ++ ν.final.spelling x

/-- The name has been spelled, and the text is what is written for it. -/
def Writes (ν : Naming) (role : Role) (x w : String) : Prop :=
  (ν.final.spelling? x).isSome ∧ w = ν.written role x

/-- The text stands for a name that has been spelled. -/
def Stands (ν : Naming) (role : Role) (w : String) : Prop :=
  ∃ x, ν.Writes role x w

/-- The values that code has of its own. -/
def ownValues : List String := ["_", "_k", "_r", "_v", "_vals", "end", "stderr"]

/-- The functions that code calls of its own. -/
def ownFunctions : List String :=
  Intrinsic.all.map (·.julia) ++
    ["zero", "complex", "float", "div", "trunc", "create_array", "println", "@printf", "join", "readline",
     "parse_input", "read_values", "open", "isfile", "close", "seekstart", "exit"]

/-- The name is one that code has of its own, or stands for a name of the source: among values a
variable, or the file of a unit, which may also have a number; among functions a procedure. -/
def Allows (ν : Naming) : Use → Prop
  | .value w => w ∈ ownValues ∨ (∃ n, w = "_" ++ Decimal.ofInt n) ∨ ν.Stands .variable w ∨ ν.Stands .file w
  | .callee f => f ∈ ownFunctions ∨ ν.Stands .procedure f

/-- All names in the expression are allowed. -/
def Admits (ν : Naming) (e : Expr) : Prop :=
  ∀ u ∈ e.uses, ν.Allows u

/-- All names in the line are allowed. -/
def AdmitsCode (ν : Naming) (c : Code) : Prop :=
  ∀ u ∈ c.uses, ν.Allows u

variable {ν : Naming}

/-! ## Expressions -/

section Parts

@[simp] theorem admits_number (s : String) : ν.Admits (.number s) := by simp [Admits]

@[simp] theorem admits_str (s : String) : ν.Admits (.str s) := by simp [Admits]

@[simp] theorem admits_truth (b : Bool) : ν.Admits (.truth b) := by simp [Admits]

@[simp] theorem admits_verbatim (s : String) : ν.Admits (.verbatim s) := by simp [Admits]

@[simp] theorem admits_colon : ν.Admits .colon := by simp [Admits]

@[simp] theorem admits_name {w : String} : ν.Admits (.name w) ↔ ν.Allows (.value w) := by
  simp [Admits]

@[simp] theorem admits_paren {e : Expr} : ν.Admits (.paren e) ↔ ν.Admits e := by simp [Admits]

@[simp] theorem admits_signed {s : String} {e : Expr} : ν.Admits (.signed s e) ↔ ν.Admits e := by
  simp [Admits]

@[simp] theorem admits_negated {n : Nat} {e : Expr} : ν.Admits (.negated n e) ↔ ν.Admits e := by
  simp [Admits]

@[simp] theorem admits_spread {e : Expr} : ν.Admits (.spread e) ↔ ν.Admits e := by simp [Admits]

@[simp] theorem admits_operation {op : String} {l r : Expr} :
    ν.Admits (.operation op l r) ↔ ν.Admits l ∧ ν.Admits r := by
  simp [Admits, or_imp, forall_and]

/-- Names in a list are those in its items. -/
theorem allows_usesOf {es : List Expr} : (∀ u ∈ Expr.usesOf es, ν.Allows u) ↔ ∀ e ∈ es, ν.Admits e := by
  simp only [Expr.mem_usesOf, Admits]
  exact ⟨fun h e he u hu => h u ⟨e, he, hu⟩, fun h u ⟨e, he, hu⟩ => h e he u hu⟩

@[simp] theorem admits_call {f : String} {args : List Expr} :
    ν.Admits (.call f args) ↔ ν.Allows (.callee f) ∧ ∀ e ∈ args, ν.Admits e := by
  rw [← allows_usesOf]
  simp [Admits]

@[simp] theorem admits_typedCall {f t : String} {args : List Expr} :
    ν.Admits (.typedCall f t args) ↔ ν.Allows (.callee f) ∧ ∀ e ∈ args, ν.Admits e := by
  rw [← allows_usesOf]
  simp [Admits]

@[simp] theorem admits_joined {op : String} {es : List Expr} :
    ν.Admits (.joined op es) ↔ ∀ e ∈ es, ν.Admits e :=
  allows_usesOf

@[simp] theorem admits_range {es : List Expr} : ν.Admits (.range es) ↔ ∀ e ∈ es, ν.Admits e :=
  allows_usesOf

@[simp] theorem admits_vector {es : List Expr} : ν.Admits (.vector es) ↔ ∀ e ∈ es, ν.Admits e :=
  allows_usesOf

@[simp] theorem admits_tuple {es : List Expr} : ν.Admits (.tuple es) ↔ ∀ e ∈ es, ν.Admits e :=
  allows_usesOf

@[simp] theorem admits_index {e : Expr} {subs : List Expr} :
    ν.Admits (.index e subs) ↔ ν.Admits e ∧ ∀ j ∈ subs, ν.Admits j := by
  rw [← allows_usesOf]
  simp [Admits, or_imp, forall_and]

@[simp] theorem admits_generator {e r : Expr} {v : String} :
    ν.Admits (.generator e v r) ↔ ν.Admits e ∧ ν.Allows (.value v) ∧ ν.Admits r := by
  simp [Admits, or_imp, forall_and]

@[simp] theorem admits_flattened {r es : Expr} {v : String} :
    ν.Admits (.flattened v r es) ↔ ν.Allows (.value v) ∧ ν.Admits r ∧ ν.Admits es := by
  simp [Admits, or_imp, forall_and]

@[simp] theorem admits_conditional {c a b : Expr} :
    ν.Admits (.conditional c a b) ↔ ν.Admits c ∧ ν.Admits a ∧ ν.Admits b := by
  simp [Admits, or_imp, forall_and]

end Parts

/-! ## Lines -/

section Lines

theorem allows_values {names : List String} :
    (∀ u ∈ names.map Use.value, ν.Allows u) ↔ ∀ w ∈ names, ν.Allows (.value w) := by
  simp

@[simp] theorem admits_functionHead {f : String} {params : List String} :
    ν.AdmitsCode (.functionHead f params) ↔
      ν.Allows (.callee f) ∧ ∀ w ∈ params, ν.Allows (.value w) := by
  simp [AdmitsCode]

@[simp] theorem admits_forHead {v : String} {r : Expr} :
    ν.AdmitsCode (.forHead v r) ↔ ν.Allows (.value v) ∧ ν.Admits r := by
  simp [AdmitsCode, Admits]

@[simp] theorem admits_forPairs {v : String} {r xs : Expr} :
    ν.AdmitsCode (.forPairs v r xs) ↔ ν.Allows (.value v) ∧ ν.Admits r ∧ ν.Admits xs := by
  simp [AdmitsCode, Admits, or_imp, forall_and]

@[simp] theorem admits_ifHead {c : Expr} : ν.AdmitsCode (.ifHead c) ↔ ν.Admits c := Iff.rfl

@[simp] theorem admits_elseifHead {c : Expr} : ν.AdmitsCode (.elseifHead c) ↔ ν.Admits c := Iff.rfl

@[simp] theorem admits_elseHead : ν.AdmitsCode .elseHead := by simp [AdmitsCode]

@[simp] theorem admits_close : ν.AdmitsCode .close := by simp [AdmitsCode]

@[simp] theorem admits_label (l : String) : ν.AdmitsCode (.label l) := by simp [AdmitsCode]

@[simp] theorem admits_goto (l : String) : ν.AdmitsCode (.goto l) := by simp [AdmitsCode]

@[simp] theorem admits_comment (s : String) : ν.AdmitsCode (.comment s) := by simp [AdmitsCode]

@[simp] theorem admits_returns {names : List String} :
    ν.AdmitsCode (.returns names) ↔ ∀ w ∈ names, ν.Allows (.value w) :=
  allows_values

@[simp] theorem admits_globals {names : List String} :
    ν.AdmitsCode (.globals names) ↔ ∀ w ∈ names, ν.Allows (.value w) :=
  allows_values

@[simp] theorem admits_assign {b : Julia.Binding} {targets : List Expr} {e : Expr} :
    ν.AdmitsCode (.assign b targets e) ↔ (∀ t ∈ targets, ν.Admits t) ∧ ν.Admits e := by
  simp only [AdmitsCode, Code.uses, List.mem_append, or_imp, forall_and, allows_usesOf, Admits]

@[simp] theorem admits_shortFunction {f : String} {params : List String} {e : Expr} :
    ν.AdmitsCode (.shortFunction f params e) ↔
      ν.Allows (.callee f) ∧ (∀ w ∈ params, ν.Allows (.value w)) ∧ ν.Admits e := by
  simp [AdmitsCode, Admits, or_imp, forall_and]

@[simp] theorem admits_run {e : Expr} : ν.AdmitsCode (.run e) ↔ ν.Admits e := Iff.rfl

end Lines

/-! ## What is made of parts -/

theorem allows_ownValue {w : String} (h : w ∈ ownValues) : ν.Allows (.value w) := .inl h

theorem allows_variable {x w : String} (h : ν.Writes .variable x w) : ν.Allows (.value w) :=
  .inr (.inr (.inl ⟨x, h⟩))

theorem allows_ownFunction {f : String} (h : f ∈ ownFunctions) : ν.Allows (.callee f) := .inl h

/-- A function of the code itself that is not that of an intrinsic. -/
theorem allows_helper {f : String}
    (h : f ∈ ["zero", "complex", "float", "div", "trunc", "create_array", "println", "@printf", "join",
      "readline", "parse_input", "read_values", "open", "isfile", "close", "seekstart", "exit"]) :
    ν.Allows (.callee f) :=
  allows_ownFunction (List.mem_append_right _ h)

theorem admits_juliaConstant (lx : Lexeme) : ν.Admits lx.juliaConstant := by
  unfold Lexeme.juliaConstant
  split <;> simp

theorem admits_component (c : Component) : ν.Admits c.julia := by
  unfold Component.julia
  split <;> simp [admits_juliaConstant]

theorem admits_zeroValue (type : Option TypeName) : ν.Admits (zeroValue type) := by
  unfold zeroValue
  split <;> simp [allows_helper]

theorem admits_convertValue {e : Expr} (h : ν.Admits e) (target source : Option TypeName) :
    ν.Admits (convertValue target source e) := by
  unfold convertValue floatValue
  split
  · simpa [allows_helper] using h
  · split
    · split
      · simp
      · simpa [allows_helper] using h
    · exact h

theorem admits_combine {op : BinaryOp} {l r : Expr} (hl : ν.Admits l) (hr : ν.Admits r)
    (leftType rightType : Option TypeName) : ν.Admits (combine op leftType rightType l r) := by
  unfold combine
  split <;> simp [allows_helper, hl, hr]

theorem admits_emit {f : Intrinsic} (hf : f ∈ Intrinsic.all) {args : List Expr}
    (h : ∀ e ∈ args, ν.Admits e) : ν.Admits (f.emit args) := by
  have hjulia : ν.Allows (.callee f.julia) :=
    allows_ownFunction (List.mem_append_left _ (List.mem_map_of_mem hf))
  unfold Intrinsic.emit
  split
  · simpa [hjulia] using h
  · simpa [hjulia] using h
  · simpa using h
  · simpa using h
  · have hzero : ν.Allows (.callee "zero") := allows_helper (by simp)
    have hboth := h
    simp only [List.mem_cons, List.not_mem_nil, or_false, forall_eq_or_imp, forall_eq] at hboth
    simp [hjulia, hzero, hboth]
  · simpa [hjulia] using h

end Naming

end FortranJulia
