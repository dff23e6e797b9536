import FortranJulia.Proofs.Lowering.Conduct

/-!
What may be written for an expression. A `Reading` says how names are spelled and which of them are
read as arrays and which as procedures; `Renders` relates an expression to the Julia expressions that
follow the reading: an array is indexed and never called, a procedure is called and never indexed, and
a name that is neither may be either. `Material` says in the same way of which names, texts and
expressions the code of a program is made, `Wrought` what is made of them, and `Emitted` which lines.
-/

namespace FortranJulia

set_option autoImplicit false

open Julia (Expr Code Line Binding)

/-! ## Expressions -/

/-- How the names of a program unit are read. -/
structure Reading where
  /-- How a name may be spelled. -/
  spelled : String → String → Prop
  /-- Is the name that of the result of the function at hand? -/
  result : String → Bool
  array : String → Prop
  procedure : String → Prop

namespace Reading

/-- What may be written for the variable of a name. -/
def Ident (r : Reading) (name w : String) : Prop :=
  ∃ v, r.spelled name v ∧ w = if r.result name then "_" ++ v else Lower.escaped v

/-- What may be written for the procedure of a name. -/
def Callee (r : Reading) (name w : String) : Prop :=
  ∃ v, r.spelled name v ∧ w = Lower.escaped v

mutual

inductive Renders (r : Reading) : Expression → Expr → Prop
  | constant (lx : Lexeme) : Renders r (.constant lx) lx.juliaConstant
  | complex (re im : Component) : Renders r (.complex re im) (.call "complex" [re.julia, im.julia])
  | name {lx : Lexeme} {w : String} (ident : r.Ident lx.text w) :
    Renders r (.reference lx []) (.name w)
  | element {lx : Lexeme} {w : String} {items : List Subscript} {rest : List (List Subscript)}
    {subs : List Expr} {j : Expr} (no_procedure : ¬ r.procedure lx.text)
    (ident : r.Ident lx.text w) (subscripts : RendersList r items subs)
    (suffixes : RendersSuffixes r (.index (.name w) subs) rest j) :
    Renders r (.reference lx (items :: rest)) j
  | call {lx : Lexeme} {w : String} {items : List Subscript} {rest : List (List Subscript)}
    {args : List Expr} {j : Expr} (no_array : ¬ r.array lx.text) (callee : r.Callee lx.text w)
    (arguments : RendersArguments r items args) (suffixes : RendersSuffixes r (.call w args) rest j) :
    Renders r (.reference lx (items :: rest)) j
  | intrinsic {lx : Lexeme} {f : Intrinsic} {items : List Subscript}
    {rest : List (List Subscript)} {args : List Expr} {j : Expr} (no_array : ¬ r.array lx.text)
    (no_procedure : ¬ r.procedure lx.text) (known : Intrinsic.lookup? lx.text = some f)
    (arguments : RendersArguments r items args) (suffixes : RendersSuffixes r (f.emit args) rest j) :
    Renders r (.reference lx (items :: rest)) j
  | emptyCall {lx : Lexeme} {w : String} (callee : r.Callee lx.text w) :
    Renders r (.emptyCall lx) (.call w [])
  | emptyIntrinsic {lx : Lexeme} {f : Intrinsic} (no_procedure : ¬ r.procedure lx.text)
    (known : Intrinsic.lookup? lx.text = some f) : Renders r (.emptyCall lx) (f.emit [])
  | group {e : Expression} {j : Expr} (body : Renders r e j) : Renders r (.group e) (.paren j)
  | signed {e : Expression} {j : Expr} (sign : Lexeme) (body : Renders r e j) :
    Renders r (.signed sign e) (.signed sign.text j)
  | negated {e : Expression} {j : Expr} (count : Nat) (body : Renders r e j) :
    Renders r (.negated count e) (.negated count (if e.isPrimary then j else .paren j))
  | binary {left right : Expression} {j k : Expr} (op : BinaryOp) (leftType rightType : Option TypeName)
    (first : Renders r left j) (second : Renders r right k) :
    Renders r (.binary op left right) (combine op leftType rightType j k)

inductive RendersItem (r : Reading) : Subscript → Expr → Prop
  | value {e : Expression} {j : Expr} (body : Renders r e j) : RendersItem r (.value e) j
  | all : RendersItem r (.span none none) .colon
  | upTo {e : Expression} {j : Expr} (last : Renders r e j) :
    RendersItem r (.span none (some e)) (.range [.number "1", j])
  | from {e : Expression} {j : Expr} (first : Renders r e j) :
    RendersItem r (.span (some e) none) (.range [j, .name "end"])
  | between {e f : Expression} {j k : Expr} (first : Renders r e j) (last : Renders r f k) :
    RendersItem r (.span (some e) (some f)) (.range [j, k])
  | alternate (star : Lexeme) : RendersItem r (.alternate star) (.verbatim "")

/-- Subscripts one after the other. -/
inductive RendersList (r : Reading) : List Subscript → List Expr → Prop
  | nil : RendersList r [] []
  | cons {s : Subscript} {j : Expr} {ss : List Subscript} {js : List Expr} (item : RendersItem r s j)
    (rest : RendersList r ss js) : RendersList r (s :: ss) (j :: js)

/-- Arguments one after the other, without the alternate returns among them. -/
inductive RendersArguments (r : Reading) : List Subscript → List Expr → Prop
  | nil : RendersArguments r [] []
  | cons {s : Subscript} {j : Expr} {ss : List Subscript} {js : List Expr} (item : RendersItem r s j)
    (rest : RendersArguments r ss js) : RendersArguments r (s :: ss) (j :: js)
  | drop (star : Lexeme) {ss : List Subscript} {js : List Expr} (rest : RendersArguments r ss js) :
    RendersArguments r (.alternate star :: ss) js

/-- An expression with further lists of subscripts. -/
inductive RendersSuffixes (r : Reading) : Expr → List (List Subscript) → Expr → Prop
  | nil (base : Expr) : RendersSuffixes r base [] base
  | cons {base j : Expr} {items : List Subscript} {rest : List (List Subscript)} {subs : List Expr}
    (subscripts : RendersList r items subs) (suffixes : RendersSuffixes r (.index base subs) rest j) :
    RendersSuffixes r base (items :: rest) j

end

end Reading

/-! ## Lines -/

/-- What the code of a program is made of. -/
structure Material where
  reading : Reading
  /-- The expressions that are written. -/
  expression : Expression → Prop
  /-- The names that are written. -/
  name : String → Prop
  /-- The labels, comments, signs and constants that are written. -/
  text : String → Prop
  /-- The subroutines that are called. -/
  subroutine : String → Prop
  /-- The functions that are called where the source has no call. -/
  helper : String → Prop

/-- The names of variables that the source does not have. -/
def helperNames : List String := ["_", "_k", "_r", "_v", "_vals"]

namespace Material

/-- What is written for names: the name of a variable or of a procedure, or that of a file. -/
inductive Named (m : Material) : String → Prop
  | word {x w : String} (source : m.name x) (spelled : m.reading.spelled x w) :
    Named m (Lower.escaped w)
  | marked {x w : String} (source : m.name x) (spelled : m.reading.spelled x w) : Named m ("_" ++ w)
  | unit (number : Int) : Named m ("_" ++ Decimal.ofInt number)
  | helper {w : String} (known : w ∈ helperNames) : Named m w

/-- What stands in the lines of a program. -/
inductive Wrought (m : Material) : Expr → Prop
  | rendered {e : Expression} {j : Expr} (source : m.expression e) (form : m.reading.Renders e j) :
    Wrought m j
  | converted (target source : Option TypeName) {j : Expr} (value : Wrought m j) :
    Wrought m (convertValue target source j)
  | zero (type : Option TypeName) : Wrought m (zeroValue type)
  | count (n : Nat) : Wrought m (.number (Decimal.digits n))
  /-- A constant, of which some characters may be left out. -/
  | number {s t : String} (source : m.text t) (part : s.toList ⊆ t.toList) : Wrought m (.number s)
  | constant {s : String} (source : m.text s) : Wrought m (.str s)
  | quoted (s : String) : Wrought m (.str (Text.juliaString s))
  | literal {s : String} (known : s ∈ ["\" \"", "\"r+\"", "\"w+\""]) : Wrought m (.str s)
  | absent : Wrought m (.verbatim "")
  | name {w : String} (named : m.Named w) : Wrought m (.name w)
  | own {w : String} (known : w ∈ ["end", "stderr"]) : Wrought m (.name w)
  | signed {s : String} {j : Expr} (sign : m.text s) (body : Wrought m j) : Wrought m (.signed s j)
  | equals {j k : Expr} (left : Wrought m j) (right : Wrought m k) : Wrought m (.operation "==" j k)
  | helper {f : String} {args : List Expr} (known : m.helper f)
    (arguments : ∀ j ∈ args, Wrought m j) : Wrought m (.call f args)
  /-- Some of the values that a helper holds. -/
  | part {w : String} {subs : List Expr} (known : w ∈ helperNames)
    (subscripts : ∀ j ∈ subs, Wrought m j) : Wrought m (.index (.name w) subs)
  | colon : Wrought m .colon
  | range {bounds : List Expr} (parts : ∀ j ∈ bounds, Wrought m j) : Wrought m (.range bounds)
  | vector {items : List Expr} (parts : ∀ j ∈ items, Wrought m j) : Wrought m (.vector items)
  | tuple {items : List Expr} (parts : ∀ j ∈ items, Wrought m j) : Wrought m (.tuple items)
  | spread {j : Expr} (body : Wrought m j) : Wrought m (.spread j)
  | generator {j r : Expr} {v : String} (element : Wrought m j) (index : m.Named v)
    (range : Wrought m r) : Wrought m (.generator j v r)
  | flattened {r items : Expr} {v : String} (index : m.Named v) (range : Wrought m r)
    (parts : Wrought m (.spread items)) : Wrought m (.flattened v r items)
  | conditional {c j k : Expr} (condition : Wrought m c) (yes : Wrought m j) (no : Wrought m k) :
    Wrought m (.conditional c j k)

/-- What stands on the left of an assignment. -/
inductive Target (m : Material) : Expr → Prop
  | name {w : String} (named : m.Named w) : Target m (.name w)
  | index {base : Expr} {subs : List Expr} (whole : Target m base)
    (subscripts : ∀ j ∈ subs, Wrought m j) : Target m (.index base subs)

/-- What may be called in a line of its own or for the values it returns. -/
inductive Called (m : Material) : Expr → Prop
  | subroutine {x w : String} {args : List Expr} (source : m.subroutine x)
    (callee : m.reading.Callee x w) (arguments : ∀ j ∈ args, Wrought m j) : Called m (.call w args)
  | helper {f : String} {args : List Expr} (known : m.helper f)
    (arguments : ∀ j ∈ args, Wrought m j) : Called m (.call f args)

inductive Emitted (m : Material) : Code → Prop
  | functionHead {f : String} {params : List String} (named : m.Named f)
    (dummies : ∀ p ∈ params, m.Named p) : Emitted m (.functionHead f params)
  | forHead {v : String} {r : Expr} (index : m.Named v) (range : Wrought m r) :
    Emitted m (.forHead v r)
  | forPairs {v : String} {r xs : Expr} (index : m.Named v) (range : Wrought m r)
    (values : Wrought m xs) : Emitted m (.forPairs v r xs)
  | ifHead {c : Expr} (condition : Wrought m c) : Emitted m (.ifHead c)
  | elseifHead {c : Expr} (condition : Wrought m c) : Emitted m (.elseifHead c)
  | elseHead : Emitted m .elseHead
  | close : Emitted m .close
  | label {l : String} (source : m.text l) : Emitted m (.label (Lower.labelName l))
  | goto {l : String} (source : m.text l) : Emitted m (.goto (Lower.labelName l))
  /-- A comment, of which some characters may be left out. -/
  | comment {s t : String} (source : m.text t) (part : s.toList ⊆ t.toList) : Emitted m (.comment s)
  | returns {values : List String} (named : ∀ v ∈ values, m.Named v) : Emitted m (.returns values)
  | assign {targets : List Expr} {j : Expr} (b : Binding) (some_target : targets ≠ [])
    (lefts : ∀ t ∈ targets, Target m t) (value : Wrought m j ∨ Called m j) :
    Emitted m (.assign b targets j)
  | globals {names : List String} (named : ∀ v ∈ names, m.Named v) : Emitted m (.globals names)
  | shortFunction {f : String} {params : List String} {j : Expr} (named : m.Named f)
    (dummies : ∀ p ∈ params, m.Named p) (body : Wrought m j) : Emitted m (.shortFunction f params j)
  | run {j : Expr} (call : Called m j) : Emitted m (.run j)
  | lone {w : String} (named : m.Named w) : Emitted m (.run (.name w))

/-- A line of a program, or the empty line between two units. -/
def Writes (m : Material) : Line → Prop
  | .code _ c => Emitted m c
  | .gap => True

/-- A diagnostic does not say of a procedure that it is none. -/
def Reports (m : Material) (d : Diagnostic) : Prop :=
  d.rule = Diagnostic.unresolvedReference → ∀ x, m.reading.procedure x →
    d.message ≠ x ++ " is neither an array nor a known procedure"

end Material

end FortranJulia
