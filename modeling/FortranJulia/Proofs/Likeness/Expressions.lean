import FortranJulia.Lowering.Typing
import FortranJulia.Proofs.Likeness.Trees

/-!
Expressions in a guise. The expression of a sketch is that of the tree, in the guise: leaves show
everywhere but in the ends of statements, which are no part of an expression. Its type by a symbol
table in the guise is the type of the expression.
-/

namespace FortranJulia

set_option autoImplicit false

namespace Guise

variable (g : Guise)

/-! ## Expressions -/

def component (c : Component) : Component :=
  ⟨c.sign.map g.lexeme, g.lexeme c.number⟩

mutual

def expression : Expression → Expression
  | .constant lx => .constant (g.lexeme lx)
  | .complex re im => .complex (g.component re) (g.component im)
  | .reference lx suffixes => .reference (g.lexeme lx) (subscriptLists suffixes)
  | .emptyCall lx => .emptyCall (g.lexeme lx)
  | .group e => .group (expression e)
  | .signed s e => .signed (g.lexeme s) (expression e)
  | .negated n e => .negated n (expression e)
  | .binary op l r => .binary op (expression l) (expression r)

def subscript : Subscript → Subscript
  | .value e => .value (expression e)
  | .span none none => .span none none
  | .span none (some b) => .span none (some (expression b))
  | .span (some a) none => .span (some (expression a)) none
  | .span (some a) (some b) => .span (some (expression a)) (some (expression b))
  | .alternate lx => .alternate (g.lexeme lx)

def subscripts : List Subscript → List Subscript
  | [] => []
  | s :: ss => subscript s :: subscripts ss

def subscriptLists : List (List Subscript) → List (List Subscript)
  | [] => []
  | ss :: rest => subscripts ss :: subscriptLists rest

end

-- The lemmas below share these equations.
attribute [local simp] expression subscript subscripts subscriptLists

theorem subscripts_eq_map (ss : List Subscript) : g.subscripts ss = ss.map g.subscript := by
  induction ss with
  | nil => rw [subscripts, List.map_nil]
  | cons s ss ih => rw [subscripts, ih, List.map_cons]

@[simp] theorem isSpan_subscript (s : Subscript) : (g.subscript s).isSpan = s.isSpan := by
  rcases s with e | ⟨_ | a, _ | b⟩ | star <;> rw [subscript] <;> rfl

@[simp] theorem any_isSpan_subscripts (ss : List Subscript) :
    (g.subscripts ss).any (·.isSpan) = ss.any (·.isSpan) := by
  rw [subscripts_eq_map, List.any_map]
  exact congrArg ss.any (funext fun s => g.isSpan_subscript s)

@[simp] theorem isPrimary_expression (e : Expression) : (g.expression e).isPrimary = e.isPrimary := by
  cases e <;> (rw [expression]; rfl)

theorem bareName?_expression (e : Expression) :
    (g.expression e).bareName? = e.bareName?.map g.lexeme := by
  cases e with
  | reference lx suffixes => cases suffixes <;> simp [expression, subscriptLists, Expression.bareName?]
  | _ => rw [expression]; rfl

/-! ## Parts of phrases -/

def part : Part → Part
  | .token lx => .token (g.lexeme lx)
  | .expr e => .expr (g.expression e)
  | .operation op e => .operation op (g.expression e)
  | .sign lx => .sign (g.lexeme lx)
  | .name lx => .name (g.lexeme lx)
  | .component c => .component (g.component c)
  | .subscript s => .subscript (g.subscript s)
  | .suffix items => .suffix (g.subscripts items)
  | .other => .other

end Guise

namespace Part

variable (g : Guise)

theorem applyAll_part (ps : List Part) (e : Expression) :
    applyAll (g.expression e) (ps.map g.part) = g.part (applyAll e ps) := by
  induction ps generalizing e with
  | nil => rfl
  | cons p ps ih =>
    cases p with
    | operation op r =>
      have hbinary := ih (.binary op e r)
      rw [Guise.expression] at hbinary
      exact hbinary
    | _ => rfl

theorem chain_part (ps : List Part) : chain (ps.map g.part) = g.part (chain ps) := by
  cases ps with
  | nil => rfl
  | cons p ps =>
    cases p with
    | expr e => exact applyAll_part g ps e
    | sign s =>
      cases ps with
      | nil => rfl
      | cons q ps =>
        cases q with
        | expr e =>
          have hsigned := applyAll_part g ps (.signed s e)
          rw [Guise.expression] at hsigned
          exact hsigned
        | _ => rfl
    | _ => rfl

theorem negations_part (ps : List Part) (count : Nat) :
    negations count (ps.map g.part) = g.part (negations count ps) := by
  induction ps generalizing count with
  | nil => rfl
  | cons p ps ih =>
    cases p with
    | token lx => exact ih (count + 1)
    | expr e =>
      cases ps with
      | nil =>
        simp only [List.map_cons, List.map_nil, Guise.part, negations]
        split
        · rfl
        · rw [Guise.expression]
      | cons => rfl
    | _ => rfl

theorem operationOf_part (op? : Option BinaryOp) (e : Expression) :
    operationOf op? (g.expression e) = g.part (operationOf op? e) := by
  cases op? <;> rfl

theorem suffix?_part (p : Part) : (g.part p).suffix? = p.suffix?.map g.subscripts := by
  cases p <;> rfl

theorem subscript?_part (p : Part) : (g.part p).subscript? = p.subscript?.map g.subscript := by
  cases p <;> rfl

theorem suffixes_part (ps : List Part) :
    (ps.map g.part).filterMap suffix? = g.subscriptLists (ps.filterMap suffix?) := by
  induction ps with
  | nil => rfl
  | cons p ps ih =>
    rw [List.map_cons, List.filterMap_cons, List.filterMap_cons, suffix?_part, ih]
    cases p.suffix? <;> rfl

theorem subscripts_part (ps : List Part) :
    (ps.map g.part).filterMap subscript? = g.subscripts (ps.filterMap subscript?) := by
  induction ps with
  | nil => rfl
  | cons p ps ih =>
    rw [List.map_cons, List.filterMap_cons, List.filterMap_cons, subscript?_part, ih]
    cases p.subscript? <;> rfl

theorem ite_other_part (b : Bool) (p : Part) :
    (if b then g.part p else .other) = g.part (if b then p else other) := by
  cases b <;> rfl

theorem subscriptOf_part (ps : List Part) : subscriptOf (ps.map g.part) = g.part (subscriptOf ps) := by
  rcases ps with _ | ⟨p, _ | ⟨q, _ | ⟨r, _ | ⟨t, ps⟩⟩⟩⟩ <;> try rfl
  · cases p <;> try rfl
    exact ite_other_part g _ (.subscript (.span none none))
  · cases p <;> try rfl
    all_goals cases q <;> try rfl
    · exact ite_other_part g _ (.subscript (.span none (some _)))
    · exact ite_other_part g _ (.subscript (.alternate _))
  all_goals
    cases p <;> try rfl
    all_goals cases q <;> try rfl
    all_goals cases r <;> rfl

theorem ofInner_part (l : Label) (ps : List Part) :
    ofInner l (ps.map g.part) = g.part (ofInner l ps) := by
  cases l
  case expr | orOperand | level4Expr | level3Expr | level2Expr | addOperand | multOperand =>
    exact chain_part g ps
  case andOperand => exact negations_part g ps 0
  case sectionSubscript => exact subscriptOf_part g ps
  case sectionSubscriptList => exact congrArg suffix (subscripts_part g ps)
  case nameDataRef =>
    cases ps with
    | nil => rfl
    | cons p ps =>
      cases p with
      | name lx =>
        show expr (.reference (g.lexeme lx) ((ps.map g.part).filterMap suffix?)) = _
        rw [suffixes_part]
        rfl
      | _ => rfl
  case functionReference =>
    cases ps with
    | nil => rfl
    | cons p ps => cases p <;> rfl
  case orOp | andOp | relOp | addOp | multOp =>
    rcases ps with _ | ⟨p, _ | ⟨q, _ | ⟨r, ps⟩⟩⟩ <;> try rfl
    all_goals cases p <;> try rfl
    all_goals cases q <;> try rfl
    all_goals exact (operationOf_part g _ _)
  case concatOp | powerOp | complexDataRefTail | primary =>
    rcases ps with _ | ⟨p, _ | ⟨q, _ | ⟨r, _ | ⟨t, ps⟩⟩⟩⟩ <;> try rfl
    all_goals cases p <;> try rfl
    all_goals cases q <;> try rfl
    all_goals cases r <;> try rfl
  case sign | refName | logicalConstant | unsignedArithmeticConstant | complexComponent =>
    rcases ps with _ | ⟨p, _ | ⟨q, _ | ⟨r, ps⟩⟩⟩ <;> try rfl
    all_goals cases p <;> try rfl
    all_goals cases q <;> rfl
  case complexConst =>
    rcases ps with _ | ⟨p, _ | ⟨q, _ | ⟨r, _ | ⟨t, _ | ⟨u, _ | ⟨v, ps⟩⟩⟩⟩⟩⟩ <;> try rfl
    all_goals cases p <;> try rfl
    all_goals cases q <;> try rfl
    all_goals cases r <;> try rfl
    all_goals cases t <;> try rfl
    all_goals cases u <;> rfl
  all_goals rfl

mutual

theorem ofNode_sketch : ∀ n : Node, ofNode (n.sketch g) = g.part (ofNode n)
  | .leaf _ lx => by rw [Node.sketch_leaf]; rfl
  | .inner i l cs => by
    by_cases hl : l = .endOfStmt
    · subst hl
      rw [Node.sketch_end]
      rfl
    · rw [Node.sketch_inner g hl, ofNode, ofNode, ofNodes_sketch cs, ofInner_part]

theorem ofNodes_sketch : ∀ ns : List Node, ofNodes (ns.map (Node.sketch g)) = (ofNodes ns).map g.part
  | [] => rfl
  | n :: ns => by
    rw [List.map_cons, ofNodes, ofNodes, ofNode_sketch n, ofNodes_sketch ns, List.map_cons]

end

end Part

namespace Node

variable (g : Guise)

@[simp] theorem expression?_sketch (n : Node) :
    (n.sketch g).expression? = n.expression?.map g.expression := by
  rw [expression?, Part.ofNode_sketch, expression?]
  cases Part.ofNode n <;> rfl

@[simp] theorem subscripts_sketch (n : Node) :
    (n.sketch g).subscripts = g.subscripts n.subscripts := by
  rw [subscripts, Part.ofNode_sketch, Part.suffix?_part, subscripts]
  cases (Part.ofNode n).suffix? <;> rfl

end Node

/-! ## Types -/

namespace Guise

variable (g : Guise) (t : Table)

theorem constantType_lexeme (lx : Lexeme) : (g.lexeme lx).constantType = lx.constantType := by
  have hletter : Caseless fun c => c == 'D' || c == 'd' := .of_letters (by decide)
  have hany : (g.text lx.text).toList.any (fun c => c == 'D' || c == 'd') =
      lx.text.toList.any (fun c => c == 'D' || c == 'd') :=
    g.on_same (F := fun s : String => s.toList.any (fun c => c == 'D' || c == 'd'))
      (fun s => by rw [toList_toUpper, hletter.any]) lx.text
  simp only [Lexeme.constantType, kind_lexeme, text_lexeme, hany]

@[simp] theorem intrinsic?_table (x : String) : (g.table t).intrinsic? (g.text x) = t.intrinsic? x := by
  simp [Table.intrinsic?]

mutual

theorem typeOf_expression : ∀ e : Expression, (g.expression e).typeOf (g.table t) = e.typeOf t
  | .constant lx => by
    rw [expression, Expression.typeOf, Expression.typeOf, constantType_lexeme]
  | .complex _ _ => by rw [expression, Expression.typeOf, Expression.typeOf]
  | .reference lx [] => by
    rw [expression, subscriptLists, Expression.typeOf, Expression.typeOf, text_lexeme, typeOf_table]
  | .reference lx (items :: rest) => by
    have hfirst := firstType_subscripts items
    rw [expression, subscriptLists, Expression.typeOf, Expression.typeOf]
    simp only [text_lexeme, isArray_table, typeOf_table, intrinsic?_table, hfirst]
  | .emptyCall lx => by
    rw [expression, Expression.typeOf, Expression.typeOf]
    simp only [text_lexeme, typeOf_table, intrinsic?_table]
  | .group e => by rw [expression, Expression.typeOf, typeOf_expression e, Expression.typeOf]
  | .signed s e => by rw [expression, Expression.typeOf, typeOf_expression e, Expression.typeOf]
  | .negated _ _ => by rw [expression, Expression.typeOf, Expression.typeOf]
  | .binary op l r => by
    have hl := typeOf_expression l
    have hr := typeOf_expression r
    cases op <;> simp only [expression, Expression.typeOf, hl, hr]

theorem firstType_subscripts : ∀ items : List Subscript,
    Expression.firstType (g.table t) (g.subscripts items) = Expression.firstType t items
  | [] => by rw [subscripts, Expression.firstType, Expression.firstType] <;> nofun
  | .value e :: _ => by
    rw [subscripts, subscript, Expression.firstType, typeOf_expression e, Expression.firstType]
  | .span (some e) none :: _ => by
    rw [subscripts, subscript, Expression.firstType, typeOf_expression e, Expression.firstType]
  | .span (some e) (some _) :: _ => by
    rw [subscripts, subscript, Expression.firstType, typeOf_expression e, Expression.firstType]
  | .span none (some e) :: _ => by
    rw [subscripts, subscript, Expression.firstType, typeOf_expression e, Expression.firstType]
  | .span none none :: _ => by
    rw [subscripts, subscript, Expression.firstType, Expression.firstType] <;> nofun
  | .alternate _ :: _ => by
    rw [subscripts, subscript, Expression.firstType, Expression.firstType] <;> nofun

end

end Guise

end FortranJulia
