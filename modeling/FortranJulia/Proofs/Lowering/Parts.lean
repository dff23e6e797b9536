import FortranJulia.Proofs.Lowering.Conduct
import FortranJulia.Proofs.Parsing.Shapes

/-!
The parts of statements stay in their block. Every action that lowers an expression, a declaration,
a transfer of data, a jump or a call succeeds on a tree whose nodes have the children that are taken
from them, and makes a step that `Evolves` describes: what is left are the heads of loops, which
open a block that a later statement closes.
-/

namespace FortranJulia

set_option autoImplicit false

open Julia (Expr Code Line)

/-! ## Sound trees -/

/-- Does a format ask for more blanks than can be written? -/
def Format.tooWide (spec : String) : Bool :=
  match Format.read spec with
  | .ok items => (Format.printItems items).error == some .tooManyBlanks
  | .error _ => false

namespace Node

/-- Is the node a format that asks for more blanks than can be written? A format is a FORMAT
statement or a text in place of a reference to one. -/
def overflows (n : Node) : Bool :=
  match n.label? with
  | some .formatStmt => Format.tooWide (Lower.formatSpec (n.child? .fmtSpec))
  | some .formatIdentifier | some .unitIdentifier =>
    match (n.children.head?.map lexemes).getD [] with
    | [lx] => lx.kind == .charConst && Format.tooWide (Lower.innerSpec lx.textValue)
    | _ => false
  | _ => false

/-- The objects of a set of initial values. -/
def dataObjects (set : Node) : List Node :=
  (Lower.grandchildren set .dataStmtObjectList).filter fun n =>
    n.hasLabel .variableRef || n.hasLabel .dataImpliedDo

/-- The values of a set, each with its repeat count. -/
def dataValues (set : Node) : List Node :=
  (Lower.grandchildren set .dataStmtValueList).filter (·.hasLabel .dataStmtValue)

/-- All nodes of the tree have the children that are taken from them, and its formats fit unless it
is known that one does not. -/
def Sound (wide : Prop) (n : Node) : Prop :=
  ∀ m ∈ n.nodes, m.indexable ∧ (m.overflows → wide)

namespace Sound

variable {wide : Prop} {n m : Node} {l : Label}

theorem node (h : n.Sound wide) (hm : m ∈ n.nodes) : m.Sound wide :=
  fun _ hk => h _ (nodes_trans hm hk)

theorem child (h : n.Sound wide) (hm : m ∈ n.children) : m.Sound wide :=
  h.node (nodes_child hm)

theorem child? (h : n.Sound wide) (hm : n.child? l = some m) : m.Sound wide :=
  h.child (List.mem_of_find?_eq_some hm)

theorem childrenWith (h : n.Sound wide) (hm : m ∈ n.childrenWith l) : m.Sound wide :=
  h.child (List.mem_filter.1 hm).1

theorem findAll (h : n.Sound wide) (hm : m ∈ n.findAll l) : m.Sound wide :=
  h.node (List.mem_filter.1 hm).1

theorem grandchildren (h : n.Sound wide) (hm : m ∈ Lower.grandchildren n l) : m.Sound wide := by
  unfold Lower.grandchildren at hm
  cases hc : n.child? l with
  | none => simp [hc] at hm
  | some c =>
    rw [hc, Option.map_some, Option.getD_some] at hm
    exact (h.child? hc).child hm

theorem dataObjects (h : n.Sound wide) (hm : m ∈ n.dataObjects) : m.Sound wide :=
  h.grandchildren (List.mem_filter.1 hm).1

theorem dataValues (h : n.Sound wide) (hm : m ∈ n.dataValues) : m.Sound wide :=
  h.grandchildren (List.mem_filter.1 hm).1

theorem expression? (h : n.Sound wide) (hl : n.hasLabel .expr) : n.expression?.isSome := by
  have hn := (h n (nodes_self n)).1
  cases n with
  | leaf => rfl
  | inner i l cs =>
    obtain rfl : l = .expr := by simpa [hasLabel, label?] using hl
    exact (Bool.and_eq_true_iff.1 hn).2

/-- A bound or an argument starts with an expression. -/
theorem head_expression? (h : n.Sound wide)
    (hl : n.label? = some .lowerBound ∨ n.label? = some .upperBound ∨ n.label? = some .subroutineArg)
    (hm : n.children.head? = some m) : m.expression?.isSome := by
  have hn := (h n (nodes_self n)).1
  cases n with
  | leaf => cases hm
  | inner i l cs =>
    have hcs : cs.head?.all (·.expression?.isSome) := by
      rcases hl with hl | hl | hl <;> cases hl <;> exact hn
    rw [children] at hm
    rw [hm] at hcs
    exact hcs

end Sound

/-- Only the head of a loop is named like one. -/
theorem labelName_ne {n : Node} (h : n.label? ≠ some .labelDoStmt) :
    n.labelName ≠ Label.labelDoStmt.name := by
  cases n with
  | leaf i lx =>
    show lx.kind.label ≠ _
    cases lx.kind with
    | keyword k => cases k <;> decide
    | specifier k => cases k <;> decide
    | _ => decide
  | inner i l cs =>
    show l.name ≠ _
    cases l with
    | labelDoStmt => exact absurd rfl h
    | _ => decide

end Node

/-! ## Expressions -/

mutual

/-- The types of expressions depend on the scopes at hand only. -/
theorem Expression.typeOf_scopes (t : Table) (closed : List Scope) (words : List String) :
    ∀ e : Expression, e.typeOf { t with closed := closed, spellings := words } = e.typeOf t
  | .constant _ | .complex _ _ | .negated _ _ => rfl
  | .reference _ [] => rfl
  | .reference lx (items :: rest) => by
    have hfirst := Subscript.firstType_scopes t closed words items
    simp only [Expression.typeOf, hfirst]
    rfl
  | .emptyCall _ => rfl
  | .group e | .signed _ e => by
    simp only [Expression.typeOf]
    exact Expression.typeOf_scopes t closed words e
  | .binary op l r => by
    simp only [Expression.typeOf, Expression.typeOf_scopes t closed words l,
      Expression.typeOf_scopes t closed words r]

theorem Subscript.firstType_scopes (t : Table) (closed : List Scope) (words : List String) :
    ∀ items : List Subscript, Expression.firstType { t with closed := closed, spellings := words } items =
      Expression.firstType t items
  | [] | .span none none :: _ | .alternate _ :: _ => rfl
  | .value e :: _ | .span (some e) _ :: _ | .span none (some e) :: _ => by
    simp only [Expression.firstType]
    exact Expression.typeOf_scopes t closed words e

end

theorem Expression.typeOf_recorded (t : Table) (more : List String) (e : Expression) :
    e.typeOf (t.recorded more) = e.typeOf t :=
  Expression.typeOf_scopes t t.closed _ e

namespace Lower

/-- A property of actions that the small ones have of which expressions are written, and that is
kept when they are put together. What is written depends on the table only as far as it does not
spell names. -/
structure Writing (P : ∀ α : Type, Lower α → Prop) : Prop where
  pure : ∀ {α : Type} (a : α), P α (Pure.pure a)
  bind : ∀ {α β : Type} {act : Lower α} {f : α → Lower β}, P α act → (∀ a, P β (f a)) →
    P β (act >>= f)
  table : ∀ {β : Type} {f : Table → Lower β}, (∀ t more, f (t.recorded more) = f t) →
    (∀ t, P β (f t)) → P β (Lower.table >>= f)
  ident : ∀ name, P String (Lower.ident name)
  callee : ∀ name, P String (Lower.callee name)
  report : ∀ (place : Nat × Nat) {rule : String} (message : String),
    rule = Diagnostic.unresolvedReference ∨ rule = Label.sectionSubscript.name →
      P Unit (Lower.report .warning place rule message)

section Writing

variable {P : ∀ α : Type, Lower α → Prop} (h : Writing P)

include h

theorem Writing.typeOf (e : Expression) : P _ (typeOf e) := by
  refine h.table (fun t more => ?_) (fun _ => h.pure _)
  rw [Expression.typeOf_recorded]

mutual

theorem Writing.expr : ∀ e : Expression, P _ (expr e)
  | .constant _ | .complex _ _ => by
    rw [Lower.expr]
    exact h.pure _
  | .reference lx [] => by
    rw [Lower.expr]
    exact h.bind (h.ident lx.text) (fun _ => h.pure _)
  | .reference lx (items :: rest) => by
    rw [Lower.expr]
    refine h.table (fun _ _ => rfl) (fun t => ?_)
    split
    · refine h.bind (h.ident lx.text) (fun base => ?_)
      exact h.bind (Writing.subscripts items) (fun _ => Writing.indexed _ rest)
    · refine h.bind (h.callee lx.text) (fun f => ?_)
      exact h.bind (Writing.arguments items) (fun _ => Writing.indexed _ rest)
    · exact h.bind (Writing.arguments items) (fun _ => Writing.indexed _ rest)
    · refine h.bind (h.report _ _ (.inl rfl)) (fun _ => h.bind (h.callee lx.text) (fun f => ?_))
      exact h.bind (Writing.arguments items) (fun _ => Writing.indexed _ rest)
  | .emptyCall lx => by
    rw [Lower.expr]
    refine h.table (fun _ _ => rfl) (fun t => ?_)
    simp only
    split
    · exact h.pure _
    · exact h.bind (h.callee lx.text) (fun _ => h.pure _)
  | .group e | .signed _ e | .negated _ e => by
    rw [Lower.expr]
    exact h.bind (Writing.expr e) (fun _ => h.pure _)
  | .binary op l r => by
    by_cases hop : op = .power
    · subst hop
      rw [Lower.expr]
      exact h.bind (Writing.expr r) (fun _ => h.bind (Writing.expr l) (fun _ => h.pure _))
    · rw [Lower.expr]
      · refine h.bind (Writing.expr l) (fun left => h.bind (Writing.expr r) (fun right => ?_))
        exact h.bind (h.typeOf l) (fun _ => h.bind (h.typeOf r) (fun _ => h.pure _))
      · exact hop

theorem Writing.subscript : ∀ s : Subscript, P _ (subscript s)
  | .value e => by
    rw [Lower.subscript]
    exact Writing.expr e
  | .span none none | .alternate _ => by
    rw [Lower.subscript]
    exact h.pure _
  | .span none (some e) | .span (some e) none => by
    rw [Lower.subscript]
    exact h.bind (Writing.expr e) (fun _ => h.pure _)
  | .span (some a) (some b) => by
    rw [Lower.subscript]
    exact h.bind (Writing.expr a) (fun _ => h.bind (Writing.expr b) (fun _ => h.pure _))

theorem Writing.subscripts : ∀ ss : List Subscript, P _ (subscripts ss)
  | [] => by
    rw [Lower.subscripts]
    exact h.pure _
  | s :: ss => by
    rw [Lower.subscripts]
    exact h.bind (Writing.subscript s) (fun _ => h.bind (Writing.subscripts ss) (fun _ => h.pure _))

theorem Writing.arguments : ∀ ss : List Subscript, P _ (arguments ss)
  | [] => by
    rw [Lower.arguments]
    exact h.pure _
  | .alternate star :: ss => by
    rw [Lower.arguments]
    exact h.bind (h.report _ _ (.inr rfl)) (fun _ => Writing.arguments ss)
  | .value e :: ss => by
    rw [Lower.arguments]
    · exact h.bind (Writing.subscript _) (fun _ => h.bind (Writing.arguments ss) (fun _ => h.pure _))
    · simp
  | .span a b :: ss => by
    rw [Lower.arguments]
    · exact h.bind (Writing.subscript _) (fun _ => h.bind (Writing.arguments ss) (fun _ => h.pure _))
    · simp

theorem Writing.indexed : ∀ (base : Expr) (rest : List (List Subscript)), P _ (indexed base rest)
  | base, [] => by
    rw [Lower.indexed]
    exact h.pure _
  | base, items :: rest => by
    rw [Lower.indexed]
    exact h.bind (Writing.subscripts items) (fun _ => Writing.indexed _ rest)

end

end Writing

variable {wide : Prop} {i : Nat}

theorem writing_moves : Writing fun _ act => Moves wide i i act where
  pure := .pure
  bind := .bind
  table _ h := .bind .table h
  ident := moves_ident
  callee := moves_callee
  report _ _ _ h := moves_report (by rcases h with rfl | rfl <;> decide)

theorem moves_expr (e : Expression) : Moves wide i i (expr e) :=
  writing_moves.expr e

/-! ## Nodes -/

theorem moves_expressionOf {n : Node} (h : n.expression?.isSome) : Moves wide i i (expressionOf n) := by
  unfold expressionOf
  split
  · exact .pure _
  · rename_i heq
    simp [heq] at h

theorem moves_exprOf {n : Node} (h : n.expression?.isSome) : Moves wide i i (exprOf n) :=
  .bind (moves_expressionOf h) moves_expr

theorem moves_typeOfNode {n : Node} (h : n.expression?.isSome) : Moves wide i i (typeOfNode n) :=
  .bind (moves_expressionOf h) writing_moves.typeOf

theorem moves_converted {n : Node} (h : n.expression?.isSome) (target : Option TypeName) :
    Moves wide i i (converted target n) :=
  .bind (moves_typeOfNode h) (fun _ => .bind (moves_exprOf h) (fun _ => .pure _))

theorem moves_rangeOf {ns : List Node} (h : ∀ n ∈ ns, n.expression?.isSome) :
    Moves wide i i (rangeOf ns) := by
  match ns, h with
  | [], _ | [_], _ => exact .pure _
  | a :: b :: rest, h =>
    refine .bind (moves_exprOf (h a (by simp))) (fun first => ?_)
    refine .bind (moves_exprOf (h b (by simp))) (fun last => ?_)
    match rest, h with
    | [], _ => exact .pure _
    | c :: _, h => exact .bind (moves_exprOf (h c (by simp))) (fun _ => .pure _)

/-- The bounds of a loop hold expressions. -/
theorem bounds_expressions {n : Node} (h : n.Sound wide) :
    ∀ m ∈ n.childrenWith .expr, m.expression?.isSome :=
  fun _ hm => (h.childrenWith hm).expression? (Node.hasLabel_childrenWith hm)

theorem moves_target (v : Node) : Moves wide i i (target v) := by
  unfold target
  simp only
  split
  · exact .bind moves_binding (fun _ => .bind (moves_ident _) (fun _ => .pure _))
  · exact .bind (moves_ident _) (fun _ => .bind (writing_moves.indexed _ _) (fun _ => .pure _))

/-- An assignment of something to what a node names. -/
theorem moves_assigned (v : Node) (e : Expr) :
    Moves wide 0 0 (do let (b, left) ← target v; line (.assign b [left] e)) :=
  .bind (moves_target v) (fun _ => moves_line rfl rfl)

/-! ## Declarations -/

theorem moves_declare (name : String) : Moves wide i i (declare name) :=
  .modifyUnit (fun _ => rfl) (fun _ => id)

theorem moves_skipsDeclaration (name : String) : Moves wide i i (skipsDeclaration name) := by
  unfold skipsDeclaration
  refine .bind .table (fun t => .bind .unit (fun u => .bind (moves_isResult name) (fun b => ?_)))
  split
  · exact .pure _
  · split
    · exact .pure _
    · split
      · exact .bind .get (fun _ => .pure _)
      · exact .pure _

theorem moves_shapes (name : String) {ns : List Node} (h : ∀ n ∈ ns, n.Sound wide) :
    Moves wide i i (shapes name ns) := by
  induction ns with
  | nil => exact .pure _
  | cons shape rest ih =>
    have hshape := h shape (by simp)
    have hrest := ih (fun n hn => h n (by simp [hn]))
    have hbound : ∀ {l : Label} {n : Node}, l = .lowerBound ∨ l = .upperBound →
        (shape.child? l).bind (·.children.head?) = some n → n.expression?.isSome := by
      intro l n hl hn
      obtain ⟨b, hb, hhead⟩ := Option.bind_eq_some_iff.1 hn
      have hlabel : b.label? = some l := by simpa [Node.hasLabel] using Node.hasLabel_child? hb
      refine (hshape.child? hb).head_expression? ?_ hhead
      rcases hl with rfl | rfl
      · exact .inl hlabel
      · exact .inr (.inl hlabel)
    unfold shapes
    extract_lets upper
    have hupper : ∀ r, Moves wide i i (upper r) := by
      intro r
      simp only [upper]
      split
      · exact hrest
      · rename_i up hup
        split
        · exact .bind (moves_warn (by decide)) (fun _ => .pure _)
        · exact .bind (moves_exprOf (hbound (.inr rfl) hup)) (fun _ => .bind hrest (fun _ => .pure _))
    split
    · rename_i low hlow
      refine .bind (moves_exprOf (hbound (.inl rfl) hlow)) (fun e => ?_)
      split
      · exact .bind (moves_note (by decide)) hupper
      · exact hupper ()
    · exact hupper ()

theorem moves_bindZero (name : String) {spec : Option Node} (h : ∀ n, spec = some n → n.Sound wide) :
    Moves wide 0 0 (bindZero name spec) := by
  unfold bindZero
  refine .bind .unit (fun u => .bind .table (fun t => ?_))
  split
  · split
    · exact .pure _
    · refine .bind (moves_declare name) (fun _ => .bind moves_binding (fun b => ?_))
      exact .bind (moves_ident name) (fun _ => moves_line rfl rfl)
  · rename_i spec
    split
    · exact .pure _
    · refine .bind (moves_shapes name (fun n hn => (h spec rfl).childrenWith hn)) (fun dims => ?_)
      split
      · exact .pure _
      · refine .bind (moves_declare name) (fun _ => .bind (.modifyUnit (fun _ => rfl) (fun _ => id)) (fun _ => ?_))
        exact .bind moves_binding (fun _ => .bind (moves_ident name) (fun _ => moves_line rfl rfl))

theorem moves_bindAll (nameLabel : Label) {decls : List Node} (h : ∀ n ∈ decls, n.Sound wide) :
    Moves wide 0 0 (bindAll nameLabel decls) := by
  refine .forM (fun decl hdecl => .bind (moves_skipsDeclaration _) (fun b => ?_))
  split
  · exact .pure _
  · exact moves_bindZero _ (fun _ hspec => (h decl hdecl).child? hspec)

theorem moves_idents (names : List String) : Moves wide i i (idents names) := by
  induction names with
  | nil => exact .pure _
  | cons n ns ih => exact .bind (moves_ident n) (fun _ => .bind ih (fun _ => .pure _))

theorem moves_common {stmt : Node} (h : stmt.Sound wide) : Moves wide 0 0 (common stmt) := by
  refine .bind .unit (fun u => ?_)
  split
  · exact moves_bindAll _ (fun _ hn => h.findAll hn)
  · exact .bind (moves_idents _) (fun _ => moves_line rfl rfl)

theorem moves_parameters {stmt : Node} (h : stmt.Sound wide) : Moves wide 0 0 (parameters stmt) := by
  refine .bind .unit (fun u => .forM (fun constant hconstant => ?_))
  refine .bind .table (fun t => .bind (moves_ident _) (fun id => ?_))
  split
  · rename_i e he
    have hexpr := ((h.findAll hconstant).child? he).expression? (Node.hasLabel_child? he)
    refine .bind (moves_converted hexpr _) (fun value => ?_)
    exact .bind (moves_line rfl rfl) (fun _ => moves_declare _)
  · exact moves_declare _

/-! ## Assignments -/

theorem moves_statementFunction (y : Symbol) {body : Node} (h : body.expression?.isSome) :
    Moves wide 0 0 (statementFunction y body) := by
  refine .bind (moves_idents y.params) (fun params => .bind (moves_callee y.name) (fun f => ?_))
  exact .bind (moves_converted h y.type) (fun _ => moves_line rfl rfl)

theorem moves_assignment {stmt : Node} (h : stmt.Sound wide) : Moves wide 0 0 (assignment stmt) := by
  unfold assignment
  split
  · rename_i v e hv he
    have hexpr := (h.child? he).expression? (Node.hasLabel_child? he)
    refine .bind .table (fun t => ?_)
    split
    · exact moves_statementFunction _ hexpr
    · extract_lets type
      split
      · refine .bind (moves_target v) (fun _ => ?_)
        exact .bind (moves_converted hexpr _) (fun _ => moves_line rfl rfl)
      · split
        · exact moves_warn (by decide)
        · refine .bind (moves_warn (by decide)) (fun _ => .bind (moves_target v) (fun _ => ?_))
          exact .bind (moves_exprOf hexpr) (fun _ => moves_line rfl rfl)
  · exact .pure _

theorem moves_spellings (names : List String) : Moves wide i i (spellings names) := by
  induction names with
  | nil => exact .pure _
  | cons n ns ih => exact .bind (moves_spell n) (fun _ => .bind ih (fun _ => .pure _))

theorem moves_stmtFunction {stmt : Node} (h : stmt.Sound wide) : Moves wide 0 0 (stmtFunction stmt) := by
  refine .bind (moves_spell _) (fun name => .bind (moves_spellings _) (fun args => ?_))
  have hdefine : ∀ (t : Table), t.opened.isSome → t.Kin (t.modify fun s => s.update name fun y =>
      { y with
        kind := .statementFunction
        params := args
        type := y.type.or (s.implicit.typeOf y.name) }) :=
    fun t ht => .modify ht (fun s => s.frame_update name _)
  refine .bind (.modifyTable hdefine) (fun _ => .bind .table (fun t => ?_))
  split
  · rename_i y e hy he
    exact moves_statementFunction y ((h.child? he).expression? (Node.hasLabel_child? he))
  · exact .pure _

/-! ## Initial values -/

theorem moves_dataConstant {parts : List Node} (h : ∀ n ∈ parts,
    n.hasLabel .sign || n.hasLabel .namedConstantUse || n.expression?.isSome) :
    Moves wide i i (dataConstant parts) := by
  induction parts with
  | nil => exact .pure _
  | cons part rest ih =>
    have hpart := h part (by simp)
    unfold dataConstant
    split
    · exact .bind (ih (fun n hn => h n (by simp [hn]))) (fun _ => .pure _)
    · exact .bind (moves_ident _) (fun _ => .bind .table (fun _ => .pure _))
    · rename_i hsign hnamed
      have hexpr : part.expression?.isSome := by
        simp only [Node.hasLabel, Bool.or_eq_true, beq_iff_eq] at hpart
        exact hpart.resolve_left (not_or.2 ⟨hsign, hnamed⟩)
      exact .bind (moves_exprOf hexpr) (fun _ => .bind (moves_typeOfNode hexpr) (fun _ => .pure _))

theorem moves_dataRepeat (value : Node) : Moves wide i i (dataRepeat value) := by
  unfold dataRepeat
  split
  · exact .pure _
  · split
    · exact .pure _
    · exact .bind (moves_warn (by decide)) (fun _ => .pure _)

/-- The parts of the constant of a value. -/
theorem dataConstant_parts {value : Node} (h : value.Sound wide) :
    ∀ n ∈ grandchildren value .dataConstant,
      n.hasLabel .sign || n.hasLabel .namedConstantUse || n.expression?.isSome := by
  intro n hn
  unfold grandchildren at hn
  cases hc : value.child? .dataConstant with
  | none => simp [hc] at hn
  | some c =>
    rw [hc, Option.map_some, Option.getD_some] at hn
    have hcs := (h.child? hc c (nodes_self c)).1
    have hlabel := Node.hasLabel_child? hc
    cases c with
    | leaf => cases hlabel
    | inner i l cs =>
      obtain rfl : l = .dataConstant := by simpa [Node.hasLabel, Node.label?] using hlabel
      have hall : cs.all fun c =>
          c.hasLabel .sign || c.hasLabel .namedConstantUse || c.expression?.isSome := hcs
      exact List.all_eq_true.1 hall n hn

theorem moves_dataValues {values : List Node} (h : ∀ n ∈ values, n.Sound wide) :
    Moves wide i i (dataValues values) := by
  induction values with
  | nil => exact .pure _
  | cons value rest ih =>
    refine .bind (moves_dataRepeat value) (fun n => ?_)
    refine .bind (moves_dataConstant (dataConstant_parts (h value (by simp)))) (fun v => ?_)
    exact .bind (ih (fun n hn => h n (by simp [hn]))) (fun _ => .pure _)

/-- There are places for all bounds that are left. -/
theorem moves_placeBounds {bounds : List Node} : ∀ {places : List Int} {k : Nat},
    k + bounds.length ≤ places.length → Moves wide i i (placeBounds places k bounds) := by
  induction bounds with
  | nil => exact fun _ => .pure _
  | cons b rest ih =>
    intro places k h
    rw [List.length_cons] at h
    unfold placeBounds
    split
    · exact .pure _
    · rename_i v _
      rw [if_pos (show k < places.length by omega)]
      have hrest : k + 1 + rest.length ≤ (places.set k v).length := by
        rw [List.length_set]
        omega
      exact ih hrest

theorem moves_constantTrips {bounds : List Node} (h : bounds.length ≤ 3) :
    Moves wide i i (constantTrips bounds) := by
  unfold constantTrips
  split
  · exact .pure _
  · have hplaces : 0 + bounds.length ≤ [(0 : Int), 0, 1].length := by simpa using h
    refine .bind (moves_placeBounds hplaces) (fun r => ?_)
    split
    · exact .pure _
    · exact .pure _

/-- An implied loop has at most three bounds. -/
theorem dataImpliedDo_bounds {object : Node} (h : object.Sound wide)
    (hl : object.hasLabel .dataImpliedDo) : (object.childrenWith .expr).length ≤ 3 := by
  have hn := (h object (nodes_self object)).1
  cases object with
  | leaf => cases hl
  | inner i l cs =>
    obtain rfl : l = .dataImpliedDo := by simpa [Node.hasLabel, Node.label?] using hl
    have hbounds : decide ((cs.filter (·.hasLabel .expr)).length ≤ 3) = true := hn
    exact of_decide_eq_true hbounds

theorem moves_dataImpliedDo {object : Node} (h : object.Sound wide)
    (hl : object.hasLabel .dataImpliedDo) (vals : List DataValue) :
    Moves wide 0 0 (dataImpliedDo object vals) := by
  have hrefuse : Moves wide 0 0 (dataImpliedDo.refuse object) :=
    .bind (moves_warn (by decide)) (fun _ => .pure _)
  unfold dataImpliedDo
  extract_lets bounds item?
  clear_value item?
  cases item? with
  | none => exact hrefuse
  | some item =>
    refine .bind (moves_constantTrips (dataImpliedDo_bounds h hl)) (fun trips => ?_)
    split
    · exact hrefuse
    · refine .bind .table (fun t => ?_)
      refine .bind (moves_itemsUpTo (Nat.min_le_right _ _)) (fun taken => ?_)
      refine .bind (moves_ident _) (fun v => .bind (moves_rangeOf (bounds_expressions h)) (fun r => ?_))
      refine .bind (moves_open rfl rfl) (fun _ => ?_)
      refine .bind (.nested (moves_assigned item _)) (fun _ => .bind moves_close (fun _ => ?_))
      exact .pure _

theorem moves_dataObject {object : Node} (h : object.Sound wide) (vals : List DataValue)
    (isLast : Bool) : Moves wide 0 0 (dataObject object vals isLast) := by
  unfold dataObject
  split
  · rename_i hl
    exact moves_dataImpliedDo h hl vals
  · refine .bind .table (fun t => ?_)
    extract_lets type tails size n
    split
    · split
      · exact .pure _
      · split
        · refine .bind (moves_declare _) (fun _ => .bind (moves_target object) (fun left => ?_))
          exact .bind (moves_line rfl rfl) (fun _ => .pure _)
        · refine .bind (moves_target object) (fun left => ?_)
          exact .bind (moves_line rfl rfl) (fun _ => .pure _)
    · split
      · exact .bind (moves_warn (by decide)) (fun _ => .pure _)
      · have hn : n ≤ vals.length := by
          show (if size < 0 then vals.length else min size.toNat vals.length) ≤ vals.length
          split
          · exact Nat.le_refl _
          · exact Nat.min_le_right _ _
        refine .bind (moves_itemsUpTo hn) (fun items => .bind (moves_ident _) (fun base => ?_))
        exact .bind (moves_line rfl rfl) (fun _ => .pure _)

theorem moves_dataObjects {objects : List Node} (h : ∀ n ∈ objects, n.Sound wide)
    (vals : List DataValue) : ∀ taken, Moves wide 0 0 (dataObjects vals taken objects) := by
  induction objects with
  | nil => exact fun _ => .pure _
  | cons object rest ih =>
    intro taken
    refine .bind (moves_itemsFrom (Nat.min_le_right _ _)) (fun left => ?_)
    refine .bind (moves_dataObject (h object (by simp)) left _) (fun n => ?_)
    exact ih (fun n hn => h n (by simp [hn])) (taken + n)

/-- A set of initial values. -/
def dataSet (set : Node) : Lower Unit := do
  let vals ← dataValues set.dataValues
  let taken ← dataObjects vals 0 set.dataObjects
  if taken != vals.length then
    warn set Label.dataStmtSet.name
      (Decimal.digits vals.length ++ " values for " ++ Decimal.digits taken ++ " elements")

theorem dataStmt_eq (stmt : Node) :
    dataStmt stmt = (stmt.childrenWith .dataStmtSet).forM dataSet :=
  rfl

theorem moves_dataSet {set : Node} (h : set.Sound wide) : Moves wide 0 0 (dataSet set) := by
  refine .bind (moves_dataValues (fun _ hn => h.dataValues hn)) (fun vals => ?_)
  refine .bind (moves_dataObjects (fun _ hn => h.dataObjects hn) vals 0) (fun taken => ?_)
  split
  · exact moves_warn (by decide)
  · exact .pure _

theorem moves_dataStmt {stmt : Node} (h : stmt.Sound wide) : Moves wide 0 0 (dataStmt stmt) := by
  rw [dataStmt_eq]
  exact .forM (fun _ hset => moves_dataSet (h.childrenWith hset))

end Lower

end FortranJulia
