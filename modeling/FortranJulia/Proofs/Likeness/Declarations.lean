import FortranJulia.Lowering.Declaration
import FortranJulia.Proofs.Likeness.States

/-!
Expressions, declarations and initial values side by side. Each action on a tree agrees with the action
on its sketch: what it looks up is the same in the guise, it decides the same, and what it writes reads
the same.
-/

namespace FortranJulia

set_option autoImplicit false

open Julia (Expr Code Binding)

namespace Lower

variable {g : Guise}

/-! ## Expressions -/

theorem refForm_guise (t : Table) (x : String) (items : List Subscript) :
    refForm (g.table t) (g.text x) (g.subscripts items) = refForm t x items := by
  simp [refForm]

theorem agrees_typeOf (e : Expression) : Agrees g [] Eq (typeOf e) (typeOf (g.expression e)) :=
  agrees_table.bind fun _ _ ht => .pure (by rw [ht, g.typeOf_expression])

/-- Expressions that read the same. -/
abbrev Reads (g : Guise) (act act' : Lower Expr) : Prop :=
  Agrees g [] (Expr.Alike g) act act'

mutual

theorem agrees_expr : ∀ e : Expression, Reads g (expr e) (expr (g.expression e))
  | .constant lx => by
    rw [Guise.expression, expr, expr]
    exact .pure (g.juliaConstant_lexeme lx)
  | .complex re im => by
    rw [Guise.expression, expr, expr]
    exact .pure (.call rfl (.cons (g.julia_component re) (.cons (g.julia_component im) .nil)))
  | .reference lx [] => by
    rw [Guise.expression, Guise.subscriptLists, expr, expr]
    exact (agrees_ident lx.text).bind fun w w' hw => .pure (.name (by simp [hw]))
  | .reference lx (items :: rest) => by
    have hargs := agrees_arguments items
    have hcall : Reads g
        (do let f ← callee lx.text; let args ← arguments items; indexed (.call f args) rest)
        (do let f ← callee (g.text lx.text); let args ← arguments (g.subscripts items)
            indexed (.call f args) (g.subscriptLists rest)) := by
      refine (agrees_callee lx.text).bind fun f f' hf => hargs.bind fun args args' hargs => ?_
      exact agrees_indexed rest (.call (by simp [hf]) hargs)
    rw [Guise.expression, Guise.subscriptLists, expr, expr]
    refine agrees_table.bind ?_
    rintro t _ rfl
    rw [Guise.text_lexeme, refForm_guise]
    cases refForm t lx.text items with
    | index =>
      refine (agrees_ident lx.text).bind fun w w' hw => ?_
      refine (agrees_subscripts items).bind fun subs subs' hsubs => ?_
      exact agrees_indexed rest (.index (.name (by simp [hw])) hsubs)
    | call => exact hcall
    | intrinsic f => exact hargs.bind fun args args' hargs => agrees_indexed rest (.emit f hargs)
    | unresolved => exact (agrees_report _ (by decide) rfl (by simp)).bind fun _ _ _ => hcall
  | .emptyCall lx => by
    rw [Guise.expression, expr, expr]
    refine agrees_table.bind ?_
    rintro t _ rfl
    simp only [Guise.text_lexeme, Guise.procedure_table, Guise.lookup?_text]
    split
    · exact .pure (.refl _)
    · exact (agrees_callee lx.text).bind fun w w' hw => .pure (.call (by simp [hw]) .nil)
  | .group e => by
    rw [Guise.expression, expr, expr]
    exact (agrees_expr e).bind fun _ _ hj => .pure (.paren hj)
  | .signed s e => by
    rw [Guise.expression, expr, expr]
    exact (agrees_expr e).bind fun _ _ hj => .pure (.signed (by simp) hj)
  | .negated n e => by
    rw [Guise.expression, expr, expr]
    refine (agrees_expr e).bind fun _ _ hj => .pure (.negated n ?_)
    rw [Guise.isPrimary_expression]
    split
    · exact hj
    · exact .paren hj
  | .binary op l r => by
    have hl := agrees_expr l
    have hr := agrees_expr r
    by_cases hop : op = .power
    · subst hop
      rw [Guise.expression, expr, expr]
      exact hr.bind fun _ _ hk => hl.bind fun _ _ hj => .pure (.operation _ hj hk)
    · rw [Guise.expression, expr, expr]
      · refine hl.bind fun _ _ hj => hr.bind fun _ _ hk => ?_
        refine (agrees_typeOf l).bind ?_
        rintro leftType _ rfl
        refine (agrees_typeOf r).bind ?_
        rintro rightType _ rfl
        exact .pure (.combine op leftType rightType hj hk)
      · exact hop
      · exact hop

theorem agrees_subscript : ∀ s : Subscript, Reads g (subscript s) (subscript (g.subscript s))
  | .value e => by
    rw [Guise.subscript, subscript, subscript]
    exact agrees_expr e
  | .span none none => by
    rw [Guise.subscript, subscript]
    exact .pure (.refl _)
  | .alternate star => by
    rw [Guise.subscript, subscript, subscript]
    exact .pure (.refl _)
  | .span none (some e) => by
    rw [Guise.subscript, subscript, subscript]
    exact (agrees_expr e).bind fun _ _ hj => .pure (.range (.cons (.refl _) (.cons hj .nil)))
  | .span (some e) none => by
    rw [Guise.subscript, subscript, subscript]
    exact (agrees_expr e).bind fun _ _ hj => .pure (.range (.cons hj (.cons (.refl _) .nil)))
  | .span (some a) (some b) => by
    rw [Guise.subscript, subscript, subscript]
    refine (agrees_expr a).bind fun _ _ hj => (agrees_expr b).bind fun _ _ hk => ?_
    exact .pure (.range (.cons hj (.cons hk .nil)))

theorem agrees_subscripts : ∀ items : List Subscript,
    Agrees g [] (List.Forall₂ (Expr.Alike g)) (subscripts items) (subscripts (g.subscripts items))
  | [] => by
    rw [Guise.subscripts, subscripts]
    exact .pure .nil
  | s :: ss => by
    rw [Guise.subscripts, subscripts, subscripts]
    exact (agrees_subscript s).bind fun _ _ hj => (agrees_subscripts ss).bind fun _ _ hjs =>
      .pure (.cons hj hjs)

theorem agrees_arguments : ∀ items : List Subscript,
    Agrees g [] (List.Forall₂ (Expr.Alike g)) (arguments items) (arguments (g.subscripts items))
  | [] => by
    rw [Guise.subscripts, arguments]
    exact .pure .nil
  | .alternate star :: ss => by
    rw [Guise.subscripts, Guise.subscript, arguments, arguments]
    exact (agrees_report _ (by decide) rfl rfl).bind fun _ _ _ => agrees_arguments ss
  | .value e :: ss => by
    have hhead : Reads g _ _ := agrees_subscript (.value e)
    rw [Guise.subscript] at hhead
    rw [Guise.subscripts, Guise.subscript, arguments, arguments]
    · exact hhead.bind fun _ _ hj => (agrees_arguments ss).bind fun _ _ hjs => .pure (.cons hj hjs)
    all_goals simp
  | .span a b :: ss => by
    have hhead : Reads g _ _ := agrees_subscript (.span a b)
    have hspan : ∃ c d, g.subscript (.span a b) = .span c d := by
      rcases a with _ | a <;> rcases b with _ | b <;> exact ⟨_, _, by rw [Guise.subscript]⟩
    obtain ⟨c, d, hspan⟩ := hspan
    rw [Guise.subscripts, hspan, arguments, arguments, ← hspan]
    · exact hhead.bind fun _ _ hj => (agrees_arguments ss).bind fun _ _ hjs => .pure (.cons hj hjs)
    all_goals simp

theorem agrees_indexed : ∀ {j j' : Expr} (rest : List (List Subscript)), j.Alike g j' →
    Reads g (indexed j rest) (indexed j' (g.subscriptLists rest))
  | j, j', [], hj => by
    rw [Guise.subscriptLists, indexed, indexed]
    exact .pure hj
  | j, j', items :: rest, hj => by
    rw [Guise.subscriptLists, indexed, indexed]
    exact (agrees_subscripts items).bind fun _ _ hsubs => agrees_indexed rest (.index hj hsubs)

end

/-! ## Nodes -/

theorem agrees_expressionOf (n : Node) :
    Agrees g [] (fun e e' => e' = g.expression e) (expressionOf n) (expressionOf (n.sketch g)) := by
  unfold expressionOf
  rw [Node.expression?_sketch]
  cases n.expression? with
  | none => exact .throw _
  | some e => exact .pure rfl

theorem agrees_exprOf (n : Node) : Reads g (exprOf n) (exprOf (n.sketch g)) := by
  refine (agrees_expressionOf n).bind ?_
  rintro e _ rfl
  exact agrees_expr e

theorem agrees_typeOfNode (n : Node) : Agrees g [] Eq (typeOfNode n) (typeOfNode (n.sketch g)) := by
  refine (agrees_expressionOf n).bind ?_
  rintro e _ rfl
  exact agrees_typeOf e

theorem agrees_converted (target : Option TypeName) (n : Node) :
    Reads g (converted target n) (converted target (n.sketch g)) := by
  refine (agrees_typeOfNode n).bind ?_
  rintro source _ rfl
  exact (agrees_exprOf n).bind fun _ _ hj => .pure (hj.convertValue target source)

theorem agrees_rangeOf (ns : List Node) :
    Reads g (rangeOf ns) (rangeOf (ns.map (Node.sketch g))) := by
  match ns with
  | [] | [_] => exact .pure (.refl _)
  | [a, b] =>
    exact (agrees_exprOf a).bind fun _ _ hj => (agrees_exprOf b).bind fun _ _ hk =>
      .pure (.range (.cons hj (.cons hk .nil)))
  | a :: b :: c :: _ =>
    refine (agrees_exprOf a).bind fun _ _ hj => (agrees_exprOf b).bind fun _ _ hk => ?_
    exact (agrees_exprOf c).bind fun _ _ hl => .pure (.range (.cons hj (.cons hl (.cons hk .nil))))

theorem childText_sketch {n : Node} {l : Label} (h : n.Phrase) (hl : l ≠ .endOfStmt) :
    childText (n.sketch g) l = g.text (childText n l) := by
  unfold childText
  rw [Node.child?_sketch]
  cases hm : n.child? l with
  | none => exact g.text_empty.symm
  | some m =>
    have hphrase := h.child? hm hl
    exact Node.text_sketch g hphrase.orderly hphrase.inside

/-- The children of a phrase that is no end of a statement. -/
theorem grandchildren_sketch {n : Node} {l : Label} (hl : l ≠ .endOfStmt) :
    grandchildren (n.sketch g) l = (grandchildren n l).map (Node.sketch g) := by
  unfold grandchildren
  rw [Node.child?_sketch]
  cases hm : n.child? l with
  | none => rfl
  | some m => exact Node.children_sketch g m (Node.not_end_of_label (Node.hasLabel_child? hm) hl)

theorem orderly_grandchildren {n m : Node} {l : Label} (h : n.Orderly) (hm : m ∈ grandchildren n l) :
    m.Orderly := by
  unfold grandchildren at hm
  cases hc : n.child? l with
  | none => simp [hc] at hm
  | some c =>
    rw [hc] at hm
    exact (h.child? hc).child hm

theorem tails_sketch (g : Guise) (v : Node) (l : Label) : ((v.sketch g).childrenWith l).map (·.subscripts) =
    g.subscriptLists ((v.childrenWith l).map (·.subscripts)) := by
  rw [Node.childrenWith_sketch]
  induction v.childrenWith l with
  | nil => rfl
  | cons tail tails ih =>
    rw [List.map_cons, List.map_cons, ih, List.map_cons, Node.subscripts_sketch, Guise.subscriptLists]

/-- How a target is bound and what it is. -/
abbrev TargetAlike (g : Guise) (r r' : Binding × Expr) : Prop :=
  r'.1 = r.1 ∧ r.2.Alike g r'.2

theorem agrees_target {v : Node} (h : v.Phrase) :
    Agrees g [] (TargetAlike g) (target v) (target (v.sketch g)) := by
  have htails := tails_sketch g v .complexDataRefTail
  unfold target
  rw [childText_sketch h (by decide)]
  have hname : Agrees g [] _ _ _ := agrees_ident (childText v .variableName)
  cases hv : v.childrenWith .complexDataRefTail with
  | nil =>
    rw [Node.childrenWith_sketch, hv]
    refine agrees_binding.bind ?_
    rintro b _ rfl
    exact hname.bind fun w w' hw => .pure ⟨rfl, .name (by simp [hw])⟩
  | cons tail tails =>
    rw [hv] at htails
    rw [Node.childrenWith_sketch, hv] at htails ⊢
    refine hname.bind fun w w' hw => ?_
    simp only [htails]
    exact (agrees_indexed _ (.name (by simp [hw]))).bind fun _ _ hj => .pure ⟨rfl, hj⟩

/-- An assignment to what a phrase names. -/
theorem agrees_assigned {v : Node} (h : v.Phrase) {j j' : Expr} (hj : j.Alike g j') :
    Agrees g [] Eq (do let (b, left) ← target v; line (.assign b [left] j))
      (do let (b, left) ← target (v.sketch g); line (.assign b [left] j')) := by
  refine (agrees_target h).bind ?_
  rintro ⟨b, left⟩ ⟨b', left'⟩ ⟨hb, hleft⟩
  obtain rfl : b = b' := hb.symm
  exact agrees_line rfl (.assign b (.cons hleft .nil) hj)

/-- An assignment of what an expression makes to what a phrase names. -/
theorem agrees_stored {v : Node} (h : v.Phrase) {act act' : Lower Expr} (hact : Reads g act act') :
    Agrees g [] Eq (do let (b, left) ← target v; line (.assign b [left] (← act)))
      (do let (b, left) ← target (v.sketch g); line (.assign b [left] (← act'))) := by
  refine (agrees_target h).bind ?_
  rintro ⟨b, left⟩ ⟨b', left'⟩ ⟨hb, hleft⟩
  obtain rfl : b = b' := hb.symm
  exact hact.bind fun _ _ hj => agrees_line rfl (.assign b (.cons hleft .nil) hj)

/-! ## Declarations -/

theorem agrees_declare (name : String) : Agrees g [] Eq (declare name) (declare (g.text name)) :=
  agrees_modifyUnit fun u u' hu => { hu with declared := by simp [hu.declared] }

theorem agrees_skipsDeclaration (name : String) :
    Agrees g [] Eq (skipsDeclaration name) (skipsDeclaration (g.text name)) := by
  unfold skipsDeclaration
  refine agrees_table.bind ?_
  rintro t _ rfl
  refine agrees_unit.bind fun u u' hu => (agrees_isResult name).bind ?_
  rintro isResult _ rfl
  simp only [Guise.current_table, Guise.isFormal_scope, Guise.nameKey_text, hu.params,
    Guise.isArray_table, Guise.procedure_table, hu.common, hu.isGlobal, hu.kind]
  refine .ite Iff.rfl (fun _ => .pure rfl) fun _ => .ite Iff.rfl (fun _ => .pure rfl) fun _ => ?_
  refine .ite Iff.rfl (fun _ => ?_) fun _ => .pure rfl
  exact Agrees.get.bind fun s s' hs => .pure (by rw [hs.blockData])

/-- What a phrase inside another begins with. -/
theorem bound_sketch (g : Guise) (n : Node) {l : Label} (hl : l ≠ .endOfStmt) :
    ((n.sketch g).child? l).bind (·.children.head?) =
      ((n.child? l).bind (·.children.head?)).map (Node.sketch g) := by
  rw [Node.child?_sketch]
  cases hm : n.child? l with
  | none => rfl
  | some m =>
    simp only [Option.map_some, Option.bind_some, List.head?_map,
      Node.children_sketch g m (Node.not_end_of_label (Node.hasLabel_child? hm) hl)]

/-- Only one text without letters reads like it. -/
theorem beq_alike {s s' t : String} (ht : Text.Letterless t) (h : g.text s = g.text s') :
    (s' == t) = (s == t) := by
  rw [Bool.eq_iff_iff, beq_iff_eq, beq_iff_eq]
  constructor
  · rintro rfl
    exact g.eq_of_text ht h
  · rintro rfl
    exact g.eq_of_text ht h.symm

theorem agrees_shapes (name : String) {ns : List Node} (h : ∀ n ∈ ns, n.Phrase) :
    Agrees g [] (Option.Rel (List.Forall₂ (Expr.Alike g))) (shapes name ns)
      (shapes (g.text name) (ns.map (Node.sketch g))) := by
  induction ns with
  | nil => exact .pure (.some .nil)
  | cons shape rest ih =>
    have hshape := h shape (by simp)
    have hrest := ih fun n hn => h n (by simp [hn])
    have hlower := bound_sketch g shape (show Label.lowerBound ≠ .endOfStmt by decide)
    have hupper := bound_sketch g shape (show Label.upperBound ≠ .endOfStmt by decide)
    rw [List.map_cons]
    unfold shapes
    extract_lets upper upper'
    have hbounds : ∀ r, Agrees g [] (Option.Rel (List.Forall₂ (Expr.Alike g))) (upper r) (upper' r) := by
      intro r
      simp only [upper, upper', hupper]
      cases (shape.child? .upperBound).bind (·.children.head?) with
      | none => exact hrest
      | some up =>
        simp only [Option.map_some, Node.hasKind_sketch]
        refine .ite Iff.rfl (fun _ => ?_) fun _ => ?_
        · exact (agrees_warn (by decide) (by simp) hshape).bind fun _ _ _ => .pure .none
        · refine (agrees_exprOf up).bind fun j j' hj => hrest.bind fun js js' hjs => .pure ?_
          cases hjs with
          | none => exact .none
          | some hjs => exact .some (.cons hj hjs)
    rw [hlower]
    cases (shape.child? .lowerBound).bind (·.children.head?) with
    | none => exact hbounds ()
    | some low =>
      refine (agrees_exprOf low).bind fun j j' hj => ?_
      refine .ite (by rw [bne, beq_alike (by decide) hj.same, bne]) (fun _ => ?_) fun _ => hbounds ()
      exact (agrees_note (by decide) (by simp [hj.same]) hshape).bind fun r _ _ => hbounds r

theorem agrees_bindZero (name : String) {spec : Option Node} (h : ∀ n ∈ spec, n.Phrase) :
    Agrees g [] Eq (bindZero name spec) (bindZero (g.text name) (spec.map (Node.sketch g))) := by
  have hname : Agrees g [] _ _ _ := agrees_ident name
  unfold bindZero
  refine agrees_unit.bind fun u u' hu => agrees_table.bind ?_
  rintro t _ rfl
  simp only [Guise.nameKey_text, Guise.typeOf_table, hu.declared, hu.arrays]
  cases spec with
  | none =>
    refine .ite Iff.rfl (fun _ => .pure rfl) fun _ => (agrees_declare name).bind fun _ _ _ => ?_
    refine agrees_binding.bind ?_
    rintro b _ rfl
    exact hname.bind fun w w' hw =>
      agrees_line rfl (.assign b (.cons (.name (by simp [hw])) .nil) (.refl _))
  | some spec =>
    refine .ite Iff.rfl (fun _ => .pure rfl) fun _ => ?_
    have hshapes : Agrees g [] _ _ _ := agrees_shapes name
      (fun n hn => (h spec rfl).childrenWith hn (show Label.explicitShapeSpec ≠ .endOfStmt by decide))
    rw [Node.childrenWith_sketch]
    refine hshapes.bind fun dims dims' hdims => ?_
    cases hdims with
    | none => exact .pure rfl
    | some hdims =>
      have harrays : Agrees g [] Eq
          (modifyUnit fun u => { u with arrays := nameKey name :: u.arrays })
          (modifyUnit fun u => { u with arrays := nameKey name :: u.arrays }) :=
        agrees_modifyUnit fun u u' hu => { hu with arrays := by simp [hu.arrays] }
      refine (agrees_declare name).bind fun _ _ _ => harrays.bind fun _ _ _ => agrees_binding.bind ?_
      rintro b _ rfl
      refine hname.bind fun w w' hw => agrees_line rfl (.assign b (.cons (.name (by simp [hw])) .nil) ?_)
      exact .call rfl (.cons (.refl _) hdims)

theorem agrees_bindAll {l : Label} (hl : l ≠ .endOfStmt) {decls : List Node} (h : ∀ n ∈ decls, n.Phrase) :
    Agrees g [] Eq (bindAll l decls) (bindAll l (decls.map (Node.sketch g))) := by
  refine .forM_silent fun decl hdecl => ?_
  have hphrase := h decl hdecl
  simp only [childText_sketch hphrase hl, Node.child?_sketch]
  refine (agrees_skipsDeclaration _).bind ?_
  rintro skips _ rfl
  refine .ite Iff.rfl (fun _ => .pure rfl) fun _ => ?_
  exact agrees_bindZero _ fun spec hspec => hphrase.child? hspec (by decide)

theorem agrees_idents (names : List String) :
    Agrees g [] (fun ws ws' => ws' = ws.map g.text) (idents names) (idents (names.map g.text)) := by
  induction names with
  | nil => exact .pure rfl
  | cons name names ih =>
    exact (agrees_ident name).bind fun w w' hw => ih.bind fun ws ws' hws =>
      .pure (by rw [hw, hws, List.map_cons])

theorem agrees_common {stmt : Node} (h : stmt.Phrase) :
    Agrees g [] Eq (common stmt) (common (stmt.sketch g)) := by
  have hobjects : ∀ n ∈ stmt.findAll .commonBlockObject, n.Phrase :=
    fun n hn => h.findAll hn (by decide)
  have hnames : ((stmt.findAll .commonBlockObject).map (Node.sketch g)).map (childText · .variableName) =
      ((stmt.findAll .commonBlockObject).map (childText · .variableName)).map g.text := by
    rw [List.map_map, List.map_map]
    exact List.map_congr_left fun n hn => childText_sketch (hobjects n hn) (by decide)
  unfold common
  simp only [Node.findAll_sketch, hnames]
  refine agrees_unit.bind fun u u' hu => ?_
  rw [hu.isGlobal]
  refine .ite Iff.rfl (fun _ => agrees_bindAll (by decide) hobjects) fun _ => ?_
  refine (agrees_idents _).bind ?_
  rintro ws _ rfl
  exact agrees_line rfl .globals

theorem agrees_parameters {stmt : Node} (h : stmt.Phrase) :
    Agrees g [] Eq (parameters stmt) (parameters (stmt.sketch g)) := by
  unfold parameters
  refine agrees_unit.bind fun u u' hu => ?_
  simp only [hu.isGlobal, Node.findAll_sketch]
  refine .forM_silent fun constant hconstant => ?_
  have hphrase := h.findAll hconstant (by decide)
  rw [childText_sketch hphrase (by decide), Node.child?_sketch]
  refine agrees_table.bind ?_
  rintro t _ rfl
  rw [Guise.typeOf_table]
  refine (agrees_ident _).bind fun w w' hw => ?_
  cases constant.child? .expr with
  | none => exact agrees_declare _
  | some e =>
    refine (agrees_converted _ e).bind fun j j' hj => ?_
    refine (agrees_line rfl ?_).bind fun _ _ _ => agrees_declare _
    exact .assign _ (.cons (.name (by simp [hw])) .nil) hj

/-! ## Assignments -/

theorem agrees_statementFunction (y : Symbol) (body : Node) :
    Agrees g [] Eq (statementFunction y body) (statementFunction (g.symbol y) (body.sketch g)) := by
  unfold statementFunction
  rw [Guise.params_symbol, Guise.name_symbol, Guise.type_symbol]
  refine (agrees_idents y.params).bind ?_
  rintro params _ rfl
  refine (agrees_callee y.name).bind ?_
  rintro f _ rfl
  exact (agrees_converted y.type body).bind fun j j' hj => agrees_line rfl (.shortFunction hj)

theorem agrees_assignment {stmt : Node} (h : stmt.Phrase) :
    Agrees g [] Eq (assignment stmt) (assignment (stmt.sketch g)) := by
  unfold assignment
  rw [Node.child?_sketch, Node.child?_sketch]
  cases hv : stmt.child? .variableRef with
  | none => exact .pure rfl
  | some v =>
    cases stmt.child? .expr with
    | none => exact .pure rfl
    | some e =>
      have hphrase := h.child? hv (by decide)
      have hleft : Agrees g [] _ _ _ := agrees_target hphrase
      have htails : ((v.childrenWith .complexDataRefTail).map (Node.sketch g)).isEmpty =
          (v.childrenWith .complexDataRefTail).isEmpty := List.isEmpty_map
      have hspan : (((v.childrenWith .complexDataRefTail).map (Node.sketch g)).head?.map
          (·.subscripts)).any (·.any (·.isSpan)) =
          ((v.childrenWith .complexDataRefTail).head?.map (·.subscripts)).any (·.any (·.isSpan)) := by
        rw [List.head?_map]
        cases (v.childrenWith .complexDataRefTail).head? <;> simp
      simp only [Option.map_some, Node.childrenWith_sketch, childText_sketch hphrase
        (show Label.variableName ≠ .endOfStmt by decide), htails, hspan]
      refine agrees_table.bind ?_
      rintro t _ rfl
      have hfilter : ((g.table t).current.get? (g.text (childText v .variableName))).filter
          (fun y => y.kind == .statementFunction && !(v.childrenWith .complexDataRefTail).isEmpty) =
          ((t.current.get? (childText v .variableName)).filter fun y =>
            y.kind == .statementFunction && !(v.childrenWith .complexDataRefTail).isEmpty).map
              g.symbol := by
        rw [Guise.current_table, Guise.get?_scope, Option.filter_map]
        congr 2
        funext y
        simp
      rw [hfilter]
      cases (t.current.get? (childText v .variableName)).filter _ with
      | some y => exact agrees_statementFunction y e
      | none =>
        simp only [Option.map_none, Guise.typeOf_table, Guise.isArray_table]
        refine .ite Iff.rfl (fun _ => agrees_stored hphrase (agrees_converted _ e)) fun _ => ?_
        refine .ite Iff.rfl (fun _ => agrees_warn (by decide) (by simp) h) fun _ => ?_
        exact (agrees_warn (by decide) (by simp) h).bind fun _ _ _ => agrees_stored hphrase (agrees_exprOf e)

theorem agrees_spellings (names : List String) :
    Agrees g [] (fun ws ws' => ws' = ws.map g.text) (spellings names) (spellings (names.map g.text)) := by
  induction names with
  | nil => exact .pure rfl
  | cons name names ih =>
    exact (agrees_spell name).bind fun w w' hw => ih.bind fun ws ws' hws =>
      .pure (by rw [hw, hws, List.map_cons])

theorem agrees_stmtFunction {stmt : Node} (h : stmt.Phrase) :
    Agrees g [] Eq (stmtFunction stmt) (stmtFunction (stmt.sketch g)) := by
  have hargs : ((stmt.sketch g).findAll .sfDummyArgName).map (·.text) =
      ((stmt.findAll .sfDummyArgName).map (·.text)).map g.text := by
    rw [Node.findAll_sketch, List.map_map, List.map_map]
    refine List.map_congr_left fun n hn => ?_
    have hphrase := h.findAll hn (by decide)
    exact Node.text_sketch g hphrase.orderly hphrase.inside
  unfold stmtFunction
  rw [childText_sketch h (by decide), hargs, Node.child?_sketch]
  refine (agrees_spell _).bind ?_
  rintro name _ rfl
  refine (agrees_spellings _).bind ?_
  rintro args _ rfl
  refine (agrees_modifyTable fun t => g.modify_table t fun s => g.update_scope s name fun y => ?_).bind
    fun _ _ _ => agrees_table.bind ?_
  · simp only [Guise.implicit_scope, Guise.name_symbol, Guise.typeOf_implicit, Guise.type_symbol]
    rw [← g.name_symbol]
    exact g.with_arguments y args _
  · rintro t _ rfl
    rw [Guise.current_table, Guise.get?_scope]
    cases t.current.get? name with
    | none => exact .pure rfl
    | some y =>
      cases stmt.child? .expr with
      | none => exact .pure rfl
      | some e => exact agrees_statementFunction y e

/-! ## Initial values -/

/-- Values of one type that read the same. -/
structure DataValue.Alike (g : Guise) (v v' : DataValue) : Prop where
  expr : v.expr.Alike g v'.expr
  type : v'.type = v.type

theorem DataValue.Alike.convertedTo {v v' : DataValue} (h : v.Alike g v') (type : Option TypeName) :
    (v.convertedTo type).Alike g (v'.convertedTo type) := by
  unfold DataValue.convertedTo
  rw [h.type]
  exact h.expr.convertValue type v.type

theorem DataValue.Alike.list {vs vs' : List DataValue} (h : List.Forall₂ (DataValue.Alike g) vs vs')
    (type : Option TypeName) : List.Forall₂ (Expr.Alike g) (vs.map (·.convertedTo type))
      (vs'.map (·.convertedTo type)) := by
  induction h with
  | nil => exact .nil
  | cons hv _ ih => exact .cons (hv.convertedTo type) ih

theorem agrees_dataConstant {parts : List Node} (h : ∀ n ∈ parts, n.Orderly) :
    Agrees g [] (DataValue.Alike g) (dataConstant parts) (dataConstant (parts.map (Node.sketch g))) := by
  induction parts with
  | nil => exact .pure ⟨.refl _, rfl⟩
  | cons part rest ih =>
    have htext : ∀ l, part.label? = some l → l ≠ .endOfStmt → (part.sketch g).text = g.text part.text :=
      fun l hl hne => Node.text_sketch g (h part (by simp))
        (Node.not_end_of_label (l := l) (by simp [Node.hasLabel, hl]) hne)
    rw [List.map_cons]
    unfold dataConstant
    rw [Node.label?_sketch]
    split
    · rename_i hl
      rw [htext _ hl (by decide)]
      refine (ih fun n hn => h n (by simp [hn])).bind fun v v' hv => .pure ⟨?_, hv.type⟩
      exact .signed (by simp) hv.expr
    · rename_i hl
      rw [htext _ hl (by decide)]
      refine (agrees_ident part.text).bind fun w w' hw => agrees_table.bind ?_
      rintro t _ rfl
      exact .pure ⟨.name (by simp [hw]), g.typeOf_table part.text t⟩
    · exact (agrees_exprOf part).bind fun j j' hj => (agrees_typeOfNode part).bind fun type type' ht =>
        .pure ⟨hj, ht.symm⟩

theorem agrees_dataRepeat {value : Node} (h : value.Phrase) :
    Agrees g [] Eq (dataRepeat value) (dataRepeat (value.sketch g)) := by
  unfold dataRepeat
  rw [Node.child?_sketch]
  cases hr : value.child? .dataRepeat with
  | none => exact .pure rfl
  | some r =>
    have hphrase := h.child? hr (by decide)
    have hvalue : (((r.sketch g).children.head?.bind (·.lexeme?)).bind (·.value)) =
        ((r.children.head?.bind (·.lexeme?)).bind (·.value)).map g.literal := by
      rw [Node.children_sketch g r hphrase.inside, List.head?_map]
      cases r.children.head? with
      | none => rfl
      | some n =>
        simp only [Option.map_some, Option.bind_some, Node.lexeme?_sketch]
        cases n.lexeme? <;> rfl
    have hwarn : Agrees g [] Eq
        (do warn r Label.dataRepeat.name ("repeat count " ++ r.text ++ " is not a literal, used once")
            return 1)
        (do warn (r.sketch g) Label.dataRepeat.name
              ("repeat count " ++ (r.sketch g).text ++ " is not a literal, used once")
            return 1) := by
      rw [Node.text_sketch g hphrase.orderly hphrase.inside]
      exact (agrees_warn (by decide) (by simp) hphrase).bind fun _ _ _ => .pure rfl
    simp only [Option.map_some, hvalue]
    rcases (r.children.head?.bind (·.lexeme?)).bind (·.value) with _ | _ | _ | _ | _
    all_goals simp only [Option.map_none, Option.map_some, Guise.literal_int, Guise.literal_real,
      Guise.literal_text, Guise.literal_truth]
    · exact hwarn
    · exact .pure rfl
    all_goals exact hwarn

theorem agrees_dataValues {values : List Node} (h : ∀ n ∈ values, n.Phrase) :
    Agrees g [] (List.Forall₂ (DataValue.Alike g)) (dataValues values)
      (dataValues (values.map (Node.sketch g))) := by
  induction values with
  | nil => exact .pure .nil
  | cons value rest ih =>
    have hvalue := h value (by simp)
    rw [List.map_cons]
    unfold dataValues
    rw [grandchildren_sketch (by decide)]
    refine (agrees_dataRepeat hvalue).bind ?_
    rintro count _ rfl
    refine (agrees_dataConstant fun n hn => orderly_grandchildren hvalue.orderly hn).bind
      fun v v' hv => ?_
    refine (ih fun n hn => h n (by simp [hn])).bind fun vs vs' hvs => .pure ?_
    refine List.rel_append ?_ hvs
    induction count with
    | zero => exact .nil
    | succ count ih => exact .cons hv ih

theorem constantOf_lexeme (sign : Int) (lx : Lexeme) :
    constantOf sign (g.lexeme lx) = constantOf sign lx := by
  unfold constantOf
  rw [Guise.value_lexeme]
  rcases lx.value with _ | _ | _ | _ | _ <;> simp

theorem constantBound?_sketch {n : Node} (h : n.Tight) :
    constantBound? (n.sketch g) = constantBound? n := by
  unfold constantBound?
  rw [Node.lexemes_sketch g h]
  rcases n.lexemes with _ | ⟨a, _ | ⟨b, _ | ⟨c, rest⟩⟩⟩
  · rfl
  · exact constantOf_lexeme 1 a
  · simp only [List.map_cons, List.map_nil, Guise.kind_lexeme, constantOf_lexeme]
  · rfl

theorem agrees_placeBounds {bounds : List Node} (h : ∀ n ∈ bounds, n.Tight) (places : List Int)
    (k : Nat) :
    Agrees g [] Eq (placeBounds places k bounds) (placeBounds places k (bounds.map (Node.sketch g))) := by
  induction bounds generalizing places k with
  | nil => exact .pure rfl
  | cons b rest ih =>
    have hrest := ih fun n hn => h n (by simp [hn])
    rw [List.map_cons]
    unfold placeBounds
    rw [constantBound?_sketch (h b (by simp))]
    cases constantBound? b with
    | none => exact .pure rfl
    | some v => exact .ite Iff.rfl (fun _ => hrest _ _) fun _ => .throw _

theorem agrees_constantTrips {bounds : List Node} (h : ∀ n ∈ bounds, n.Tight) :
    Agrees g [] Eq (constantTrips bounds) (constantTrips (bounds.map (Node.sketch g))) := by
  unfold constantTrips
  rw [List.length_map]
  refine .ite Iff.rfl (fun _ => .pure rfl) fun _ => (agrees_placeBounds h _ _).bind ?_
  rintro found _ rfl
  split <;> exact .pure rfl

theorem arraySize_guise (t : Table) (name : String) : arraySize (g.table t) (g.text name) = arraySize t name := by
  have hint : ∀ s, Decimal.int? (g.text s) = Decimal.int? s := fun s => g.on_same Decimal.int?_toUpper s
  have hdims : ∀ dims : List String, (dims.map g.text).mapM Decimal.int? = dims.mapM Decimal.int? := by
    intro dims
    induction dims with
    | nil => rfl
    | cons d dims ih => rw [List.map_cons, List.mapM_cons, List.mapM_cons, hint, ih]
  unfold arraySize
  rw [Guise.current_table, Guise.get?_scope]
  cases t.current.get? name with
  | none => rfl
  | some y => simp only [Option.map_some, Guise.dims_symbol, List.isEmpty_map, hdims]

theorem agrees_dataImpliedDo {object : Node} (h : object.Phrase) {vals vals' : List DataValue}
    (hvals : List.Forall₂ (DataValue.Alike g) vals vals') :
    Agrees g [] Eq (dataImpliedDo object vals) (dataImpliedDo (object.sketch g) vals') := by
  have hrefuse : Agrees g [] Eq (dataImpliedDo.refuse object) (dataImpliedDo.refuse (object.sketch g)) :=
    (agrees_warn (by decide) rfl h).bind fun _ _ _ => .pure rfl
  have hbounds : ∀ n ∈ object.childrenWith .expr, n.Tight := fun n hn =>
    (h.childrenWith hn (by decide)).tight (by decide) (Node.hasLabel_childrenWith hn)
  unfold dataImpliedDo
  rw [grandchildren_sketch (by decide), Node.childrenWith_sketch, childText_sketch h (by decide)]
  extract_lets bounds item? bounds' item'?
  have hitems : item'? = item?.map (Node.sketch g) := by
    simp only [item?, item'?]
    rcases grandchildren object .dataIDoObjectList with _ | ⟨item, _ | ⟨b, rest⟩⟩
    · rfl
    · simp only [List.map_cons, List.map_nil, Node.hasLabel_sketch]
      split <;> rfl
    · rfl
  have hitem : ∀ item, item? = some item → item.Phrase := by
    intro item hitem
    simp only [item?] at hitem
    split at hitem
    · rename_i first hfirst
      split at hitem
      · rename_i hlabel
        obtain rfl := Option.some.inj hitem
        exact ⟨orderly_grandchildren h.orderly (by rw [hfirst]; simp),
          Node.not_end_of_label hlabel (by decide)⟩
      · cases hitem
    · cases hitem
  clear_value item? item'?
  subst hitems
  cases item? with
  | none => exact hrefuse
  | some item =>
    have hphrase := hitem item rfl
    simp only [Option.map_some]
    refine (agrees_constantTrips hbounds).bind ?_
    rintro found _ rfl
    cases found with
    | none => exact hrefuse
    | some trips =>
      simp only [hvals.length_eq, childText_sketch hphrase
        (show Label.variableName ≠ .endOfStmt by decide)]
      refine agrees_table.bind ?_
      rintro t _ rfl
      rw [Guise.typeOf_table]
      refine (agrees_itemsUpTo _ hvals).bind fun taken taken' htaken => ?_
      refine (agrees_ident _).bind ?_
      rintro v _ rfl
      refine (agrees_rangeOf bounds).bind fun r r' hr => ?_
      refine (agrees_line rfl (.forPairs hr (.vector (DataValue.Alike.list htaken _)))).bind
        fun _ _ _ => ?_
      refine (agrees_nested (agrees_assigned hphrase (.refl _))).bind fun _ _ _ => ?_
      exact (agrees_line rfl (.refl .close)).bind fun _ _ _ => .pure rfl

theorem agrees_dataObject {object : Node} (h : object.Phrase) {vals vals' : List DataValue}
    (hvals : List.Forall₂ (DataValue.Alike g) vals vals') (isLast : Bool) :
    Agrees g [] Eq (dataObject object vals isLast) (dataObject (object.sketch g) vals' isLast) := by
  have hlength := hvals.length_eq
  unfold dataObject
  simp only [Node.hasLabel_sketch, childText_sketch h (show Label.variableName ≠ .endOfStmt by decide),
    Node.childrenWith_sketch, List.isEmpty_map]
  refine .ite Iff.rfl (fun _ => agrees_dataImpliedDo h hvals) fun _ => agrees_table.bind ?_
  rintro t _ rfl
  simp only [Guise.typeOf_table, Guise.isArray_table, arraySize_guise, ← hlength]
  refine .ite Iff.rfl (fun _ => ?_) fun _ => ?_
  · cases hvals with
    | nil => exact .pure rfl
    | @cons v v' vs vs' hv hvs =>
      have hassigned : Agrees g [] Eq
          (do let (b, left) ← target object
              line (.assign b [left] (v.convertedTo (t.typeOf (childText object .variableName))))
              return 1)
          (do let (b, left) ← target (object.sketch g)
              line (.assign b [left] (v'.convertedTo (t.typeOf (childText object .variableName))))
              return 1) := by
        refine (agrees_target h).bind ?_
        rintro ⟨b, left⟩ ⟨b', left'⟩ ⟨hb, hleft⟩
        obtain rfl : b = b' := hb.symm
        exact (agrees_line rfl (.assign b (.cons hleft .nil) (hv.convertedTo _))).bind
          fun _ _ _ => .pure rfl
      exact .ite Iff.rfl (fun _ => (agrees_declare _).bind fun _ _ _ => hassigned) fun _ => hassigned
  · refine .ite Iff.rfl (fun _ => ?_) fun _ => ?_
    · exact (agrees_warn (by decide) (by simp) h).bind fun _ _ _ => .pure rfl
    · refine (agrees_itemsUpTo _ hvals).bind fun taken taken' htaken => ?_
      refine (agrees_ident _).bind fun w w' hw => ?_
      refine (agrees_line rfl (.assign _ (.cons (.index (.name (by simp [hw])) ?_) .nil) ?_)).bind
        fun _ _ _ => .pure rfl
      · exact .cons (.refl _) .nil
      · exact .vector (DataValue.Alike.list htaken _)

theorem agrees_dataObjects {objects : List Node} (h : ∀ n ∈ objects, n.Phrase)
    {vals vals' : List DataValue} (hvals : List.Forall₂ (DataValue.Alike g) vals vals') (taken : Nat) :
    Agrees g [] Eq (dataObjects vals taken objects)
      (dataObjects vals' taken (objects.map (Node.sketch g))) := by
  induction objects generalizing taken with
  | nil => exact .pure rfl
  | cons object rest ih =>
    rw [List.map_cons]
    unfold dataObjects
    rw [← hvals.length_eq, List.isEmpty_map]
    refine (agrees_itemsFrom _ hvals).bind fun left left' hleft => ?_
    refine (agrees_dataObject (h object (by simp)) hleft _).bind ?_
    rintro count _ rfl
    exact ih (fun n hn => h n (by simp [hn])) _

theorem agrees_dataStmt {stmt : Node} (h : stmt.Phrase) :
    Agrees g [] Eq (dataStmt stmt) (dataStmt (stmt.sketch g)) := by
  unfold dataStmt
  rw [Node.childrenWith_sketch]
  refine .forM_silent fun set hset => ?_
  have hphrase := h.childrenWith hset (by decide)
  have hparts : ∀ (l : Label) (p : Node → Bool), l ≠ .endOfStmt → (∀ n, p (Node.sketch g n) = p n) →
      (grandchildren (set.sketch g) l).filter p = ((grandchildren set l).filter p).map (Node.sketch g) := by
    intro l p hl hp
    rw [grandchildren_sketch hl, List.filter_map]
    exact congrArg _ (List.filter_congr fun n _ => hp n)
  have hinside : ∀ (l : Label) (p : Node → Bool), (∀ n, p n → n.hasLabel .endOfStmt = false) →
      ∀ n ∈ (grandchildren set l).filter p, n.Phrase := fun l p hp n hn =>
    ⟨orderly_grandchildren hphrase.orderly (List.mem_filter.1 hn).1, hp n (List.mem_filter.1 hn).2⟩
  rw [hparts .dataStmtValueList _ (by decide) (by simp), hparts .dataStmtObjectList _ (by decide) (by simp)]
  refine (agrees_dataValues (hinside _ _ fun n hn => Node.not_end_of_label hn (by decide))).bind
    fun vals vals' hvals => ?_
  refine (agrees_dataObjects (hinside _ _ fun n hn => ?_) hvals 0).bind ?_
  · rcases Bool.or_eq_true_iff.1 hn with hn | hn <;> exact Node.not_end_of_label hn (by decide)
  · rintro taken _ rfl
    rw [← hvals.length_eq]
    exact .ite Iff.rfl (fun _ => agrees_warn (by decide) rfl hphrase) fun _ => .pure rfl

end Lower

end FortranJulia
