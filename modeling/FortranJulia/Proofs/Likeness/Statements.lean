import FortranJulia.Lowering.Statement
import FortranJulia.Proofs.Likeness.Transfers

/-!
Executable statements side by side. Labels are numbers, which are the same in all guises, so that the same
statements are marked and the same loops are closed. The comments that a statement tells are those of the
statements in it, each once, at its end.
-/

namespace FortranJulia

set_option autoImplicit false

open Julia (Expr Code Binding)

namespace Lower

variable {g : Guise}

/-! ## Labels -/

theorem childText_number {n : Node} {l : Label} (h : n.Phrase) (hl : l ∈ Node.numberLabels) :
    childText (n.sketch g) l = childText n l := by
  have hne : l ≠ .endOfStmt := by
    rintro rfl
    exact absurd hl (by decide)
  rw [childText_sketch h hne]
  refine g.text_of_letterless ?_
  unfold childText
  cases hm : n.child? l with
  | none => exact (by decide : Text.Letterless "")
  | some m => exact (h.child? hm hne).number hl (Node.hasLabel_child? hm)

theorem labelOf_sketch {stmt : Node} (h : stmt.Phrase) : labelOf (stmt.sketch g) = labelOf stmt := by
  rw [labelOf, childText_number h (by decide), labelOf]

theorem agrees_labelMark {stmt : Node} (h : stmt.Phrase) :
    Agrees g [] Eq (labelMark stmt) (labelMark (stmt.sketch g)) := by
  unfold labelMark
  rw [labelOf_sketch h]
  refine agrees_unit.bind fun u u' hu => ?_
  rw [hu.targets]
  exact .ite Iff.rfl (fun _ => agrees_line rfl (.refl _)) fun _ => .pure rfl

theorem agrees_jumpTable {selector selector' : Expr} (hs : selector.Alike g selector') (number : Nat)
    {labels : List Node} (h : ∀ l ∈ labels, l.Phrase ∧ l.hasLabel .lblRef) :
    Agrees g [] Eq (jumpTable selector number labels)
      (jumpTable selector' number (labels.map (Node.sketch g))) := by
  induction labels generalizing number with
  | nil => exact .pure rfl
  | cons l rest ih =>
    obtain ⟨hl, hlabel⟩ := h l (by simp)
    rw [List.map_cons]
    unfold jumpTable
    rw [Node.text_sketch g hl.orderly hl.inside, g.text_of_letterless (hl.number (by decide) hlabel)]
    have hcondition := Expr.Alike.operation "==" hs (.refl (.number (Decimal.digits number)))
    refine (?_ : Agrees g [] Eq _ _).bind fun _ _ _ =>
      (agrees_nested (agrees_line rfl (.refl _))).bind fun _ _ _ =>
        ih (number + 1) fun l hl => h l (by simp [hl])
    split
    · exact agrees_line rfl (.ifHead hcondition)
    · exact agrees_line rfl (.elseifHead hcondition)

theorem agrees_computedGoto {stmt : Node} (h : stmt.Phrase) :
    Agrees g [] Eq (computedGoto stmt) (computedGoto (stmt.sketch g)) := by
  have hlabels : (grandchildren (stmt.sketch g) .lblRefList).filter (·.hasLabel .lblRef) =
      ((grandchildren stmt .lblRefList).filter (·.hasLabel .lblRef)).map (Node.sketch g) := by
    rw [grandchildren_sketch (by decide), List.filter_map]
    exact congrArg _ (List.filter_congr fun n _ => Node.hasLabel_sketch g n .lblRef)
  have hphrases : ∀ l ∈ (grandchildren stmt .lblRefList).filter (·.hasLabel .lblRef),
      l.Phrase ∧ l.hasLabel .lblRef := by
    intro l hl
    obtain ⟨hmem, hlabel⟩ := List.mem_filter.1 hl
    exact ⟨⟨orderly_grandchildren h.orderly hmem, Node.not_end_of_label hlabel (by decide)⟩, hlabel⟩
  unfold computedGoto
  rw [hlabels, Node.child?_sketch]
  generalize (grandchildren stmt .lblRefList).filter _ = labels at hphrases ⊢
  cases he : stmt.child? .expr with
  | none => exact .pure rfl
  | some e =>
    have hlexemes := Node.lexemes_sketch g (h.compact? he (by decide)).tight
    have htable : ∀ {j j' : Expr}, j.Alike g j' → Agrees g [] Eq
        (do jumpTable j 1 labels; if !labels.isEmpty then line .close)
        (do jumpTable j' 1 (labels.map (Node.sketch g))
            if !(labels.map (Node.sketch g)).isEmpty then line .close) := by
      intro j j' hj
      rw [List.isEmpty_map]
      exact (agrees_jumpTable hj 1 hphrases).bind fun _ _ _ =>
        .ite Iff.rfl (fun _ => agrees_line rfl (.refl .close)) fun _ => .pure rfl
    simp only [Option.map_some, hlexemes, List.length_map]
    refine (agrees_exprOf e).bind fun j j' hj => .ite Iff.rfl (fun _ => htable hj) fun _ => ?_
    refine agrees_binding.bind ?_
    rintro b _ rfl
    exact (agrees_line rfl (.assign b (.cons (.refl _) .nil) hj)).bind fun _ _ _ => htable (.refl _)

/-! ## Calls -/

inductive WriteBack.Alike (g : Guise) : WriteBack → WriteBack → Prop where
  | drop : Alike g .drop .drop
  | variableName (w : String) : Alike g (.variableName w) (.variableName (g.text w))
  | element {e e' : Expr} (h : e.Alike g e') : Alike g (.element e) (.element e')

namespace WriteBack.Alike

variable {w w' : WriteBack}

theorem expr (h : Alike g w w') : w.expr.Alike g w'.expr := by
  cases h with
  | drop => exact .refl _
  | variableName w => exact .name (g.text_text w).symm
  | element h => exact h

theorem isBound (h : Alike g w w') : w'.isBound = w.isBound := by
  cases h <;> rfl

theorem isName (h : Alike g w w') : w'.isName = w.isName := by
  cases h <;> rfl

end WriteBack.Alike

theorem agrees_isLoopIndex (x : String) : Agrees g [] Eq (isLoopIndex x) (isLoopIndex (g.text x)) :=
  agrees_unit.bind fun u u' hu => .pure (by rw [hu.loops, g.nameKey_text])

theorem agrees_writeBack (e : Expression) :
    Agrees g [] (WriteBack.Alike g) (writeBack e) (writeBack (g.expression e)) := by
  cases e with
  | reference lx suffixes =>
    have hparameter : ∀ t : Table, ((g.table t).lookup (g.text lx.text)).any (·.flags.parameter) =
        (t.lookup lx.text).any (·.flags.parameter) := by
      intro t
      rw [Guise.lookup_table, Option.any_map]
      cases t.lookup lx.text <;> simp
    have hvariable : Agrees g [] _ _ _ := agrees_ident lx.text
    rw [Guise.expression]
    unfold writeBack
    refine agrees_table.bind ?_
    rintro t _ rfl
    rw [Guise.text_lexeme, hparameter]
    refine .ite Iff.rfl (fun _ => .pure .drop) fun _ => (agrees_isLoopIndex lx.text).bind ?_
    rintro isIndex _ rfl
    refine .ite Iff.rfl (fun _ => .pure .drop) fun _ => ?_
    rcases suffixes with _ | ⟨items, _ | ⟨next, rest⟩⟩
    · rw [Guise.subscriptLists]
      simp only [Guise.procedure_table]
      refine .ite Iff.rfl (fun _ => .pure .drop) fun _ => hvariable.bind ?_
      rintro w _ rfl
      exact .pure (.variableName w)
    · have helement : Reads g _ _ := agrees_expr (.reference lx [items])
      rw [Guise.expression, Guise.subscriptLists, Guise.subscriptLists] at helement
      rw [Guise.subscriptLists, Guise.subscriptLists]
      simp only [Guise.isArray_table, Guise.any_isSpan_subscripts]
      exact .ite Iff.rfl (fun _ => helement.bind fun _ _ hj => .pure (.element hj)) fun _ => .pure .drop
    · rw [Guise.subscriptLists, Guise.subscriptLists]
      exact .pure .drop
  | _ =>
    rw [Guise.expression]
    exact .pure .drop

/-- An argument and what becomes of its value. -/
abbrev ArgumentAlike (g : Guise) (a a' : Expr × WriteBack) : Prop :=
  a.1.Alike g a'.1 ∧ a.2.Alike g a'.2

theorem agrees_callArguments {args : List Node} (h : ∀ n ∈ args, n.Phrase) :
    Agrees g [] (List.Forall₂ (ArgumentAlike g)) (callArguments args)
      (callArguments (args.map (Node.sketch g))) := by
  induction args with
  | nil => exact .pure .nil
  | cons arg rest ih =>
    have harg := h arg (by simp)
    have hrest := ih fun n hn => h n (by simp [hn])
    rw [List.map_cons]
    unfold callArguments
    rw [Node.children_sketch g arg harg.inside, List.head?_map]
    cases arg.children.head? with
    | none => exact hrest
    | some n =>
      cases n with
      | leaf i lx =>
        simp only [Option.map_some, Node.sketch_leaf, Guise.kind_lexeme, Guise.textValue_lexeme]
        refine .ite Iff.rfl (fun _ => hrest.bind fun _ _ hmore => .pure ?_) fun _ => ?_
        · exact .cons ⟨.str (g.juliaString_text _).symm, .drop⟩ hmore
        · exact (agrees_warn (by decide) rfl harg).bind fun _ _ _ => hrest
      | inner i l cs =>
        have hinner : Agrees g [] (List.Forall₂ (ArgumentAlike g))
            (do let e ← expressionOf (.inner i l cs)
                let value ← expr e
                let back ← writeBack e
                let more ← callArguments rest
                return (value, back) :: more)
            (do let e ← expressionOf ((Node.inner i l cs).sketch g)
                let value ← expr e
                let back ← writeBack e
                let more ← callArguments (rest.map (Node.sketch g))
                return (value, back) :: more) := by
          refine (agrees_expressionOf _).bind ?_
          rintro e _ rfl
          refine (agrees_expr e).bind fun _ _ hj => (agrees_writeBack e).bind fun _ _ hw => ?_
          exact hrest.bind fun _ _ hmore => .pure (.cons ⟨hj, hw⟩ hmore)
        rw [Option.map_some, Node.sketch_eq]
        rw [Node.sketch_eq] at hinner
        exact hinner

theorem agrees_unpack (number : Nat) {ws ws' : List WriteBack} (h : List.Forall₂ (WriteBack.Alike g) ws ws') :
    Agrees g [] Eq (unpack number ws) (unpack number ws') := by
  induction h generalizing number with
  | nil => exact .pure rfl
  | cons hw _ ih =>
    unfold unpack
    rw [hw.isBound, hw.isName]
    refine .ite Iff.rfl (fun _ => ?_) fun _ => ih _
    exact (agrees_line rfl (.assign _ (.cons hw.expr .nil) (.refl _))).bind fun _ _ _ => ih _

section Results

variable {call call' : Expr} {ws ws' : List WriteBack} (h : List.Forall₂ (WriteBack.Alike g) ws ws')

include h

theorem any_isBound : ws'.any (·.isBound) = ws.any (·.isBound) := by
  induction h with
  | nil => rfl
  | cons hw _ ih => rw [List.any_cons, List.any_cons, hw.isBound, ih]

theorem countP_isName : ws'.countP (·.isName) = ws.countP (·.isName) := by
  induction h with
  | nil => rfl
  | cons hw _ ih => rw [List.countP_cons, List.countP_cons, hw.isName, ih]

theorem agrees_bindResults (hcall : call.Alike g call') :
    Agrees g [] Eq (bindResults call ws) (bindResults call' ws') := by
  have htargets : List.Forall₂ (Expr.Alike g) (ws.map (·.expr)) (ws'.map (·.expr)) :=
    List.forall₂_map_left_iff.2 (List.forall₂_map_right_iff.2 (h.imp fun _ _ hw => hw.expr))
  unfold bindResults
  refine agrees_unit.bind fun u u' hu => ?_
  simp only [hu.isGlobal, any_isBound h, countP_isName h, ← h.length_eq]
  refine .ite Iff.rfl (fun _ => agrees_line rfl (.run hcall)) fun _ => ?_
  refine .ite Iff.rfl (fun _ => agrees_line rfl (.assign _ htargets hcall)) fun _ => ?_
  refine (agrees_line rfl (.assign _ (.cons (.refl _) .nil) hcall)).bind fun _ _ _ => agrees_unpack 1 h

end Results

theorem agrees_callStmt {stmt : Node} (h : stmt.Phrase) :
    Agrees g [] Eq (callStmt stmt) (callStmt (stmt.sketch g)) := by
  have hphrases : ∀ a ∈ (grandchildren stmt .subroutineArgList).filter (·.hasLabel .subroutineArg),
      a.Phrase := by
    intro a ha
    obtain ⟨hmem, hlabel⟩ := List.mem_filter.1 ha
    exact ⟨orderly_grandchildren h.orderly hmem, Node.not_end_of_label hlabel (by decide)⟩
  have hargs : (grandchildren (stmt.sketch g) .subroutineArgList).filter (·.hasLabel .subroutineArg) =
      ((grandchildren stmt .subroutineArgList).filter (·.hasLabel .subroutineArg)).map
        (Node.sketch g) := by
    rw [grandchildren_sketch (by decide), List.filter_map]
    exact congrArg _ (List.filter_congr fun n _ => Node.hasLabel_sketch g n .subroutineArg)
  unfold callStmt
  rw [childText_sketch h (by decide), hargs]
  refine (agrees_callArguments hphrases).bind fun args args' hargs => ?_
  have hvalues : List.Forall₂ (Expr.Alike g) (args.map (·.1)) (args'.map (·.1)) :=
    List.forall₂_map_left_iff.2 (List.forall₂_map_right_iff.2 (hargs.imp fun _ _ ha => ha.1))
  have hbacks : List.Forall₂ (WriteBack.Alike g) (args.map (·.2)) (args'.map (·.2)) :=
    List.forall₂_map_left_iff.2 (List.forall₂_map_right_iff.2 (hargs.imp fun _ _ ha => ha.2))
  refine (agrees_callee _).bind ?_
  rintro f _ rfl
  have hcall : (Expr.call f (args.map (·.1))).Alike g (.call (g.text f) (args'.map (·.1))) :=
    .call (g.text_text f).symm hvalues
  refine agrees_table.bind ?_
  rintro t _ rfl
  have hfound : (((g.table t).global.get? (g.text (childText stmt .subroutineNameUse))).filter
      (·.kind == .subroutine)) =
      ((t.global.get? (childText stmt .subroutineNameUse)).filter (·.kind == .subroutine)).map g.symbol := by
    rw [Guise.global_table, Guise.get?_scope, Option.filter_map]
    exact congrArg _ (congrArg (Option.filter · _) (funext fun y => by simp))
  rw [hfound, ← hargs.length_eq]
  cases (t.global.get? (childText stmt .subroutineNameUse)).filter (·.kind == .subroutine) with
  | none =>
    refine (agrees_warn (by decide) ?_ h).bind fun _ _ _ => agrees_line rfl (.run hcall)
    simp
  | some y =>
    simp only [Option.map_some, Guise.params_symbol, List.length_map, Guise.name_symbol]
    have hbound := agrees_bindResults (List.forall₂_take y.params.length hbacks) hcall
    exact .ite Iff.rfl (fun _ => (agrees_warn (by decide) (by simp) h).bind fun _ _ _ => hbound) fun _ => hbound

/-! ## Returns and stops -/

/-- Lines that read the same and are no comments. -/
abbrev CodeAlike (g : Guise) (c c' : Code) : Prop :=
  c.remark? = none ∧ c.Alike g c'

theorem agrees_returnCode : Agrees g [] (CodeAlike g) returnCode returnCode := by
  unfold returnCode
  refine agrees_unit.bind fun u u' hu => ?_
  rw [hu.kind, hu.name]
  split
  · refine (agrees_ident u.name).bind ?_
    rintro w _ rfl
    exact .pure ⟨rfl, .returns⟩
  · refine agrees_table.bind ?_
    rintro t _ rfl
    rw [Guise.current_table, Guise.formals_scope]
    refine (agrees_idents _).bind ?_
    rintro ws _ rfl
    exact .pure ⟨rfl, .returns⟩
  · exact .pure ⟨rfl, .refl _⟩

/-- The line that returns from the unit at hand. -/
theorem agrees_returned :
    Agrees g [] Eq (do line (← returnCode)) (do line (← returnCode)) :=
  agrees_returnCode.bind fun _ _ hc => agrees_line hc.1 hc.2

theorem agrees_returnStmt {stmt : Node} (h : stmt.Phrase) :
    Agrees g [] Eq (returnStmt stmt) (returnStmt (stmt.sketch g)) := by
  unfold returnStmt
  rw [Node.hasChild_sketch]
  exact .ite Iff.rfl (fun _ => (agrees_warn (by decide) rfl h).bind fun _ _ _ => agrees_returned) fun _ =>
    agrees_returned

theorem agrees_stopStmt {stmt : Node} (h : stmt.Phrase) :
    Agrees g [] Eq (stopStmt stmt) (stopStmt (stmt.sketch g)) := by
  have hexit : Agrees g [] Eq (line (.run (.call "exit" []))) (line (.run (.call "exit" []))) :=
    agrees_line rfl (.refl _)
  have hwords : (stmt.sketch g).children.filterMap (·.lexeme?) =
      (stmt.children.filterMap (·.lexeme?)).map g.lexeme := by
    rw [Node.children_sketch g stmt h.inside, List.filterMap_map, List.map_filterMap]
    exact List.filterMap_congr fun n _ => Node.lexeme?_sketch g n
  have hdigits : ∀ lx ∈ stmt.children.filterMap (·.lexeme?), lx.kind = .integerConst →
      Text.Letterless lx.text := by
    intro lx hlx
    obtain ⟨n, hn, hlx⟩ := List.mem_filterMap.1 hlx
    refine h.orderly.digits lx (lexemes_of_nodes (nodes_child hn) ?_)
    cases n with
    | leaf i lx' =>
      obtain rfl : lx' = lx := by simpa [Node.lexeme?] using hlx
      simp [Node.lexemes]
    | inner => simp [Node.lexeme?] at hlx
  unfold stopStmt
  rw [hwords]
  generalize stmt.children.filterMap (·.lexeme?) = words at hdigits ⊢
  rcases words with _ | ⟨first, _ | ⟨lx, _ | ⟨third, rest⟩⟩⟩
  · exact hexit
  · exact hexit
  · simp only [List.map_cons, List.map_nil, Guise.kind_lexeme, Guise.text_lexeme]
    split
    · rename_i hkind
      rw [g.text_of_letterless (hdigits lx (by simp) hkind)]
      split
      · exact hexit
      · exact agrees_line rfl (.refl _)
    · refine (agrees_line rfl (.run (.call rfl (.cons (.str ?_) .nil)))).bind fun _ _ _ => hexit
      exact (g.text_text _).symm
    · exact hexit
  · exact hexit

/-! ## Loops -/

theorem agrees_doStmt {stmt : Node} (h : stmt.Phrase) :
    Agrees g [] Eq (doStmt stmt) (doStmt (stmt.sketch g)) := by
  unfold doStmt
  rw [Node.child?_sketch]
  cases hc : stmt.child? .loopControl with
  | none => exact .pure rfl
  | some control =>
    have hcontrol := h.child? hc (by decide)
    simp only [Option.map_some, childText_sketch hcontrol (show Label.variableName ≠ .endOfStmt by decide),
      Node.childrenWith_sketch, childText_number h (show Label.doLblRef ∈ Node.numberLabels by decide),
      Guise.nameKey_text]
    refine (agrees_ident _).bind ?_
    rintro v _ rfl
    refine (agrees_rangeOf _).bind fun _ _ hj => (agrees_line rfl (.forHead hj)).bind fun _ _ _ => ?_
    refine .modify (fun s s' hs => ?_) fun s => (List.append_nil _).symm
    exact { hs with
      depth := congrArg (· + 1) hs.depth
      unit := { hs.unit with loops := by rw [hs.unit.loops, hs.depth] } }

theorem agrees_closeLoop : Agrees g [] Eq closeLoop closeLoop := by
  unfold closeLoop
  refine agrees_unit.bind fun u u' hu => ?_
  rw [hu.loops]
  cases u.loops with
  | nil => exact .throw _
  | cons loop rest =>
    refine Agrees.bind (R := Eq) ?_ fun _ _ _ => agrees_line rfl (.refl _)
    refine .modify (fun s s' hs => ?_) fun s => (List.append_nil _).symm
    exact { hs with
      depth := congrArg (· - 1) hs.depth
      unit := { hs.unit with loops := rfl } }

theorem agrees_closeLoops (label : String) (loops : List OpenLoop) :
    Agrees g [] Eq (closeLoops label loops) (closeLoops label loops) := by
  induction loops with
  | nil => exact .pure rfl
  | cons loop rest ih =>
    unfold closeLoops
    refine Agrees.get.bind fun s s' hs => ?_
    rw [hs.depth]
    exact .ite Iff.rfl (fun _ => agrees_closeLoop.bind fun _ _ _ => ih) fun _ => .pure rfl

/-! ## Variables without a declaration -/

theorem isSpecification_sketch (t : Table) {stmt : Node} (h : stmt.Phrase) :
    isSpecification (g.table t) (stmt.sketch g) = isSpecification t stmt := by
  have hfunction : ((g.table t).current.get? (g.text (childText stmt .variableRef))).any
      (·.kind == .statementFunction) =
      (t.current.get? (childText stmt .variableRef)).any (·.kind == .statementFunction) := by
    rw [Guise.current_table, Guise.get?_scope, Option.any_map]
    exact congrArg (Option.any · _) (funext fun y => by simp)
  unfold isSpecification
  rw [Node.label?_sketch, childText_sketch h (by decide), hfunction]

theorem agrees_needsZero (x : String) : Agrees g [] Eq (needsZero x) (needsZero (g.text x)) := by
  have hheld : ∀ t : Table, ((g.table t).current.get? (g.text x)).any
      (fun y => y.isArray || y.kind == .statementFunction || y.flags.parameter) =
      (t.current.get? x).any fun y => y.isArray || y.kind == .statementFunction || y.flags.parameter := by
    intro t
    rw [Guise.current_table, Guise.get?_scope, Option.any_map]
    exact congrArg (Option.any · _) (funext fun y => by simp)
  unfold needsZero
  refine agrees_table.bind ?_
  rintro t _ rfl
  refine agrees_unit.bind fun u u' hu => (agrees_isResult x).bind ?_
  rintro isResult _ rfl
  simp only [Guise.nameKey_text, hu.declared, hu.params, Guise.procedure_table, hheld]
  simp only [Guise.current_table, Guise.isFormal_scope, Guise.isCommon_scope]
  exact .ite Iff.rfl (fun _ => .pure rfl) fun _ =>
    .ite Iff.rfl (fun _ => .pure rfl) fun _ => .pure rfl

theorem agrees_bindLocals : Agrees g [] Eq bindLocals bindLocals := by
  unfold bindLocals
  have hdone : ∀ u u' : UnitState, u.Alike g u' →
      UnitState.Alike g { u with localsDone := true } { u' with localsDone := true } :=
    fun _ _ hu => { hu with localsDone := rfl }
  refine (agrees_modifyUnit hdone).bind fun _ _ _ => ?_
  refine agrees_unit.bind fun u u' hu => ?_
  rw [hu.locals]
  refine .forM_silent fun x _ => (agrees_needsZero x).bind ?_
  rintro needs _ rfl
  refine .ite Iff.rfl (fun _ => ?_) fun _ => .pure rfl
  refine agrees_table.bind ?_
  rintro t _ rfl
  refine agrees_binding.bind ?_
  rintro b _ rfl
  refine (agrees_ident x).bind ?_
  rintro w _ rfl
  rw [Guise.typeOf_table]
  refine (agrees_line rfl (.assign b (.cons (.name (g.text_text w).symm) .nil) (.refl _))).bind ?_
  exact fun _ _ _ => agrees_declare x

/-! ## All statements -/

theorem agrees_simple {stmt : Node} (h : stmt.Phrase) :
    Agrees g [] Eq (simple stmt) (simple (stmt.sketch g)) := by
  have hwarn : ∀ m : String, Agrees g [] Eq (warn stmt stmt.labelName m)
      (warn (stmt.sketch g) stmt.labelName m) := fun m => agrees_warn h.labelName_ne rfl h
  have hnote : Agrees g [] Eq (note stmt stmt.labelName "declaration has no Julia equivalent")
      (note (stmt.sketch g) stmt.labelName "declaration has no Julia equivalent") :=
    agrees_note h.labelName_ne rfl h
  unfold simple
  rw [Node.label?_sketch, Node.labelName_sketch, childText_number h (by decide)]
  split
  · exact agrees_assignment h
  · exact agrees_stmtFunction h
  · exact agrees_doStmt h
  · exact agrees_line rfl (.refl _)
  · exact agrees_computedGoto h
  · exact .pure rfl
  · exact .pure rfl
  · exact .pure rfl
  · exact agrees_callStmt h
  · exact agrees_returnStmt h
  · exact agrees_stopStmt h
  · exact agrees_printStmt h
  · exact agrees_writeStmt h
  · exact agrees_readStmt h
  · exact agrees_openStmt h
  · rw [Node.child?_sketch]
    have hspecs : ∀ n ∈ stmt.child? .closeSpecList, n.Compact := fun n hn => h.compact? hn (by decide)
    rw [specUnit_sketch hspecs]
    exact agrees_onFile _ (compact_specUnit hspecs)
  · obtain ⟨hunit, hcompact⟩ := positionUnit_sketch (g := g) h
    rw [hunit]
    exact agrees_onFile _ hcompact
  · rw [Node.findAll_sketch]
    exact agrees_bindAll (by decide) fun n hn => h.findAll hn (by decide)
  · rw [Node.findAll_sketch]
    exact agrees_bindAll (by decide) fun n hn => h.findAll hn (by decide)
  · exact agrees_common h
  · exact agrees_parameters h
  · exact agrees_dataStmt h
  · exact hnote
  · exact hnote
  all_goals exact hwarn _

/-! ## Before and after a statement -/

theorem agrees_collect {stmt : Node} (h : stmt.Phrase) :
    Agrees g [] Eq (collect stmt) (collect (stmt.sketch g)) := by
  refine .modify (fun s s' hs => { hs with collection := ?_ }) fun _ => (List.append_nil _).symm
  simp only [hs.collection, Collection.statement?_sketch g s.collection h.orderly]
  cases s.collection.statement? stmt <;> rfl

theorem agrees_before {stmt : Node} (h : stmt.Phrase) :
    Agrees g [] Eq (before stmt) (before (stmt.sketch g)) := by
  unfold before
  refine (agrees_collect h).bind fun _ _ _ => agrees_unit.bind fun u u' hu => ?_
  rw [hu.localsDone]
  refine agrees_table.bind ?_
  rintro t _ rfl
  rw [isSpecification_sketch t h]
  exact .ite Iff.rfl (fun _ => agrees_bindLocals.bind fun _ _ _ => agrees_labelMark h) fun _ =>
    agrees_labelMark h

/-- The children of an IF block. -/
theorem phrase_child {n c : Node} {l : Label} (h : n.Orderly) (hlabel : n.hasLabel l)
    (hl : l ∈ Node.blockLabels) (hc : c ∈ n.children) : c.Phrase := by
  refine ⟨h.child hc, ?_⟩
  cases n with
  | leaf => cases hlabel
  | inner i l' cs =>
    obtain rfl : l' = l := by simpa [Node.hasLabel, Node.label?] using hlabel
    exact h.blocks i l' cs (nodes_self _) hl c hc

theorem agrees_closingLabel {stmt : Node} (h : stmt.Phrase) :
    Agrees g [] Eq (closingLabel stmt) (closingLabel (stmt.sketch g)) := by
  unfold closingLabel
  rw [Node.hasLabel_sketch, labelOf_sketch h, Node.children_sketch g stmt h.inside]
  refine .ite Iff.rfl (fun hif => ?_) fun _ => .pure rfl
  unfold lastOf
  rw [List.getLast?_map]
  cases hlast : stmt.children.getLast? with
  | none => exact .throw _
  | some m =>
    have hm := phrase_child h.orderly hif (by decide) (List.mem_of_getLast? hlast)
    exact .pure (labelOf_sketch hm).symm

theorem agrees_after {stmt : Node} (h : stmt.Phrase) :
    Agrees g (trailingRemarks stmt) Eq (after stmt) (after (stmt.sketch g)) := by
  unfold after
  refine (agrees_trailing stmt).before fun _ _ _ => (agrees_closingLabel h).bind ?_
  rintro label _ rfl
  refine .ite Iff.rfl (fun _ => agrees_unit.bind fun u u' hu => ?_) fun _ => .pure rfl
  rw [hu.loops]
  exact agrees_closeLoops _ _

theorem agrees_condition (stmt : Node) : Reads g (condition stmt) (condition (stmt.sketch g)) := by
  unfold condition
  rw [Node.child?_sketch]
  cases stmt.child? .expr with
  | none => exact .pure (.refl _)
  | some e => exact agrees_exprOf e

theorem agrees_blockMark {stmt : Node} (h : stmt.Phrase) :
    Agrees g (trailingRemarks stmt) Eq (blockMark stmt) (blockMark (stmt.sketch g)) := by
  have hmark : Agrees g [] Eq (labelMark stmt) (labelMark (stmt.sketch g)) := agrees_labelMark h
  have hend := agrees_trailing (g := g) stmt
  have hcondition : Reads g _ _ := agrees_condition stmt
  unfold blockMark
  rw [Node.label?_sketch]
  split
  · exact hmark.bind fun _ _ _ => hcondition.bind fun _ _ hj =>
      (agrees_line rfl (.ifHead hj)).bind fun _ _ _ => hend
  · exact hcondition.bind fun _ _ hj => (agrees_line rfl (.elseifHead hj)).bind fun _ _ _ => hend
  · exact (agrees_line rfl (.refl _)).bind fun _ _ _ => hend
  · exact (agrees_nested hmark).bind fun _ _ _ => (agrees_line rfl (.refl _)).bind fun _ _ _ => hend
  · exact hend

/-! ## Statements and what they tell -/

mutual

/-- What a statement tells before the comments at its own end. -/
def statementRemarks : Node → List String
  | .leaf _ _ => []
  | .inner _ l cs =>
    match l with
    | .ifConstruct => blocksRemarks cs
    | .ifStmt => actionRemarks cs
    | _ => []

def blocksRemarks : List Node → List String
  | [] => []
  | .leaf i lx :: rest => trailingRemarks (.leaf i lx) ++ blocksRemarks rest
  | .inner i l cs :: rest =>
    (if l == .conditionalBody then statementsRemarks cs else trailingRemarks (.inner i l cs)) ++
      blocksRemarks rest

def actionRemarks : List Node → List String
  | [] => []
  | [stmt] => statementRemarks stmt ++ trailingRemarks stmt
  | _ :: rest => actionRemarks rest

/-- What some statements tell, one after the other. -/
def statementsRemarks : List Node → List String
  | [] => []
  | stmt :: rest => statementRemarks stmt ++ (trailingRemarks stmt ++ statementsRemarks rest)

end

mutual

theorem agrees_statement : ∀ stmt : Node, stmt.Phrase →
    Agrees g (statementRemarks stmt) Eq (statement stmt) (statement (stmt.sketch g))
  | .leaf i lx, h => by
    have hsimple : Agrees g [] Eq _ _ := agrees_simple h
    rw [Node.sketch_leaf] at hsimple ⊢
    rw [statement, statement, statementRemarks]
    exact hsimple
  | .inner i l cs, h => by
    have hl : l ≠ .endOfStmt := by simpa [Node.hasLabel, Node.label?] using h.inside
    have hsimple : Agrees g [] Eq _ _ := agrees_simple h
    have hcondition : Reads g _ _ := agrees_condition (.inner i l cs)
    have hparts : l ∈ Node.blockLabels → ∀ c ∈ cs, c.Phrase :=
      fun hmem c hc => phrase_child h.orderly (by simp [Node.hasLabel, Node.label?]) hmem hc
    rw [Node.sketch_inner g hl] at hsimple hcondition ⊢
    by_cases hblock : l = .ifConstruct
    · subst hblock
      rw [statement, statement, statementRemarks]
      exact agrees_blocks cs (hparts (by decide))
    · by_cases hone : l = .ifStmt
      · subst hone
        rw [statement, statement, statementRemarks]
        refine hcondition.bind fun _ _ hj => (agrees_line rfl (.ifHead hj)).bind fun _ _ _ => ?_
        refine (agrees_nested (agrees_action cs (hparts (by decide)))).before fun _ _ _ => ?_
        exact agrees_line rfl (.refl _)
      · rw [statement, statement, statementRemarks]
        · exact hsimple
        all_goals assumption

theorem agrees_blocks : ∀ cs : List Node, (∀ c ∈ cs, c.Phrase) →
    Agrees g (blocksRemarks cs) Eq (blocks cs) (blocks (cs.map (Node.sketch g)))
  | [], _ => by
    rw [List.map_nil, blocks, blocksRemarks]
    exact .pure rfl
  | .leaf i lx :: rest, h => by
    have hmark := agrees_blockMark (g := g) (h _ List.mem_cons_self)
    rw [Node.sketch_leaf] at hmark
    rw [List.map_cons, Node.sketch_leaf, blocks, blocks, blocksRemarks]
    exact hmark.follow fun _ _ _ => agrees_blocks rest fun c hc => h c (List.mem_cons_of_mem _ hc)
  | .inner i l cs :: rest, h => by
    have hphrase := h (.inner i l cs) List.mem_cons_self
    have hl : l ≠ .endOfStmt := by simpa [Node.hasLabel, Node.label?] using hphrase.inside
    have hmark := agrees_blockMark (g := g) hphrase
    have hrest := agrees_blocks rest fun c hc => h c (List.mem_cons_of_mem _ hc)
    rw [Node.sketch_inner g hl] at hmark
    rw [List.map_cons, Node.sketch_inner g hl, blocks, blocks, blocksRemarks]
    by_cases hbody : l = .conditionalBody
    · subst hbody
      have hparts : ∀ c ∈ cs, c.Phrase := fun c hc =>
        phrase_child hphrase.orderly (l := .conditionalBody) (by simp [Node.hasLabel, Node.label?])
          (by decide) hc
      exact (agrees_nested (agrees_statements cs hparts)).follow fun _ _ _ => hrest
    · simp only [beq_iff_eq, if_neg hbody]
      exact hmark.follow fun _ _ _ => hrest

theorem agrees_action : ∀ cs : List Node, (∀ c ∈ cs, c.Phrase) →
    Agrees g (actionRemarks cs) Eq (action cs) (action (cs.map (Node.sketch g)))
  | [], _ => by
    rw [List.map_nil, action, actionRemarks]
    exact .throw _
  | [stmt], h => by
    have hphrase := h stmt List.mem_cons_self
    rw [List.map_singleton, action, action, actionRemarks]
    exact (agrees_collect hphrase).bind fun _ _ _ => (agrees_statement stmt hphrase).follow fun _ _ _ =>
      agrees_trailing stmt
  | _ :: b :: rest, h => by
    have hrest := agrees_action (b :: rest) fun c hc => h c (List.mem_cons_of_mem _ hc)
    unfold action actionRemarks
    exact hrest

theorem agrees_statements : ∀ cs : List Node, (∀ c ∈ cs, c.Phrase) →
    Agrees g (statementsRemarks cs) Eq (statements cs) (statements (cs.map (Node.sketch g)))
  | [], _ => by
    rw [List.map_nil, statements, statementsRemarks]
    exact .pure rfl
  | stmt :: rest, h => by
    have hphrase := h stmt List.mem_cons_self
    rw [List.map_cons, statements, statements, statementsRemarks]
    refine (agrees_before hphrase).bind fun _ _ _ => (agrees_statement stmt hphrase).follow fun _ _ _ => ?_
    refine (agrees_after hphrase).follow fun _ _ _ => ?_
    exact agrees_statements rest fun c hc => h c (List.mem_cons_of_mem _ hc)

end

end Lower

end FortranJulia
