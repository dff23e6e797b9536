import FortranJulia.Proofs.Emission.Transfers

/-!
Jumps, calls, loops and blocks write nothing but what is made of the material. So the lines of a
statement that fits, of a list of them and of all the statements inside them, are `Emitted`, whatever
loops are open, and each diagnostic is one that may be reported.
-/

namespace FortranJulia

set_option autoImplicit false

open Julia (Expr Code Line Binding)

/-- Zeros in front of a label are gone once they are. -/
theorem labelKey_labelKey (label : String) : labelKey (labelKey label) = labelKey label := by
  unfold labelKey
  cases label.toList with
  | nil => rfl
  | cons c cs =>
    simp only
    cases hdigits : (c :: cs).dropWhile (· == '0') with
    | nil => rfl
    | cons d ds =>
      have hd : (d == '0') = false := by
        have hhead := List.head?_dropWhile_not (· == '0') (c :: cs)
        rw [hdigits] at hhead
        simpa using hhead
      simp only [String.toList_ofList, List.dropWhile_cons, hd]
      rfl

/-- Characters are left out at the ends only. -/
theorem Text.trimChars_subset (cs : List Char) : Text.trimChars cs ⊆ cs := by
  intro c hc
  rw [Text.trimChars, Text.dropTrailing, List.mem_reverse] at hc
  have hfront : c ∈ (cs.dropWhile Text.isBlank).reverse := (List.dropWhile_sublist _).subset hc
  exact (List.dropWhile_sublist _).subset (List.mem_reverse.1 hfront)

namespace Lower

section Makes

set_option linter.unusedSectionVars false

variable {m : Material} {known : Collection → UnitState → Prop} {base : LowerState}
  (law : m.Lawful known)

include law

/-! ## Jumps -/

theorem makes_labelMark {stmt : Node} (h : m.Fits known stmt) :
    Makes m known base (labelMark stmt) fun _ => True := by
  have hlabel : m.Emitted (.label (labelName (labelOf stmt))) := by
    have hsame : labelName (labelOf stmt) = labelName (childText stmt .lblDef) := by
      rw [labelName, labelName, labelOf, labelKey_labelKey]
    rw [hsame]
    exact .label (h.labelText (by decide) law.empty.2)
  unfold labelMark
  extract_lets label
  refine makes_unit.bind (fun u _ => ?_)
  split
  · exact makes_line hlabel
  · exact .pure trivial

theorem makes_jumpTable {selector : Expr} (hselector : m.Wrought selector) {labels : List Node}
    (h : ∀ n ∈ labels, m.text n.text) : ∀ number,
    Makes m known base (jumpTable selector number labels) fun _ => True := by
  induction labels with
  | nil => exact fun _ => .pure trivial
  | cons l rest ih =>
    intro number
    have hcondition : m.Wrought (.operation "==" selector (.number (Decimal.digits number))) :=
      .equals hselector (.count number)
    have hhead : m.Emitted (if number == 1 then
          .ifHead (.operation "==" selector (.number (Decimal.digits number)))
        else .elseifHead (.operation "==" selector (.number (Decimal.digits number)))) := by
      split
      · exact .ifHead hcondition
      · exact .elseifHead hcondition
    unfold jumpTable
    refine (makes_line hhead).bind (fun _ _ => ?_)
    refine (makes_nested (makes_line (.goto (h l (by simp))))).bind (fun _ _ => ?_)
    exact ih (fun n hn => h n (by simp [hn])) (number + 1)

theorem makes_computedGoto {stmt : Node} (h : m.Fits known stmt) :
    Makes m known base (computedGoto stmt) fun _ => True := by
  unfold computedGoto
  extract_lets labels
  have hlabels : ∀ n ∈ labels, m.text n.text := by
    intro n hn
    obtain ⟨hmem, hl⟩ := List.mem_filter.1 hn
    exact (h.grandchildren hmem).labels n (nodes_self n) .lblRef (by decide) hl
  split
  · exact .pure trivial
  · rename_i e he
    have hexpr := (h.child? he).expression e (nodes_self e) (Node.hasLabel_child? he)
    have htable : ∀ selector, m.Wrought selector → Makes m known base (do
        jumpTable selector 1 labels
        if !labels.isEmpty then line .close) fun _ => True := by
      intro selector hselector
      refine (makes_jumpTable law hselector hlabels 1).bind (fun _ _ => ?_)
      split
      · exact makes_line .close
      · exact .pure trivial
    refine (makes_exprOf law hexpr).bind (fun k hk => ?_)
    split
    · exact (Ensures.pure hk).bind htable
    · have hleft : m.Target (.name "_k") := .name (.helper (by decide))
      have hself : m.Wrought (.name "_k") := .name (.helper (by decide))
      refine makes_binding.bind (fun b _ => (makes_line ?_).bind (fun _ _ => ?_))
      · exact .assign b (by simp) (by simpa using hleft) (.inl hk)
      · exact (Ensures.pure hself).bind htable

/-! ## Calls -/

/-- A reference to an array is written as an element of it. -/
theorem element_written {lx : Lexeme} {items : List Subscript}
    (he : m.expression (.reference lx [items])) {s t : LowerState} (hs : m.Holds known base s)
    (harray : s.collection.table.isArray lx.text) {j : Expr}
    (hrun : (expr (.reference lx [items])).run s = .ok (j, t)) :
    m.Holds known base t ∧ m.Target j := by
  have hnames := law.expression he
  have hitems : ∀ k ∈ items, ∀ e ∈ k.expressions, m.expression e := law.within he items (by simp)
  have helement : Makes m known base (do
      let base := Expr.name (← ident lx.text)
      let subs ← subscripts items
      indexed (.index base subs) []) m.Target := by
    refine (makes_named law (hnames _ (by simp [Expression.names]))).bind (fun w hw => ?_)
    refine (makes_subscripts law items (names_list law hitems)).bind (fun subs hsubs => ?_)
    rw [indexed]
    exact .pure (.index (.name hw) (wrought_list hitems hsubs))
  have htable : Lower.table.run s = .ok (s.collection.table, s) := rfl
  have hform : refForm s.collection.table lx.text items = .index := by
    rw [refForm, if_pos harray]
  rw [expr, run_bind_ok htable, hform] at hrun
  exact helement s hs j t hrun

theorem makes_writeBack {e : Expression} (he : m.expression e) :
    Makes m known base (writeBack e) fun w => m.Target w.expr := by
  have hdrop : m.Target WriteBack.drop.expr := .name (.helper (by decide))
  have hpure : Makes m known base (pure .drop : Lower WriteBack) fun w => m.Target w.expr :=
    .pure hdrop
  cases e with
  | reference lx suffixes =>
    have hx : m.name lx.text := law.expression he _ (by simp [Expression.names])
    -- Whether the name is that of an array is asked in the state in which the element is written.
    intro s hs w t hrun
    have htable : Lower.table.run s = .ok (s.collection.table, s) := rfl
    have hloop : (isLoopIndex lx.text).run s = .ok (s.unit.loops.any (·.index == nameKey lx.text), s) := rfl
    unfold writeBack at hrun
    simp only at hrun
    rw [run_bind_ok htable] at hrun
    split at hrun
    · exact hpure s hs w t hrun
    · rw [run_bind_ok hloop] at hrun
      split at hrun
      · exact hpure s hs w t hrun
      · split at hrun
        · split at hrun
          · exact hpure s hs w t hrun
          · have hname : Makes m known base (do return WriteBack.variableName (← ident lx.text))
                fun w => m.Target w.expr :=
              (makes_named law hx).bind (fun v hv => .pure (.name hv))
            exact hname s hs w t hrun
        · split at hrun
          · rename_i harray
            obtain ⟨j, u, hj, hpure'⟩ := run_bind_inv hrun
            obtain ⟨rfl, rfl⟩ := Prod.mk.inj (Except.ok.inj hpure')
            simp only [Bool.and_eq_true] at harray
            exact element_written law he hs harray.1 hj
          · exact hpure s hs w t hrun
        · exact hpure s hs w t hrun
  | _ => exact hpure

/-- An argument is passed as it is written, and its value goes to what can be assigned. -/
theorem makes_callArguments {args : List Node} (h : ∀ n ∈ args, m.Fits known n)
    (hl : ∀ n ∈ args, n.hasLabel .subroutineArg) :
    Makes m known base (callArguments args)
      fun ps => ∀ p ∈ ps, m.Wrought p.1 ∧ m.Target p.2.expr := by
  induction args with
  | nil => exact .pure (by simp)
  | cons arg rest ih =>
    have hmore := ih (fun n hn => h n (by simp [hn])) (fun n hn => hl n (by simp [hn]))
    have hdrop : m.Target WriteBack.drop.expr := .name (.helper (by decide))
    unfold callArguments
    split
    · split
      · refine hmore.bind (fun ps hps => .pure ?_)
        exact List.forall_mem_cons.2 ⟨⟨.quoted _, hdrop⟩, hps⟩
      · exact (makes_warn (by decide)).bind (fun _ _ => hmore)
    · rename_i n _ hn
      refine (makes_expressionOf n).bind (fun e he => ?_)
      have hexpr : m.expression e := (h arg (by simp)).operand arg (nodes_self arg) .subroutineArg
        (by decide) (hl arg (by simp)) n (List.mem_of_head? hn) e he
      refine (makes_written law hexpr).bind (fun value hvalue => ?_)
      refine (makes_writeBack law hexpr).bind (fun back hback => ?_)
      exact hmore.bind (fun ps hps => .pure (List.forall_mem_cons.2 ⟨⟨hvalue, hback⟩, hps⟩))
    · exact hmore

theorem makes_unpack {targets : List WriteBack} (h : ∀ w ∈ targets, m.Target w.expr) : ∀ number,
    Makes m known base (unpack number targets) fun _ => True := by
  induction targets with
  | nil => exact fun _ => .pure trivial
  | cons w rest ih =>
    intro number
    have hrest := ih (fun w hw => h w (by simp [hw])) (number + 1)
    have hvalue : m.Wrought (.index (.name "_r") [.number (Decimal.digits number)]) :=
      .part (by decide) (by simp [Material.Wrought.count])
    unfold unpack
    simp only
    split
    · refine (makes_line ?_).bind (fun _ _ => hrest)
      exact .assign _ (by simp) (by simpa using h w (by simp)) (.inl hvalue)
    · exact hrest

theorem makes_bindResults {call : Expr} (hcall : m.Called call) {targets : List WriteBack}
    (h : ∀ w ∈ targets, m.Target w.expr) :
    Makes m known base (bindResults call targets) fun _ => True := by
  unfold bindResults
  simp only
  refine makes_unit.bind (fun u _ => ?_)
  split
  · exact makes_line (.run hcall)
  · rename_i hbound
    split
    · have hne : targets.map (·.expr) ≠ [] := by
        rintro hnil
        rw [List.map_eq_nil_iff.1 hnil] at hbound
        exact hbound rfl
      refine makes_line (.assign _ hne (fun t ht => ?_) (.inr hcall))
      obtain ⟨w, hw, rfl⟩ := List.mem_map.1 ht
      exact h w hw
    · have hresult : m.Target (.name "_r") := .name (.helper (by decide))
      refine (makes_line ?_).bind (fun _ _ => makes_unpack law h 1)
      exact .assign _ (by simp) (by simpa using hresult) (.inr hcall)

theorem makes_callStmt {stmt : Node} (h : m.Fits known stmt) (hl : stmt.hasLabel .callStmt) :
    Makes m known base (callStmt stmt) fun _ => True := by
  have hname : m.name (childText stmt .subroutineNameUse) := h.childText (by decide) law.empty.1
  unfold callStmt
  refine (makes_callArguments law (fun n hn => h.grandchildren (List.mem_filter.1 hn).1)
    (fun n hn => (List.mem_filter.1 hn).2)).bind (fun args hargs => ?_)
  refine (makes_callee law hname).bind (fun w hw => makes_table.bind (fun t _ => ?_))
  have hcall : m.Called (.call w (args.map (·.1))) := by
    refine .subroutine (h.subroutine stmt (nodes_self stmt) hl) hw (fun j hj => ?_)
    obtain ⟨p, hp, rfl⟩ := List.mem_map.1 hj
    exact (hargs p hp).1
  split
  · refine (makes_report (fun _ x _ hmessage => ?_)).bind (fun _ _ => makes_line (.run hcall))
    exact endings_differ (by decide) hmessage
  · rename_i y _
    have hbind : Makes m known base
        (bindResults (.call w (args.map (·.1))) ((args.map (·.2)).take y.params.length))
        fun _ => True := by
      refine makes_bindResults law hcall (fun b hb => ?_)
      obtain ⟨p, hp, rfl⟩ := List.mem_map.1 (List.mem_of_mem_take hb)
      exact (hargs p hp).2
    split
    · exact (makes_warn (by decide)).bind (fun _ _ => hbind)
    · exact hbind

/-! ## Returns and stops -/

theorem makes_returnCode (hexit : m.helper "exit") :
    Makes m known base returnCode m.Emitted := by
  unfold returnCode
  refine makes_unit.bind (fun u hu => ?_)
  obtain ⟨c, hknown⟩ := hu
  split
  · refine (makes_named law (law.name hknown)).bind (fun w hw => .pure (.returns ?_))
    simpa using hw
  · refine makes_table.bind (fun t ht => ?_)
    obtain ⟨c, u, hknown, rfl⟩ := ht
    exact (makes_idents law (law.current hknown).1).bind (fun ws hws => .pure (.returns hws))
  · exact .pure (.run (.helper hexit (by simp)))

theorem makes_returnStmt {stmt : Node} (h : m.Fits known stmt) (hl : stmt.hasLabel .returnStmt) :
    Makes m known base (returnStmt stmt) fun _ => True := by
  have hexit : m.helper "exit" := h.helpers stmt (nodes_self stmt) .returnStmt hl _ (by decide)
  have hreturn : Makes m known base (do line (← returnCode)) fun _ => True :=
    (makes_returnCode law hexit).bind (fun _ hc => makes_line hc)
  unfold returnStmt
  simp only
  split
  · exact (makes_warn (by decide)).bind (fun _ _ => hreturn)
  · exact hreturn

omit law in
theorem makes_stopStmt {stmt : Node} (h : m.Fits known stmt) (hl : stmt.hasLabel .stopStmt) :
    Makes m known base (stopStmt stmt) fun _ => True := by
  have hhelpers : ∀ f ∈ Label.stopStmt.helpers, m.helper f :=
    h.helpers stmt (nodes_self stmt) .stopStmt hl
  have hexit : Makes m known base (line (.run (.call "exit" []))) fun _ => True :=
    makes_line (.run (.helper (hhelpers _ (by decide)) (by simp)))
  unfold stopStmt
  split
  · rename_i lx hlexemes
    have hmem : lx ∈ stmt.lexemes := by
      have hlx : lx ∈ stmt.children.filterMap (·.lexeme?) := by rw [hlexemes]; simp
      obtain ⟨c, hc, hleaf⟩ := List.mem_filterMap.1 hlx
      cases c with
      | leaf i l =>
        obtain rfl := Option.some.inj hleaf
        exact lexemes_of_nodes (nodes_child hc) (by simp [Node.lexemes])
      | inner => cases hleaf
    split
    · split
      · exact hexit
      · rename_i hkind _ _
        have htext : m.text lx.text := (h.lexemes lx hmem).1 (by rw [hkind]; simp)
        have hcode : m.Wrought (.number (String.ofList (lx.text.toList.dropWhile (· == '0')))) := by
          refine .number htext ?_
          rw [String.toList_ofList]
          exact (List.dropWhile_sublist _).subset
        exact makes_line (.run (.helper (hhelpers _ (by decide)) (by simpa using hcode)))
    · rename_i hkind
      have htext : m.text lx.text := (h.lexemes lx hmem).1 (by rw [hkind]; simp)
      have hvalue : m.Wrought (.str lx.text) := .constant htext
      refine (makes_line ?_).bind (fun _ _ => hexit)
      exact .run (.helper (hhelpers _ (by decide)) (by simpa using hvalue))
    · exact hexit
  · exact hexit

/-! ## Loops -/

theorem makes_doStmt {stmt : Node} (h : m.Fits known stmt) :
    Makes m known base (doStmt stmt) fun _ => True := by
  unfold doStmt
  split
  · exact .pure trivial
  · rename_i control hcontrol
    have hthis := h.child? hcontrol
    have hbounds : ∀ n ∈ control.childrenWith .expr, ∀ e, n.expression? = some e → m.expression e :=
      fun n hn => (hthis.childrenWith hn).expression n (nodes_self n) (Node.hasLabel_childrenWith hn)
    refine (makes_named law (hthis.childText (by decide) law.empty.1)).bind (fun v hv => ?_)
    refine (makes_rangeOf law hbounds).bind (fun r hr => ?_)
    refine (makes_line (.forHead hv hr)).bind (fun _ _ => .modify (fun s hs => ?_))
    exact hs.step (law.unit hs.known rfl) rfl rfl

theorem makes_closeLoop : Makes m known base closeLoop fun _ => True := by
  refine makes_unit.bind (fun u _ => ?_)
  split
  · exact .throw _ _
  · refine (Ensures.modify (fun s hs => ?_)).bind (fun _ _ => makes_line .close)
    exact hs.step (law.unit hs.known rfl) rfl rfl

theorem makes_closeLoops (label : String) (loops : List OpenLoop) :
    Makes m known base (closeLoops label loops) fun _ => True := by
  induction loops with
  | nil => exact .pure trivial
  | cons loop rest ih =>
    refine Ensures.get.bind (fun s _ => ?_)
    split
    · exact (makes_closeLoop law).bind (fun _ _ => ih)
    · exact .pure trivial

/-! ## Variables without a declaration -/

theorem makes_needsZero (name : String) : Makes m known base (needsZero name) fun _ => True := by
  unfold needsZero
  refine makes_table.bind (fun t _ => makes_unit.bind (fun u _ => ?_))
  refine (makes_isResult law name).bind (fun b _ => ?_)
  split
  · exact .pure trivial
  · split <;> exact .pure trivial

theorem makes_bindLocals : Makes m known base bindLocals fun _ => True := by
  have hdone : Makes m known base (modifyUnit fun u => { u with localsDone := true })
      fun _ => True := makes_modifyUnit law (fun _ => rfl)
  refine hdone.bind (fun _ _ => makes_unit.bind (fun u hu => ?_))
  obtain ⟨c, hknown⟩ := hu
  refine .forM (fun name hname => (makes_needsZero law name).bind (fun b _ => ?_))
  split
  · refine makes_table.bind (fun t _ => makes_binding.bind (fun b _ => ?_))
    refine (makes_named law (law.locals hknown name hname)).bind (fun w hw => ?_)
    have hline : m.Emitted (.assign b [.name w] (zeroValue (t.typeOf name))) :=
      .assign b (by simp) (by simpa using .name hw) (.inl (.zero _))
    exact (makes_line hline).bind (fun _ _ => makes_declare law name)
  · exact .pure trivial

/-! ## All statements -/

theorem makes_simple {stmt : Node} (h : m.Fits known stmt) :
    Makes m known base (simple stmt) fun _ => True := by
  have hwarn : ∀ message, Makes m known base (warn stmt stmt.labelName message) fun _ => True :=
    fun _ => makes_warn stmt.labelName_resolved
  have hhelper : ∀ l, stmt.label? = some l → ∀ f ∈ l.helpers, m.helper f :=
    fun l hl => h.helpers stmt (nodes_self stmt) l (by simp [Node.hasLabel, hl])
  unfold simple
  cases hl : stmt.label? with
  | none => exact hwarn _
  | some l =>
    have hlabel : stmt.hasLabel l := by simp [Node.hasLabel, hl]
    have hcreate : "create_array" ∈ l.helpers → m.helper "create_array" := hhelper l hl _
    cases l with
    | assignmentStmt => exact makes_assignment law h
    | stmtFunctionStmt => exact makes_stmtFunction law h
    | labelDoStmt => exact makes_doStmt law h
    | gotoStmt => exact makes_line (.goto (h.labelText (by decide) law.empty.2))
    | computedGotoStmt => exact makes_computedGoto law h
    | continueStmt | implicitStmt | formatStmt => exact .pure trivial
    | callStmt => exact makes_callStmt law h hlabel
    | returnStmt => exact makes_returnStmt law h hlabel
    | stopStmt => exact makes_stopStmt h hlabel
    | printStmt => exact makes_printStmt law h hlabel
    | writeStmt => exact makes_writeStmt law h hlabel
    | readStmt => exact makes_readStmt law h hlabel
    | openStmt => exact makes_openStmt law h hlabel
    | closeStmt =>
      exact makes_onFile law (hhelper _ hl _ (by decide)) (specUnit_fits (fun n hn => h.child? hn))
    | rewindStmt =>
      refine makes_onFile law (hhelper _ hl _ (by decide)) (fun n hn => ?_)
      unfold positionUnit at hn
      split at hn
      · rename_i list hlist
        exact specUnit_fits (fun k hk => Option.some.inj hk ▸ h.child? hlist) n hn
      · exact h.child? hn
    | typeDeclarationStmt | dimensionStmt =>
      exact makes_bindAll law (hcreate (by decide)) (by decide) (fun _ hn => h.findAll hn)
    | commonStmt => exact makes_common law (hcreate (by decide)) h
    | parameterStmt => exact makes_parameters law h
    | dataStmt => exact makes_dataStmt law h
    | externalStmt | intrinsicStmt => exact makes_note stmt.labelName_resolved
    | _ => exact hwarn _

omit law in
theorem makes_collect {stmt : Node} (h : m.Fits known stmt) :
    Makes m known base (collect stmt) fun _ => True := by
  refine .modify (fun s hs => ?_)
  cases hd : s.collection.statement? stmt with
  | none => exact hs.step hs.known rfl rfl
  | some d => exact hs.step (h.declares stmt (nodes_self stmt) _ d _ hs.known hd) rfl rfl

/-- What comes before the code of a statement once its declarations are recorded. -/
theorem makes_recorded {stmt : Node} (h : m.Fits known stmt) :
    Makes m known base (do
      if !(← unit).localsDone && !isSpecification (← table) stmt then bindLocals
      labelMark stmt) fun _ => True := by
  refine makes_unit.bind (fun u _ => makes_table.bind (fun t _ => ?_))
  split
  · exact (makes_bindLocals law).bind (fun _ _ => makes_labelMark law h)
  · exact makes_labelMark law h

theorem makes_before {stmt : Node} (h : m.Fits known stmt) :
    Makes m known base (before stmt) fun _ => True :=
  (makes_collect h).bind (fun _ _ => makes_recorded law h)

omit law in
theorem makes_comment {x : String} (hx : m.text x) :
    Makes m known base (comment x) fun _ => True := by
  unfold comment
  split
  · exact makes_line (.comment hx (by simp))
  · refine (ensures_itemsFrom _ _).bind (fun cs hcs => makes_line (.comment hx ?_))
    rw [hcs, Text.trim, String.toList_ofList, String.toList_ofList]
    exact fun c hc => Text.trimChars_subset _ (List.mem_of_mem_drop (Text.trimChars_subset _ hc))

omit law in
theorem makes_trailing {stmt : Node} (h : m.Fits known stmt) :
    Makes m known base (trailing stmt) fun _ => True := by
  unfold trailing
  split
  · exact .pure trivial
  · rename_i e he
    refine .forM (fun lx hlx => ?_)
    obtain ⟨hmem, hkind⟩ := List.mem_filter.1 hlx
    refine makes_comment (((h.child? he).lexemes lx hmem).1 ?_)
    rw [eq_of_beq hkind]
    simp

omit law in
theorem makes_closingLabel (stmt : Node) :
    Makes m known base (closingLabel stmt) fun _ => True := by
  unfold closingLabel lastOf
  split
  · split
    · exact .pure trivial
    · exact (Ensures.throw _ fun _ => True).bind (fun _ _ => .pure trivial)
  · exact .pure trivial

theorem makes_after {stmt : Node} (h : m.Fits known stmt) :
    Makes m known base (after stmt) fun _ => True := by
  unfold after
  refine (makes_trailing h).bind (fun _ _ => (makes_closingLabel stmt).bind (fun label _ => ?_))
  split
  · exact makes_unit.bind (fun u _ => makes_closeLoops law label u.loops)
  · exact .pure trivial

theorem makes_condition {stmt : Node} (h : m.Fits known stmt) :
    Makes m known base (condition stmt) m.Wrought := by
  unfold condition
  split
  · rename_i e he
    exact makes_exprOf law ((h.child? he).expression e (nodes_self e) (Node.hasLabel_child? he))
  · exact .pure .absent

theorem makes_blockMark {stmt : Node} (h : m.Fits known stmt) :
    Makes m known base (blockMark stmt) fun _ => True := by
  have htrailing : ∀ r : Unit, Makes m known base (trailing stmt) fun _ => True :=
    fun _ => makes_trailing h
  have hcondition : Makes m known base (condition stmt) m.Wrought := makes_condition law h
  unfold blockMark
  simp only
  split
  · refine (makes_labelMark law h).bind (fun _ _ => hcondition.bind (fun c hc => ?_))
    exact (makes_line (.ifHead hc)).bind (fun r _ => htrailing r)
  · refine hcondition.bind (fun c hc => ?_)
    exact (makes_line (.elseifHead hc)).bind (fun r _ => htrailing r)
  · exact (makes_line .elseHead).bind (fun r _ => htrailing r)
  · refine (makes_nested (makes_labelMark law h)).bind (fun _ _ => ?_)
    exact (makes_line .close).bind (fun r _ => htrailing r)
  · exact htrailing ()

mutual

theorem makes_statement : ∀ n : Node, m.Fits known n →
    Makes m known base (statement n) fun _ => True
  | .leaf k lx, h => by
    rw [statement]
    exact makes_simple law h
  | .inner k l cs, h => by
    unfold statement
    split
    · exact makes_blocks cs (fun c hc => h.child hc)
    · refine (makes_condition law h).bind (fun c hc => (makes_line (.ifHead hc)).bind (fun _ _ => ?_))
      refine (makes_nested (makes_action cs (fun c hc => h.child hc))).bind (fun _ _ => ?_)
      exact makes_line .close
    · exact makes_simple law h

theorem makes_blocks : ∀ ns : List Node, (∀ n ∈ ns, m.Fits known n) →
    Makes m known base (blocks ns) fun _ => True
  | [], _ => by
    rw [blocks]
    exact .pure trivial
  | .leaf k lx :: rest, h => by
    rw [blocks]
    exact (makes_blockMark law (h _ (by simp))).bind
      (fun _ _ => makes_blocks rest (fun n hn => h n (by simp [hn])))
  | .inner k l cs :: rest, h => by
    have hthis := h (.inner k l cs) (by simp)
    have hrest := makes_blocks rest (fun n hn => h n (by simp [hn]))
    rw [blocks]
    split
    · exact (makes_nested (makes_statements cs (fun c hc => hthis.child hc))).bind (fun _ _ => hrest)
    · exact (makes_blockMark law hthis).bind (fun _ _ => hrest)

theorem makes_action : ∀ ns : List Node, (∀ n ∈ ns, m.Fits known n) →
    Makes m known base (action ns) fun _ => True
  | [], _ => by
    rw [action]
    exact .throw _ _
  | [stmt], h => by
    have hstmt := h stmt (by simp)
    rw [action]
    refine (makes_collect hstmt).bind (fun _ _ => ?_)
    exact (makes_statement stmt hstmt).bind (fun _ _ => makes_trailing hstmt)
  | n :: k :: rest, h => by
    rw [action]
    · exact makes_action (k :: rest) (fun n hn => h n (by simp [hn]))
    · simp

theorem makes_statements : ∀ ns : List Node, (∀ n ∈ ns, m.Fits known n) →
    Makes m known base (statements ns) fun _ => True
  | [], _ => by
    rw [statements]
    exact .pure trivial
  | stmt :: rest, h => by
    have hstmt := h stmt (by simp)
    rw [statements]
    refine (makes_before law hstmt).bind (fun _ _ => ?_)
    refine (makes_statement stmt hstmt).bind (fun _ _ => (makes_after law hstmt).bind (fun _ _ => ?_))
    exact makes_statements rest (fun n hn => h n (by simp [hn]))

end

end Makes

/-! ## Parts of units -/

section Makes

variable {m : Material} {known : Collection → UnitState → Prop} {base : LowerState}

theorem makes_depth (f : Nat → Nat) :
    Makes m known base (modify fun s => { s with depth := f s.depth } : Lower Unit) fun _ => True :=
  .modify (fun _ hs => hs.step hs.known rfl rfl)

variable (law : m.Lawful known)

include law

theorem makes_routineHead {stmt : Node} (h : m.Fits known stmt) :
    Makes m known base (routineHead stmt) fun _ => True := by
  unfold routineHead
  refine makes_unit.bind (fun u hu => makes_table.bind (fun t ht => ?_))
  obtain ⟨c, hu⟩ := hu
  obtain ⟨d, v, hv, rfl⟩ := ht
  have hname := law.name hu
  refine (makes_idents law (law.current hv).1).bind (fun params hparams => ?_)
  refine (makes_callee law hname).bind (fun f hf => ?_)
  refine (makes_line (.functionHead (Material.named_of_callee hname hf) hparams)).bind (fun _ _ => ?_)
  refine (makes_depth (· + 1)).bind (fun _ _ => (makes_trailing h).bind (fun _ _ => ?_))
  split
  · refine makes_table.bind (fun t _ => (makes_named law hname).bind (fun w hw => makes_line ?_))
    exact .assign .plain (by simp) (by simpa using .name hw) (.inl (.zero _))
  · exact .pure trivial

theorem makes_abandonLoops (stmt : Node) (loops : List OpenLoop) :
    Makes m known base (abandonLoops stmt loops) fun _ => True := by
  induction loops with
  | nil => exact .pure trivial
  | cons loop rest ih =>
    exact (makes_warn (by decide)).bind (fun _ _ => (makes_closeLoop law).bind (fun _ _ => ih))

theorem makes_unitEnd (hexit : m.helper "exit") (whole : Node) {stmt : Node} (h : m.Fits known stmt) :
    Makes m known base (unitEnd whole stmt) fun _ => True := by
  have hend : Makes m known base (do
      modify fun s => { s with depth := s.depth - 1 }
      line .close
      trailing stmt) fun _ => True :=
    (makes_depth (· - 1)).bind (fun _ _ => (makes_line .close).bind (fun _ _ => makes_trailing h))
  unfold unitEnd
  refine makes_unit.bind (fun u _ => (makes_abandonLoops law stmt u.loops).bind (fun _ _ => ?_))
  refine (makes_labelMark law h).bind (fun _ _ => makes_unit.bind (fun v _ => ?_))
  split
  · split
    · exact (makes_returnCode law hexit).bind (fun c hc => (makes_line hc).bind (fun _ _ => hend))
    · exact hend
  · exact makes_trailing h

theorem makes_unitPart (hexit : m.helper "exit") (whole : Node) {part : Node} (h : m.Fits known part) :
    Makes m known base (unitPart whole part) fun _ => True := by
  unfold unitPart
  split
  · exact makes_routineHead law h
  · exact makes_routineHead law h
  · exact makes_trailing h
  · exact makes_trailing h
  · exact makes_statements law part.children (fun n hn => h.child hn)
  · exact makes_unitEnd law hexit whole h
  · exact makes_unitEnd law hexit whole h
  · exact makes_unitEnd law hexit whole h
  · exact makes_unitEnd law hexit whole h
  · exact .pure trivial

end Makes

end Lower

end FortranJulia
