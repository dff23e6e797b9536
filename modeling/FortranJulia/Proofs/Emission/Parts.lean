import FortranJulia.Proofs.Emission.Ensures

/-!
Declarations, assignments and initial values write nothing but what is made of the material, provided
that the tree is. One lemma for each action, in the order in which they are made of each other.
-/

namespace FortranJulia

set_option autoImplicit false

open Julia (Expr Code Line Binding)

namespace Lower

section Makes

set_option linter.unusedSectionVars false

variable {m : Material} {known : Collection → UnitState → Prop} {base : LowerState}
  (law : m.Lawful known)

/-! ## Nodes -/

theorem wrought_item {s : Subscript} {j : Expr} (h : ∀ e ∈ s.expressions, m.expression e)
    (hj : m.reading.RendersItem s j) : m.Wrought j := by
  cases hj with
  | value body => exact .rendered (h _ (by simp [Subscript.expressions])) body
  | all => exact .colon
  | upTo last =>
    have hlast : m.Wrought _ := .rendered (h _ (by simp [Subscript.expressions])) last
    have hone : m.Wrought (.number "1") := .count 1
    exact .range (by simp [hlast, hone])
  | «from» first =>
    have hfirst : m.Wrought _ := .rendered (h _ (by simp [Subscript.expressions])) first
    have hend : m.Wrought (.name "end") := .own (by simp)
    exact .range (by simp [hfirst, hend])
  | between first last =>
    have hfirst : m.Wrought _ := .rendered (h _ (by simp [Subscript.expressions])) first
    have hlast : m.Wrought _ := .rendered (h _ (by simp [Subscript.expressions])) last
    exact .range (by simp [hfirst, hlast])
  | alternate star => exact .absent

theorem wrought_list {items : List Subscript} {subs : List Expr}
    (h : ∀ s ∈ items, ∀ e ∈ s.expressions, m.expression e)
    (hsubs : m.reading.RendersList items subs) : ∀ j ∈ subs, m.Wrought j := by
  induction items generalizing subs with
  | nil =>
    cases hsubs
    simp
  | cons s ss ih =>
    cases hsubs with
    | cons item rest =>
      exact List.forall_mem_cons.2 ⟨wrought_item (h s (by simp)) item,
        ih (fun t ht => h t (by simp [ht])) rest⟩

theorem target_suffixes {suffixes : List (List Subscript)} {j k : Expr}
    (h : ∀ items ∈ suffixes, ∀ s ∈ items, ∀ e ∈ s.expressions, m.expression e)
    (hj : m.Target j) (hk : m.reading.RendersSuffixes j suffixes k) : m.Target k := by
  induction suffixes generalizing j with
  | nil =>
    cases hk
    exact hj
  | cons items rest ih =>
    cases hk with
    | cons subscripts suffixes =>
      exact ih (fun t ht => h t (by simp [ht]))
        (.index hj (wrought_list (h items (by simp)) subscripts)) suffixes

include law

/-- The names in subscripts are those of the expressions in them. -/
theorem names_item {s : Subscript} (h : ∀ e ∈ s.expressions, m.expression e) :
    ∀ x ∈ s.names, m.name x := by
  have hall : ∀ e ∈ s.expressions, ∀ x ∈ e.names, m.name x :=
    fun e he => law.expression (h e he)
  cases s with
  | value e => exact hall e (by simp [Subscript.expressions])
  | alternate => simp [Subscript.names]
  | span a b =>
    cases a <;> cases b <;> simp_all [Subscript.names, Subscript.expressions, or_imp, forall_and]

theorem names_list {items : List Subscript} (h : ∀ s ∈ items, ∀ e ∈ s.expressions, m.expression e) :
    ∀ x ∈ Subscript.namesOf items, m.name x := by
  induction items with
  | nil => simp [Subscript.namesOf]
  | cons s ss ih =>
    intro x hx
    rcases List.mem_append.1 hx with hx | hx
    · exact names_item law (h s (by simp)) x hx
    · exact ih (fun t ht => h t (by simp [ht])) x hx

theorem names_suffixes {suffixes : List (List Subscript)}
    (h : ∀ items ∈ suffixes, ∀ s ∈ items, ∀ e ∈ s.expressions, m.expression e) :
    ∀ x ∈ Subscript.namesOfAll suffixes, m.name x := by
  induction suffixes with
  | nil => simp [Subscript.namesOfAll]
  | cons items rest ih =>
    intro x hx
    rcases List.mem_append.1 hx with hx | hx
    · exact names_list law (h items (by simp)) x hx
    · exact ih (fun t ht => h t (by simp [ht])) x hx

theorem makes_written {e : Expression} (he : m.expression e) :
    Makes m known base (expr e) m.Wrought :=
  (makes_expr law e (law.expression he)).imp (fun _ hj => .rendered he hj)

omit law in
theorem makes_expressionOf (n : Node) :
    Makes m known base (expressionOf n) (n.expression? = some ·) := by
  unfold expressionOf
  split
  · rename_i e he
    exact .pure he
  · exact .throw _ _

theorem makes_exprOf {n : Node} (h : ∀ e, n.expression? = some e → m.expression e) :
    Makes m known base (exprOf n) m.Wrought :=
  (makes_expressionOf n).bind (fun e he => makes_written law (h e he))

omit law in
theorem makes_typeOfNode (n : Node) : Makes m known base (typeOfNode n) fun _ => True :=
  (makes_expressionOf n).bind (fun e _ => makes_typeOf e)

theorem makes_converted {n : Node} (h : ∀ e, n.expression? = some e → m.expression e)
    (target : Option TypeName) : Makes m known base (converted target n) m.Wrought :=
  (makes_typeOfNode n).bind (fun source _ =>
    (makes_exprOf law h).bind (fun _ hj => .pure (.converted target source hj)))

theorem makes_rangeOf {ns : List Node} (h : ∀ n ∈ ns, ∀ e, n.expression? = some e → m.expression e) :
    Makes m known base (rangeOf ns) m.Wrought := by
  match ns, h with
  | [], _ | [_], _ => exact .pure (.tuple (by simp))
  | a :: b :: rest, h =>
    refine (makes_exprOf law (h a (by simp))).bind (fun first hfirst => ?_)
    refine (makes_exprOf law (h b (by simp))).bind (fun last hlast => ?_)
    match rest, h with
    | [], _ => exact .pure (.range (by simp [hfirst, hlast]))
    | c :: _, h =>
      refine (makes_exprOf law (h c (by simp))).bind (fun step hstep => .pure (.range ?_))
      simp [hfirst, hlast, hstep]

omit law in
theorem makes_binding : Makes m known base binding fun _ => True :=
  makes_unit.bind (fun _ _ => .pure trivial)

theorem makes_target {v : Node} (h : m.Fits known v) :
    Makes m known base (target v) fun r => m.Target r.2 := by
  have hname : m.name (childText v .variableName) := h.childText (by decide) law.empty.1
  have htails : ∀ items ∈ (v.childrenWith .complexDataRefTail).map (·.subscripts), ∀ s ∈ items,
      ∀ e ∈ s.expressions, m.expression e := by
    intro items hitems
    obtain ⟨tail, htail, rfl⟩ := List.mem_map.1 hitems
    exact h.subscripts tail (nodes_child (List.mem_filter.1 htail).1) (Node.hasLabel_childrenWith htail)
  unfold target
  simp only
  split
  · refine makes_binding.bind (fun b _ => ?_)
    exact (makes_named law hname).bind (fun w hw => .pure (.name hw))
  · refine (makes_named law hname).bind (fun w hw => ?_)
    refine (makes_indexed law (.name w) _ (names_suffixes law htails)).bind (fun j hj => .pure ?_)
    exact target_suffixes htails (.name hw) hj

/-- An assignment of something to what a node names. -/
theorem makes_assigned {v : Node} (h : m.Fits known v) {j : Expr} (hj : m.Wrought j) :
    Makes m known base (do let (b, left) ← target v; line (.assign b [left] j)) fun _ => True :=
  (makes_target law h).bind (fun r hr => makes_line (.assign r.1 (by simp) (by simpa using hr) (.inl hj)))

/-! ## Declarations -/

theorem makes_declare (name : String) : Makes m known base (declare name) fun _ => True :=
  makes_modifyUnit law (fun _ => rfl)

theorem makes_skipsDeclaration (name : String) :
    Makes m known base (skipsDeclaration name) fun _ => True := by
  unfold skipsDeclaration
  refine makes_table.bind (fun t _ => makes_unit.bind (fun u _ => ?_))
  refine (makes_isResult law name).bind (fun b _ => ?_)
  split
  · exact .pure trivial
  · split
    · exact .pure trivial
    · split
      · exact Ensures.get.bind (fun _ _ => .pure trivial)
      · exact .pure trivial

theorem makes_shapes (name : String) {ns : List Node} (h : ∀ n ∈ ns, m.Fits known n) :
    Makes m known base (shapes name ns) fun r => ∀ dims, r = some dims → ∀ j ∈ dims, m.Wrought j := by
  induction ns with
  | nil => exact .pure (by simp)
  | cons shape rest ih =>
    have hshape := h shape (by simp)
    have hrest := ih (fun n hn => h n (by simp [hn]))
    have hbound : ∀ {l : Label} {n : Node}, l ∈ Node.operandLabels →
        (shape.child? l).bind (·.children.head?) = some n → ∀ e, n.expression? = some e →
        m.expression e := by
      intro l n hl hn
      obtain ⟨b, hb, hhead⟩ := Option.bind_eq_some_iff.1 hn
      exact (hshape.child? hb).operand b (nodes_self b) l hl (Node.hasLabel_child? hb) n
        (List.mem_of_head? hhead)
    unfold shapes
    extract_lets upper
    have hupper : ∀ r, Makes m known base (upper r)
        fun r => ∀ dims, r = some dims → ∀ j ∈ dims, m.Wrought j := by
      intro r
      simp only [upper]
      split
      · exact hrest
      · rename_i up hup
        split
        · exact (makes_warn (by decide)).bind (fun _ _ => .pure (by simp))
        · refine (makes_exprOf law (hbound (by decide) hup)).bind (fun e he => ?_)
          refine hrest.bind (fun es hes => .pure ?_)
          rintro dims hdims
          obtain ⟨ds, rfl, rfl⟩ := Option.map_eq_some_iff.1 hdims
          exact List.forall_mem_cons.2 ⟨he, hes ds rfl⟩
    split
    · rename_i low hlow
      refine (makes_exprOf law (hbound (by decide) hlow)).bind (fun e _ => ?_)
      split
      · exact (makes_note (by decide)).bind (fun r _ => hupper r)
      · exact hupper ()
    · exact hupper ()

theorem makes_bindZero (hcreate : m.helper "create_array") {name : String} (hname : m.name name)
    {spec : Option Node} (h : ∀ n, spec = some n → m.Fits known n) :
    Makes m known base (bindZero name spec) fun _ => True := by
  unfold bindZero
  refine makes_unit.bind (fun u _ => makes_table.bind (fun t _ => ?_))
  split
  · split
    · exact .pure trivial
    · refine (makes_declare law name).bind (fun _ _ => makes_binding.bind (fun b _ => ?_))
      refine (makes_named law hname).bind (fun w hw => makes_line ?_)
      exact .assign b (by simp) (by simpa using .name hw) (.inl (.zero _))
  · rename_i spec
    split
    · exact .pure trivial
    · refine (makes_shapes law name (fun n hn => (h spec rfl).childrenWith hn)).bind
        (fun dims hdims => ?_)
      split
      · exact .pure trivial
      · rename_i dims
        have harrays : Makes m known base (modifyUnit fun u =>
            { u with arrays := nameKey name :: u.arrays }) fun _ => True :=
          makes_modifyUnit law (fun _ => rfl)
        refine (makes_declare law name).bind (fun _ _ => harrays.bind (fun _ _ => ?_))
        refine makes_binding.bind (fun b _ => ?_)
        refine (makes_named law hname).bind (fun w hw => makes_line ?_)
        have hsizes : ∀ j ∈ Expr.str (Text.juliaString (TypeName.textOf (t.typeOf name))) :: dims,
            m.Wrought j := List.forall_mem_cons.2 ⟨.quoted _, hdims dims rfl⟩
        exact .assign b (by simp) (by simpa using .name hw) (.inl (.helper hcreate hsizes))

theorem makes_bindAll (hcreate : m.helper "create_array") {l : Label} (hl : l ∈ Node.nameLabels)
    {decls : List Node} (h : ∀ n ∈ decls, m.Fits known n) :
    Makes m known base (bindAll l decls) fun _ => True := by
  refine .forM (fun decl hdecl => ?_)
  refine (makes_skipsDeclaration law _).bind (fun b _ => ?_)
  split
  · exact .pure trivial
  · exact makes_bindZero law hcreate ((h decl hdecl).childText hl law.empty.1)
      (fun _ hspec => (h decl hdecl).child? hspec)

theorem makes_common (hcreate : m.helper "create_array") {stmt : Node} (h : m.Fits known stmt) :
    Makes m known base (common stmt) fun _ => True := by
  unfold common
  refine makes_unit.bind (fun u _ => ?_)
  split
  · exact makes_bindAll law hcreate (by decide) (fun _ hn => h.findAll hn)
  · refine (makes_idents law (fun x hx => ?_)).bind (fun ws hws => makes_line (.globals hws))
    obtain ⟨object, hobject, rfl⟩ := List.mem_map.1 hx
    exact (h.findAll hobject).childText (by decide) law.empty.1

theorem makes_parameters {stmt : Node} (h : m.Fits known stmt) :
    Makes m known base (parameters stmt) fun _ => True := by
  unfold parameters
  refine makes_unit.bind (fun u _ => .forM (fun constant hconstant => ?_))
  have hthis := h.findAll hconstant
  refine makes_table.bind (fun t _ => ?_)
  refine (makes_named law (hthis.childText (by decide) law.empty.1)).bind (fun w hw => ?_)
  split
  · rename_i e he
    have hexpr := (hthis.child? he).expression e (nodes_self e) (Node.hasLabel_child? he)
    refine (makes_converted law hexpr _).bind (fun j hj => ?_)
    have hline : m.Emitted (.assign (if u.isGlobal then .constant else .plain) [.name w] j) :=
      .assign _ (by simp) (by simpa using .name hw) (.inl hj)
    exact (makes_line hline).bind (fun _ _ => makes_declare law _)
  · exact makes_declare law _

/-! ## Assignments -/

omit law in
/-- Texts differ if neither of their ends is an end of the other one. -/
theorem endings_differ {a b s t : String}
    (h : (s.toList.isSuffixOf t.toList || t.toList.isSuffixOf s.toList) = false) :
    a ++ s ≠ b ++ t := by
  intro heq
  have hs : s.toList <:+ (a ++ s).toList := ⟨a.toList, String.toList_append.symm⟩
  have ht : t.toList <:+ (a ++ s).toList := ⟨b.toList, by rw [heq, String.toList_append]⟩
  have hends := List.suffix_or_suffix_of_suffix hs ht
  rw [← List.isSuffixOf_iff_suffix, ← List.isSuffixOf_iff_suffix, ← Bool.or_eq_true, h] at hends
  exact Bool.false_ne_true hends

theorem makes_statementFunction {y : Symbol} (hy : m.name y.name ∧ ∀ p ∈ y.params, m.name p)
    {body : Node} (h : ∀ e, body.expression? = some e → m.expression e) :
    Makes m known base (statementFunction y body) fun _ => True := by
  refine (makes_idents law hy.2).bind (fun params hparams => ?_)
  refine (makes_callee law hy.1).bind (fun f hf => ?_)
  refine (makes_converted law h y.type).bind (fun j hj => makes_line ?_)
  exact .shortFunction (Material.named_of_callee hy.1 hf) hparams hj

theorem makes_assignment {stmt : Node} (h : m.Fits known stmt) :
    Makes m known base (assignment stmt) fun _ => True := by
  unfold assignment
  split
  · rename_i v e hv he
    have hexpr := (h.child? he).expression e (nodes_self e) (Node.hasLabel_child? he)
    have hleft : Makes m known base (target v) fun r => m.Target r.2 :=
      makes_target law (h.child? hv)
    refine makes_table.bind (fun t ht => ?_)
    obtain ⟨c, u, hknown, rfl⟩ := ht
    split
    · rename_i y hy
      obtain ⟨hget, -⟩ := Option.filter_eq_some_iff.1 hy
      exact makes_statementFunction law ((law.current hknown).2 _ y hget) hexpr
    · extract_lets type
      split
      · refine hleft.bind (fun r hr => (makes_converted law hexpr _).bind (fun j hj => makes_line ?_))
        exact .assign r.1 (by simp) (by simpa using hr) (.inl hj)
      · split
        · exact makes_warn (by decide)
        · refine (makes_report (fun _ x _ hmessage => ?_)).bind (fun _ _ => hleft.bind (fun r hr => ?_))
          · exact endings_differ (by decide) hmessage
          · refine (makes_exprOf law hexpr).bind (fun j hj => makes_line ?_)
            exact .assign r.1 (by simp) (by simpa using hr) (.inl hj)
  · exact .pure trivial

theorem makes_stmtFunction {stmt : Node} (h : m.Fits known stmt) :
    Makes m known base (stmtFunction stmt) fun _ => True := by
  unfold stmtFunction
  refine (makes_spell law (h.childText (by decide) law.empty.1)).bind (fun name hname => ?_)
  refine (makes_spellings law (fun x hx => ?_)).bind (fun args hargs => ?_)
  · obtain ⟨arg, harg, rfl⟩ := List.mem_map.1 hx
    exact (h.findAll harg).text (List.mem_filter.1 harg).2 (by decide)
  · refine (Ensures.modify (fun s hs => ?_)).bind (fun _ _ => makes_table.bind (fun t ht => ?_))
    · exact hs.step (law.define hs.known hname.2 hargs) rfl rfl
    · obtain ⟨c, u, hknown, rfl⟩ := ht
      split
      · rename_i y e hy he
        exact makes_statementFunction law ((law.current hknown).2 _ y hy)
          ((h.child? he).expression e (nodes_self e) (Node.hasLabel_child? he))
      · exact .pure trivial

/-! ## Initial values -/

theorem makes_dataConstant {parts : List Node}
    (hsigns : ∀ n ∈ parts, n.hasLabel .sign → m.text n.text)
    (hnames : ∀ n ∈ parts, n.hasLabel .namedConstantUse → m.name n.text)
    (h : ∀ n ∈ parts, ∀ e, n.expression? = some e → m.expression e) :
    Makes m known base (dataConstant parts) fun v => m.Wrought v.expr := by
  induction parts with
  | nil => exact .pure .absent
  | cons part rest ih =>
    unfold dataConstant
    split
    · rename_i hl
      have hsign := hsigns part (by simp) (by simp [Node.hasLabel, hl])
      refine (ih ?_ ?_ ?_).bind (fun v hv => .pure (.signed hsign hv))
      · exact fun n hn => hsigns n (by simp [hn])
      · exact fun n hn => hnames n (by simp [hn])
      · exact fun n hn => h n (by simp [hn])
    · rename_i hl
      have hname := hnames part (by simp) (by simp [Node.hasLabel, hl])
      exact (makes_named law hname).bind (fun w hw => makes_table.bind (fun _ _ => .pure (.name hw)))
    · refine (makes_exprOf law (h part (by simp))).bind (fun j hj => ?_)
      exact (makes_typeOfNode part).bind (fun _ _ => .pure hj)

omit law in
theorem makes_dataRepeat (value : Node) : Makes m known base (dataRepeat value) fun _ => True := by
  unfold dataRepeat
  split
  · exact .pure trivial
  · split
    · exact .pure trivial
    · exact (makes_warn (by decide)).bind (fun _ _ => .pure trivial)

theorem makes_dataValues {values : List Node} (h : ∀ n ∈ values, m.Fits known n) :
    Makes m known base (dataValues values) fun vs => ∀ v ∈ vs, m.Wrought v.expr := by
  induction values with
  | nil => exact .pure (by simp)
  | cons value rest ih =>
    have hvalue := h value (by simp)
    have hparts : ∀ n ∈ grandchildren value .dataConstant, m.Fits known n :=
      fun n hn => hvalue.grandchildren hn
    refine (makes_dataRepeat value).bind (fun n _ => ?_)
    refine (makes_dataConstant law ?_ ?_ ?_).bind (fun v hv => ?_)
    · exact fun n hn hl => (hparts n hn).labels n (nodes_self n) .sign (by decide) hl
    · exact fun n hn hl => (hparts n hn).text hl (by decide)
    · intro n hn
      unfold grandchildren at hn
      cases hd : value.child? .dataConstant with
      | none => simp [hd] at hn
      | some d =>
        rw [hd, Option.map_some, Option.getD_some] at hn
        exact (hvalue.child? hd).operand d (nodes_self d) .dataConstant (by decide)
          (Node.hasLabel_child? hd) n hn
    · refine (ih (fun n hn => h n (by simp [hn]))).bind (fun vs hvs => .pure ?_)
      intro w hw
      rcases List.mem_append.1 hw with hw | hw
      · rw [List.eq_of_mem_replicate hw]
        exact hv
      · exact hvs w hw

omit law in
theorem makes_placeBounds {bounds : List Node} : ∀ (places : List Int) (k : Nat),
    Makes m known base (placeBounds places k bounds) fun _ => True := by
  induction bounds with
  | nil => exact fun _ _ => .pure trivial
  | cons b rest ih =>
    intro places k
    unfold placeBounds
    split
    · exact .pure trivial
    · split
      · exact ih _ _
      · exact .throw _ _

omit law in
theorem makes_constantTrips (bounds : List Node) :
    Makes m known base (constantTrips bounds) fun _ => True := by
  unfold constantTrips
  split
  · exact .pure trivial
  · refine (makes_placeBounds _ _).bind (fun r _ => ?_)
    split <;> exact .pure trivial

theorem makes_dataImpliedDo {object : Node} (h : m.Fits known object) {vals : List DataValue}
    (hvals : ∀ v ∈ vals, m.Wrought v.expr) :
    Makes m known base (dataImpliedDo object vals) fun _ => True := by
  have hrefuse : Makes m known base (dataImpliedDo.refuse object) fun _ => True :=
    (makes_warn (by decide)).bind (fun _ _ => .pure trivial)
  have hbounds : ∀ n ∈ object.childrenWith .expr, ∀ e, n.expression? = some e → m.expression e :=
    fun n hn => (h.childrenWith hn).expression n (nodes_self n) (Node.hasLabel_childrenWith hn)
  unfold dataImpliedDo
  extract_lets bounds item?
  have hitem : ∀ item, item? = some item → m.Fits known item := by
    intro item hitem
    simp only [item?] at hitem
    split at hitem
    · rename_i first hfirst
      split at hitem
      · obtain rfl := Option.some.inj hitem
        exact h.grandchildren (by rw [hfirst]; simp)
      · cases hitem
    · cases hitem
  clear_value item?
  cases item? with
  | none => exact hrefuse
  | some item =>
    refine (makes_constantTrips bounds).bind (fun trips _ => ?_)
    split
    · exact hrefuse
    · refine makes_table.bind (fun t _ => ?_)
      refine (ensures_itemsUpTo _ _).bind (fun taken htaken => ?_)
      refine (makes_named law (h.childText (by decide) law.empty.1)).bind (fun v hv => ?_)
      refine (makes_rangeOf law hbounds).bind (fun r hr => ?_)
      have hvalues : ∀ j ∈ taken.map (·.convertedTo (t.typeOf (childText item .variableName))),
          m.Wrought j := by
        intro j hj
        obtain ⟨w, hw, rfl⟩ := List.mem_map.1 hj
        rw [htaken] at hw
        exact .converted _ _ (hvals w (List.mem_of_mem_take hw))
      refine (makes_line (.forPairs hv hr (.vector hvalues))).bind (fun _ _ => ?_)
      have hself : m.Wrought (.name "_v") := .name (.helper (by decide))
      refine (makes_nested (makes_assigned law (hitem item rfl) hself)).bind (fun _ _ => ?_)
      exact (makes_line .close).bind (fun _ _ => .pure trivial)

theorem makes_dataObject {object : Node} (h : m.Fits known object) {vals : List DataValue}
    (hvals : ∀ v ∈ vals, m.Wrought v.expr) (isLast : Bool) :
    Makes m known base (dataObject object vals isLast) fun _ => True := by
  have hleft : Makes m known base (target object) fun r => m.Target r.2 :=
      makes_target law h
  have hname : m.name (childText object .variableName) := h.childText (by decide) law.empty.1
  unfold dataObject
  split
  · exact makes_dataImpliedDo law h hvals
  · refine makes_table.bind (fun t _ => ?_)
    extract_lets type tails size n
    split
    · split
      · exact .pure trivial
      · rename_i v rest
        have hv : m.Wrought (v.convertedTo type) := .converted _ _ (hvals v (by simp))
        have hline : ∀ r : Binding × Expr, m.Target r.2 →
            Makes m known base (do line (.assign r.1 [r.2] (v.convertedTo type)); return 1)
              fun _ => True := by
          intro r hr
          exact (makes_line (.assign r.1 (by simp) (by simpa using hr) (.inl hv))).bind
            (fun _ _ => .pure trivial)
        split
        · exact (makes_declare law _).bind (fun _ _ => hleft.bind hline)
        · exact hleft.bind hline
    · split
      · exact (makes_warn (by decide)).bind (fun _ _ => .pure trivial)
      · refine (ensures_itemsUpTo _ _).bind (fun taken htaken => ?_)
        refine (makes_named law hname).bind (fun w hw => ?_)
        have hvalues : ∀ j ∈ taken.map (·.convertedTo type), m.Wrought j := by
          intro j hj
          obtain ⟨v, hv, rfl⟩ := List.mem_map.1 hj
          rw [htaken] at hv
          exact .converted _ _ (hvals v (List.mem_of_mem_take hv))
        have hone : m.Wrought (.number "1") := .count 1
        have hrange : m.Wrought (.range [.number "1", .number (Decimal.digits n)]) :=
          .range (by simp [hone, Material.Wrought.count])
        refine (makes_line (.assign .plain (by simp) ?_ (.inl (.vector hvalues)))).bind
          (fun _ _ => .pure trivial)
        simpa using Material.Target.index (.name hw) (by simpa using hrange)

theorem makes_dataObjects {objects : List Node} (h : ∀ n ∈ objects, m.Fits known n)
    {vals : List DataValue} (hvals : ∀ v ∈ vals, m.Wrought v.expr) : ∀ taken,
    Makes m known base (dataObjects vals taken objects) fun _ => True := by
  induction objects with
  | nil => exact fun _ => .pure trivial
  | cons object rest ih =>
    intro taken
    refine (ensures_itemsFrom _ _).bind (fun left hleft => ?_)
    subst hleft
    refine (makes_dataObject law (h object (by simp)) (fun v hv => ?_) _).bind (fun n _ => ?_)
    · exact hvals v (List.mem_of_mem_drop hv)
    · exact ih (fun n hn => h n (by simp [hn])) (taken + n)

theorem makes_dataStmt {stmt : Node} (h : m.Fits known stmt) :
    Makes m known base (dataStmt stmt) fun _ => True := by
  refine .forM (fun set hset => ?_)
  have hthis := h.childrenWith hset
  refine (makes_dataValues law (fun n hn => hthis.grandchildren (List.mem_filter.1 hn).1)).bind
    (fun vals hvals => ?_)
  refine (makes_dataObjects law (fun n hn => hthis.grandchildren (List.mem_filter.1 hn).1) hvals 0).bind
    (fun taken _ => ?_)
  split
  · exact makes_warn (by decide)
  · exact .pure trivial

end Makes

end Lower

end FortranJulia
