import FortranJulia.Proofs.Lowering.Parts

/-!
Input, output, jumps and calls stay in their statement, as all statements do that open no block for
others.
-/

namespace FortranJulia

set_option autoImplicit false

open Julia (Expr Code Line)

namespace Lower

variable {wide : Prop} {i : Nat}

/-! ## Formats -/

/-- A step that reports something and does nothing else. -/
def Reports (wide : Prop) (s t : LowerState) : Prop :=
  ∃ found overflow, t = { s with diagnostics := s.diagnostics ++ found, overflow } ∧
    (∀ d ∈ found, d.rule ≠ Label.labelDoStmt.name) ∧ (overflow → s.overflow ∨ wide)

theorem Reports.refl (s : LowerState) : Reports wide s s :=
  ⟨[], s.overflow, by rw [List.append_nil], by simp, .inl⟩

theorem Reports.trans {s t u : LowerState} (h : Reports wide s t) (h' : Reports wide t u) :
    Reports wide s u := by
  obtain ⟨found, overflow, rfl, hfound, hover⟩ := h
  obtain ⟨found', overflow', rfl, hfound', hover'⟩ := h'
  refine ⟨found ++ found', overflow', by simp only [List.append_assoc], ?_, ?_⟩
  · exact fun d hd => (List.mem_append.1 hd).elim (hfound d) (hfound' d)
  · exact fun h => (hover' h).elim hover .inr

theorem Reports.evolves {s t : LowerState} (h : Reports wide s t) : Evolves wide i i s t := by
  obtain ⟨found, overflow, rfl, hfound, hover⟩ := h
  exact ⟨rfl, rfl, rfl, .refl _, ⟨[], rfl, rfl, by simp⟩, ⟨found, rfl, hfound⟩, hover, id⟩

theorem reports_warn {n : Node} {rule message : String} (h : rule ≠ Label.labelDoStmt.name)
    (s : LowerState) : (warn n rule message).Does s fun _ t => Reports wide s t :=
  ⟨(), _, rfl, [_], s.overflow, rfl, by simpa using h, .inl⟩

theorem reports_printFormat {n : Node} {spec : String} (hn : n.label? ≠ some .labelDoStmt)
    (hspec : Format.tooWide spec → wide) (s : LowerState) :
    (printFormat n spec).Does s fun _ t => Reports wide s t := by
  have hwarn : ∀ message, (warn n n.labelName message >>= fun _ =>
      (pure none : Lower (Option PrintFormat))).Does s fun _ t => Reports wide s t :=
    fun message => (reports_warn (Node.labelName_ne hn) s).bind (fun _ t ht => ⟨_, t, rfl, ht⟩)
  unfold printFormat
  unfold Format.tooWide at hspec
  split
  · exact hwarn _
  · rename_i items hread
    rw [hread] at hspec
    extract_lets p
    split
    · exact ⟨_, s, rfl, .refl s⟩
    · rename_i herror
      have hwide : wide := hspec (by simpa [p] using herror)
      exact ⟨_, _, rfl, [], true, by rw [List.append_nil], by simp, fun _ => .inr hwide⟩
    · exact hwarn _

theorem moves_printFormat {n : Node} {spec : String} (hn : n.label? ≠ some .labelDoStmt)
    (hspec : Format.tooWide spec → wide) : Moves wide i i (printFormat n spec) :=
  fun s _ => (reports_printFormat hn hspec s).imp (fun _ _ h => h.evolves)

theorem moves_labelledFormat (id : Node) (label : String) :
    Moves wide i i (labelledFormat id label) := by
  refine .bind .unit (fun u => ?_)
  split
  · exact .pure _
  · exact .bind (moves_warn (by decide)) (fun _ => .pure _)

/-- The format of a token that is the only one of its identifier. -/
theorem moves_tokenFormat {id : Node} {lx : Lexeme} (hid : id.label? ≠ some .labelDoStmt)
    (hlx : lx.kind = .charConst → Format.tooWide (innerSpec lx.textValue) → wide) :
    Moves wide i i (tokenFormat id lx) := by
  unfold tokenFormat
  split
  · exact .pure _
  · exact moves_labelledFormat id _
  · rename_i hkind
    exact moves_printFormat hid (hlx hkind)
  · exact .bind (moves_warn (by decide)) (fun _ => .pure _)

theorem moves_formatOf {id : Option Node} (h : ∀ n, id = some n → n.Sound wide ∧
    (n.label? = some .formatIdentifier ∨ n.label? = some .unitIdentifier)) :
    Moves wide i i (formatOf id) := by
  unfold formatOf
  split
  · exact .pure _
  · rename_i id
    obtain ⟨hsound, hlabel⟩ := h id rfl
    have hid : id.label? ≠ some .labelDoStmt := by
      rcases hlabel with hlabel | hlabel <;> rw [hlabel] <;> decide
    -- A text that is all there is to the identifier is a format.
    have htoken : ∀ {n : Node} {lx : Lexeme}, id.children.head? = some n → n.lexemes = [lx] →
        Moves wide i i (tokenFormat id lx) := by
      intro n lx hhead hlx
      refine moves_tokenFormat hid (fun hkind hwide => (hsound id (nodes_self id)).2 ?_)
      unfold Node.overflows
      rcases hlabel with hlabel | hlabel <;>
        simp [hlabel, hhead, hlx, hkind, hwide]
    split
    · exact .pure _
    · rename_i hhead
      exact htoken hhead rfl
    · rename_i hhead
      split
      · split
        · rename_i hlx
          exact htoken hhead hlx
        · exact .bind (moves_warn (by decide)) (fun _ => .pure _)
      · split
        · exact moves_labelledFormat id _
        · exact .bind (moves_warn (by decide)) (fun _ => .pure _)

/-! ## Units -/

theorem moves_handleOf (id : Option Node) : Moves wide i i (handleOf id) := by
  have hconsole : ∀ n, Moves wide i i (handleOf.console n) :=
    fun n => .bind (moves_warn (by decide)) (fun _ => .pure _)
  unfold handleOf
  split
  · exact .pure _
  · split
    · exact .pure _
    · split
      · exact .pure _
      · split
        · split
          · split
            · exact .pure _
            · exact .pure _
          · refine .bind (moves_spell _) (fun h => ?_)
            exact .bind (moves_note (by decide)) (fun _ => .pure _)
          · exact hconsole _
        · exact hconsole _

/-- The format among the specifiers is a node that may stand for one. -/
def Control.Sound (wide : Prop) (c : Control) : Prop :=
  ∀ n, c.format = some n → n.Sound wide ∧
    (n.label? = some .formatIdentifier ∨ n.label? = some .unitIdentifier)

/-- A specifier starts with a word or is a unit. -/
theorem ioControlSpec_head {spec first : Node} (h : spec.Sound wide)
    (hl : spec.hasLabel .ioControlSpec) (hfirst : spec.children.head? = some first) :
    first.isLeaf || first.hasLabel .unitIdentifier := by
  have hn := (h spec (nodes_self spec)).1
  cases spec with
  | leaf => cases hl
  | inner i l cs =>
    obtain rfl : l = .ioControlSpec := by simpa [Node.hasLabel, Node.label?] using hl
    have hhead : cs.head?.all fun c => c.isLeaf || c.hasLabel .unitIdentifier := hn
    rw [Node.children] at hfirst
    rw [hfirst] at hhead
    exact hhead

theorem yields_control {c : Control} (hc : c.Sound wide) {spec : Node} (h : spec.Sound wide)
    (hl : spec.hasLabel .ioControlSpec) :
    Yields wide i i (control c spec) (Control.Sound wide) := by
  unfold control
  split
  · exact .pure hc
  · split
    · refine .pure (fun n hn => ⟨h.child? hn, .inl ?_⟩)
      simpa [Node.hasLabel] using Node.hasLabel_child? hn
    · exact .pure hc
    · exact Moves.bind_yields (moves_warn (by decide)) (fun _ => .pure hc)
  · rename_i first hleaf hfirst
    split
    · exact .pure hc
    · refine .pure (fun n hn => ?_)
      obtain rfl := Option.some.inj hn
      have hmem : first ∈ spec.children := List.mem_of_mem_head? (by simp [hfirst])
      refine ⟨h.child hmem, .inr ?_⟩
      have hhead := ioControlSpec_head h hl hfirst
      cases first with
      | leaf j lx => exact absurd rfl (hleaf j lx)
      | inner => simpa [Node.hasLabel, Node.isLeaf] using hhead
    · exact .pure hc

theorem yields_controls {list : Option Node} (h : ∀ n, list = some n → n.Sound wide) :
    Yields wide i i (controls list) (Control.Sound wide) := by
  have hnone : Control.Sound wide {} := fun n hn => nomatch hn
  refine Yields.foldlM (fun c hc spec hspec => ?_) _ hnone
  cases list with
  | none => cases hspec
  | some n =>
    exact yields_control hc ((h n rfl).childrenWith hspec) (Node.hasLabel_childrenWith hspec)

/-! ## Output -/

mutual

theorem moves_impliedDo : ∀ n : Node, n.Sound wide → Moves wide i i (impliedDo n)
  | .leaf _ lx, _ => by
    rw [impliedDo]
    exact .pure _
  | .inner k l cs, h => by
    rw [impliedDo]
    refine .bind (moves_ident _) (fun v => .bind (moves_rangeOf (bounds_expressions h)) (fun r => ?_))
    refine .bind (moves_impliedLists cs (fun m hm => h.child hm)) (fun elements => ?_)
    split
    · exact .pure _
    · exact .pure _
    · exact .pure _

theorem moves_impliedLists : ∀ ns : List Node, (∀ n ∈ ns, n.Sound wide) →
    Moves wide i i (impliedLists ns)
  | [], _ => by
    rw [impliedLists]
    exact .pure _
  | .leaf _ _ :: rest, h => by
    rw [impliedLists]
    exact moves_impliedLists rest (fun n hn => h n (by simp [hn]))
  | .inner k l items :: rest, h => by
    rw [impliedLists]
    split
    · exact moves_impliedItems items (fun n hn => (h (.inner k l items) (by simp)).child hn)
    · exact moves_impliedLists rest (fun n hn => h n (by simp [hn]))

theorem moves_impliedItems : ∀ ns : List Node, (∀ n ∈ ns, n.Sound wide) →
    Moves wide i i (impliedItems ns)
  | [], _ => by
    rw [impliedItems]
    exact .pure _
  | n :: rest, h => by
    have hrest := moves_impliedItems rest (fun n hn => h n (by simp [hn]))
    rw [impliedItems]
    split
    · refine .bind (moves_impliedDo n (h n (by simp))) (fun e => ?_)
      exact .bind hrest (fun _ => .pure _)
    · rename_i hlabel
      have hexpr := (h n (by simp)).expression? (by simp [Node.hasLabel, hlabel])
      exact .bind (moves_exprOf hexpr) (fun e => .bind hrest (fun _ => .pure _))
    · exact hrest

end

theorem moves_outputItems {ns : List Node} (h : ∀ n ∈ ns, n.Sound wide) :
    Moves wide i i (outputItems ns) := by
  induction ns with
  | nil => exact .pure _
  | cons n rest ih =>
    have hrest := ih (fun n hn => h n (by simp [hn]))
    unfold outputItems
    split
    · refine .bind (moves_impliedDo n (h n (by simp))) (fun e => ?_)
      exact .bind hrest (fun _ => .pure _)
    · rename_i hlabel
      have hexpr := (h n (by simp)).expression? (by simp [Node.hasLabel, hlabel])
      exact .bind (moves_exprOf hexpr) (fun e => .bind hrest (fun _ => .pure _))
    · exact hrest

theorem moves_output {stmt : Node} (h : stmt.Sound wide) (hl : stmt.label? ≠ some .labelDoStmt)
    (handle : Handle) {c : Control} (hc : c.Sound wide) :
    Moves wide 0 0 (output stmt handle c.format) := by
  refine .bind (moves_outputItems (fun n hn => h.grandchildren hn)) (fun items => ?_)
  refine .bind (moves_formatOf hc) (fun f => ?_)
  split
  · exact moves_line rfl rfl
  · split
    · exact .bind (moves_note (Node.labelName_ne hl)) (fun _ => moves_line rfl rfl)
    · exact moves_line rfl rfl

/-- The format identifier of a statement. -/
theorem formatIdentifier_sound {stmt : Node} (h : stmt.Sound wide) :
    Control.Sound wide { format := stmt.child? .formatIdentifier } := by
  intro n hn
  refine ⟨h.child? hn, .inl ?_⟩
  simpa [Node.hasLabel] using Node.hasLabel_child? hn

theorem moves_printStmt {stmt : Node} (h : stmt.Sound wide) (hl : stmt.label? ≠ some .labelDoStmt) :
    Moves wide 0 0 (printStmt stmt) :=
  moves_output h hl .console (formatIdentifier_sound h)

theorem moves_writeStmt {stmt : Node} (h : stmt.Sound wide) (hl : stmt.label? ≠ some .labelDoStmt) :
    Moves wide 0 0 (writeStmt stmt) := by
  refine (yields_controls (fun n hn => h.child? hn)).bind_moves (fun c hc => ?_)
  exact .bind (moves_handleOf c.unit) (fun handle => moves_output h hl handle hc)

/-! ## Input -/

theorem moves_readItems {items : List Node} (h : ∀ n ∈ items, n.Sound wide) :
    ∀ k, Moves wide 0 0 (readItems k items) := by
  have hrefuse : ∀ item, Moves wide 0 0 (readItems.refuse item) := fun _ => moves_warn (by decide)
  induction items with
  | nil => exact fun _ => .pure _
  | cons item rest ih =>
    intro k
    have hrest := ih (fun n hn => h n (by simp [hn])) (k + 1)
    unfold readItems
    extract_lets number
    split
    · refine .bind (moves_target item) (fun left => ?_)
      exact .bind (moves_line rfl rfl) (fun _ => hrest)
    · split
      · rename_i v _ _
        split
        · refine .bind (moves_ident _) (fun index => ?_)
          refine .bind (moves_rangeOf (bounds_expressions (h item (by simp)))) (fun r => ?_)
          refine .bind (moves_open rfl rfl) (fun _ => ?_)
          exact .bind (.nested (moves_assigned v _)) (fun _ => .bind moves_close (fun _ => hrest))
        · exact .bind (hrefuse item) (fun _ => hrest)
      · exact .bind (hrefuse item) (fun _ => hrest)

theorem moves_readStmt {stmt : Node} (h : stmt.Sound wide) : Moves wide 0 0 (readStmt stmt) := by
  unfold readStmt
  extract_lets terminal format items transfer
  have hitems : ∀ n ∈ items, n.Sound wide :=
    fun n hn => h.grandchildren (List.mem_filter.1 hn).1
  clear_value items
  have hrecord : ∀ handle, Moves wide 0 0 (readStmt.readRecord handle items) := by
    intro handle
    refine .bind moves_binding (fun b => .bind (moves_line rfl rfl) (fun _ => ?_))
    exact moves_readItems hitems 1
  have htransfer : ∀ r handle {c : Control}, c.Sound wide →
      Moves wide 0 0 (transfer r handle c.format) := by
    intro r handle c hc
    refine .bind (moves_formatOf hc) (fun f => ?_)
    extract_lets record values
    have hvalues : ∀ r, Moves wide 0 0 (values r) := by
      intro r
      simp only [values]
      split
      · exact moves_line rfl rfl
      · split
        · refine .bind (moves_target _) (fun left => .bind .table (fun t => ?_))
          exact moves_line rfl rfl
        · exact hrecord handle
      · exact hrecord handle
    split
    · exact .bind (moves_note (by decide)) hvalues
    · exact hvalues ()
  split
  · rename_i list hlist
    refine (yields_controls (fun n hn => ?_)).bind_moves (fun c hc => ?_)
    · obtain rfl := Option.some.inj hn
      exact h.child? hlist
    · exact .bind (moves_handleOf c.unit) (fun handle => htransfer () handle hc)
  · exact htransfer () terminal (formatIdentifier_sound h)

/-! ## Files -/

theorem moves_connect (c : Connection) {spec : Node} (h : spec.Sound wide) :
    Moves wide i i (connect c spec) := by
  have hexpr : ∀ {e : Node}, spec.child? .expr = some e → e.expression?.isSome :=
    fun he => (h.child? he).expression? (Node.hasLabel_child? he)
  unfold connect
  split
  · split
    · rename_i he
      exact .bind (moves_exprOf (hexpr he)) (fun _ => .pure _)
    · rename_i he
      exact .bind (moves_exprOf (hexpr he)) (fun _ => .pure _)
    · exact .bind (moves_note (by decide)) (fun _ => .pure _)
    · exact .bind (moves_note (by decide)) (fun _ => .pure _)
    · exact .bind (moves_note (by decide)) (fun _ => .pure _)
    · exact .bind (moves_note (by decide)) (fun _ => .pure _)
    · exact .bind (moves_warn (by decide)) (fun _ => .pure _)
    · exact .bind (moves_warn (by decide)) (fun _ => .pure _)
    · exact .pure _
  · exact .pure _

theorem moves_openStmt {stmt : Node} (h : stmt.Sound wide) : Moves wide 0 0 (openStmt stmt) := by
  unfold openStmt
  extract_lets list
  refine .bind (moves_handleOf _) (fun handle => ?_)
  split
  · refine .bind (.foldlM (fun c spec hspec => moves_connect c ?_) _) (fun c => ?_)
    · cases hlist : list with
      | none => simp [hlist] at hspec
      | some n =>
        rw [hlist, Option.map_some, Option.getD_some] at hspec
        exact (h.child? hlist).childrenWith hspec
    · split
      · exact .bind (.pure _) (fun _ => moves_line rfl rfl)
      · refine .bind (moves_note (by decide)) (fun _ => ?_)
        exact .bind (.pure _) (fun _ => moves_line rfl rfl)
  · exact moves_warn (by decide)

theorem moves_onFile (f : String) (unit : Option Node) : Moves wide 0 0 (onFile f unit) := by
  refine .bind (moves_handleOf unit) (fun handle => ?_)
  split
  · exact moves_line rfl rfl
  · exact .pure _

/-! ## Jumps -/

theorem moves_labelMark (stmt : Node) : Moves wide 0 0 (labelMark stmt) := by
  unfold labelMark
  extract_lets label
  refine .bind .unit (fun u => ?_)
  split
  · exact moves_line rfl rfl
  · exact .pure _

theorem moves_jumpTable (selector : Expr) (labels : List Node) : ∀ number, 1 < number →
    Moves wide 1 1 (jumpTable selector number labels) := by
  induction labels with
  | nil => exact fun _ _ => .pure _
  | cons l rest ih =>
    intro number hnumber
    unfold jumpTable
    have hne : (number == 1) = false := by simpa using Nat.ne_of_gt hnumber
    rw [hne]
    refine .bind (moves_resume rfl rfl) (fun _ => ?_)
    exact .bind (.nested (moves_line rfl rfl)) (fun _ => ih (number + 1) (by omega))

theorem moves_computedGoto {stmt : Node} (h : stmt.Sound wide) :
    Moves wide 0 0 (computedGoto stmt) := by
  unfold computedGoto
  extract_lets labels
  split
  · exact .pure _
  · rename_i e he
    have htable : ∀ selector, Moves wide 0 0 (do
        jumpTable selector 1 labels
        if !labels.isEmpty then line .close) := by
      intro selector
      cases labels with
      | nil => exact .bind (.pure _) (fun _ => .pure _)
      | cons l rest =>
        refine .bind (j := 1) ?_ (fun _ => moves_close)
        refine .bind (moves_open rfl rfl) (fun _ => ?_)
        exact .bind (.nested (moves_line rfl rfl)) (fun _ => moves_jumpTable selector rest 2 (by omega))
    refine .bind (moves_exprOf ((h.child? he).expression? (Node.hasLabel_child? he))) (fun k => ?_)
    split
    · exact .bind (.pure _) htable
    · refine .bind moves_binding (fun b => .bind (moves_line rfl rfl) (fun _ => ?_))
      exact .bind (.pure _) htable

/-! ## Calls -/

theorem moves_isLoopIndex (name : String) : Moves wide i i (isLoopIndex name) :=
  .bind .unit (fun _ => .pure _)

theorem moves_writeBack (e : Expression) : Moves wide i i (writeBack e) := by
  unfold writeBack
  split
  · refine .bind .table (fun t => ?_)
    split
    · exact .pure _
    · refine .bind (moves_isLoopIndex _) (fun b => ?_)
      split
      · exact .pure _
      · split
        · split
          · exact .pure _
          · exact .bind (moves_ident _) (fun _ => .pure _)
        · split
          · exact .bind (moves_expr _) (fun _ => .pure _)
          · exact .pure _
        · exact .pure _
  · exact .pure _

theorem moves_callArguments {args : List Node}
    (h : ∀ n ∈ args, n.Sound wide ∧ n.hasLabel .subroutineArg) :
    Moves wide i i (callArguments args) := by
  induction args with
  | nil => exact .pure _
  | cons arg rest ih =>
    have hrest := ih (fun n hn => h n (by simp [hn]))
    obtain ⟨harg, hlabel⟩ := h arg (by simp)
    unfold callArguments
    split
    · split
      · exact .bind hrest (fun _ => .pure _)
      · exact .bind (moves_warn (by decide)) (fun _ => hrest)
    · rename_i hhead
      have hexpr := harg.head_expression?
        (.inr (.inr (by simpa [Node.hasLabel] using hlabel))) hhead
      refine .bind (moves_expressionOf hexpr) (fun e => .bind (moves_expr e) (fun value => ?_))
      exact .bind (moves_writeBack e) (fun back => .bind hrest (fun _ => .pure _))
    · exact hrest

theorem moves_unpack (targets : List WriteBack) : ∀ number,
    Moves wide 0 0 (unpack number targets) := by
  induction targets with
  | nil => exact fun _ => .pure _
  | cons w rest ih =>
    intro number
    unfold unpack
    split
    · exact .bind (moves_line rfl rfl) (fun _ => ih (number + 1))
    · exact ih (number + 1)

theorem moves_bindResults (call : Expr) (targets : List WriteBack) :
    Moves wide 0 0 (bindResults call targets) := by
  unfold bindResults
  refine .bind .unit (fun u => ?_)
  extract_lets global names
  split
  · exact moves_line rfl rfl
  · split
    · exact moves_line rfl rfl
    · exact .bind (moves_line rfl rfl) (fun _ => moves_unpack targets 1)

theorem moves_callStmt {stmt : Node} (h : stmt.Sound wide) : Moves wide 0 0 (callStmt stmt) := by
  unfold callStmt
  extract_lets name
  refine .bind (moves_callArguments (fun n hn => ?_)) (fun args => ?_)
  · obtain ⟨hmem, hlabel⟩ := List.mem_filter.1 hn
    exact ⟨h.grandchildren hmem, hlabel⟩
  · refine .bind (moves_callee _) (fun f => .bind .table (fun t => ?_))
    split
    · exact .bind (moves_warn (by decide)) (fun _ => moves_line rfl rfl)
    · split
      · exact .bind (moves_warn (by decide)) (fun _ => moves_bindResults _ _)
      · exact moves_bindResults _ _

/-! ## Returns and stops -/

/-- Names that have been spelled are written as the state says. -/
theorem idents_run {names : List String} : ∀ {s : LowerState},
    (∀ x ∈ names, (s.collection.table.spelling? x).isSome) →
    ∃ more, (idents names).run s = .ok (names.map s.variableName, s.recorded more) := by
  induction names with
  | nil => exact fun _ => ⟨[], by rw [LowerState.recorded_nil]; rfl⟩
  | cons x xs ih =>
    intro s h
    obtain ⟨more, hrun, -⟩ := ident_run s x
    have hkin : s.collection.table.Kin (s.recorded more).collection.table := .recorded _ more
    have hxs : ∀ y ∈ xs, ((s.recorded more).collection.table.spelling? y).isSome := by
      intro y hy
      obtain ⟨w, hw⟩ := Option.isSome_iff_exists.1 (h y (by simp [hy]))
      rw [hkin.spelling? hw]
      rfl
    obtain ⟨others, hrest⟩ := ih hxs
    have hnames : xs.map (s.recorded more).variableName = xs.map s.variableName :=
      List.map_congr_left (fun y hy => variableName_kept hkin rfl rfl (h y (by simp [hy])))
    refine ⟨more ++ others, ?_⟩
    rw [idents, run_bind_ok hrun, run_bind_ok hrest, hnames, LowerState.recorded_recorded]
    rfl

/-- The return from a unit: of the values of a routine, or of the program. -/
theorem returnCode_run {s : LowerState} (hs : s.Open) : ∃ more, returnCode.run s =
    .ok (if s.unit.isRoutine then .returns s.returned else .run (.call "exit" []),
      s.recorded more) := by
  have hunit : Lower.unit.run s = .ok (s.unit, s) := rfl
  rw [returnCode, run_bind_ok hunit]
  split
  · rename_i hkind
    obtain ⟨more, hrun, -⟩ := ident_run s s.unit.name
    refine ⟨more, ?_⟩
    rw [run_bind_ok hrun]
    simp [LowerState.returned, UnitState.isRoutine, hkind]
    rfl
  · rename_i hkind
    have htable : Lower.table.run s = .ok (s.collection.table, s) := rfl
    have hspelled : ∀ x ∈ s.collection.table.current.formals,
        (s.collection.table.spelling? x).isSome := fun x hx => hs.spelled x (by simp [hx])
    obtain ⟨more, hrun⟩ := idents_run hspelled
    refine ⟨more, ?_⟩
    rw [run_bind_ok htable, run_bind_ok hrun]
    simp [LowerState.returned, UnitState.isRoutine, hkind]
    rfl
  · rename_i hfunction hsubroutine
    have hroutine : s.unit.isRoutine = false := by
      simp only [UnitState.isRoutine, Bool.or_eq_false_iff, beq_eq_false_iff_ne]
      exact ⟨hfunction, hsubroutine⟩
    rw [hroutine]
    exact ⟨[], by rw [LowerState.recorded_nil]; rfl⟩

theorem moves_returnLine : Moves wide 0 0 (returnCode >>= line) := by
  intro s hs
  obtain ⟨more, hrun⟩ := returnCode_run hs
  have hrecorded : Evolves wide 0 0 s (s.recorded more) := .of_table (.recorded _ more)
  refine ⟨(), _, run_bind_ok hrun, hrecorded.trans hs (.of_line ?_ ?_)⟩
  · split <;> simp [Julia.Line.level, Code.opens, Code.resumes, Code.closes]
  · rw [(hrecorded.settled hs).2]
    split
    · exact beq_self_eq_true _
    · rfl

theorem moves_returnStmt (stmt : Node) : Moves wide 0 0 (returnStmt stmt) := by
  unfold returnStmt
  split
  · exact .bind (moves_warn (by decide)) (fun _ => moves_returnLine)
  · exact moves_returnLine

theorem moves_stopStmt (stmt : Node) : Moves wide 0 0 (stopStmt stmt) := by
  unfold stopStmt
  split
  · split
    · split
      · exact moves_line rfl rfl
      · exact moves_line rfl rfl
    · exact .bind (moves_line rfl rfl) (fun _ => moves_line rfl rfl)
    · exact moves_line rfl rfl
  · exact moves_line rfl rfl

end Lower

end FortranJulia
