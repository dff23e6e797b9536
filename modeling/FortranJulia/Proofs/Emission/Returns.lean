import FortranJulia.Proofs.Emission.Nesting

/-!
Returns at the ends of routines. The last line of a routine before the end of its block, aside from
comments, is the return of its values: the END of the routine writes it, or it is that of a RETURN
which is the last statement. What a RETURN writes stays the last line unless it stands in a loop, or a
jump goes to the END.
-/

namespace FortranJulia

set_option autoImplicit false

open Julia (Code Line)

variable {wide : Prop}

namespace Node

/-- What a routine returns if names are spelled in some way: the variable of a function, or all the
dummy arguments of a subroutine. -/
def results (unit : Node) (spelling : String → String) : List String :=
  if unit.hasLabel .functionSubprogram then ["_" ++ spelling unit.unitName]
  else unit.dummyArgs.map fun x => Lower.escaped (spelling x)

/-- If the unit ends with a RETURN, then no loop is open there, and no jump goes to its END. -/
def ReturnsLast (unit : Node) : Prop :=
  Lower.endsWithReturn unit → unit.Closed ∧
    openLoops [] (Lower.grandchildren unit .body).dropLast = [] ∧
    ∀ last ∈ unit.children.getLast?,
      Lower.labelOf last = "" ∨ Lower.labelOf last ∉ Lower.jumpTargets unit

instance (unit : Node) : Decidable unit.Closed :=
  inferInstanceAs (Decidable (∀ part ∈ unit.findAll .conditionalBody, openLoops [] part.children = []))

instance (unit : Node) : Decidable unit.ReturnsLast :=
  inferInstanceAs (Decidable (Lower.endsWithReturn unit → unit.Closed ∧
    openLoops [] (Lower.grandchildren unit .body).dropLast = [] ∧
    ∀ last ∈ unit.children.getLast?,
      Lower.labelOf last = "" ∨ Lower.labelOf last ∉ Lower.jumpTargets unit))

end Node

namespace LowerState

/-- A state in which comments were written last. -/
def commented (s : LowerState) (notes : List String) : LowerState :=
  { s with lines := (notes.map fun c => .code s.depth (.comment c)) ++ s.lines }

end LowerState

/-- The last lines of a routine: the return from its body and the end of its block, with comments behind
each of them. -/
def routineEnd (values notes ends : List String) : List Line :=
  .code 1 (.returns values) :: ((notes.map fun c => .code 1 (.comment c)) ++
    .code 0 .close :: ends.map fun c => .code 0 (.comment c))

/-- Lines, the last one first, that end with a return from the body of a routine and comments behind
it. Before them stand those of `base`. -/
def Returned (base ls : List Line) : Prop :=
  ∃ (values notes : List String) (own : List Line),
    ls = (notes.map fun c => .code 1 (.comment c)) ++ .code 1 (.returns values) :: (own ++ base)

/-- Lines, the last one first, that end with the end of a routine whose body ends with a return. -/
def ReturnedLast (base ls : List Line) : Prop :=
  ∃ (ends : List String) (body : List Line), Returned base body ∧
    ls = (ends.map fun c => .code 0 (.comment c)) ++ .code 0 .close :: body

theorem Returned.commented {base : List Line} {s : LowerState} (h : Returned base s.lines)
    (hdepth : s.depth = 1) (notes : List String) : Returned base (s.commented notes).lines := by
  obtain ⟨values, old, own, hlines⟩ := h
  refine ⟨values, notes ++ old, own, ?_⟩
  rw [LowerState.commented, hlines, hdepth, List.map_append, List.append_assoc]

namespace Lower

variable {whole stmt : Node} {s : LowerState} {base : List Line}

/-! ## Comments -/

theorem comment_run (text : String) (s : LowerState) :
    ∃ c, (comment text).run s = .ok ((), s.commented [c]) := by
  unfold comment
  split
  · exact ⟨"", rfl⟩
  · rename_i cs hne
    have hlen : 1 ≤ (Text.trimChars text.toList).length := List.length_pos_iff.2 hne
    have hitems : (itemsFrom 1 (Text.trimChars text.toList)).run s =
        .ok ((Text.trimChars text.toList).drop 1, s) := by
      rw [itemsFrom, if_pos hlen]
      rfl
    exact ⟨_, run_bind_ok hitems⟩

theorem comments_run (lxs : List Lexeme) : ∀ s : LowerState,
    ∃ notes, (lxs.forM fun lx => comment lx.text).run s = .ok ((), s.commented notes) := by
  induction lxs with
  | nil => exact fun s => ⟨[], rfl⟩
  | cons lx lxs ih =>
    intro s
    obtain ⟨c, hrun⟩ := comment_run lx.text s
    obtain ⟨notes, hrest⟩ := ih (s.commented [c])
    refine ⟨notes ++ [c], ?_⟩
    show (comment lx.text >>= fun _ => lxs.forM fun lx => comment lx.text).run s = _
    rw [run_bind_ok hrun, hrest]
    simp [LowerState.commented]

/-- What comes at the end of a statement is comments. -/
theorem trailing_run (stmt : Node) (s : LowerState) :
    ∃ notes, (trailing stmt).run s = .ok ((), s.commented notes) := by
  unfold trailing
  split
  · exact ⟨[], rfl⟩
  · exact comments_run _ s

/-! ## Returns -/

/-- The return from a routine is written in its body. -/
theorem returnLine_returned (hs : s.Open) (hroutine : s.unit.isRoutine) (hdepth : s.depth = 1)
    (hbase : base <:+ s.lines) :
    (returnCode >>= line).Does s fun _ t =>
      t.depth = 1 ∧ t.unit = s.unit ∧ Returned base t.lines := by
  obtain ⟨more, hrun⟩ := returnCode_run hs
  obtain ⟨own, hown⟩ := hbase
  rw [if_pos hroutine] at hrun
  refine ⟨(), _, run_bind_ok hrun, hdepth, rfl, s.returned, [], own, ?_⟩
  show Line.code s.depth (.returns s.returned) :: s.lines = _
  rw [hdepth, ← hown]
  rfl

theorem returnStmt_returned (hs : s.Open) (hroutine : s.unit.isRoutine) (hdepth : s.depth = 1)
    (hbase : base <:+ s.lines) :
    (returnStmt stmt).Does s fun _ t => t.depth = 1 ∧ t.unit = s.unit ∧ Returned base t.lines := by
  unfold returnStmt
  split
  · let warned : LowerState := { s with
      diagnostics := s.diagnostics ++ [⟨.warning, Label.returnStmt.name, stmt.place.1, stmt.place.2,
        "alternate return index dropped"⟩] }
    have hwarn : (warn stmt Label.returnStmt.name "alternate return index dropped").run s =
        .ok ((), warned) := rfl
    have hwarned : warned.Open := ⟨hs.unit, hs.spelled⟩
    obtain ⟨_, t, hrun, ht⟩ := returnLine_returned hwarned hroutine hdepth hbase
    exact ⟨(), t, (run_bind_ok hwarn).trans hrun, ht⟩
  · exact returnLine_returned hs hroutine hdepth hbase

/-- A RETURN behind which no loop ends. -/
theorem statements_returned (hsound : stmt.Sound wide) (hlabel : stmt.hasLabel .returnStmt) (hs : s.Open)
    (hroutine : s.unit.isRoutine) (hdepth : s.depth = 1) (hloops : s.unit.loops = [])
    (hbase : base <:+ s.lines) :
    (statements [stmt]).Does s fun _ t =>
      t.depth = 1 ∧ t.unit.fixed = s.unit.fixed ∧ Returned base t.lines := by
  have hbefore : Moves wide 0 0 (before stmt) := moves_before stmt
  have hreturn : statement stmt = returnStmt stmt := by
    cases stmt with
    | leaf => cases hlabel
    | inner i l cs =>
      obtain rfl : l = .returnStmt := by simpa [Node.hasLabel, Node.label?] using hlabel
      rfl
  rw [statements, hreturn]
  refine (hbefore s hs).bind (fun _ t hst => ?_)
  have ht := (hst.settled hs).1
  have htkind := congrArg UnitState.kind hst.unit
  have htloops : t.unit.loops = [] := (congrArg UnitState.loops hst.unit).trans hloops
  have htroutine : t.unit.isRoutine := (UnitState.isRoutine_congr htkind).trans hroutine
  have htbase : base <:+ t.lines := by
    obtain ⟨new, hnew, -⟩ := hst.lines
    exact hbase.trans ⟨_, hnew.symm⟩
  refine (returnStmt_returned ht htroutine (hst.depth.trans hdepth) htbase).bind (fun _ u hu => ?_)
  obtain ⟨hudepth, hunit, hreturned⟩ := hu
  obtain ⟨notes, hnotes⟩ := trailing_run stmt u
  refine ⟨(), u.commented notes, ?_, hudepth, ?_, hreturned.commented hudepth notes⟩
  · have hloop : (u.commented notes).unit.loops = [] := by
      show u.unit.loops = []
      rw [hunit, htloops]
    have hafter : (after stmt).run u = .ok ((), u.commented notes) := by
      rw [after, run_bind_ok hnotes, closingLabel_eq hsound, pure_bind]
      split
      · show (closeLoops stmt.closing (u.commented notes).unit.loops).run (u.commented notes) = _
        rw [hloop]
        rfl
      · rfl
    rw [run_bind_ok hafter]
    rfl
  · show u.unit.fixed = s.unit.fixed
    rw [hunit]
    exact hst.unit

theorem statements_append (xs ys : List Node) :
    statements (xs ++ ys) = statements xs >>= fun _ => statements ys := by
  induction xs with
  | nil => rw [List.nil_append, statements, pure_bind]
  | cons x xs ih => rw [List.cons_append, statements_cons, ih, statements_cons x xs, bind_assoc]

/-- Statements of which the last one is a RETURN, and no loop is open there. -/
theorem statements_returned_last {front : List Node} (hsound : ∀ n ∈ front ++ [stmt], n.Sound wide)
    (hclosed : ∀ n ∈ front, n.Closed) (hreturn : stmt.hasLabel .returnStmt)
    (hnone : Node.openLoops [] front = []) (hs : s.Open) (hroutine : s.unit.isRoutine)
    (hdepth : s.depth = 1) (hloops : s.unit.loops = []) (hbase : base <:+ s.lines) :
    (statements (front ++ [stmt])).Does s fun _ t =>
      t.depth = 1 ∧ { t.unit.fixed with loops := [] } = { s.unit.fixed with loops := [] } ∧
        t.unit.loops = [] ∧ Returned base t.lines := by
  have hfront : ∀ n ∈ front, n.Sound wide := fun n hn => hsound n (List.mem_append_left _ hn)
  have hstands : Stands 1 [] [] s := ⟨hdepth, ⟨[], hloops, rfl, trivial⟩, by simp⟩
  rw [statements_append]
  refine (((draws_statements front hfront hclosed []).run _ _ s hs hstands).and
    (carries_statements front hfront s hs)).bind (fun _ t ht => ?_)
  obtain ⟨⟨htopen, htstands, -⟩, hpasses⟩ := ht
  rw [hnone] at htstands
  obtain ⟨own, htloops, hown, -⟩ := htstands.loops
  obtain rfl := List.map_eq_nil_iff.1 hown
  have htkind := congrArg UnitState.kind hpasses.unit
  have htroutine : t.unit.isRoutine := (UnitState.isRoutine_congr htkind).trans hroutine
  obtain ⟨new, hnew, -⟩ := hpasses.lines
  refine (statements_returned (hsound stmt (by simp)) hreturn htopen htroutine htstands.depth htloops
    (hbase.trans ⟨_, hnew.symm⟩)).imp (fun _ u hu => ?_)
  obtain ⟨hudepth, hufixed, hreturned⟩ := hu
  have huloops := (congrArg UnitState.loops hufixed).trans htloops
  refine ⟨hudepth, ?_, huloops, hreturned⟩
  rw [hufixed]
  exact hpasses.unit

/-! ## Ends of routines -/

theorem functionEnd_returned (stmt : Node) (hdepth : s.depth = 1) (h : Returned base s.lines) :
    (functionEnd stmt).Does s fun _ t => ReturnedLast base t.lines := by
  let closed : LowerState := { s with depth := 0, lines := .code 0 .close :: s.lines }
  obtain ⟨ends, hrun⟩ := trailing_run stmt closed
  refine ⟨(), closed.commented ends, ?_, ends, s.lines, h, rfl⟩
  have hstate : { s with depth := s.depth - 1, lines := .code (s.depth - 1) .close :: s.lines } =
      closed := by simp only [closed, hdepth]
  rw [← hrun, ← hstate]
  rfl

/-- The END of a routine that does not end with a RETURN writes the return, behind the loops that it
gives up and the mark of its label. -/
theorem unitEnd_returns (hs : s.Open) (hroutine : s.unit.isRoutine)
    (hdepth : s.depth = 1 + s.unit.loops.length) (hreturn : endsWithReturn whole = false)
    (hbase : base <:+ s.lines) :
    (unitEnd whole stmt).Does s fun _ t => ReturnedLast base t.lines := by
  have hmark : Moves False 0 0 (labelMark stmt) := moves_labelMark stmt
  unfold unitEnd
  refine Does.unit ((abandonLoops_nests stmt hs rfl hdepth).bind (fun _ t ht => ?_))
  obtain ⟨hopen, hst, hloops, hkind⟩ := ht
  refine (hmark t hopen).bind (fun _ u htu => Does.unit ?_)
  have hukind := congrArg UnitState.kind htu.unit
  have huroutine : u.unit.isRoutine :=
    (UnitState.isRoutine_congr (Eq.trans hukind hkind)).trans hroutine
  have hudepth : u.depth = 1 := by rw [htu.depth, hst.depth, hloops, List.length_nil]
  have hubase : base <:+ u.lines := by
    obtain ⟨new, hnew, -⟩ := hst.lines
    obtain ⟨more, hmore, -⟩ := htu.lines
    exact (hbase.trans ⟨_, hnew.symm⟩).trans ⟨_, hmore.symm⟩
  rw [if_pos huroutine, if_pos (by rw [hreturn]; rfl)]
  have hlast : ((returnCode >>= line) >>= fun _ => functionEnd stmt).Does u fun _ v =>
      ReturnedLast base v.lines :=
    (returnLine_returned (htu.settled hopen).1 huroutine hudepth hubase).bind
      (fun _ v hv => functionEnd_returned stmt hv.1 hv.2.2)
  rwa [bind_assoc] at hlast

/-- The END of a routine that ends with a RETURN writes no other line before the end of the block if no
loops are open and no jump goes to it. -/
theorem unitEnd_keeps_return (hroutine : s.unit.isRoutine) (hdepth : s.depth = 1)
    (hloops : s.unit.loops = []) (hreturn : endsWithReturn whole)
    (hlabel : labelOf stmt = "" ∨ labelOf stmt ∉ s.unit.targets) (h : Returned base s.lines) :
    (unitEnd whole stmt).Does s fun _ t => ReturnedLast base t.lines := by
  have hmark : (labelMark stmt).run s = .ok ((), s) := by
    have hunit : Lower.unit.run s = .ok (s.unit, s) := rfl
    rw [labelMark, run_bind_ok hunit, if_neg (by simpa [imp_iff_not_or] using hlabel)]
    rfl
  unfold unitEnd
  refine Does.unit ?_
  rw [hloops, abandonLoops, pure_bind]
  obtain ⟨_, t, hrun, ht⟩ := functionEnd_returned stmt hdepth h
  refine ⟨(), t, ?_, ht⟩
  rw [run_bind_ok hmark]
  refine Eq.trans ?_ hrun
  show StateT.run (if s.unit.isRoutine then _ else _) s = _
  rw [if_pos hroutine, if_neg (by simp [hreturn])]
  rfl

/-! ## Units -/

section Parts

variable {unit : Node} {l : Label} {head body : Option Node} {last : Node}

/-- Behind the head of a routine that does not end with a RETURN, the return is written for the END. -/
theorem parts_returned_end (h : UnitParts l unit.children head body last) (hsound : unit.Sound wide)
    (hends : endsWithReturn unit = false) (hs : s.Open) (hroutine : s.unit.isRoutine)
    (hdepth : s.depth = unitDepth s.unit) (hloops : s.unit.loops = []) (hbase : base <:+ s.lines) :
    ((body.toList ++ [last]).forM (unitPart unit)).Does s fun _ t => ReturnedLast base t.lines := by
  have hbody : ∀ n, body = some n → n.Sound wide := by
    rintro n rfl
    exact hsound.child (by simp [h.children])
  refine (body_levelled hbody h.bodyLabel hs hdepth hloops).append (fun t ht => ?_)
  obtain ⟨htopen, ⟨new, hnew, -⟩, htdepth, htkind⟩ := ht
  have htroutine : t.unit.isRoutine := (UnitState.isRoutine_congr htkind).trans hroutine
  rw [unitDepth, if_pos htroutine] at htdepth
  refine Does.single ?_
  rw [h.unitPart_last]
  exact unitEnd_returns htopen htroutine htdepth hends (hbase.trans ⟨_, hnew.symm⟩)

/-- Behind the head of a routine that ends with a RETURN, it is that RETURN which writes the return. -/
theorem parts_returned_body (h : UnitParts l unit.children head body last) (hsound : unit.Sound wide)
    (hends : endsWithReturn unit) (hreturns : unit.ReturnsLast) (hs : s.Open)
    (hroutine : s.unit.isRoutine) (hdepth : s.depth = unitDepth s.unit) (hloops : s.unit.loops = [])
    (htargets : s.unit.targets = jumpTargets unit) (hbase : base <:+ s.lines) :
    ((body.toList ++ [last]).forM (unitPart unit)).Does s fun _ t => ReturnedLast base t.lines := by
  obtain ⟨hclosed, hnone, hjumps⟩ := hreturns hends
  obtain ⟨stmt, hstmt, hreturn⟩ := (Option.any_eq_true _ _).1 hends
  obtain ⟨front, hfront⟩ : ∃ front, grandchildren unit .body = front ++ [stmt] :=
    ⟨_, (List.dropLast_append_getLast? stmt hstmt).symm⟩
  have hstmts := h.statements
  rw [hfront] at hnone hstmts
  rw [List.dropLast_concat] at hnone
  rw [unitDepth, if_pos hroutine] at hdepth
  cases body with
  | none => simp at hstmts
  | some n =>
    have hmem : n ∈ unit.children := by simp [h.children]
    have hchildren : n.children = front ++ [stmt] := hstmts.symm
    have hstatements := statements_returned_last
      (fun c hc => (hsound.child hmem).child (hchildren ▸ hc))
      (fun c hc => (hclosed.child hmem).child (hchildren ▸ List.mem_append_left _ hc)) hreturn hnone
      hs hroutine hdepth hloops hbase
    rw [← hchildren] at hstatements
    refine Does.append (Does.single (by rwa [unitPart, h.bodyLabel n rfl])) (fun t ht => ?_)
    obtain ⟨htdepth, htfixed, htloops, hreturned⟩ := ht
    have htkind := congrArg UnitState.kind htfixed
    have httargets : t.unit.targets = jumpTargets unit :=
      (congrArg UnitState.targets htfixed).trans htargets
    have hfinal := hjumps last (by rw [h.children, ← List.append_assoc, List.getLast?_concat]; rfl)
    refine Does.single ?_
    rw [h.unitPart_last]
    exact unitEnd_keeps_return ((UnitState.isRoutine_congr htkind).trans hroutine) htdepth htloops hends
      (httargets ▸ hfinal) hreturned

/-- The parts of a routine end with its return and with the end of its block. -/
theorem parts_returned (h : UnitParts l unit.children head body last) (hlabel : unit.label? = some l)
    (hsound : unit.Sound wide) (hunit : l.isUnit) (hroutine : unit.isRoutine)
    (hreturns : unit.ReturnsLast) (hs : s.Open) (hdepth : s.depth = 0) (hkind : s.unit.kind = l)
    (hloops : s.unit.loops = []) (htargets : s.unit.targets = jumpTargets unit) :
    (unit.children.forM (unitPart unit)).Does s fun _ t => ReturnedLast s.lines t.lines := by
  have hsroutine : s.unit.isRoutine := by
    rw [UnitState.isRoutine, hkind]
    rwa [Node.isRoutine, Node.hasLabel, Node.hasLabel, hlabel] at hroutine
  have hsplit : unit.children.forM (unitPart unit) =
      (head.toList ++ (body.toList ++ [last])).forM (unitPart unit) := by rw [← h.children]
  rw [hsplit]
  refine (head_levelled hs hdepth hkind hunit h.headed h.headLabel).append (fun t ht => ?_)
  obtain ⟨htopen, ⟨new, hnew, -⟩, htdepth, hfixed⟩ := ht
  have htkind := congrArg UnitState.kind hfixed
  have htroutine : t.unit.isRoutine := (UnitState.isRoutine_congr htkind).trans hsroutine
  have htloops : t.unit.loops = [] := (congrArg UnitState.loops hfixed).trans hloops
  have htbase : s.lines <:+ t.lines := ⟨_, hnew.symm⟩
  cases hends : endsWithReturn unit with
  | false => exact parts_returned_end h hsound hends htopen htroutine htdepth htloops htbase
  | true =>
    exact parts_returned_body h hsound hends hreturns htopen htroutine htdepth htloops
      ((congrArg UnitState.targets hfixed).trans htargets) htbase

end Parts

end Lower

namespace LowerState

/-- What a routine returns is spelled as the names are spelled in the end. -/
theorem entered_returned (s : LowerState) {unit : Node} {u : UnitState} (hroutine : unit.isRoutine)
    (hkind : u.kind = unit.label?.getD .program) {final : LowerState}
    (hlater : Extends (s.entered unit u) final) :
    (s.entered unit u).returned = unit.results final.collection.table.spelling := by
  obtain ⟨hopen, -⟩ := s.entered_open unit u
  cases hfunction : unit.hasLabel .functionSubprogram with
  | true =>
    have hlabel : unit.label? = some .functionSubprogram := eq_of_beq hfunction
    have hunit : (s.entered unit u).unit.kind = .functionSubprogram := hkind.trans (by rw [hlabel]; rfl)
    obtain ⟨hspelled, hspelling⟩ := hlater.spelling (hopen.spelled (s.entered unit u).unit.name (by simp))
    rw [Table.spelling_congr (s.entered_current unit u).1 hspelled] at hspelling
    simp [returned, Node.results, hfunction, hunit, variableName, isResult, hspelling]
  | false =>
    have hlabel : unit.hasLabel .subroutineSubprogram := by
      simpa [Node.isRoutine, hfunction] using hroutine
    have hunit : (s.entered unit u).unit.kind = .subroutineSubprogram :=
      hkind.trans (by rw [show unit.label? = _ from eq_of_beq hlabel]; rfl)
    rw [returned, Node.results, hfunction, hunit]
    exact s.entered_dummies hlabel hkind hlater

end LowerState

namespace Lower

/-- A routine that stands at no depth is written with its return at the end of its block. -/
theorem programUnit_returned {unit : Node} (hsound : unit.Sound wide) (hunit : IsProgramUnit unit)
    (hroutine : unit.isRoutine) (hreturns : unit.ReturnsLast) {s final : LowerState}
    (hdepth : s.depth = 0) (hfinal : (programUnit unit).Does s fun _ t => Extends t final) :
    ∃ (t : LowerState) (own : List Line) (notes ends : List String),
      Wrote final.lines.reverse (programUnit unit) s t
        (own ++ routineEnd (unit.results final.collection.table.spelling) notes ends) := by
  obtain ⟨l, head, body, last, hlabel, hl, hparts⟩ := hunit
  obtain ⟨u, r, v, -, hreports, hsurveyed, hrun, hpasses, hall⟩ := programUnit_run hsound s
  have hkind : u.kind = l := by rw [hsurveyed.kind, hlabel]; rfl
  have hsame : r.depth = s.depth ∧ r.lines = s.lines := by
    obtain ⟨_, _, rfl, -⟩ := hreports
    exact ⟨rfl, rfl⟩
  have hlater : Extends (r.entered unit u) final :=
    (hpasses.extends.trans v.left_extends).trans (hfinal.of_run hall)
  obtain ⟨ends, inside, ⟨values, notes, own, hinside⟩, hlines⟩ :=
    (parts_returned hparts hlabel hsound hl hroutine hreturns (r.entered_open unit u).1
      (hsame.1.trans hdepth) hkind hsurveyed.loops hsurveyed.targets).of_run hrun
  have hbase : (r.entered unit u).lines = s.lines := hsame.2
  obtain ⟨new, hnew, hvalues⟩ := hpasses.lines
  -- The return is one of the lines of the unit, so its values are those of all its returns.
  have hown : v.lines =
      (own.reverse ++ routineEnd values notes.reverse ends.reverse).reverse ++ s.lines := by
    rw [hlines, hinside, hbase]
    simp [routineEnd]
  have hsplit := List.reverse_injective (List.append_cancel_right (hnew.symm.trans (hbase ▸ hown)))
  have hreturned : values = unit.results final.collection.table.spelling := by
    rw [hvalues 1 values (hsplit ▸ by simp [routineEnd])]
    exact r.entered_returned hroutine hsurveyed.kind hlater
  subst hreturned
  exact ⟨v.left, own.reverse, notes.reverse, ends.reverse, .of_extends hall hown (hfinal.of_run hall)⟩

end Lower

/-! ## Programs -/

variable {name source : String} {p q : Parser} {root : Node} {o : Options}

/-- Each routine of a program returns the variable of the function, or all the dummy arguments of the
subroutine, in the last line of its body aside from comments, right before the end of its block. A
routine that ends with a RETURN does so if no loop is open there and no jump goes to its END. -/
theorem routines_return_last (hp : Parser.start? o.source (scan source) = some p)
    (hq : p.parse = .ok (.ok root, q)) :
    ∃ s : LowerState, (Generator.start root o).run (some root) =
        .ok (o.header ++ Line.render o.indentation s.lines.reverse, { Generator.start root o with
          state := { s with diagnostics := Diagnostic.sorted s.diagnostics } }) ∧
      ∀ unit ∈ root.units, unit.isRoutine → unit.ReturnsLast →
        ∃ (before after : LowerState) (own : List Line) (notes ends : List String),
          Wrote s.lines.reverse (Lower.programUnit unit) before after
            (own ++ routineEnd (unit.results s.collection.table.spelling) notes ends) := by
  have hsound : root.Sound True := fun n hn => ⟨parse_indexable hp hq hn, fun _ => trivial⟩
  have hsource := parse_sourcePart hp hq
  obtain ⟨s, hrun, hlowered⟩ := Generator.run_lines hsound o
  have hstarts := (Lower.sources_levelled (fun n hn => ⟨hsound.child hn, hsource n hn⟩)
    (s := (Generator.start root o).state) rfl).of_run hlowered
  have hruns := (Lower.runs_sources (fun n hn => hsound.child hn)
    (Generator.start root o).state).of_run hlowered
  refine ⟨s, hrun, fun unit hunit hroutine hreturns => ?_⟩
  obtain ⟨n, hn, hprogram, hmem⟩ := mem_units.1 hunit
  obtain ⟨run, hvisit, rfl⟩ := Lower.sourceRuns_nodes hn hprogram hmem (Generator.start root o).state
  have hparted : Lower.IsProgramUnit run.node := by
    rcases hsource n hn with hleaf | ⟨-, hunits⟩
    · cases n with
      | leaf => cases hprogram
      | inner => cases hleaf
    · exact hunits run.node hmem
  obtain ⟨t, own, notes, ends, hwrote⟩ := Lower.programUnit_returned ((hsound.child hn).child hmem) hparted
    hroutine hreturns (hstarts.2 run hvisit) (hruns run hvisit).2.behind
  exact ⟨run.state, t, own, notes, ends, hwrote⟩

/-- A function that ends with a RETURN, and a subroutine with a jump to its END. -/
theorem routines_return_last_jump :
    ∃ (p q : Parser) (root : Node) (s : LowerState), Parser.start? "" (scan
        "FUNCTION F(X)\nF=X\nRETURN\nEND\nSUBROUTINE S(X)\nIF (X.GT.0) GOTO 10\nX=1\n10 END") = some p ∧
      p.parse = .ok (.ok root, q) ∧
      (Generator.start root { indent := "  " }).run (some root) =
        .ok (({} : Options).header ++ Line.render "  " s.lines.reverse,
          { Generator.start root { indent := "  " } with
            state := { s with diagnostics := Diagnostic.sorted s.diagnostics } }) ∧
      Line.render "  " s.lines.reverse =
        "function F(X)\n  _F = 0.0\n  _F = X\n  return _F\nend\n\nfunction S(X)\n  if X > 0\n" ++
        "    @goto _10\n  end\n  X = 1.0\n  @label _10\n  return X\nend\n" ∧
      ∀ unit ∈ root.units, unit.isRoutine →
        ∃ (before after : LowerState) (own : List Line) (notes ends : List String),
          Wrote s.lines.reverse (Lower.programUnit unit) before after
            (own ++ routineEnd (unit.results s.collection.table.spelling) notes ends) := by
  have hstart := start_scan ""
    "FUNCTION F(X)\nF=X\nRETURN\nEND\nSUBROUTINE S(X)\nIF (X.GT.0) GOTO 10\nX=1\n10 END"
  have hok : ((Parser.matched? { source := "", tokens := (scan
      "FUNCTION F(X)\nF=X\nRETURN\nEND\nSUBROUTINE S(X)\nIF (X.GT.0) GOTO 10\nX=1\n10 END").toArray }).any
        fun root => root.units.all (fun unit => unit.ReturnsLast) &&
          ((Generator.start root { indent := "  " }).run (some root)).toOption.any
          fun r => r.1 == ({} : Options).header ++
            ("function F(X)\n  _F = 0.0\n  _F = X\n  return _F\nend\n\nfunction S(X)\n  if X > 0\n" ++
            "    @goto _10\n  end\n  X = 1.0\n  @label _10\n  return X\nend\n")) = true := by
    rw [scan_within]
    decide +kernel
  obtain ⟨root, hmatched, hroot⟩ := (Option.any_eq_true _ _).1 hok
  obtain ⟨hreturns, htext⟩ := Bool.and_eq_true_iff.1 hroot
  obtain ⟨q, hq⟩ := parse_of_match (Parser.start_sound hstart) hmatched
  obtain ⟨s, hrun, hwrote⟩ := routines_return_last (o := { indent := "  " }) hstart hq
  refine ⟨_, q, root, s, hstart, hq, hrun, ?_, fun unit hunit hroutine => hwrote unit hunit hroutine
    (of_decide_eq_true (List.all_eq_true.1 hreturns unit hunit))⟩
  rw [hrun] at htext
  obtain ⟨_, hsome, heq⟩ := (Option.any_eq_true _ _).1 htext
  obtain rfl := Option.some.inj hsome
  exact (String.append_right_inj _).1 (eq_of_beq heq)

/-- A jump to the END of a subroutine that ends with a RETURN goes past the return. -/
theorem return_jumped_over :
    ∃ p q root lines g, Parser.start? "" (scan
        "SUBROUTINE S(X)\nIF (X.GT.0) GOTO 10\nX=1\nRETURN\n10 END") = some p ∧
      p.parse = .ok (.ok root, q) ∧
      (Generator.start root { indent := "  " }).run (some root) =
        .ok (({} : Options).header ++ Line.render "  " lines, g) ∧
      Line.render "  " lines = "function S(X)\n  if X > 0\n    @goto _10\n  end\n  X = 1.0\n" ++
        "  return X\n  @label _10\nend\n" := by
  have hstart := start_scan "" "SUBROUTINE S(X)\nIF (X.GT.0) GOTO 10\nX=1\nRETURN\n10 END"
  have hok : ((Parser.matched? { source := "", tokens := (scan
      "SUBROUTINE S(X)\nIF (X.GT.0) GOTO 10\nX=1\nRETURN\n10 END").toArray }).any
        fun root => ((Generator.start root { indent := "  " }).run (some root)).toOption.any
          fun r => r.1 == ({} : Options).header ++
            ("function S(X)\n  if X > 0\n    @goto _10\n  end\n  X = 1.0\n" ++
            "  return X\n  @label _10\nend\n")) = true := by
    rw [scan_within]
    decide +kernel
  obtain ⟨root, hmatched, hroot⟩ := (Option.any_eq_true _ _).1 hok
  obtain ⟨q, hq⟩ := parse_of_match (Parser.start_sound hstart) hmatched
  have hsound : root.Sound True := fun n hn => ⟨parse_indexable hstart hq hn, fun _ => trivial⟩
  obtain ⟨s, hrun, -⟩ := Generator.run_lines hsound { indent := "  " }
  refine ⟨_, q, root, _, _, hstart, hq, hrun, ?_⟩
  rw [hrun] at hroot
  obtain ⟨_, hsome, heq⟩ := (Option.any_eq_true _ _).1 hroot
  obtain rfl := Option.some.inj hsome
  exact (String.append_right_inj _).1 (eq_of_beq heq)

end FortranJulia
