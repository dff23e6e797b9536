import FortranJulia.Proofs.Lowering.Transfers

/-!
Statements, with the loops that they open and close. A list of statements may leave loops open and
close loops that were open before it, so that its lines are not nested in themselves. What `Passes`
says holds of every list all the same: it succeeds, keeps what is settled about the unit, and returns
from it with one list of values only.
-/

namespace FortranJulia

set_option autoImplicit false

open Julia (Expr Code Line)

namespace Lower

variable {wide : Prop} {i j : Nat}

/-! ## Statements that open no block for others -/

theorem moves_needsZero (name : String) : Moves wide i i (needsZero name) := by
  unfold needsZero
  refine .bind .table (fun t => .bind .unit (fun u => .bind (moves_isResult name) (fun b => ?_)))
  split
  · exact .pure _
  · split
    · exact .pure _
    · exact .pure _

theorem moves_bindLocals : Moves wide 0 0 bindLocals := by
  refine .bind (.modifyUnit (fun _ => rfl) (fun _ _ => rfl)) (fun _ => .bind .unit (fun u => ?_))
  refine .forM (fun name _ => .bind (moves_needsZero name) (fun b => ?_))
  split
  · refine .bind .table (fun t => .bind moves_binding (fun b => .bind (moves_ident name) (fun v => ?_)))
    exact .bind (moves_line rfl rfl) (fun _ => moves_declare name)
  · exact .pure _

theorem moves_collect (stmt : Node) : Moves wide i i (collect stmt) := by
  refine .modify (fun s hs => .of_table ?_)
  cases h : s.collection.statement? stmt with
  | none => exact .refl _
  | some c => exact Collection.kin_statement? hs.unit h

theorem moves_before (stmt : Node) : Moves wide 0 0 (before stmt) := by
  unfold before
  refine .bind (moves_collect stmt) (fun _ => .bind .unit (fun u => .bind .table (fun t => ?_)))
  split
  · exact .bind moves_bindLocals (fun _ => moves_labelMark stmt)
  · exact moves_labelMark stmt

theorem moves_condition {stmt : Node} (h : stmt.Sound wide) : Moves wide i i (condition stmt) := by
  unfold condition
  split
  · rename_i e he
    exact moves_exprOf ((h.child? he).expression? (Node.hasLabel_child? he))
  · exact .pure _

/-- An IF block has parts. -/
theorem ifConstruct_ne_nil {stmt : Node} (h : stmt.Sound wide) (hl : stmt.hasLabel .ifConstruct) :
    stmt.children ≠ [] := by
  have hn := (h stmt (nodes_self stmt)).1
  cases stmt with
  | leaf => cases hl
  | inner i l cs =>
    obtain rfl : l = .ifConstruct := by simpa [Node.hasLabel, Node.label?] using hl
    have hparts : (cs.head?.any (·.hasLabel .ifThenStmt) && Node.armed cs.tail) = true := hn
    rintro rfl
    cases hparts

/-- A logical IF has a statement. -/
theorem ifStmt_ne_nil {k : Nat} {cs : List Node} (h : (Node.inner k .ifStmt cs).Sound wide) :
    cs ≠ [] := by
  have hn : cs.getLast?.any (fun c => !c.hasLabel .labelDoStmt && !c.hasLabel .ifConstruct) = true :=
    (h _ (nodes_self _)).1
  rintro rfl
  cases hn

theorem moves_closingLabel {stmt : Node} (h : stmt.Sound wide) :
    Moves wide i i (closingLabel stmt) := by
  unfold closingLabel
  split
  · rename_i hl
    refine .bind ?_ (fun _ => .pure _)
    unfold lastOf
    split
    · exact .pure _
    · rename_i hnone
      exact absurd (List.getLast?_eq_none_iff.1 hnone) (ifConstruct_ne_nil h hl)
  · exact .pure _

theorem moves_simple {stmt : Node} (h : stmt.Sound wide) (hl : stmt.label? ≠ some .labelDoStmt) :
    Moves wide 0 0 (simple stmt) := by
  have hname := Node.labelName_ne hl
  unfold simple
  cases hlabel : stmt.label? with
  | none => exact moves_warn hname
  | some l =>
    cases l with
    | labelDoStmt => exact absurd hlabel hl
    | assignmentStmt => exact moves_assignment h
    | stmtFunctionStmt => exact moves_stmtFunction h
    | gotoStmt => exact moves_line rfl rfl
    | computedGotoStmt => exact moves_computedGoto h
    | continueStmt | implicitStmt | formatStmt => exact .pure _
    | callStmt => exact moves_callStmt h
    | returnStmt => exact moves_returnStmt stmt
    | stopStmt => exact moves_stopStmt stmt
    | printStmt => exact moves_printStmt h hl
    | writeStmt => exact moves_writeStmt h hl
    | readStmt => exact moves_readStmt h
    | openStmt => exact moves_openStmt h
    | closeStmt | rewindStmt => exact moves_onFile _ _
    | typeDeclarationStmt | dimensionStmt => exact moves_bindAll _ (fun _ hn => h.findAll hn)
    | commonStmt => exact moves_common h
    | parameterStmt => exact moves_parameters h
    | dataStmt => exact moves_dataStmt h
    | externalStmt | intrinsicStmt => exact moves_note hname
    | _ => exact moves_warn hname

/-! ## Steps between statements -/

end Lower

/-- A step that may open and close loops. -/
structure Passes (wide : Prop) (s t : LowerState) : Prop where
  unit : { t.unit.fixed with loops := [] } = { s.unit.fixed with loops := [] }
  blockData : t.blockData = s.blockData
  table : s.collection.table.Kin t.collection.table
  lines : ∃ new : List Line, t.lines = new.reverse ++ s.lines ∧
    ∀ depth values, Line.code depth (.returns values) ∈ new → values = s.returned
  overflow : t.overflow → s.overflow ∨ wide
  localsDone : s.unit.localsDone → t.unit.localsDone

namespace Passes

variable {wide : Prop} {i j : Nat} {s t u : LowerState}

theorem settled (h : Passes wide s t) (hs : s.Open) : t.Open ∧ t.returned = s.returned := by
  have hname := congrArg UnitState.name h.unit
  have hkind := congrArg UnitState.kind h.unit
  exact FortranJulia.settled hs h.table hname hkind

theorem refl (s : LowerState) : Passes wide s s :=
  ⟨rfl, rfl, .refl _, ⟨[], rfl, by simp⟩, .inl, id⟩

theorem trans (hs : s.Open) (h : Passes wide s t) (h' : Passes wide t u) : Passes wide s u := by
  obtain ⟨new, hnew, hreturns⟩ := h.lines
  obtain ⟨new', hnew', hreturns'⟩ := h'.lines
  rw [(h.settled hs).2] at hreturns'
  refine ⟨h'.unit.trans h.unit, h'.blockData.trans h.blockData, h.table.trans h'.table,
    ⟨new ++ new', ?_, ?_⟩, ?_, ?_⟩
  · rw [hnew', hnew, List.reverse_append, List.append_assoc]
  · exact fun depth values hl =>
      (List.mem_append.1 hl).elim (hreturns depth values) (hreturns' depth values)
  · exact fun hu => (h'.overflow hu).elim h.overflow .inr
  · exact fun hs => h'.localsDone (h.localsDone hs)

/-- A step that changes the depth, the open loops and the lines only. -/
theorem of_loops {ls : List OpenLoop} {d : Nat} (new : List Line)
    (hnew : ∀ depth values, Line.code depth (.returns values) ∈ new → values = s.returned) :
    Passes wide s { s with
      depth := d, unit := { s.unit with loops := ls }, lines := new.reverse ++ s.lines } :=
  ⟨rfl, rfl, .refl _, ⟨new, rfl, hnew⟩, .inl, id⟩

end Passes

/-- A step inside a statement is a step between statements. -/
theorem Evolves.passes {wide : Prop} {i j : Nat} {s t : LowerState} (h : Evolves wide i j s t) :
    Passes wide s t := by
  obtain ⟨new, hnew, -, hkeeps⟩ := h.lines
  refine ⟨?_, h.blockData, h.table, ⟨new, hnew, fun depth values hl => ?_⟩, h.overflow,
    h.localsDone⟩
  · rw [h.unit]
  · have hvalues := hkeeps _ hl
    exact eq_of_beq hvalues

namespace Lower

variable {wide : Prop} {i j : Nat}

/-- Whenever a unit is open, the action succeeds and makes a step between statements. -/
def Carries (wide : Prop) {α : Type} (act : Lower α) : Prop :=
  ∀ s : LowerState, s.Open → act.Does s fun _ t => Passes wide s t

theorem Moves.carries {α : Type} {act : Lower α} (h : Moves wide i j act) : Carries wide act :=
  fun s hs => (h s hs).imp (fun _ _ hst => hst.passes)

namespace Carries

variable {α β : Type}

theorem bind {act : Lower α} {f : α → Lower β} (h : Carries wide act)
    (h' : ∀ a, Carries wide (f a)) : Carries wide (act >>= f) := by
  intro s hs
  refine (h s hs).bind (fun a t hst => ?_)
  exact (h' a t (hst.settled hs).1).imp (fun _ _ htu => hst.trans hs htu)

theorem forM {xs : List α} {f : α → Lower Unit} (h : ∀ x ∈ xs, Carries wide (f x)) :
    Carries wide (xs.forM f) := by
  induction xs with
  | nil => exact (Moves.pure (i := 0) ()).carries
  | cons x xs ih =>
    show Carries wide (f x >>= fun _ => xs.forM f)
    exact bind (h x (by simp)) (fun _ => ih (fun y hy => h y (by simp [hy])))

theorem nested {act : Lower Unit} (h : Carries wide act) : Carries wide (nested act) := by
  have hdepth : ∀ f : Nat → Nat,
      Carries wide (modify fun s => { s with depth := f s.depth } : Lower Unit) :=
    fun f s _ => ⟨(), _, rfl, rfl, rfl, .refl _, ⟨[], rfl, by simp⟩, .inl, id⟩
  exact bind (hdepth (· + 1)) (fun _ => bind h (fun _ => hdepth (· - 1)))

end Carries

/-! ## Loops -/

end Lower

namespace LowerState

/-- The state inside a loop whose head was just written. -/
def openLoop (s : LowerState) (v : String) (r : Expr) (loop : OpenLoop) : LowerState :=
  { s with
    depth := s.depth + 1
    lines := .code s.depth (.forHead v r) :: s.lines
    unit := { s.unit with loops := loop :: s.unit.loops } }

/-- The state behind the innermost loop, the others being `rest`. -/
def closeLoop (s : LowerState) (rest : List OpenLoop) : LowerState :=
  { s with
    depth := s.depth - 1
    lines := .code (s.depth - 1) .close :: s.lines
    unit := { s.unit with loops := rest } }

end LowerState

section Loops

variable {wide : Prop} {s t : LowerState}

theorem passes_openLoop (s : LowerState) (v : String) (r : Expr) (loop : OpenLoop) :
    Passes wide s (s.openLoop v r loop) :=
  .of_loops [.code s.depth (.forHead v r)] (by simp)

theorem passes_closeLoop (s : LowerState) (rest : List OpenLoop) :
    Passes wide s (s.closeLoop rest) :=
  .of_loops [.code (s.depth - 1) .close] (by simp)

end Loops

namespace Lower

variable {wide : Prop} {i j : Nat}

/-- The loop that a statement opens at a depth. -/
def loopOf (stmt : Node) (depth : Nat) : OpenLoop :=
  ⟨labelKey (childText stmt .doLblRef), depth,
    nameKey (childText ((stmt.child? .loopControl).getD stmt) .variableName)⟩

theorem doStmt_run {stmt control : Node} (h : stmt.Sound wide)
    (hcontrol : stmt.child? .loopControl = some control) {s : LowerState} (hs : s.Open) :
    ∃ t v r, Evolves wide 0 0 s t ∧
      (doStmt stmt).run s = .ok ((), t.openLoop v r (loopOf stmt t.depth)) := by
  have hident : Moves wide 0 0 (ident (childText control .variableName)) := moves_ident _
  have hrange : Moves wide 0 0 (rangeOf (control.childrenWith .expr)) :=
    moves_rangeOf (bounds_expressions (h.child? hcontrol))
  obtain ⟨v, t, hrun, hst⟩ := hident s hs
  obtain ⟨r, u, hrun', htu⟩ := hrange t (hst.settled hs).1
  refine ⟨u, v, r, hst.trans hs htu, ?_⟩
  unfold doStmt loopOf
  rw [hcontrol]
  show (ident (childText control .variableName) >>= fun v => _).run s = _
  rw [run_bind_ok hrun, run_bind_ok hrun']
  rfl

theorem carries_doStmt {stmt : Node} (h : stmt.Sound wide) : Carries wide (doStmt stmt) := by
  intro s hs
  cases hcontrol : stmt.child? .loopControl with
  | none =>
    refine ⟨(), s, ?_, .refl s⟩
    rw [doStmt, hcontrol]
    rfl
  | some control =>
    obtain ⟨t, v, r, hst, hrun⟩ := doStmt_run h hcontrol hs
    exact ⟨(), _, hrun, hst.passes.trans hs (passes_openLoop t v r _)⟩

theorem closeLoop_run {s : LowerState} {loop : OpenLoop} {rest : List OpenLoop}
    (h : s.unit.loops = loop :: rest) : closeLoop.run s = .ok ((), s.closeLoop rest) := by
  have hunit : Lower.unit.run s = .ok (s.unit, s) := rfl
  rw [closeLoop, run_bind_ok hunit, h]
  rfl

theorem closeLoops_cons (label : String) {s : LowerState} {loop : OpenLoop} {rest : List OpenLoop}
    (h : s.unit.loops = loop :: rest) : (closeLoops label (loop :: rest)).run s =
      if loop.label = label ∧ loop.depth + 1 = s.depth then
        (closeLoops label rest).run (s.closeLoop rest)
      else .ok ((), s) := by
  have hget : (get : Lower LowerState).run s = .ok (s, s) := rfl
  rw [closeLoops, run_bind_ok hget]
  simp only [Bool.and_eq_true, beq_iff_eq]
  split
  · exact run_bind_ok (closeLoop_run h)
  · rfl

/-- The loops that are closed are those that are open. -/
theorem closeLoops_passes (label : String) {loops : List OpenLoop} : ∀ {s : LowerState}, s.Open →
    s.unit.loops = loops → (closeLoops label loops).Does s fun _ t => Passes wide s t := by
  induction loops with
  | nil => exact fun {s} _ _ => ⟨(), s, rfl, .refl s⟩
  | cons loop rest ih =>
    intro s hs hloops
    unfold Does
    rw [closeLoops_cons label hloops]
    split
    · have hclose : Passes wide s (s.closeLoop rest) := passes_closeLoop s rest
      exact (ih (hclose.settled hs).1 rfl).imp (fun _ _ hst => hclose.trans hs hst)
    · exact ⟨(), s, rfl, .refl s⟩

theorem carries_after {stmt : Node} (h : stmt.Sound wide) : Carries wide (after stmt) := by
  refine (moves_trailing stmt (Nat.zero_le 1)).carries.bind (fun _ => ?_)
  refine (moves_closingLabel (i := 0) h).carries.bind (fun label => ?_)
  split
  · intro s hs
    exact closeLoops_passes label hs rfl
  · exact (Moves.pure (i := 0) ()).carries

/-! ## Lists of statements -/

/-- A property of actions that those have which open no loop, that a loop has and the end of a
statement, and that is kept when they are put together. -/
structure Stepping (wide : Prop) (P : ∀ α : Type, Lower α → Prop) : Prop where
  moves : ∀ {α : Type} {i j : Nat} {act : Lower α}, Moves wide i j act → P α act
  bind : ∀ {α β : Type} {act : Lower α} {f : α → Lower β}, P α act → (∀ a, P β (f a)) →
    P β (act >>= f)
  nested : ∀ {act : Lower Unit}, P Unit act → P Unit (Lower.nested act)
  doStmt : ∀ {stmt : Node}, stmt.Sound wide → P Unit (Lower.doStmt stmt)
  after : ∀ {stmt : Node}, stmt.Sound wide → P Unit (Lower.after stmt)

section Stepping

variable {P : ∀ α : Type, Lower α → Prop} (h : Stepping wide P)

include h

theorem Stepping.simple {stmt : Node} (hstmt : stmt.Sound wide) : P _ (simple stmt) := by
  by_cases hl : stmt.label? = some .labelDoStmt
  · rw [Lower.simple, hl]
    exact h.doStmt hstmt
  · exact h.moves (moves_simple hstmt hl)

theorem Stepping.blockMark {stmt : Node} (hstmt : stmt.Sound wide) : P _ (blockMark stmt) := by
  have htrailing : ∀ r : Unit, P _ (trailing stmt) :=
    fun _ => h.moves (moves_trailing stmt (Nat.zero_le 1))
  have hcondition : P _ (condition stmt) := h.moves (moves_condition (i := 0) hstmt)
  unfold Lower.blockMark
  split
  · refine h.bind (h.moves (moves_labelMark stmt)) (fun _ => h.bind hcondition (fun c => ?_))
    exact h.bind (h.moves (moves_open rfl rfl)) htrailing
  · exact h.bind hcondition (fun c => h.bind (h.moves (moves_resume rfl rfl)) htrailing)
  · exact h.bind (h.moves (moves_resume rfl rfl)) htrailing
  · refine h.bind (h.nested (h.moves (moves_labelMark stmt))) (fun _ => ?_)
    exact h.bind (h.moves moves_close) htrailing
  · exact htrailing ()

mutual

theorem Stepping.statement : ∀ n : Node, n.Sound wide → P _ (statement n)
  | .leaf k lx, hn => by
    rw [Lower.statement]
    exact h.simple hn
  | .inner k l cs, hn => by
    unfold Lower.statement
    split
    · exact Stepping.blocks cs (fun m hm => hn.child hm)
    · refine h.bind (h.moves (moves_condition (i := 0) hn)) (fun c => ?_)
      refine h.bind (h.moves (moves_open rfl rfl)) (fun _ => ?_)
      refine h.bind (h.nested (Stepping.action cs ?_ (fun m hm => hn.child hm))) (fun _ => ?_)
      · exact ifStmt_ne_nil hn
      · exact h.moves moves_close
    · exact h.simple hn

theorem Stepping.blocks : ∀ ns : List Node, (∀ n ∈ ns, n.Sound wide) → P _ (blocks ns)
  | [], _ => by
    rw [Lower.blocks]
    exact h.moves (.pure (i := 0) ())
  | .leaf k lx :: rest, hns => by
    have hrest := Stepping.blocks rest (fun n hn => hns n (by simp [hn]))
    rw [Lower.blocks]
    exact h.bind (h.blockMark (hns _ (by simp))) (fun _ => hrest)
  | .inner k l cs :: rest, hns => by
    have hrest := Stepping.blocks rest (fun n hn => hns n (by simp [hn]))
    have hthis := hns (.inner k l cs) (by simp)
    rw [Lower.blocks]
    split
    · exact h.bind (h.nested (Stepping.statements cs (fun n hn => hthis.child hn))) (fun _ => hrest)
    · exact h.bind (h.blockMark hthis) (fun _ => hrest)

theorem Stepping.action : ∀ ns : List Node, ns ≠ [] → (∀ n ∈ ns, n.Sound wide) → P _ (action ns)
  | [], hne, _ => absurd rfl hne
  | [stmt], _, hns => by
    rw [Lower.action]
    refine h.bind (h.moves (moves_collect (i := 0) stmt)) (fun _ => ?_)
    refine h.bind (Stepping.statement stmt (hns stmt (by simp))) (fun _ => ?_)
    exact h.moves (moves_trailing stmt (Nat.zero_le 1))
  | n :: m :: rest, _, hns => by
    rw [Lower.action]
    · exact Stepping.action (m :: rest) (by simp) (fun k hk => hns k (by simp [hk]))
    · simp

theorem Stepping.statements : ∀ ns : List Node, (∀ n ∈ ns, n.Sound wide) → P _ (statements ns)
  | [], _ => by
    rw [Lower.statements]
    exact h.moves (.pure (i := 0) ())
  | stmt :: rest, hns => by
    have hstmt := hns stmt (by simp)
    rw [Lower.statements]
    refine h.bind (h.moves (moves_before stmt)) (fun _ => ?_)
    refine h.bind (Stepping.statement stmt hstmt) (fun _ => h.bind (h.after hstmt) (fun _ => ?_))
    exact Stepping.statements rest (fun n hn => hns n (by simp [hn]))

end

end Stepping

theorem carries_stepping : Stepping wide fun _ act => Carries wide act where
  moves := Moves.carries
  bind := .bind
  nested := .nested
  doStmt := carries_doStmt
  after := carries_after

theorem carries_statement (n : Node) (h : n.Sound wide) : Carries wide (statement n) :=
  carries_stepping.statement n h

theorem carries_blockMark {stmt : Node} (h : stmt.Sound wide) : Carries wide (blockMark stmt) :=
  carries_stepping.blockMark h

theorem carries_blocks (ns : List Node) (h : ∀ n ∈ ns, n.Sound wide) : Carries wide (blocks ns) :=
  carries_stepping.blocks ns h

theorem carries_statements (ns : List Node) (h : ∀ n ∈ ns, n.Sound wide) :
    Carries wide (statements ns) :=
  carries_stepping.statements ns h

end Lower

end FortranJulia
