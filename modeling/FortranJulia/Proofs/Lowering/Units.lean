import FortranJulia.Proofs.Lowering.Statements

/-!
Program units. Entering a unit opens its scope, with its name and its dummy arguments spelled, and
leaves the global scope as it is; after that the parts of the unit are steps between statements. So
every unit of a sound tree is lowered without a fault, whatever state it is met in.
-/

namespace FortranJulia

set_option autoImplicit false

open Julia (Expr Code Line)

/-! ## Dummy arguments -/

namespace Table

theorem spelling?_congr (t : Table) {x y : String} (h : nameKey x = nameKey y) :
    t.spelling? x = t.spelling? y := by
  simp only [spelling?, h]

theorem spell_isSome (t : Table) (x : String) : ((t.spell x).spelling? x).isSome := by
  obtain ⟨more, -, hspelled⟩ := t.spell_eq x
  rw [hspelled]
  rfl

theorem Kin.spelled {t u : Table} (h : t.Kin u) {x : String} (hx : (t.spelling? x).isSome) :
    (u.spelling? x).isSome := by
  obtain ⟨w, hw⟩ := Option.isSome_iff_exists.1 hx
  rw [h.spelling? hw]
  rfl

end Table

namespace Scope

/-- Each symbol has a name with its key. -/
def Keyed (s : Scope) : Prop :=
  ∀ e ∈ s.symbols, nameKey e.2.name = e.1

variable {s : Scope}

theorem Keyed.update (h : s.Keyed) (name : String) {f : Symbol → Symbol}
    (hf : ∀ y, (f y).name = y.name) : (s.update name f).Keyed := by
  have hdefine : (s.define name).Keyed := by
    unfold define
    split
    · exact h
    · intro e he
      rcases List.mem_append.1 he with he | he
      · exact h e he
      · obtain rfl := List.mem_singleton.1 he
        rfl
  intro e he
  obtain ⟨e', he', rfl⟩ := List.mem_map.1 he
  have hkey := hdefine e' he'
  split
  · rw [hf]
    exact hkey
  · exact hkey

theorem Keyed.getOrNew (h : s.Keyed) (name : String) :
    nameKey (s.getOrNew name).name = nameKey name := by
  unfold Scope.getOrNew Scope.get?
  cases hy : s.symbols.lookup (nameKey name) with
  | none => rfl
  | some y =>
    obtain ⟨before, behind, hsplit, -⟩ := List.lookup_eq_some_iff.1 hy
    exact h (nameKey name, y) (by simp [hsplit])

/-- One more dummy argument. -/
def addFormal (t : Scope) (name : String) : Scope :=
  let u := t.update name (·.mark .formal)
  { u with formals := u.formals ++ [(u.getOrNew name).name] }

theorem addFormal_keyed (h : s.Keyed) (name : String) : (s.addFormal name).Keyed := by
  have hu : (s.update name (·.mark .formal)).Keyed := h.update name (fun _ => rfl)
  exact hu

theorem addFormal_formals (h : s.Keyed) (name : String) :
    (s.addFormal name).formals.map nameKey = s.formals.map nameKey ++ [nameKey name] := by
  have hu : (s.update name (·.mark .formal)).Keyed := h.update name (fun _ => rfl)
  have hformals : (s.update name (·.mark .formal)).formals = s.formals :=
    congrArg (·.2.2) (s.frame_update name (·.mark .formal))
  simp only [addFormal, List.map_append, List.map_cons, List.map_nil, hu.getOrNew, hformals]

theorem foldl_addFormal (names : List String) : ∀ {t : Scope}, t.Keyed →
    (names.foldl addFormal t).formals.map nameKey =
      t.formals.map nameKey ++ names.map nameKey := by
  induction names with
  | nil => exact fun _ => (List.append_nil _).symm
  | cons name names ih =>
    intro t ht
    rw [List.foldl_cons, ih (addFormal_keyed ht name), addFormal_formals ht name, List.map_cons,
      List.append_assoc, List.singleton_append]

/-- The dummy arguments are those that are given, up to letter case. -/
theorem formals_setFormals (h : s.Keyed) (names : List String) :
    (s.setFormals names).formals.map nameKey = names.map nameKey :=
  foldl_addFormal names (t := { s with formals := [] }) h

theorem head_setFormals (s : Scope) (names : List String) :
    (s.setFormals names).name = s.name ∧ (s.setFormals names).kind = s.kind := by
  have hfold : ∀ (t : Scope), (names.foldl addFormal t).name = t.name ∧
      (names.foldl addFormal t).kind = t.kind := by
    induction names with
    | nil => exact fun _ => ⟨rfl, rfl⟩
    | cons name names ih =>
      intro t
      have hframe := t.frame_update name (·.mark .formal)
      obtain ⟨hname, hkind⟩ := ih (t.addFormal name)
      exact ⟨hname.trans (congrArg (·.1) hframe), hkind.trans (congrArg (·.2.1) hframe)⟩
  exact hfold { s with formals := [] }

end Scope

namespace Collection

/-- One more dummy argument as it is spelled. -/
def addParam (r : List String × Collection) (arg : Node) : List String × Collection :=
  (r.1 ++ [(r.2.spell arg).1], (r.2.spell arg).2)

theorem foldl_addParam (args : List Node) : ∀ {r : List String × Collection},
    (∀ x ∈ r.1, (r.2.table.spelling? x).isSome) →
    r.2.Kin (args.foldl addParam r).2 ∧
      (∀ x ∈ (args.foldl addParam r).1, ((args.foldl addParam r).2.table.spelling? x).isSome) ∧
      (args.foldl addParam r).1.map nameKey = r.1.map nameKey ++ args.map (nameKey ·.text) := by
  induction args with
  | nil => exact fun h => ⟨.refl _, h, (List.append_nil _).symm⟩
  | cons arg args ih =>
    intro r h
    have hspell := kin_spell r.2 arg
    have hkey : nameKey (r.2.spell arg).1 = nameKey arg.text := r.2.table.nameKey_spelling arg.text
    have hnext : ∀ x ∈ (addParam r arg).1, ((addParam r arg).2.table.spelling? x).isSome := by
      intro x hx
      rcases List.mem_append.1 hx with hx | hx
      · exact hspell.spelled (h x hx)
      · obtain rfl := List.mem_singleton.1 hx
        rw [Table.spelling?_congr _ hkey]
        exact r.2.table.spell_isSome arg.text
    obtain ⟨hkin, hspelled, hkeys⟩ := ih hnext
    refine ⟨hspell.trans hkin, hspelled, hkeys.trans ?_⟩
    simp only [addParam, List.map_append, List.map_cons, List.map_nil, hkey, List.append_assoc,
      List.cons_append, List.nil_append]

/-- The dummy arguments of a statement as they are spelled. -/
theorem params_spelled (c : Collection) (stmt : Option Node) :
    c.Kin (c.params stmt).2 ∧
      (∀ x ∈ (c.params stmt).1, ((c.params stmt).2.table.spelling? x).isSome) ∧
      (c.params stmt).1.map nameKey =
        ((stmt.map (·.findAll .dummyArgName)).getD []).map (nameKey ·.text) := by
  cases stmt with
  | none => exact ⟨.refl _, by simp [params], rfl⟩
  | some n =>
    have hnone : ∀ x ∈ ([], c).1, (c.table.spelling? x).isSome := by simp
    exact foldl_addParam (n.findAll .dummyArgName) hnone

theorem header_spelled (c : Collection) (unit : Node) :
    c.Kin (c.header unit).2 ∧
      ∀ x ∈ (c.header unit).1.params, ((c.header unit).2.table.spelling? x).isSome := by
  unfold header
  simp only
  split
  · obtain ⟨hkin, hspelled, -⟩ := c.params_spelled (unit.child? .functionStmt)
    exact ⟨hkin, hspelled⟩
  · obtain ⟨hkin, hspelled, -⟩ := c.params_spelled (unit.child? .subroutineStmt)
    exact ⟨hkin, hspelled⟩
  · exact ⟨.refl _, by simp⟩
  · exact ⟨.refl _, by simp⟩

/-- The scope of a unit when it is entered. -/
theorem enter_scope (c : Collection) (h : Header)
    (hspelled : ∀ x ∈ h.params, (c.table.spelling? x).isSome) :
    ∃ scope, (c.enter h).table.opened = some scope ∧ scope.name = c.table.spelling h.name ∧
      scope.kind = h.scope ∧ scope.formals.map nameKey = h.params.map nameKey ∧
      (c.enter h).table.global = c.table.global ∧
      ∀ x ∈ scope.name :: scope.formals, ((c.enter h).table.spelling? x).isSome := by
  obtain ⟨more, hspell, hname⟩ := c.table.spell_eq h.name
  have hsame : (c.table.spell h.name).spelling h.name = c.table.spelling h.name := by
    rw [Table.spelling, hname, Option.getD_some]
  -- The scope as it is entered, and with the result of a function declared in it.
  let fresh : Scope :=
    { name := c.table.spelling h.name, kind := h.scope, implicit := c.table.global.implicit }
  let scope := fresh.setFormals h.params
  obtain ⟨hscopeName, hscopeKind⟩ := fresh.head_setFormals h.params
  have hformals : scope.formals.map nameKey = h.params.map nameKey :=
    Scope.formals_setFormals (by simp [Scope.Keyed, fresh]) h.params
  have hglobal : (c.table.spell h.name).global = c.table.global := by rw [hspell]; rfl
  have hall : ∀ x ∈ scope.name :: scope.formals, ((c.table.spell h.name).spelling? x).isSome := by
    intro x hx
    rcases List.mem_cons.1 hx with rfl | hx
    · have hkey : nameKey scope.name = nameKey h.name := by
        rw [hscopeName]
        exact c.table.nameKey_spelling h.name
      rw [Table.spelling?_congr _ hkey]
      exact c.table.spell_isSome h.name
    · have hmem : nameKey x ∈ h.params.map nameKey := hformals ▸ List.mem_map_of_mem hx
      obtain ⟨y, hy, hkey⟩ := List.mem_map.1 hmem
      rw [Table.spelling?_congr _ hkey.symm]
      exact (Table.Kin.spell c.table h.name).spelled (hspelled y hy)
  have hfresh : (c.table.spell h.name).enter ((c.table.spell h.name).spelling h.name) h.scope =
      { (c.table.spell h.name).exit with opened := some fresh } := by
    rw [Table.enter, hsame, hglobal]
  by_cases hfunction : h.kind == .function
  · have htable : (c.enter h).table = { (c.table.spell h.name).exit with
        opened := some (scope.declare h.name h.type) } := by
      simp only [enter, hfunction, if_true, hfresh]
      rfl
    have hdeclared : (scope.declare h.name h.type).frame = scope.frame :=
      scope.frame_update h.name _
    obtain ⟨hsameName, hrest⟩ := Prod.mk.inj hdeclared
    obtain ⟨hsameKind, hsameFormals⟩ := Prod.mk.inj hrest
    rw [htable]
    refine ⟨_, rfl, hsameName.trans hscopeName, hsameKind.trans hscopeKind, ?_, hglobal, ?_⟩
    · rw [hsameFormals]
      exact hformals
    · rw [hsameName, hsameFormals]
      exact hall
  · have htable : (c.enter h).table = { (c.table.spell h.name).exit with opened := some scope } := by
      simp only [enter, hfunction, hfresh]
      rfl
    rw [htable]
    exact ⟨scope, rfl, hscopeName, hscopeKind, hformals, hglobal, hall⟩

end Collection

/-! ## Parts of units -/

namespace Lower

variable {wide : Prop} {i : Nat}

theorem carries_depth (f : Nat → Nat) :
    Carries wide (modify fun s => { s with depth := f s.depth } : Lower Unit) :=
  fun s _ => ⟨(), _, rfl, rfl, rfl, .refl _, ⟨[], rfl, by simp⟩, .inl, id⟩

/-- What follows the first line of a routine. -/
theorem carries_routineStart (stmt : Node) (u : UnitState) : Carries wide (do
    modify fun s => { s with depth := s.depth + 1 }
    trailing stmt
    if u.kind == .functionSubprogram then
      let type := (← Lower.table).typeOf u.name
      line (.assign .plain [.name (← ident u.name)] (zeroValue type))) := by
  refine (carries_depth (· + 1)).bind (fun _ => ?_)
  refine (moves_trailing stmt (Nat.zero_le 1)).carries.bind (fun _ => ?_)
  split
  · refine (Moves.table (i := 0)).carries.bind (fun t => ?_)
    exact (moves_ident (i := 0) _).carries.bind (fun v => (moves_line rfl rfl).carries)
  · exact (Moves.pure (i := 0) ()).carries

/-- The first line of a routine names it and its dummy arguments. -/
theorem routineHead_run (stmt : Node) {s : LowerState} (hs : s.Open) :
    (routineHead stmt).Does s fun _ t => Passes wide s t ∧ ∃ new, t.lines = new ++
      .code s.depth (.functionHead (escaped (s.collection.table.spelling s.unit.name))
        (s.collection.table.current.formals.map s.variableName)) :: s.lines := by
  have hunit : Lower.unit.run s = .ok (s.unit, s) := rfl
  have htable : Lower.table.run s = .ok (s.collection.table, s) := rfl
  have hformals : ∀ x ∈ s.collection.table.current.formals,
      (s.collection.table.spelling? x).isSome := fun x hx => hs.spelled x (by simp [hx])
  obtain ⟨more, hparams⟩ := idents_run hformals
  obtain ⟨others, hspell, -⟩ := spell_run (s.recorded more) s.unit.name
  have hspelling : (s.recorded more).collection.table.spelling s.unit.name =
      s.collection.table.spelling s.unit.name := by
    obtain ⟨w, hw⟩ := Option.isSome_iff_exists.1 (hs.spelled s.unit.name (by simp))
    have hlater : (s.recorded more).collection.table.spelling? s.unit.name = some w :=
      Table.spelling?_recorded hw more
    rw [Table.spelling, Table.spelling, hlater, hw]
  have hcallee : (callee s.unit.name).run (s.recorded more) =
      .ok (escaped (s.collection.table.spelling s.unit.name), s.recorded (more ++ others)) := by
    rw [callee, run_bind_ok hspell, hspelling, LowerState.recorded_recorded]
    rfl
  -- The state behind the first line.
  let c : Code := .functionHead (escaped (s.collection.table.spelling s.unit.name))
    (s.collection.table.current.formals.map s.variableName)
  let t : LowerState := { s.recorded (more ++ others) with lines := .code s.depth c :: s.lines }
  have hline : (line c).run (s.recorded (more ++ others)) = .ok ((), t) := rfl
  have hst : Passes wide s t := by
    refine ⟨rfl, rfl, .recorded _ _, ⟨[.code s.depth c], rfl, fun depth values hl => ?_⟩, .inl, id⟩
    have heq : Code.returns values = c := (Line.code.inj (List.mem_singleton.1 hl)).2
    simp [c] at heq
  obtain ⟨a, v, hrun, htv⟩ := carries_routineStart stmt s.unit t (hst.settled hs).1
  obtain ⟨new, hnew, -⟩ := htv.lines
  refine ⟨a, v, ?_, hst.trans hs htv, new.reverse, hnew⟩
  rw [routineHead, run_bind_ok hunit, run_bind_ok htable, run_bind_ok hparams, run_bind_ok hcallee,
    run_bind_ok hline]
  exact hrun

theorem carries_routineHead (stmt : Node) : Carries wide (routineHead stmt) :=
  fun _ hs => (routineHead_run stmt hs).imp (fun _ _ h => h.1)

/-- The loops that are given up are those that are open. -/
theorem abandonLoops_passes (stmt : Node) {loops : List OpenLoop} : ∀ {s : LowerState}, s.Open →
    s.unit.loops = loops → (abandonLoops stmt loops).Does s fun _ t => Passes wide s t := by
  induction loops with
  | nil => exact fun {s} _ _ => ⟨(), s, rfl, .refl s⟩
  | cons loop rest ih =>
    intro s hs hloops
    let warned : LowerState := { s with
      diagnostics := s.diagnostics ++ [⟨.warning, Label.labelDoStmt.name, stmt.place.1, stmt.place.2,
        "DO loop ending at label " ++ loop.label ++ " is never closed"⟩] }
    have hwarn : Passes wide s warned := ⟨rfl, rfl, .refl _, ⟨[], rfl, by simp⟩, .inl, id⟩
    have hclose : Passes wide s (warned.closeLoop rest) :=
      hwarn.trans hs (passes_closeLoop warned rest)
    obtain ⟨a, t, hrun, hst⟩ := ih (hclose.settled hs).1 rfl
    refine ⟨a, t, ?_, hclose.trans hs hst⟩
    have hwarned : (warn stmt Label.labelDoStmt.name
        ("DO loop ending at label " ++ loop.label ++ " is never closed")).run s =
        .ok ((), warned) := rfl
    have hwarnedLoops : warned.unit.loops = loop :: rest := hloops
    rw [abandonLoops, run_bind_ok hwarned, run_bind_ok (closeLoop_run hwarnedLoops), hrun]

theorem carries_unitEnd (whole stmt : Node) : Carries wide (unitEnd whole stmt) := by
  have hunit : Carries wide Lower.unit := (Moves.unit (i := 0)).carries
  have htrailing : ∀ r : Unit, Carries wide (trailing stmt) :=
    fun _ => (moves_trailing stmt (Nat.zero_le 1)).carries
  have hclose : ∀ r : Unit, Carries wide (do
      modify fun s => { s with depth := s.depth - 1 }
      line .close
      trailing stmt) :=
    fun _ => (carries_depth (· - 1)).bind (fun _ => moves_close.carries.bind htrailing)
  have hrest : Carries wide (do
      labelMark stmt
      if (← Lower.unit).isRoutine then
        if !endsWithReturn whole then line (← returnCode)
        modify fun s => { s with depth := s.depth - 1 }
        line .close
      trailing stmt) := by
    refine (moves_labelMark stmt).carries.bind (fun _ => hunit.bind (fun u => ?_))
    split
    · split
      · have hreturn := moves_returnLine.carries.bind hclose
        rw [bind_assoc] at hreturn
        exact hreturn
      · exact hclose ()
    · exact htrailing ()
  unfold unitEnd
  intro s hs
  have hgiven : (abandonLoops stmt s.unit.loops).Does s fun _ t => Passes wide s t :=
    abandonLoops_passes stmt hs rfl
  refine Does.unit (hgiven.bind (fun _ t hst => ?_))
  exact (hrest t (hst.settled hs).1).imp (fun _ _ htu => hst.trans hs htu)

theorem carries_unitPart (whole : Node) {part : Node} (h : part.Sound wide) :
    Carries wide (unitPart whole part) := by
  have htrailing : Carries wide (trailing part) := (moves_trailing part (Nat.zero_le 1)).carries
  unfold unitPart
  cases hlabel : part.label? with
  | none => exact (Moves.pure (i := 0) ()).carries
  | some l =>
    cases l with
    | functionStmt | subroutineStmt => exact carries_routineHead part
    | programStmt | blockDataStmt => exact htrailing
    | body => exact carries_statements part.children (fun n hn => h.child hn)
    | endProgramStmt | endFunctionStmt | endSubroutineStmt | endBlockDataStmt =>
      exact carries_unitEnd whole part
    | _ => exact (Moves.pure (i := 0) ()).carries

/-! ## Survey of a unit -/

theorem formatsOf_reports {stmts : List Node}
    (h : ∀ n ∈ stmts, n.Sound wide ∧ n.label? = some .formatStmt) :
    ∀ (found : List (String × Option PrintFormat)) (s : LowerState),
      (formatsOf stmts found).Does s fun _ t => Reports wide s t := by
  induction stmts with
  | nil => exact fun found s => ⟨found, s, rfl, .refl s⟩
  | cons stmt rest ih =>
    intro found s
    obtain ⟨hsound, hlabel⟩ := h stmt (by simp)
    have hspec : Format.tooWide (formatSpec (stmt.child? .fmtSpec)) → wide := by
      intro hwide
      refine (hsound stmt (nodes_self stmt)).2 ?_
      rw [Node.overflows, hlabel]
      exact hwide
    have hformat := reports_printFormat (by rw [hlabel]; decide) hspec s
    refine hformat.bind (fun f t hst => ?_)
    exact (ih (fun n hn => h n (by simp [hn])) _ t).imp (fun _ _ htu => hst.trans htu)

/-- The names that get a value before the first executable statement, unless they are known to have one. -/
def localNames (whole : Node) (u : UnitState) : List String :=
  distinctNames ((if u.isGlobal then [] else assignedNames whole) ++ passedNames whole)

/-- What is known about a unit when it is entered. -/
structure Surveyed (whole : Node) (u : UnitState) : Prop where
  kind : u.kind = whole.label?.getD .program
  targets : u.targets = jumpTargets whole
  loops : u.loops = []
  common : u.common = keysOf whole .commonBlockObject
  params : u.params = keysOf whole .namedConstantDef
  locals : u.locals = localNames whole u
  fresh : u.declared = [] ∧ u.arrays = [] ∧ u.localsDone = false

theorem survey_reports {whole : Node} (h : whole.Sound wide) (s : LowerState) :
    (survey whole).Does s fun u t => Reports wide s t ∧ Surveyed whole u := by
  have hformats : ∀ n ∈ whole.findAll .formatStmt, n.Sound wide ∧ n.label? = some .formatStmt := by
    intro n hn
    refine ⟨h.findAll hn, ?_⟩
    simpa [Node.hasLabel] using (List.mem_filter.1 hn).2
  exact (formatsOf_reports hformats [] s).bind (fun f t hst =>
    ⟨_, t, rfl, hst, rfl, rfl, rfl, rfl, rfl, rfl, rfl, rfl, rfl⟩)

end Lower

/-! ## Units -/

namespace LowerState

/-- The state in which the parts of a unit are lowered. -/
def entered (s : LowerState) (whole : Node) (u : UnitState) : LowerState :=
  { s with
    collection := s.collection.enterUnit whole
    unit := { u with name := (s.collection.enterUnit whole).table.current.name } }

/-- The state behind a unit. -/
def left (s : LowerState) : LowerState :=
  { s with collection := s.collection.exitUnit, unit := {}, depth := 0 }

theorem entered_open (s : LowerState) (whole : Node) (u : UnitState) :
    (s.entered whole u).Open ∧
      (s.entered whole u).collection.table.global = s.collection.table.global := by
  obtain ⟨hkin, hspelled⟩ := s.collection.header_spelled whole
  obtain ⟨scope, hopened, -, -, -, hglobal, hall⟩ :=
    (s.collection.header whole).2.enter_scope (s.collection.header whole).1 hspelled
  have hcurrent : (s.entered whole u).collection.table.current = scope := by
    show (Option.getD _ _) = scope
    rw [show (s.entered whole u).collection.table.opened = some scope from hopened]
    rfl
  refine ⟨⟨?_, ?_⟩, hglobal.trans hkin.global⟩
  · rw [show (s.entered whole u).collection.table.opened = some scope from hopened]
    rfl
  · intro x hx
    have hname : (s.entered whole u).unit.name = scope.name := congrArg Scope.name hcurrent
    rw [hcurrent, hname] at hx
    exact hall x hx

end LowerState

/-- A later state of the lowering of a program. -/
structure Extends (s t : LowerState) : Prop where
  global : t.collection.table.global = s.collection.table.global
  spellings : ∃ more, t.collection.table.spellings = s.collection.table.spellings ++ more
  lines : ∃ new, t.lines = new ++ s.lines

namespace Extends

variable {s t u : LowerState}

theorem refl (s : LowerState) : Extends s s :=
  ⟨rfl, ⟨[], (List.append_nil _).symm⟩, [], rfl⟩

theorem trans (h : Extends s t) (h' : Extends t u) : Extends s u := by
  obtain ⟨more, hmore⟩ := h.spellings
  obtain ⟨others, hothers⟩ := h'.spellings
  obtain ⟨new, hnew⟩ := h.lines
  obtain ⟨new', hnew'⟩ := h'.lines
  refine ⟨h'.global.trans h.global, ⟨more ++ others, ?_⟩, new' ++ new, ?_⟩
  · rw [hothers, hmore, List.append_assoc]
  · rw [hnew', hnew, List.append_assoc]

/-- A state with the same table and more lines. -/
theorem of_lines (new : List Line) (htable : t.collection.table = s.collection.table)
    (hlines : t.lines = new ++ s.lines) : Extends s t :=
  ⟨by rw [htable], ⟨[], by rw [htable, List.append_nil]⟩, new, hlines⟩

end Extends

theorem Passes.extends {wide : Prop} {s t : LowerState} (h : Passes wide s t) : Extends s t := by
  obtain ⟨new, hnew, -⟩ := h.lines
  exact ⟨h.table.global, h.table.spellings, new.reverse, hnew⟩

theorem Lower.Reports.extends {wide : Prop} {s t : LowerState} (h : Reports wide s t) :
    Extends s t := by
  obtain ⟨_, _, rfl, -⟩ := h
  exact .of_lines [] rfl rfl

theorem LowerState.entered_extends (s : LowerState) (whole : Node) (u : UnitState) :
    Extends s (s.entered whole u) := by
  obtain ⟨hkin, -⟩ := s.collection.header_spelled whole
  obtain ⟨more, hmore⟩ := hkin.spellings
  obtain ⟨others, hothers⟩ :=
    (Table.Kin.spell (s.collection.header whole).2.table (s.collection.header whole).1.name).spellings
  refine ⟨(s.entered_open whole u).2, ⟨more ++ others, ?_⟩, [], rfl⟩
  have henter : (s.entered whole u).collection.table.spellings =
      ((s.collection.header whole).2.table.spell (s.collection.header whole).1.name).spellings := by
    show ((s.collection.header whole).2.enter (s.collection.header whole).1).table.spellings = _
    unfold Collection.enter
    dsimp only
    split <;> rfl
  rw [henter, hothers, hmore, List.append_assoc]

theorem LowerState.left_extends (s : LowerState) : Extends s s.left :=
  ⟨rfl, ⟨[], (List.append_nil _).symm⟩, [], rfl⟩

/-- A step over whole units. -/
structure Spans (wide : Prop) (s t : LowerState) : Prop extends Extends s t where
  overflow : t.overflow → s.overflow ∨ wide

namespace Spans

variable {wide : Prop} {s t u : LowerState}

theorem refl (s : LowerState) : Spans wide s s :=
  ⟨.refl s, .inl⟩

theorem trans (h : Spans wide s t) (h' : Spans wide t u) : Spans wide s u :=
  ⟨h.toExtends.trans h'.toExtends, fun hu => (h'.overflow hu).elim h.overflow .inr⟩

end Spans

namespace Lower

variable {wide : Prop}

/-- A unit is surveyed, entered, lowered part by part and left. -/
theorem programUnit_run {whole : Node} (h : whole.Sound wide) (s : LowerState) :
    ∃ u t v, (survey whole).run s = .ok (u, t) ∧ Reports wide s t ∧ Surveyed whole u ∧
      (whole.children.forM (unitPart whole)).run (t.entered whole u) = .ok ((), v) ∧
      Passes wide (t.entered whole u) v ∧ (programUnit whole).run s = .ok ((), v.left) := by
  obtain ⟨u, t, hsurvey, hreports, hsurveyed⟩ := survey_reports h s
  have hparts : Carries wide (whole.children.forM (unitPart whole)) :=
    .forM (fun part hpart => carries_unitPart whole (h.child hpart))
  obtain ⟨a, v, hrun, hpasses⟩ := hparts _ (t.entered_open whole u).1
  refine ⟨u, t, v, hsurvey, hreports, hsurveyed, hrun, hpasses, ?_⟩
  rw [programUnit, run_bind_ok hsurvey]
  show (whole.children.forM (unitPart whole) >>= fun _ => _).run (t.entered whole u) = _
  rw [run_bind_ok hrun]
  rfl

theorem programUnit_spans {whole : Node} (h : whole.Sound wide) (s : LowerState) :
    (programUnit whole).Does s fun _ t => Spans wide s t := by
  obtain ⟨u, t, v, -, hreports, -, -, hpasses, hrun⟩ := programUnit_run h s
  have hentered := hreports.extends.trans (t.entered_extends whole u)
  refine ⟨(), v.left, hrun, hentered.trans (hpasses.extends.trans v.left_extends), ?_⟩
  obtain ⟨_, _, rfl, -, hover⟩ := hreports
  exact fun hv => (hpasses.overflow hv).elim hover .inr

theorem programUnits_spans {units : List Node} (h : ∀ n ∈ units, n.Sound wide) :
    ∀ s : LowerState, (programUnits units).Does s fun _ t => Spans wide s t := by
  induction units with
  | nil => exact fun s => ⟨(), s, rfl, .refl s⟩
  | cons unit rest ih =>
    intro s
    have hunit := programUnit_spans (h unit (by simp)) s
    cases rest with
    | nil => exact hunit
    | cons next rest =>
      refine hunit.bind (fun _ t hst => ?_)
      have hgap : Spans wide t { t with lines := .gap :: t.lines } :=
        ⟨.of_lines [.gap] rfl rfl, .inl⟩
      exact (ih (fun n hn => h n (by simp [hn])) { t with lines := .gap :: t.lines }).imp
        (fun _ _ htv => hst.trans (hgap.trans htv))

/-- Routines and block data come first, but no unit gets lost. -/
theorem mem_ordered {units : List Node} {n : Node} :
    n ∈ (units.partition (·.hasLabel .mainProgram)).2 ++
      (units.partition (·.hasLabel .mainProgram)).1 ↔ n ∈ units := by
  simp only [List.partition_eq_filter_filter, List.mem_append, List.mem_filter,
    Function.comp_apply, Bool.not_eq_true']
  cases n.hasLabel .mainProgram <;> simp

theorem wholeProgram_spans {units : List Node} (h : ∀ n ∈ units, n.Sound wide) (s : LowerState) :
    (wholeProgram units).Does s fun _ t => Spans wide s t := by
  have hkeys : Spans wide s { s with blockData := blockDataKeys units ++ s.blockData } :=
    ⟨.of_lines [] rfl rfl, .inl⟩
  obtain ⟨a, t, hrun, hst⟩ := programUnits_spans (fun n hn => h n (mem_ordered.1 hn))
    { s with blockData := blockDataKeys units ++ s.blockData }
  exact ⟨a, t, hrun, hkeys.trans hst⟩

theorem line_spans (c : Code) (s : LowerState) :
    Spans wide s { s with lines := .code s.depth c :: s.lines } :=
  ⟨.of_lines [.code s.depth c] rfl rfl, .inl⟩

/-- A comment needs no unit around it. -/
theorem comment_spans (text : String) (s : LowerState) :
    (comment text).Does s fun _ t => Spans wide s t := by
  unfold comment
  split
  · exact ⟨(), _, rfl, line_spans _ s⟩
  · rename_i hne
    have hlen : 1 ≤ (Text.trimChars text.toList).length := List.length_pos_iff.2 hne
    rw [itemsFrom, if_pos hlen]
    exact ⟨(), _, rfl, line_spans _ s⟩

/-- Nor does a name. -/
theorem lone_spans (name : String) (s : LowerState) :
    (callee name >>= fun w => line (.run (.name w))).Does s fun _ t => Spans wide s t := by
  obtain ⟨more, hrun, -⟩ := spell_run s name
  have hcallee : (callee name).run s = .ok (escaped (s.collection.table.spelling name), s.recorded more) :=
    run_bind_ok hrun
  exact ⟨(), _, run_bind_ok hcallee, ⟨rfl, ⟨more, rfl⟩, [_], rfl⟩, .inl⟩

theorem sourcePart_spans {n : Node} (h : n.Sound wide) (s : LowerState) :
    (sourcePart n).Does s fun _ t => Spans wide s t := by
  unfold sourcePart
  split
  · split
    · exact comment_spans _ s
    · exact lone_spans _ s
    · exact lone_spans _ s
    · exact ⟨(), s, rfl, .refl s⟩
  · exact wholeProgram_spans (fun m hm => h.child hm) s
  · exact ⟨(), s, rfl, .refl s⟩

theorem sources_spans {parts : List Node} (h : ∀ n ∈ parts, n.Sound wide) :
    ∀ s : LowerState, (parts.forM sourcePart).Does s fun _ t => Spans wide s t := by
  induction parts with
  | nil => exact fun s => ⟨(), s, rfl, .refl s⟩
  | cons part parts ih =>
    intro s
    refine (sourcePart_spans (h part (by simp)) s).bind (fun _ t hst => ?_)
    exact (ih (fun n hn => h n (by simp [hn])) t).imp (fun _ _ htu => hst.trans htu)

end Lower

end FortranJulia
