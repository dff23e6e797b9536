import FortranJulia.Proofs.Emission.Succession

/-!
References to arrays and procedures. In a parsed program, what has the syntax of an array element and of
a function reference alike is written as what it is: a name that a statement before gave dimensions is
indexed, and the name of a function or subroutine of the program is called, wherever it is defined, unless
the unit at hand hides it.
-/

namespace FortranJulia

set_option autoImplicit false

open Julia (Expr Line)
open Material (Resolved)

/-! ## Forms of references -/

namespace Reading

variable {r : Reading} {lx : Lexeme} {items : List Subscript} {rest : List (List Subscript)} {j : Expr}

/-- A reference to an array has the form of an element. -/
theorem Renders.indexed (h : r.Renders (.reference lx (items :: rest)) j) (hx : r.array lx.text) :
    ∃ w subs, r.Ident lx.text w ∧ r.RendersList items subs ∧
      r.RendersSuffixes (.index (.name w) subs) rest j := by
  cases h with
  | element _ hident hsubs hrest => exact ⟨_, _, hident, hsubs, hrest⟩
  | call hno => exact absurd hx hno
  | intrinsic hno => exact absurd hx hno

/-- A reference to a procedure has the form of a call. -/
theorem Renders.called (h : r.Renders (.reference lx (items :: rest)) j) (hx : r.procedure lx.text) :
    ∃ w args, r.Callee lx.text w ∧ r.RendersArguments items args ∧
      r.RendersSuffixes (.call w args) rest j := by
  cases h with
  | element hno => exact absurd hx hno
  | call _ hcallee hargs hrest => exact ⟨_, _, hcallee, hargs, hrest⟩
  | intrinsic _ hno => exact absurd hx hno

end Reading

/-! ## Scopes of units -/

/-- Each symbol of the scope has a name with its key and hides no procedure. -/
structure Scope.Clear (s : Scope) : Prop where
  keyed : s.Keyed
  shown : ∀ x y, s.get? x = some y → y.Transparent

namespace Scope.Clear

variable {s : Scope}

theorem empty (h : s.symbols = []) : s.Clear := by
  constructor
  · simp [Scope.Keyed, h]
  · simp [Scope.get?, h]

theorem update (h : s.Clear) (w : String) {f : Symbol → Symbol} (hf : Symbol.Tame f) :
    (s.update w f).Clear :=
  ⟨h.keyed.update w hf.name,
    fun x => Scope.transparent_update (h.shown x) (fun _ _ hy => hf.transparent hy)⟩

theorem setFormals (h : s.Clear) (names : List String) : (s.setFormals names).Clear := by
  have hfold : ∀ {t : Scope}, t.Clear → (names.foldl addFormal t).Clear := by
    induction names with
    | nil => exact fun ht => ht
    | cons name names ih =>
      intro t ht
      have hthis : (t.update name (·.mark .formal)).Clear := ht.update name (Symbol.tame_mark (by simp))
      exact ih ⟨hthis.keyed, hthis.shown⟩
  exact hfold (t := { s with formals := [] }) ⟨h.keyed, h.shown⟩

end Scope.Clear

/-- The scope of a unit that is entered is clear. -/
theorem Collection.enterUnit_clear (c : Collection) (unit : Node) :
    (c.enterUnit unit).table.current.Clear := by
  obtain ⟨h, d, hd⟩ : ∃ h d, c.header unit = (h, d) := ⟨_, _, rfl⟩
  have hfresh : ((d.table.spell h.name).enter ((d.table.spell h.name).spelling h.name)
      h.scope).current.Clear := .empty rfl
  have hformals := hfresh.setFormals h.params
  rw [← Table.current_modify _ (·.setFormals h.params)] at hformals
  rw [enterUnit, hd]
  show (d.enter h).table.current.Clear
  unfold enter
  simp only
  split
  · rw [Table.current_modify]
    exact hformals.update _ (Symbol.tame_declare _)
  · exact hformals

theorem LowerState.entered_name (s : LowerState) (whole : Node) (u : UnitState) :
    nameKey (s.entered whole u).unit.name = nameKey whole.unitName := by
  obtain ⟨-, hspelled⟩ := s.collection.header_spelled whole
  obtain ⟨scope, hopened, hname, -⟩ :=
    (s.collection.header whole).2.enter_scope (s.collection.header whole).1 hspelled
  have hcurrent : (s.entered whole u).collection.table.current = scope := by
    rw [Table.current, show (s.entered whole u).collection.table.opened = some scope from hopened]
    rfl
  have hunit : (s.entered whole u).unit.name = scope.name := congrArg Scope.name hcurrent
  rw [hunit, hname, Table.nameKey_spelling, Collection.header_name]

/-! ## Routines of programs -/

namespace Node

/-- The name is that of a function or subroutine of the program and of no other unit. -/
def HasRoutine (root : Node) (x : String) : Prop :=
  ∃ unit ∈ root.units,
    (unit.hasLabel .functionSubprogram ∨ unit.hasLabel .subroutineSubprogram) ∧
    unit.unitName ≠ "" ∧ nameKey unit.unitName = nameKey x ∧
    ∀ other ∈ root.units, nameKey other.unitName = nameKey x → other = unit

/-- A statement of the unit gives the name dimensions or lists it as intrinsic. -/
def Hides (unit : Node) (x : String) : Prop :=
  ∃ stmt ∈ unit.nodes, ∃ y, (stmt.Dimensions y ∨ stmt.ListsIntrinsic y) ∧ nameKey y = nameKey x

end Node

namespace Collection

/-- Names stay spelled when a unit is registered, and so does the name of the unit. -/
theorem addUnit_spelled (c : Collection) (unit : Node) {x : String}
    (h : (c.table.spelling? x).isSome ∨ nameKey unit.unitName = nameKey x ∧ unit.unitName ≠ "") :
    ((c.addUnit unit).table.spelling? x).isSome := by
  obtain ⟨hkin, -⟩ := c.header_spelled unit
  have hdefine : ∀ (t : Table) (name : String) kind type params,
      (t.defineUnit name kind type params).spelling? x = (t.spell name).spelling? x :=
    fun _ _ _ _ _ => rfl
  rw [addUnit, register_table, c.header_name unit]
  split
  · rename_i hname
    exact hkin.spelled (h.resolve_right (fun hunit => hunit.2 hname))
  · rw [hdefine]
    rcases h with h | ⟨hkey, -⟩
    · exact (Table.Kin.spell _ _).spelled (hkin.spelled h)
    · rw [← Table.spelling?_congr _ hkey]
      exact Table.spell_isSome _ _

/-- A routine is known and its name is spelled. -/
def Routine (c : Collection) (x : String) : Prop :=
  (∃ y, c.table.global.get? x = some y ∧ y.kind.isCallable ∧ y.kind ≠ .intrinsic) ∧
    (c.table.spelling? x).isSome

theorem header_routine (c : Collection) {unit : Node}
    (h : unit.hasLabel .functionSubprogram ∨ unit.hasLabel .subroutineSubprogram) :
    (c.header unit).1.kind.isCallable ∧ (c.header unit).1.kind ≠ .intrinsic := by
  unfold header
  rcases h with h | h <;> rw [eq_of_beq h] <;> exact ⟨rfl, nofun⟩

/-- A function or subroutine with a name that no other unit has is known once it is registered. -/
theorem routine_units {units : List Node} {unit : Node} {x : String}
    (hlabel : unit.hasLabel .functionSubprogram ∨ unit.hasLabel .subroutineSubprogram)
    (hname : unit.unitName ≠ "") (hkey : nameKey unit.unitName = nameKey x)
    (hunique : ∀ other ∈ units, nameKey other.unitName = nameKey x → other = unit) {c : Collection}
    (h : c.Routine x ∨ unit ∈ units) : (units.foldl addUnit c).Routine x := by
  induction units generalizing c with
  | nil => exact h.resolve_right (by simp)
  | cons other units ih =>
    refine ih (fun n hn => hunique n (by simp [hn])) ?_
    obtain ⟨y, hkind, -, hget⟩ := c.addUnit_get? other
    by_cases hother : other = unit
    · subst hother
      refine .inl ⟨⟨y, ?_, hkind ▸ c.header_routine hlabel⟩, c.addUnit_spelled other (.inr ⟨hkey, hname⟩)⟩
      rw [hget, if_pos ⟨hkey.symm, hname⟩]
    · have hne : nameKey x ≠ nameKey other.unitName :=
        fun heq => hother (hunique other (by simp) heq.symm)
      rcases h with ⟨⟨z, hz, hroutine⟩, hspelled⟩ | hmem
      · refine .inl ⟨⟨z, ?_, hroutine⟩, c.addUnit_spelled other (.inl hspelled)⟩
        rw [hget, if_neg (by simp [hne]), hz]
      · exact .inr ((List.mem_cons.1 hmem).resolve_left (fun heq => hother heq.symm))

end Collection

theorem Extends.routine {s t : LowerState} (h : Extends s t) {x : String}
    (hx : s.collection.Routine x) : t.collection.Routine x :=
  ⟨h.global ▸ hx.1, (h.spelling hx.2).1⟩

/-! ## Units -/

/-- The names to which statements that were visited give dimensions. -/
def Lower.arraysOf (before : List Visit) (x : String) : Prop :=
  ∃ d ∈ before, ∃ y, d.node.Dimensions y ∧ nameKey y = nameKey x

/-- When a unit is entered, nothing hides a procedure in it. -/
theorem LowerState.entered_resolved (s : LowerState) {whole : Node} {u : UnitState}
    (hu : Lower.Surveyed whole u) {procedures : String → Prop}
    (h : ∀ x, procedures x → s.collection.Routine x) :
    Resolved whole (fun _ => False) procedures (s.entered whole u).collection.table.spelling
      (s.entered whole u).collection (s.entered whole u).unit := by
  obtain ⟨hopen, hglobal⟩ := s.entered_open whole u
  have hclear : (s.entered whole u).collection.table.current.Clear := s.collection.enterUnit_clear whole
  refine ⟨⟨hopen.unit, hclear.keyed, fun _ hx => hx.elim, fun x hx => ?_, fun x _ => hclear.shown x,
    fun x hx => ?_⟩, ?_, s.entered_name whole u⟩
  · rw [hglobal]
    exact (h x hx).1
  · have hspelled := ((s.entered_extends whole u).spelling (h x (hx.resolve_left id)).2).1
    obtain ⟨w, hw⟩ := Option.isSome_iff_exists.1 hspelled
    rw [Table.spelling, hw]
    rfl
  · have hkind : (s.entered whole u).unit.kind = whole.label?.getD .program := hu.kind
    rw [hkind, Node.hasLabel]
    cases whole.label? with
    | none => rfl
    | some l => rfl

namespace Lower

variable {wide : Prop} {run v : Visit} {before behind : List Visit} {procedures : String → Prop}

/-- What is known of the names of a unit in the state in which one of its statements is lowered. -/
theorem visit_resolved (hsound : run.node.Sound wide)
    (hspares : ∀ k ∈ run.node.nodes, k.Spares procedures)
    (hroutines : ∀ x, procedures x → run.state.collection.Routine x)
    (hvisits : unitVisits run = before ++ v :: behind) {final : LowerState}
    (hfinal : Extends v.state final) :
    Resolved run.node (arraysOf before) procedures final.collection.table.spelling
      v.state.collection v.state.unit := by
  obtain ⟨u, t, w, hsurvey, hreports, hsurveyed, hparts, -⟩ := programUnit_run hsound run.state
  have hcollection : t.collection = run.state.collection := by
    obtain ⟨_, _, rfl, -⟩ := hreports
    rfl
  have hentered := t.entered_resolved hsurveyed (fun x hx => hcollection ▸ hroutines x hx)
  have hready : Ready run.node (t.entered run.node u) :=
    ⟨_, hentered.table.weaken (fun _ hx => hx.elim) (fun _ hx => hx.elim), hentered.kind, hentered.name⟩
  have halong := along_parts hspares run.node run.node.children (fun n hn => nodes_child hn) hready hparts
  have hall : partVisits run.node run.node.children (t.entered run.node u) = unitVisits run := by
    rw [unitVisits, hsurvey]
    rfl
  rw [hall, hvisits] at halong
  obtain ⟨hkept, hbefore⟩ := halong.split
  have hthis := hkept _ _ _ (fun _ hx => hx) hentered
  have hwritten : ∀ {x w : String}, v.state.collection.table.spelling? x = some w →
      v.state.collection.table.spelling? x = some (final.collection.table.spelling x) := by
    intro x w hw
    have hsame := (hfinal.spelling (x := x) (by rw [hw]; rfl)).2
    rw [hsame, Table.spelling, hw]
    rfl
  have harray : ∀ x, arraysOf before x → ∃ w, Resolved run.node (fun y => nameKey y = nameKey x)
      (fun _ => False) (fun _ => w) v.state.collection v.state.unit := by
    rintro x ⟨d, hd, y, hdims, hkey⟩
    obtain ⟨harrays, hretains⟩ := hbefore d hd
    obtain ⟨w, hw⟩ := harrays y hdims
    rw [hkey] at hw
    exact ⟨w, hretains _ _ _ (fun _ hx => hx.elim) hw⟩
  refine ⟨⟨hthis.table.opened, hthis.table.keyed, fun x hx => ?_, hthis.table.known, hthis.table.shown,
    fun x hx => ?_⟩, hthis.kind, hthis.name⟩
  · obtain ⟨w, hw⟩ := harray x hx
    exact hw.table.array x rfl
  · rcases hx with hx | hx
    · obtain ⟨w, hw⟩ := harray x hx
      exact hwritten (hw.table.spelled x (.inl rfl))
    · exact hwritten (hthis.table.spelled x (.inr hx))

/-- What is written for a statement and for an expression in its place. -/
theorem visit_written {unit : Node} {arrays : String → Prop} {written : String → String}
    (hv : Resolved unit arrays procedures written v.state.collection v.state.unit)
    (hspares : ∀ k ∈ v.node.nodes, k.Spares procedures) {t : LowerState}
    (hrun : (statement v.node).run v.state = .ok ((), t)) :
    ∃ (own : List Line) (found : List Diagnostic), t.lines = own.reverse ++ v.state.lines ∧
      t.diagnostics = v.state.diagnostics ++ found ∧
      (∀ l ∈ own, (Material.ofStatement v.node (.ofUnit unit arrays procedures written)
        v.node.Helps).Writes l) ∧
      ∀ d ∈ found, (Material.ofStatement v.node (.ofUnit unit arrays procedures written)
        v.node.Helps).Reports d := by
  have hfits : (Material.ofStatement v.node (.ofUnit unit arrays procedures written)
      v.node.Helps).Fits (Resolved unit arrays procedures written) v.node :=
    Material.resolved_fits hspares (fun _ hf => hf)
  obtain ⟨⟨-, ⟨new, hnew, hwrites⟩, found, hfound, hreports⟩, -⟩ :=
    makes_statement Material.resolved_lawful v.node hfits v.state (.start hv) () t hrun
  refine ⟨new.reverse, found, by rw [List.reverse_reverse, hnew], hfound, fun l hl => ?_, hreports⟩
  exact hwrites l (List.mem_reverse.1 hl)

theorem visit_renders {unit : Node} {arrays : String → Prop} {written : String → String}
    (hv : Resolved unit arrays procedures written v.state.collection v.state.unit)
    (hopen : v.state.Open) (e : Expression) :
    (expr e).Does v.state fun j _ => (Reading.ofUnit unit arrays procedures written).Renders e j := by
  have hmoves : Moves False 0 0 (expr e) := moves_expr e
  obtain ⟨j, t, hrun, -⟩ := hmoves v.state hopen
  have hlawful : (Material.ofStatement v.node (.ofUnit unit arrays procedures written)
      v.node.Helps).Lawful (Resolved unit arrays procedures written) := Material.resolved_lawful
  exact ⟨j, t, hrun, (makes_expr hlawful e (fun _ _ => trivial) v.state (.start hv) j t hrun).2⟩

end Lower

/-! ## Main statement -/

/-- The statements of a parsed program are lowered unit by unit in the order of the source. In each, a
name that a statement of the unit before it gives dimensions is an array, and the name of one function or
subroutine of the program that the unit does not hide is a procedure. Every expression is written with
arrays indexed and procedures called, under their names as the table spells them in the end. The lines of
the statement are made of expressions in it that are written so, and no diagnostic says of a procedure
that it is none. -/
theorem references_resolve {source : String} {o : Options} {p q : Parser} {root : Node}
    (hp : Parser.start? o.source (scan source) = some p) (hq : p.parse = .ok (.ok root, q)) :
    ∃ lines g, (Generator.start root o).run (some root) =
        .ok (o.header ++ Line.render o.indentation lines, g) ∧
      let runs := Lower.sourceRuns root.children (Generator.start root o).state
      (∀ unit ∈ root.units, ∃ run ∈ runs, run.node = unit) ∧
      ∀ run ∈ runs,
        (∀ stmt ∈ run.node.nodes, stmt.IsStatement → ∃ v ∈ Lower.unitVisits run, v.node = stmt) ∧
        List.Sublist ((Lower.unitVisits run).map (·.node)) run.node.nodes ∧
        ∀ before v behind, Lower.unitVisits run = before ++ v :: behind →
          let reading := Reading.ofUnit run.node (Lower.arraysOf before)
            (fun x => root.HasRoutine x ∧ ¬ run.node.Hides x) g.state.collection.table.spelling
          let material := Material.ofStatement v.node reading v.node.Helps
          (∀ e, (Lower.expr e).Does v.state fun j _ => reading.Renders e j) ∧
          ∃ t own found, Wrote lines (Lower.statement v.node) v.state t own ∧
            t.diagnostics = v.state.diagnostics ++ found ∧
            (∀ l ∈ own, material.Writes l) ∧ ∀ d ∈ found, material.Reports d := by
  have hsound : root.Sound True := fun n hn => ⟨parse_indexable hp hq hn, fun _ => trivial⟩
  obtain ⟨hroot, hparts⟩ := parse_program hp hq
  obtain ⟨s, hrun, hlowered⟩ := Generator.run_lines hsound o
  obtain ⟨_, s', hlowered', hruns⟩ := Lower.runs_sources (fun n hn => hsound.child hn)
    (Generator.start root o).state
  obtain rfl : s' = s := congrArg Prod.snd (Except.ok.inj (hlowered'.symm.trans hlowered))
  refine ⟨_, _, hrun, ?_, fun run hmem => ⟨?_, Lower.unitVisits_sublist run, ?_⟩⟩
  · intro unit hunit
    obtain ⟨n, hn, hprogram, hmem⟩ := mem_units.1 hunit
    exact Lower.sourceRuns_nodes hn hprogram hmem _
  · intro stmt hstmt hstatement
    obtain ⟨⟨n, hn, hprogram, hunit⟩, -⟩ := hruns run hmem
    have hnode := nodes_trans (nodes_child hn) (nodes_child hunit)
    rcases hparts n hn with hleaf | ⟨-, hunits⟩
    · cases n with
      | leaf => cases hprogram
      | inner => cases hleaf
    · exact Lower.unit_covers hstatement (hsound.node hnode) ((parse_placed hp hq).node hnode)
        (hunits run.node hunit) hstmt
  · intro before v behind hvisits
    obtain ⟨hunit, hwithin⟩ := hruns run hmem
    have hunitSound := hsound.node (units_nodes (mem_units.2 hunit))
    have hvisit : v ∈ Lower.unitVisits run := by
      rw [hvisits]
      simp
    -- The unit is lowered on the way to the last state, and so is the statement.
    obtain ⟨_, t, hunitRun, hlater⟩ := hwithin.behind
    obtain ⟨_, t', hunitRun', hstatements⟩ := Lower.visits_unit hunitSound
    obtain rfl : t' = t := congrArg Prod.snd (Except.ok.inj (hunitRun'.symm.trans hunitRun))
    obtain ⟨⟨hvisitSound, hopen⟩, hplace⟩ := hstatements v hvisit
    obtain ⟨_, u, hstatement, hbehind⟩ := hplace.behind
    obtain ⟨_, u', hstatement', hpasses⟩ := Lower.carries_statement v.node hvisitSound v.state hopen
    obtain rfl : u' = u := congrArg Prod.snd (Except.ok.inj (hstatement'.symm.trans hstatement))
    have hspares : ∀ k ∈ run.node.nodes,
        k.Spares fun x => root.HasRoutine x ∧ ¬ run.node.Hides x :=
      fun k hk x hx y hy hkey => hx.2 ⟨k, hk, y, hy, hkey⟩
    have hnode : v.node ∈ run.node.nodes :=
      (Lower.unitVisits_sublist run).subset (List.mem_map_of_mem hvisit)
    have hroutines : ∀ x, root.HasRoutine x ∧ ¬ run.node.Hides x → run.state.collection.Routine x := by
      rintro x ⟨⟨unit, hunit, hlabel, hname, hkey, hunique⟩, -⟩
      refine hwithin.before.routine ?_
      show (Collection.ofTree true (some root) .empty).Routine x
      rw [Collection.ofTree_units hroot hparts]
      exact Collection.routine_units hlabel hname hkey hunique (.inr hunit)
    have hresolved := Lower.visit_resolved hunitSound hspares hroutines hvisits
      (hpasses.extends.trans (hbehind.trans hlater))
    obtain ⟨own, found, hown, hfound, hwrites, hreports⟩ := Lower.visit_written hresolved
      (fun k hk => hspares k (nodes_trans hnode hk)) hstatement
    exact ⟨Lower.visit_renders hresolved hopen, u', own, found,
      .of_extends hstatement hown (hbehind.trans hlater), hfound, hwrites, hreports⟩

/-- An array with the name of an intrinsic function is indexed, and a function that is defined further
down is called. -/
theorem references_resolve_shadowed :
    ∃ p q root run decl v, Parser.start? "" (scan
        "SUBROUTINE S\nREAL ABS(3)\nX=ABS(F(X))\nEND\nFUNCTION F(Y)\nEND") = some p ∧
      p.parse = .ok (.ok root, q) ∧
      run ∈ Lower.sourceRuns root.children (Generator.start root {}).state ∧
      Lower.unitVisits run = [decl, v] ∧ decl.node.Dimensions "ABS" ∧
      root.HasRoutine "F" ∧ ¬ run.node.Hides "F" ∧
      (Lower.behind (Lower.statement v.node) v.state).lines.map (Line.text "\t") =
        "\tX = ABS[F(X)]\n" :: v.state.lines.map (Line.text "\t") ∧
      ∃ reading written, reading = Reading.ofUnit run.node (Lower.arraysOf [decl])
          (fun x => root.HasRoutine x ∧ ¬ run.node.Hides x) written ∧
        ∀ lx items rest,
        (lx.text = "ABS" → (Lower.expr (.reference lx (items :: rest))).Does v.state fun j _ =>
          ∃ w subs, reading.Ident lx.text w ∧ reading.RendersList items subs ∧
            reading.RendersSuffixes (.index (.name w) subs) rest j) ∧
        (lx.text = "F" → (Lower.expr (.reference lx (items :: rest))).Does v.state fun j _ =>
          ∃ w args, reading.Callee lx.text w ∧ reading.RendersArguments items args ∧
            reading.RendersSuffixes (.call w args) rest j) := by
  have hstart := start_scan ""
    "SUBROUTINE S\nREAL ABS(3)\nX=ABS(F(X))\nEND\nFUNCTION F(Y)\nEND"
  have hok : ((Parser.matched? { source := "", tokens := (scan
      "SUBROUTINE S\nREAL ABS(3)\nX=ABS(F(X))\nEND\nFUNCTION F(Y)\nEND").toArray }).any
        fun root => root.units.any (fun unit => unit.hasLabel .functionSubprogram && unit.unitName == "F") &&
        ((root.units.filter (nameKey ·.unitName == nameKey "F")).length == 1 &&
        (Lower.sourceRuns root.children (Generator.start root {}).state).any fun run =>
          ((run.node.nodes.all fun stmt => [Label.dimensionStmt, .commonStmt, .intrinsicStmt].all
            fun l => !stmt.hasLabel l) &&
          (run.node.findAll .entityDecl).all (nameKey ·.text != nameKey "F")) &&
          ((Lower.unitVisits run).length == 2 &&
          ((Lower.unitVisits run).head?.any (fun decl => decl.node.hasLabel .typeDeclarationStmt &&
              (decl.node.findAll .entityDecl).any (fun k => k.hasChild .arraySpec && "ABS" == k.text)) &&
            (Lower.unitVisits run).getLast?.any (fun v =>
              (Lower.behind (Lower.statement v.node) v.state).lines.map (Line.text "\t") ==
                "\tX = ABS[F(X)]\n" :: v.state.lines.map (Line.text "\t")))))) = true := by
    rw [scan_within]
    decide +kernel
  obtain ⟨root, hmatched, hroot⟩ := (Option.any_eq_true _ _).1 hok
  obtain ⟨q, hq⟩ := parse_of_match (Parser.start_sound hstart) hmatched
  simp only [Bool.and_eq_true, List.any_eq_true, List.all_eq_true, beq_iff_eq] at hroot
  obtain ⟨⟨unit, hunit, hlabel, hname⟩, hone, run, hmem, hhides, htwo, hdecls, huses⟩ := hroot
  obtain ⟨decl, v, hboth⟩ := List.length_eq_two.1 htwo
  rw [hboth, List.head?_cons, Option.any_some] at hdecls
  rw [hboth, List.getLast?_cons_cons, List.getLast?_singleton, Option.any_some] at huses
  simp only [Bool.and_eq_true, List.any_eq_true, beq_iff_eq] at hdecls huses
  obtain ⟨hdecl, k, hk, hspec, htext⟩ := hdecls
  have hlines := huses
  have hdims : decl.node.Dimensions "ABS" := .inl ⟨hdecl, k, hk, hspec, htext⟩
  have hroutine : root.HasRoutine "F" := by
    obtain ⟨only, honly⟩ := List.length_eq_one_iff.1 hone
    have hsame : ∀ other ∈ root.units, nameKey other.unitName = nameKey "F" → other = only := by
      intro other hother hkey
      exact List.mem_singleton.1 (honly ▸ List.mem_filter.2 ⟨hother, by simp [hkey]⟩)
    refine ⟨unit, hunit, .inl hlabel, by rw [hname]; decide, by rw [hname], fun other hother hkey => ?_⟩
    rw [hsame other hother hkey, hsame unit hunit (by rw [hname])]
  have hshown : ¬ run.node.Hides "F" := by
    rintro ⟨stmt, hstmt, y, hy, hkey⟩
    obtain ⟨hlabels, hentities⟩ := hhides
    have hnot : ∀ l ∈ [Label.dimensionStmt, .commonStmt, .intrinsicStmt], ¬ stmt.hasLabel l := by
      intro l hl
      simpa using hlabels stmt hstmt l hl
    rcases hy with (⟨-, k, hk, -, rfl⟩ | ⟨hl, -⟩ | ⟨hl, -⟩) | ⟨hl, -⟩
    · obtain ⟨hnode, hentity⟩ := List.mem_filter.1 hk
      have hne := hentities k (List.mem_filter.2 ⟨nodes_trans hstmt hnode, hentity⟩)
      exact (bne_iff_ne.1 hne) hkey
    · exact hnot _ (by simp) hl
    · exact hnot _ (by simp) hl
    · exact hnot _ (by simp) hl
  obtain ⟨_, g, -, -, hall⟩ := references_resolve (o := {}) hstart hq
  obtain ⟨-, -, hwritten⟩ := hall run hmem
  obtain ⟨hrenders, -⟩ := hwritten [decl] v [] hboth
  refine ⟨_, q, root, run, decl, v, hstart, hq, hmem, hboth, hdims, hroutine, hshown, hlines,
    _, g.state.collection.table.spelling, rfl, fun lx items rest => ⟨fun hlx => ?_, fun hlx => ?_⟩⟩
  · exact (hrenders _).imp (fun j _ hj => hj.indexed ⟨decl, by simp, "ABS", hdims, by rw [hlx]⟩)
  · refine (hrenders _).imp (fun j _ hj => hj.called ?_)
    rw [hlx]
    exact ⟨hroutine, hshown⟩

end FortranJulia
