import FortranJulia.Proofs.Emission.References
import FortranJulia.Proofs.Naming.Collecting

/-!
One name, one text. The spelling of a name is settled by its first occurrence, wherever that is, and from
the table at the end of a lowering one can tell what is written for each name in each of its roles. The
units of a program are lowered as if that table had been known from the start, so that it does not matter
in which order names are met, and every name in the code of a unit is one that the table gives.
-/

namespace FortranJulia

set_option autoImplicit false

open Julia (Expr Code Line)

/-! ## Units -/

/-- A unit is entered in the same way behind an earlier lowering. -/
theorem LowerState.entered_behind (s : LowerState) (whole : Node) (u : UnitState) {past : Past}
    (h : past.Knows (s.entered whole u).collection.table.spellings) :
    (s.behind past).entered whole u = (s.entered whole u).behind past := by
  obtain ⟨-, hbehind⟩ := Collection.steady_enterUnit whole s.collection
  have hsame : (s.collection.behind past).enterUnit whole =
      (s.collection.enterUnit whole).behind past := (Prod.mk.inj (hbehind past h)).2
  show ({ s.behind past with
    collection := (s.collection.behind past).enterUnit whole
    unit := { u with name := ((s.collection.behind past).enterUnit whole).table.current.name } } :
      LowerState) = _
  rw [hsame]
  rfl

theorem LowerState.left_behind (s : LowerState) (past : Past) :
    (s.behind past).left = s.left.behind past := by
  simp only [left, behind, Collection.exitUnit, Collection.behind, Collection.exit_behind]

namespace Lower

variable {ν : Naming} {pre : Prop}

theorem spells_unitPart (whole part : Node) : Spells ν .free pre (unitPart whole part) fun _ => True := by
  unfold unitPart
  split
  · exact spells_routineHead part
  · exact spells_routineHead part
  · exact spells_trailing part
  · exact spells_trailing part
  · exact spells_statements part.children
  · exact spells_unitEnd whole part
  · exact spells_unitEnd whole part
  · exact spells_unitEnd whole part
  · exact spells_unitEnd whole part
  · exact .pure fun _ => trivial

theorem spells_formatsOf (stmts : List Node) : ∀ {pre : Prop} {found : List (String × Option PrintFormat)},
    Spells ν .free pre (formatsOf stmts found) fun _ => True := by
  induction stmts with
  | nil => exact .pure fun _ => trivial
  | cons stmt rest ih => exact (spells_printFormat stmt _).bind fun _ => ih

theorem spells_survey (whole : Node) : Spells ν .free pre (survey whole) fun _ => True :=
  (spells_formatsOf _).bind fun _ => .pure fun _ => trivial

/-- Here nothing is said of the lines, as each unit has a naming of its own. -/
theorem steady_programUnit (whole : Node) : Spells ν .free False (programUnit whole) fun _ => True := by
  have henter : ∀ {pre : Prop} (u : UnitState), ¬ pre →
      Spells ν .free pre (modify (·.entered whole u) : Lower Unit) fun _ => True := by
    intro pre u hpre s a t hrun
    obtain ⟨-, rfl⟩ := Prod.mk.inj (Except.ok.inj hrun)
    refine ⟨(Collection.steady_enterUnit whole s.collection).1, ⟨rfl, fun past hknows _ => ?_⟩,
      fun _ h => absurd h hpre⟩
    rw [← s.entered_behind whole u hknows]
    rfl
  have hleave : ∀ {pre : Prop}, ¬ pre →
      Spells ν .free pre (modify LowerState.left : Lower Unit) fun _ => True := by
    intro pre hpre s a t hrun
    obtain ⟨-, rfl⟩ := Prod.mk.inj (Except.ok.inj hrun)
    refine ⟨List.prefix_rfl, ⟨rfl, fun past _ _ => ?_⟩, fun _ h => absurd h hpre⟩
    rw [← s.left_behind]
    rfl
  refine (spells_survey whole).bind fun u => (henter u fun h => h.1).bind fun _ => ?_
  exact (Spells.forM fun part _ => spells_unitPart whole part).bind fun _ => hleave fun h => h.1.1.1

end Lower

/-- The naming of a unit: the name of a function stands for its result. -/
def Naming.ofUnit (final : Table) (unit : Node) : Naming where
  final := final
  result x := unit.hasLabel .functionSubprogram && nameKey x == nameKey unit.unitName

/-- The lowering of a unit adds to the spellings and can be repeated. -/
theorem Lower.programUnit_repeats {whole : Node} {s t : LowerState}
    (hrun : (programUnit whole).run s = .ok ((), t)) :
    s.collection.table.spellings <+: t.collection.table.spellings ∧ (programUnit whole).Repeats s () t := by
  have hsteady : Spells (.ofUnit {} whole) .free False (programUnit whole) fun _ => True :=
    steady_programUnit whole
  exact ⟨(hsteady s () t hrun).1, (hsteady s () t hrun).2.1⟩

/-- Names in different letter case are written alike in each of their roles. -/
theorem Naming.written_congr {final : Table} {x y : String} (hkey : nameKey x = nameKey y)
    (hx : (final.spelling? x).isSome) {unit unit' : Node} {role : Role}
    (hrole : role = .procedure ∨ unit = unit') :
    (ofUnit final unit).written role x = (ofUnit final unit').written role y := by
  have hsame : final.spelling x = final.spelling y := Table.spelling_congr hkey hx
  rcases hrole with rfl | rfl
  · simp only [written, ofUnit, hsame]
  · have hresult : (ofUnit final unit).result x = (ofUnit final unit).result y := by
      simp only [ofUnit, hkey]
    have hspelling : (ofUnit final unit).final.spelling x = (ofUnit final unit).final.spelling y := hsame
    cases role <;> simp only [written, hspelling, hresult]

theorem Material.Resolved.fits {unit : Node} {arrays procedures : String → Prop} {written : String → String}
    {c : Collection} {u : UnitState} (h : Resolved unit arrays procedures written c u) (final : Table) :
    (Naming.ofUnit final unit).Fits u := by
  intro x
  rw [h.kind, h.name]
  rfl

/-! ## Names in a state -/

namespace Naming

/-- What is written for names and expressions in a state follows the naming, if no spelling is added that
contradicts the table at the end. -/
structure Governs (ν : Naming) (s : LowerState) : Prop where
  idents : ∀ x w t, (Lower.ident x).run s = .ok (w, t) →
    t.collection.table.spellings <+: ν.final.spellings → w = ν.written .variable x
  callees : ∀ x w t, (Lower.callee x).run s = .ok (w, t) →
    t.collection.table.spellings <+: ν.final.spellings → w = ν.written .procedure x
  expressions : ∀ e j t, (Lower.expr e).run s = .ok (j, t) →
    t.collection.table.spellings <+: ν.final.spellings → ν.reading.Renders e j

theorem Fits.governs {ν : Naming} {s : LowerState} (h : ν.Fits s.unit) : ν.Governs s where
  idents x w t hrun hfinal := by
    have hspells : Lower.Spells ν .free True (Lower.ident x) _ := Lower.spells_ident x
    exact ((hspells s w t hrun).2.2 hfinal trivial h).2.2
  callees x w t hrun hfinal := by
    have hspells : Lower.Spells ν .free True (Lower.callee x) _ := Lower.spells_callee x
    exact ((hspells s w t hrun).2.2 hfinal trivial h).2.2
  expressions e j t hrun hfinal := by
    have hspells : Lower.Spells ν .free True (Lower.expr e) _ := Lower.renders_expr e
    exact ((hspells s j t hrun).2.2 hfinal trivial h).2.2

/-- In a state, an action writes lines of a program in which all names are allowed, and it would write the
same lines if the spellings at the end were known before. -/
def Covers (ν : Naming) (program : List Line) (act : Lower Unit) (s : LowerState) : Prop :=
  ∃ t own, Wrote program act s t own ∧ (∀ l ∈ own, ∀ u ∈ l.uses, ν.Allows u) ∧
    act.run (s.preset ν.final.spellings) = .ok ((), t.preset ν.final.spellings)

end Naming

theorem Extends.prefix {s t : LowerState} (h : Extends s t) :
    s.collection.table.spellings <+: t.collection.table.spellings := by
  obtain ⟨more, hmore⟩ := h.spellings
  exact ⟨more, hmore.symm⟩

namespace Lower

variable {wide : Prop} {final : Table}

theorem covers_unit {whole : Node} (h : whole.Sound wide) {s t : LowerState}
    (hfinal : (programUnit whole).Does s fun _ u => Extends u t) :
    (Naming.ofUnit t.collection.table whole).Covers t.lines.reverse (programUnit whole) s := by
  obtain ⟨u, r, v, -, hreports, hsurveyed, hparts, -, hrun⟩ := programUnit_run h s
  obtain ⟨_, v', hrun', hextends⟩ := hfinal
  obtain rfl : v.left = v' := congrArg Prod.snd (Except.ok.inj (hrun.symm.trans hrun'))
  have hnone : Material.Resolved whole _ (fun _ => False) _ _ _ :=
    r.entered_resolved hsurveyed fun _ hx => hx.elim
  have hspells : Spells (.ofUnit t.collection.table whole) .free True
      (whole.children.forM (unitPart whole)) fun _ => True :=
    .forM fun part _ => spells_unitPart whole part
  obtain ⟨⟨-, new, hnew, hall⟩, -⟩ :=
    (hspells _ _ _ hparts).2.2 hextends.prefix trivial (hnone.fits _)
  have hlines : (r.entered whole u).lines = s.lines := by
    obtain ⟨_, _, rfl, -⟩ := hreports
    rfl
  refine ⟨v.left, new.reverse, .of_extends hrun ?_ hextends, fun l hl => hall l (List.mem_reverse.1 hl),
    (programUnit_repeats hrun).2.preset hextends.prefix⟩
  rw [List.reverse_reverse, ← hlines]
  exact hnew

theorem covers_statement {ν : Naming} {stmt : Node} {s t u : LowerState}
    (hfits : ν.Fits s.unit) (hrun : (statement stmt).run s = .ok ((), t)) (hextends : Extends t u)
    (hfinal : u.collection.table = ν.final) : ν.Covers u.lines.reverse (statement stmt) s := by
  have hspells : Spells ν .free True (statement stmt) fun _ => True := spells_statement stmt
  have hfinal : t.collection.table.spellings <+: ν.final.spellings := hfinal ▸ hextends.prefix
  obtain ⟨-, hrepeats, hwritten⟩ := hspells _ _ _ hrun
  obtain ⟨⟨-, new, hnew, hall⟩, -⟩ := hwritten hfinal trivial hfits
  refine ⟨t, new.reverse, .of_extends hrun ?_ hextends, fun l hl => hall l (List.mem_reverse.1 hl),
    hrepeats.preset hfinal⟩
  rw [List.reverse_reverse]
  exact hnew

end Lower

/-! ## Main statement -/

/-- In a program that is parsed and lowered, what is written for a name in one of its roles depends on the
name only up to letter case, for a variable in the unit and for a procedure in all units. All names in the
code of a unit are written so or belong to the code itself, and a unit and each of its statements is
lowered as if all spellings had been known from the start. Wherever a unit has got to, a variable, a
procedure and each name in an expression are written as is said; a reference to an intrinsic function is a
call of the function that stands for it. -/
theorem names_settle {source : String} {o : Options} {p q : Parser} {root : Node}
    (hp : Parser.start? o.source (scan source) = some p) (hq : p.parse = .ok (.ok root, q)) :
    ∃ lines g, (Generator.start root o).run (some root) =
        .ok (o.header ++ Line.render o.indentation lines, g) ∧
      let final := g.state.collection.table
      let runs := Lower.sourceRuns root.children (Generator.start root o).state
      (∀ unit ∈ root.units, ∃ run ∈ runs, run.node = unit) ∧
      (∀ x y, nameKey x = nameKey y → (final.spelling? x).isSome → ∀ unit unit' role,
        role = .procedure ∨ unit = unit' →
          (Naming.ofUnit final unit).written role x = (Naming.ofUnit final unit').written role y) ∧
      ∀ run ∈ runs,
        let names := Naming.ofUnit final run.node
        names.Covers lines (Lower.programUnit run.node) run.state ∧
        (∀ stmt ∈ run.node.nodes, stmt.IsStatement → ∃ v ∈ Lower.unitVisits run, v.node = stmt) ∧
        ∀ v ∈ Lower.unitVisits run, names.Covers lines (Lower.statement v.node) v.state ∧
          ∀ s : LowerState, s.unit.kind = v.state.unit.kind → s.unit.name = v.state.unit.name →
            names.Governs s := by
  have hsound : root.Sound True := fun n hn => ⟨parse_indexable hp hq hn, fun _ => trivial⟩
  obtain ⟨hroot, hparts⟩ := parse_program hp hq
  obtain ⟨s, hrun, hlowered⟩ := Generator.run_lines hsound o
  obtain ⟨_, s', hlowered', hruns⟩ := Lower.runs_sources (fun n hn => hsound.child hn)
    (Generator.start root o).state
  obtain rfl : s' = s := congrArg Prod.snd (Except.ok.inj (hlowered'.symm.trans hlowered))
  refine ⟨_, _, hrun, ?_, ?_, fun run hmem => ?_⟩
  · intro unit hunit
    obtain ⟨n, hn, hprogram, hmem⟩ := mem_units.1 hunit
    exact Lower.sourceRuns_nodes hn hprogram hmem _
  · exact fun x y hkey hx unit unit' role => Naming.written_congr hkey hx
  · obtain ⟨hunit, hwithin⟩ := hruns run hmem
    have hunitSound := hsound.node (units_nodes (mem_units.2 hunit))
    refine ⟨Lower.covers_unit (t := s') hunitSound hwithin.behind, ?_, fun v hv => ?_⟩
    · intro stmt hstmt hstatement
      obtain ⟨n, hn, hprogram, hchild⟩ := hunit
      have hnode := nodes_trans (nodes_child hn) (nodes_child hchild)
      rcases hparts n hn with hleaf | ⟨-, hunits⟩
      · cases n with
        | leaf => cases hprogram
        | inner => cases hleaf
      · exact Lower.unit_covers hstatement (hsound.node hnode) ((parse_placed hp hq).node hnode)
          (hunits run.node hchild) hstmt
    · obtain ⟨_, t, hunitRun, hlater⟩ := hwithin.behind
      obtain ⟨_, t', hunitRun', hstatements⟩ := Lower.visits_unit hunitSound
      obtain rfl : t' = t := congrArg Prod.snd (Except.ok.inj (hunitRun'.symm.trans hunitRun))
      obtain ⟨⟨hvisitSound, hopen⟩, hplace⟩ := hstatements v hv
      obtain ⟨_, u, hstatement, hbehind⟩ := hplace.behind
      have hfinal : Extends u s' := hbehind.trans hlater
      have hpasses : Extends v.state u := by
        obtain ⟨_, u', hstatement', hpasses⟩ := Lower.carries_statement v.node hvisitSound v.state hopen
        obtain rfl : u' = u := congrArg Prod.snd (Except.ok.inj (hstatement'.symm.trans hstatement))
        exact hpasses.extends
      obtain ⟨before, behind, hvisits⟩ := List.append_of_mem hv
      have hresolved : Material.Resolved run.node _ (fun _ => False) _ _ _ :=
        Lower.visit_resolved hunitSound (fun k _ x hx => hx.elim) (fun x hx => hx.elim) hvisits
          (hpasses.trans hfinal)
      have hfits : (Naming.ofUnit s'.collection.table run.node).Fits v.state.unit := hresolved.fits _
      exact ⟨Lower.covers_statement hfits hstatement hfinal rfl,
        fun s hkind hname => (hfits.congr hkind hname).governs⟩

/-- Two functions whose names and variables occur in both letter cases. -/
theorem names_settle_mixed : ∃ (p q : Parser) (root : Node) (run run' v : Visit) (lines : List Line)
      (g : Generator),
    Parser.start? "" (scan "FUNCTION f(X)\nF=x+G(X)\nEND\nFUNCTION g(y)\nG=Y\nEND") = some p ∧
    p.parse = .ok (.ok root, q) ∧ root.units = [run.node, run'.node] ∧
    (Generator.start root {}).run (some root) =
      .ok (({} : Options).header ++ Line.render ({} : Options).indentation lines, g) ∧
    let final := g.state.collection.table
    let names := Naming.ofUnit final run.node
    ((final.spelling? "G").isSome ∧ (final.spelling? "x").isSome) ∧
    names.written .procedure "G" = (Naming.ofUnit final run'.node).written .procedure "g" ∧
    names.written .variable "x" = names.written .variable "X" ∧
    names.Covers lines (Lower.programUnit run.node) run.state ∧
    v.node.hasLabel .assignmentStmt ∧ names.Covers lines (Lower.statement v.node) v.state ∧
    names.Governs v.state := by
  have hstart := start_scan "" "FUNCTION f(X)\nF=x+G(X)\nEND\nFUNCTION g(y)\nG=Y\nEND"
  have hok : ((Parser.matched? { source := "", tokens := (scan
      "FUNCTION f(X)\nF=x+G(X)\nEND\nFUNCTION g(y)\nG=Y\nEND").toArray }).any fun root =>
        root.units.length == 2 &&
        ((root.units.head?.any fun unit => unit.nodes.any (·.hasLabel .assignmentStmt)) &&
        ((Generator.start root {}).run (some root)).toOption.any fun r =>
          (r.2.state.collection.table.spelling? "G").isSome &&
            (r.2.state.collection.table.spelling? "x").isSome)) = true := by
    rw [scan_within]
    decide +kernel
  obtain ⟨root, hmatched, hroot⟩ := (Option.any_eq_true _ _).1 hok
  simp only [Bool.and_eq_true, beq_iff_eq, List.any_eq_true, Option.any_eq_true] at hroot
  obtain ⟨htwo, ⟨unit, hhead, stmt, hstmt, hlabel⟩, r, hresult, hspelled⟩ := hroot
  obtain ⟨unit', other, hunits⟩ := List.length_eq_two.1 htwo
  rw [hunits] at hhead
  obtain rfl := Option.some.inj hhead
  obtain ⟨q, hq⟩ := parse_of_match (Parser.start_sound hstart) hmatched
  obtain ⟨lines, g, hrun, hall, hwritten, hruns⟩ := names_settle (o := {}) hstart hq
  obtain ⟨run, hmem, rfl⟩ := hall unit' (by simp [hunits])
  obtain ⟨run', -, rfl⟩ := hall other (by simp [hunits])
  rw [hrun] at hresult
  obtain rfl := Option.some.inj hresult
  obtain ⟨hcovers, hvisited, hstatements⟩ := hruns run hmem
  obtain ⟨v, hv, rfl⟩ := hvisited stmt hstmt ⟨.assignmentStmt, by decide, eq_of_beq hlabel⟩
  obtain ⟨hthis, hgoverns⟩ := hstatements v hv
  exact ⟨_, q, root, run, run', v, lines, g, hstart, hq, hunits, hrun, hspelled,
    hwritten "G" "g" (by decide) hspelled.1 _ _ _ (.inl rfl),
    hwritten "x" "X" (by decide) hspelled.2 _ _ _ (.inr rfl), hcovers, hlabel, hthis, hgoverns _ rfl rfl⟩

/-- Without the exception for intrinsic functions the names of procedures are not the same in all units:
one unit says that `SIN` is a function of its own and the other one does not. -/
theorem intrinsic_named_apart : ∃ p q root run run' v v',
    Parser.start? "" (scan ("      SUBROUTINE T(Y)\n      EXTERNAL SIN\n      Y = SIN(1.0)\n      END\n" ++
      "      SUBROUTINE U(Y)\n      Y = SIN(1.0)\n      END\n")) = some p ∧
    p.parse = .ok (.ok root, q) ∧
    run ∈ Lower.sourceRuns root.children (Generator.start root {}).state ∧
    run' ∈ Lower.sourceRuns root.children (Generator.start root {}).state ∧
    (v ∈ Lower.unitVisits run ∧ v' ∈ Lower.unitVisits run') ∧
    v.node.lexemes.map (·.text) = ["Y", "=", "SIN", "(", "1.0", ")", "\n"] ∧
    v'.node.lexemes.map (·.text) = ["Y", "=", "SIN", "(", "1.0", ")", "\n"] ∧
    (Lower.behind (Lower.statement v.node) v.state).lines.head?.map Line.uses =
      some [.value "Y", .callee "SIN"] ∧
    (Lower.behind (Lower.statement v'.node) v'.state).lines.head?.map Line.uses =
      some [.value "Y", .callee "sin"] := by
  have hstart := start_scan "" ("      SUBROUTINE T(Y)\n      EXTERNAL SIN\n      Y = SIN(1.0)\n      END\n" ++
    "      SUBROUTINE U(Y)\n      Y = SIN(1.0)\n      END\n")
  have hok : ((Parser.matched? { source := "", tokens := (scan
      ("      SUBROUTINE T(Y)\n      EXTERNAL SIN\n      Y = SIN(1.0)\n      END\n" ++
        "      SUBROUTINE U(Y)\n      Y = SIN(1.0)\n      END\n")).toArray }).any fun root =>
          let runs := Lower.sourceRuns root.children (Generator.start root {}).state
          runs.any fun run => runs.any fun run' =>
            (Lower.unitVisits run).any fun v => (Lower.unitVisits run').any fun v' =>
              (v.node.lexemes.map (·.text) == ["Y", "=", "SIN", "(", "1.0", ")", "\n"] &&
                v'.node.lexemes.map (·.text) == ["Y", "=", "SIN", "(", "1.0", ")", "\n"]) &&
              ((Lower.behind (Lower.statement v.node) v.state).lines.head?.map Line.uses ==
                  some [.value "Y", .callee "SIN"] &&
                (Lower.behind (Lower.statement v'.node) v'.state).lines.head?.map Line.uses ==
                  some [.value "Y", .callee "sin"])) = true := by
    rw [← String.ofList_append, scan_within]
    decide +kernel
  obtain ⟨root, hmatched, hroot⟩ := (Option.any_eq_true _ _).1 hok
  obtain ⟨q, hq⟩ := parse_of_match (Parser.start_sound hstart) hmatched
  simp only [List.any_eq_true, Bool.and_eq_true, beq_iff_eq] at hroot
  obtain ⟨run, hrun, run', hrun', v, hv, v', hv', ⟨htexts, htexts'⟩, huses, huses'⟩ := hroot
  exact ⟨_, q, root, run, run', v, v', hstart, hq, hrun, hrun', ⟨hv, hv'⟩, htexts, htexts', huses, huses'⟩

end FortranJulia
