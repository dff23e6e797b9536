import FortranJulia.Proofs.Lowering.InitialValues
import FortranJulia.Proofs.Lowering.Routines

/-!
The sets of initial values of a program. `initialSets` lists them with the states in which they are
lowered, in every unit and in the order of lowering, and what is written for a set stands in the
program. So what holds of one set in any state holds of every set where it stands: each object gets
its own values, and values that are left are reported.
-/

namespace FortranJulia

set_option autoImplicit false

open Julia (Line)

namespace Lower

/-! ## Sets of a program -/

/-- The sets of a statement, each with the state in which it is lowered. -/
def setVisits : List Node → LowerState → List Visit
  | [], _ => []
  | set :: rest, s => ⟨set, s⟩ :: setVisits rest (behind (dataSet set) s)

/-- The sets of initial values in a source, in the order in which they are lowered. -/
def initialSets (root : Node) (s : LowerState) : List Visit :=
  (sourceRuns root.children s).flatMap fun unit =>
    ((unitVisits unit).filter (·.node.hasLabel .dataStmt)).flatMap fun stmt =>
      setVisits (stmt.node.childrenWith .dataStmtSet) stmt.state

theorem setVisits_nodes (sets : List Node) : ∀ s, (setVisits sets s).map (·.node) = sets := by
  induction sets with
  | nil => exact fun _ => rfl
  | cons set sets ih =>
    intro s
    rw [setVisits, List.map_cons, ih]

theorem visits_sets {wide : Prop} {sets : List Node} (h : ∀ n ∈ sets, n.Sound wide) : ∀ s : LowerState,
    s.Open → (sets.forM dataSet).Does s fun _ t => Extends s t ∧
      ∀ v ∈ setVisits sets s, v.node.Sound wide ∧ Within dataSet s t v := by
  induction sets with
  | nil => exact fun s _ => ⟨(), s, rfl, .refl s, by simp [setVisits]⟩
  | cons set sets ih =>
    intro s hs
    have hset := h set (by simp)
    obtain ⟨_, t, hrun, hst⟩ := (moves_dataSet hset).carries s hs
    obtain ⟨_, u, hrest, htu, hvisits⟩ := ih (fun n hn => h n (by simp [hn])) t (hst.settled hs).1
    refine ⟨(), u, ?_, hst.extends.trans htu, fun v hv => ?_⟩
    · show (dataSet set >>= fun _ => sets.forM dataSet).run s = _
      rw [run_bind_ok hrun, hrest]
    · rw [setVisits, behind_eq hrun] at hv
      rcases List.mem_cons.1 hv with rfl | hv
      · exact ⟨hset, .refl s, (), t, hrun, htu⟩
      · exact ⟨(hvisits v hv).1, (hvisits v hv).2.weaken hst.extends (.refl u)⟩

theorem statement_dataStmt {stmt : Node} (h : stmt.hasLabel .dataStmt) :
    statement stmt = dataStmt stmt := by
  cases stmt with
  | leaf => cases h
  | inner k l cs =>
    obtain rfl : l = .dataStmt := by simpa [Node.hasLabel, Node.label?] using h
    rw [statement]
    · rfl
    · simp
    · simp

end Lower

section Programs

variable {source : String} {o : Options} {p q : Parser} {root : Node}

/-- Every set of a program is lowered on the way, and what is written for it stands in the program. -/
theorem program_sets (hp : Parser.start? o.source (scan source) = some p)
    (hq : p.parse = .ok (.ok root, q)) :
    ∃ lines g, (Generator.start root o).run (some root) =
        .ok (o.header ++ Line.render o.indentation lines, g) ∧
      (∀ unit ∈ root.units, ∀ stmt ∈ unit.nodes, stmt.hasLabel .dataStmt →
        ∀ set ∈ stmt.childrenWith .dataStmtSet,
          Lower.Visited set (Lower.initialSets root (Generator.start root o).state)) ∧
      ∀ set ∈ Lower.initialSets root (Generator.start root o).state,
        set.node.Sound True ∧ ∀ t own, (Lower.dataSet set.node).run set.state = .ok ((), t) →
          t.lines = own.reverse ++ set.state.lines →
            Wrote lines (Lower.dataSet set.node) set.state t own := by
  have hsound : root.Sound True := fun n hn => ⟨parse_indexable hp hq hn, fun _ => trivial⟩
  obtain ⟨-, hparts⟩ := parse_program hp hq
  obtain ⟨s, hrun, hlowered⟩ := Generator.run_lines hsound o
  obtain ⟨_, s', hlowered', hruns⟩ := Lower.runs_sources (fun n hn => hsound.child hn)
    (Generator.start root o).state
  obtain rfl : s' = s := congrArg Prod.snd (Except.ok.inj (hlowered'.symm.trans hlowered))
  refine ⟨_, _, hrun, fun unit hunit stmt hstmt hlabel set hset => ?_, fun set hset => ?_⟩
  · obtain ⟨n, hn, hprogram, hmem⟩ := mem_units.1 hunit
    obtain ⟨run, hrunMem, rfl⟩ := Lower.sourceRuns_nodes hn hprogram hmem (Generator.start root o).state
    have hnode := nodes_trans (nodes_child hn) (nodes_child hmem)
    rcases hparts n hn with hleaf | ⟨-, hunits⟩
    · cases n with
      | leaf => cases hprogram
      | inner => cases hleaf
    · obtain ⟨data, hdata, rfl⟩ := Lower.unit_covers ⟨.dataStmt, by decide, eq_of_beq hlabel⟩
        (hsound.node hnode) ((parse_placed hp hq).node hnode) (hunits run.node hmem) hstmt
      have hnodes := Lower.setVisits_nodes (data.node.childrenWith .dataStmtSet) data.state
      rw [← hnodes] at hset
      obtain ⟨v, hv, rfl⟩ := List.mem_map.1 hset
      refine ⟨v, List.mem_flatMap.2 ⟨run, hrunMem, List.mem_flatMap.2 ⟨data, ?_, hv⟩⟩, rfl⟩
      exact List.mem_filter.2 ⟨hdata, hlabel⟩
  · obtain ⟨run, hmem, hset⟩ := List.mem_flatMap.1 hset
    obtain ⟨data, hdata, hset⟩ := List.mem_flatMap.1 hset
    obtain ⟨hdata, hlabel⟩ := List.mem_filter.1 hdata
    obtain ⟨hunit, hwithin⟩ := hruns run hmem
    obtain ⟨_, t, hunitRun, hlater⟩ := hwithin.behind
    obtain ⟨_, t', hunitRun', hvisits⟩ :=
      Lower.visits_unit (hsound.node (units_nodes (mem_units.2 hunit)))
    obtain rfl : t' = t := congrArg Prod.snd (Except.ok.inj (hunitRun'.symm.trans hunitRun))
    obtain ⟨⟨hdataSound, hopen⟩, hvisit⟩ := hvisits data hdata
    obtain ⟨_, u, hdataRun, hdataLater⟩ := hvisit.behind
    obtain ⟨_, u', hsetsRun, -, hsets⟩ := Lower.visits_sets (fun _ hn => hdataSound.childrenWith hn)
      data.state hopen
    rw [Lower.statement_dataStmt hlabel, Lower.dataStmt_eq] at hdataRun
    obtain rfl : u' = u := congrArg Prod.snd (Except.ok.inj (hsetsRun.symm.trans hdataRun))
    obtain ⟨hsetSound, hsetWithin⟩ := hsets set hset
    refine ⟨hsetSound, fun v own hsetRun hlines => ?_⟩
    obtain ⟨_, v', hsetRun', hsetLater⟩ := hsetWithin.behind
    obtain rfl : v' = v := congrArg Prod.snd (Except.ok.inj (hsetRun'.symm.trans hsetRun))
    exact .of_extends hsetRun hlines (hsetLater.trans (hdataLater.trans hlater))

/-! ## Main statement -/

/-- A set whose objects have as many elements as there are values, each as often as it is repeated,
gives every object its own values in order: the lines written for it cut the values into blocks of as
many as the objects have elements, each value converted to the type of its object, and nothing is
reported about their number. The block of an object starts behind those of the objects before it. -/
theorem initial_values_in_order (hp : Parser.start? o.source (scan source) = some p)
    (hq : p.parse = .ok (.ok root, q)) :
    ∃ lines g, (Generator.start root o).run (some root) =
        .ok (o.header ++ Line.render o.indentation lines, g) ∧
      let sets := Lower.initialSets root (Generator.start root o).state
      (∀ unit ∈ root.units, ∀ stmt ∈ unit.nodes, stmt.hasLabel .dataStmt →
        ∀ set ∈ stmt.childrenWith .dataStmtSet, Lower.Visited set sets) ∧
      ∀ set ∈ sets, ∀ counts repeats, Counted set.state.collection.table set.node counts repeats →
        counts.sum = repeats.sum →
        ∃ values u t own, (Lower.constants set.node).run set.state = .ok (values, u) ∧
          Wrote lines (Lower.dataSet set.node) set.state t own ∧
          Lower.Fills set.node.dataObjects counts (expanded repeats values) u own t ∧
          (∀ i object count, set.node.dataObjects[i]? = some object → counts[i]? = some count →
            ∃ s' t' part, Lower.Gives object
                (((expanded repeats values).drop (counts.take i).sum).take count) s' part t' ∧
              part <:+: own) ∧
          Lower.Unreported Label.dataStmtSet.name set.state t := by
  obtain ⟨lines, g, hrun, hcovers, hsets⟩ := program_sets hp hq
  refine ⟨lines, g, hrun, hcovers, fun set hset counts repeats hcounted hsum => ?_⟩
  obtain ⟨hsound, hwrote⟩ := hsets set hset
  obtain ⟨values, u, t, hvalues, hlength, hfilled, hfills, hlowered⟩ :=
    Lower.dataSet_run hsound hcounted
  obtain ⟨own, hown, hlines⟩ := hfills (Nat.le_of_eq hsum)
  rw [List.take_of_length_le (by rw [hlength, hsum])] at hown
  rw [if_neg (by omega)] at hlowered
  exact ⟨values, u, t, own, hvalues, hwrote t own hlowered hlines, hown,
    fun _ _ _ => hown.block, hfilled.reports⟩

end Programs

/-- An array, every other element of it by a loop, and a real variable, with a repeated value. -/
theorem initial_values_in_order_mixed :
    ∃ p q root set lines g values u t own, Parser.start? "" (scan
        "PROGRAM P\nINTEGER V(3)\nDATA V,(V(I),I=1,3,2),X/2*1,2,-3,4,5/\nEND") = some p ∧
      p.parse = .ok (.ok root, q) ∧
      (Generator.start root {}).run (some root) =
        .ok (({} : Options).header ++ Line.render ({} : Options).indentation lines, g) ∧
      set ∈ Lower.initialSets root (Generator.start root {}).state ∧
      Counted set.state.collection.table set.node [3, 2, 1] [2, 1, 1, 1, 1] ∧
      Wrote lines (Lower.dataSet set.node) set.state t own ∧
      Lower.Fills set.node.dataObjects [3, 2, 1] (expanded [2, 1, 1, 1, 1] values) u own t ∧
      own.map (Line.text "\t") = ["V[1:3] = [1, 1, 2]\n", "for (I, _v) in zip(1:2:3, [-3, 4])\n",
        "\tV[I] = _v\n", "end\n", "global X = 5.0\n"] := by
  have hstart := start_scan ""
    "PROGRAM P\nINTEGER V(3)\nDATA V,(V(I),I=1,3,2),X/2*1,2,-3,4,5/\nEND"
  have hok : ((Parser.matched? { source := "", tokens := (scan
      "PROGRAM P\nINTEGER V(3)\nDATA V,(V(I),I=1,3,2),X/2*1,2,-3,4,5/\nEND").toArray }).any fun root =>
        (Lower.initialSets root (Generator.start root {}).state).any fun set =>
          set.node.dataObjects.mapM set.state.collection.table.elements? == some [3, 2, 1] &&
          (set.node.dataValues.mapM Node.repeats? == some [2, 1, 1, 1, 1] &&
          (Lower.behind (Lower.dataSet set.node) set.state).lines.map (Line.text "\t") ==
            ["global X = 5.0\n", "end\n", "\tV[I] = _v\n", "for (I, _v) in zip(1:2:3, [-3, 4])\n",
              "V[1:3] = [1, 1, 2]\n"] ++ set.state.lines.map (Line.text "\t"))) = true := by
    rw [scan_within]
    decide +kernel
  obtain ⟨root, hmatched, hroot⟩ := (Option.any_eq_true _ _).1 hok
  simp only [Bool.and_eq_true, List.any_eq_true, beq_iff_eq] at hroot
  obtain ⟨set, hset, hobjects, hvalues, htexts⟩ := hroot
  obtain ⟨q, hq⟩ := parse_of_match (Parser.start_sound hstart) hmatched
  have hcounted : Counted set.state.collection.table set.node [3, 2, 1] [2, 1, 1, 1, 1] :=
    ⟨hobjects, by decide, hvalues⟩
  obtain ⟨lines, g, hrun, -, hsets⟩ := initial_values_in_order (o := {}) hstart hq
  obtain ⟨values, u, t, own, -, hwrote, hfills, -⟩ := hsets set hset _ _ hcounted rfl
  refine ⟨_, q, root, set, lines, g, values, u, t, own, hstart, hq, hrun, hset, hcounted, hwrote,
    hfills, ?_⟩
  rw [Lower.behind_eq hwrote.run, hwrote.lines, List.map_append] at htexts
  have hown := List.append_cancel_right htexts
  rw [List.map_reverse] at hown
  exact List.reverse_injective hown

/-! ## Numbers of values -/

/-- The warning that so many values stand for so many elements. -/
def Node.miscount (set : Node) (values elements : Nat) : Diagnostic :=
  ⟨.warning, Label.dataStmtSet.name, set.place.1, set.place.2,
    Decimal.digits values ++ " values for " ++ Decimal.digits elements ++ " elements"⟩

/-- A set reports its number of values if there are more than its objects have elements, and only
then: of too few values each object takes what is left. -/
theorem surplus_values_reported {source : String} {o : Options} {p q : Parser} {root : Node}
    (hp : Parser.start? o.source (scan source) = some p) (hq : p.parse = .ok (.ok root, q)) :
    let sets := Lower.initialSets root (Generator.start root o).state
    (∀ unit ∈ root.units, ∀ stmt ∈ unit.nodes, stmt.hasLabel .dataStmt →
      ∀ set ∈ stmt.childrenWith .dataStmtSet, Lower.Visited set sets) ∧
    ∀ set ∈ sets, ∀ counts repeats, Counted set.state.collection.table set.node counts repeats →
      ∃ t others, (Lower.dataSet set.node).run set.state = .ok ((), t) ∧
        (∀ d ∈ others, d.rule ≠ Label.dataStmtSet.name) ∧
        t.diagnostics = set.state.diagnostics ++ others ++
          if counts.sum < repeats.sum then [set.node.miscount repeats.sum counts.sum] else [] := by
  obtain ⟨lines, g, -, hcovers, hsets⟩ := program_sets hp hq
  refine ⟨hcovers, fun set hset counts repeats hcounted => ?_⟩
  obtain ⟨values, u, v, -, -, hfilled, -, hlowered⟩ := Lower.dataSet_run (hsets set hset).1 hcounted
  obtain ⟨others, hothers, hrules⟩ := hfilled.reports
  by_cases hfew : counts.sum < repeats.sum
  · rw [if_pos hfew] at hlowered
    refine ⟨_, others, hlowered, hrules, ?_⟩
    rw [if_pos hfew, ← hothers]
    rfl
  · rw [if_neg hfew] at hlowered
    refine ⟨v, others, hlowered, hrules, ?_⟩
    rw [if_neg hfew, hothers, List.append_nil]

/-- Two values for one variable. -/
theorem surplus_values_reported_scalar :
    ∃ p q root set t others, Parser.start? "" (scan "PROGRAM P\nDATA A/1,2/\nEND") = some p ∧
      p.parse = .ok (.ok root, q) ∧ set ∈ Lower.initialSets root (Generator.start root {}).state ∧
      Counted set.state.collection.table set.node [1] [1, 1] ∧
      (Lower.dataSet set.node).run set.state = .ok ((), t) ∧
      t.diagnostics = set.state.diagnostics ++ others ++ [set.node.miscount 2 1] := by
  have hstart := start_scan "" "PROGRAM P\nDATA A/1,2/\nEND"
  have hok : ((Parser.matched? { source := "", tokens :=
      (scan "PROGRAM P\nDATA A/1,2/\nEND").toArray }).any fun root =>
        (Lower.initialSets root (Generator.start root {}).state).any fun set =>
          set.node.dataObjects.mapM set.state.collection.table.elements? == some [1] &&
          set.node.dataValues.mapM Node.repeats? == some [1, 1]) = true := by
    rw [scan_within]
    decide +kernel
  obtain ⟨root, hmatched, hroot⟩ := (Option.any_eq_true _ _).1 hok
  simp only [Bool.and_eq_true, List.any_eq_true, beq_iff_eq] at hroot
  obtain ⟨set, hset, hobjects, hvalues⟩ := hroot
  obtain ⟨q, hq⟩ := parse_of_match (Parser.start_sound hstart) hmatched
  have hcounted : Counted set.state.collection.table set.node [1] [1, 1] :=
    ⟨hobjects, by decide, hvalues⟩
  obtain ⟨-, hsets⟩ := surplus_values_reported (o := {}) hstart hq
  obtain ⟨t, others, hrun, -, hreports⟩ := hsets set hset _ _ hcounted
  exact ⟨_, q, root, set, t, others, hstart, hq, hset, hcounted, hrun, hreports⟩

/-- One value for two variables: the second one gets none, and nothing is reported in the program. -/
theorem missing_value_unreported :
    ∃ p q root set, Parser.start? "" (scan "PROGRAM P\nDATA A,B/1/\nEND") = some p ∧
      p.parse = .ok (.ok root, q) ∧ set ∈ Lower.initialSets root (Generator.start root {}).state ∧
      Counted set.state.collection.table set.node [1, 1] [1] ∧
      ((Generator.start root {}).run (some root)).toOption.any (·.2.state.diagnostics.isEmpty) := by
  have hstart := start_scan "" "PROGRAM P\nDATA A,B/1/\nEND"
  have hok : ((Parser.matched? { source := "", tokens :=
      (scan "PROGRAM P\nDATA A,B/1/\nEND").toArray }).any fun root =>
        ((Generator.start root {}).run (some root)).toOption.any (·.2.state.diagnostics.isEmpty) &&
        (Lower.initialSets root (Generator.start root {}).state).any fun set =>
          set.node.dataObjects.mapM set.state.collection.table.elements? == some [1, 1] &&
          set.node.dataValues.mapM Node.repeats? == some [1]) = true := by
    rw [scan_within]
    decide +kernel
  obtain ⟨root, hmatched, hroot⟩ := (Option.any_eq_true _ _).1 hok
  simp only [Bool.and_eq_true, List.any_eq_true, beq_iff_eq] at hroot
  obtain ⟨hquiet, set, hset, hobjects, hvalues⟩ := hroot
  obtain ⟨q, hq⟩ := parse_of_match (Parser.start_sound hstart) hmatched
  exact ⟨_, q, root, set, hstart, hq, hset, ⟨hobjects, by decide, hvalues⟩, hquiet⟩

end FortranJulia
