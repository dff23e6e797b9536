import FortranJulia.Proofs.Emission.Tidy
import FortranJulia.Proofs.Lowering.Blocks

/-!
Balance of blocks. The blocks that the program of a parsed tree opens are closed again, in the whole
program and in each of its units: the lines of code are balanced because depth follows the open blocks,
and the lines of text are because no other line looks like one that opens or closes a block.
-/

namespace FortranJulia

set_option autoImplicit false

open Julia (Line)

variable {name source : String} {p q : Parser} {root : Node}

/-- The parts of a parsed tree. -/
theorem parse_sourcePart (hp : Parser.start? name (scan source) = some p)
    (hq : p.parse = .ok (.ok root, q)) : ∀ n ∈ root.children, Lower.IsSourcePart n := by
  obtain ⟨-, hparts⟩ := parse_program hp hq
  intro n hn
  refine (hparts n hn).imp id (fun ⟨hprogram, hunits⟩ => ⟨hprogram, fun unit hunit => ?_⟩)
  have hlabel := hunits unit hunit
  cases unit with
  | leaf => cases hlabel
  | inner i l cs =>
    obtain ⟨head, body, last, hunitParts⟩ :=
      parse_unit hp hq (nodes_trans (nodes_child hn) (nodes_child hunit)) hlabel
    exact ⟨l, head, body, last, rfl, hlabel, hunitParts⟩

theorem Options.indentation_blank {o : Options} (h : ∀ c ∈ o.indent.toList, Text.isIndentation c) :
    ∀ c ∈ o.indentation.toList, Text.isIndentation c := by
  unfold Options.indentation
  split
  · exact List.all_eq_true.1 (by decide)
  · exact h

/-- The lines that are written from a state at no depth to one at no depth are balanced. -/
theorem Lower.balanced_levelled {s t : LowerState} (h : Levelled s t) (hs : s.depth = 0)
    (ht : t.depth = 0) {indent : String} (hindent : ∀ c ∈ indent.toList, Text.isIndentation c)
    (hplain : ∀ l ∈ t.lines, l.Plain) :
    ∃ own, t.lines = own.reverse ++ s.lines ∧ Text.Balanced (Line.render indent own) := by
  obtain ⟨own, hown, hlevels⟩ := h
  rw [hs, ht] at hlevels
  refine ⟨own, hown, Julia.balanced_render (fun l hl => hplain l ?_) hindent hlevels⟩
  rw [hown]
  exact List.mem_append_left _ (List.mem_reverse.2 hl)

/-- The program of a parsed tree, written with an indentation of blanks and tabs, closes exactly the
blocks it opens, each behind the line that opens it. So does each of its units. -/
theorem blocks_balance {o : Options} (hp : Parser.start? o.source (scan source) = some p)
    (hq : p.parse = .ok (.ok root, q)) (hindent : ∀ c ∈ o.indent.toList, c = ' ' ∨ c = '\t') :
    ∃ lines g, (Generator.start root o).run (some root) =
        .ok (o.header ++ Line.render o.indentation lines, g) ∧
      Text.Balanced (Line.render o.indentation lines) ∧
      let runs := Lower.sourceRuns root.children (Generator.start root o).state
      (∀ unit ∈ root.units, ∃ run ∈ runs, run.node = unit) ∧
      ∀ run ∈ runs, ∃ t own, Wrote lines (Lower.programUnit run.node) run.state t own ∧
        Text.Balanced (Line.render o.indentation own) := by
  have hsound : root.Sound True := fun n hn => ⟨parse_indexable hp hq hn, fun _ => trivial⟩
  have hworded := parse_worded hp hq
  have hblank := Options.indentation_blank (o := o) (fun c hc => by
    simpa [Text.isIndentation] using hindent c hc)
  obtain ⟨hroot, hparts⟩ := parse_program hp hq
  have hsource := parse_sourcePart hp hq
  obtain ⟨s, hrun, hlowered⟩ := Generator.run_lines hsound o
  -- What is known of the run of the whole source, of its units and of their lines.
  obtain ⟨_, s', hlowered', ⟨hlevels, hdepth⟩, hstarts⟩ := Lower.sources_levelled
    (fun n hn => ⟨hsound.child hn, hsource n hn⟩) (s := (Generator.start root o).state) rfl
  obtain rfl : s' = s := congrArg Prod.snd (Except.ok.inj (hlowered'.symm.trans hlowered))
  obtain ⟨_, s'', hlowered'', hruns⟩ := Lower.runs_sources (fun n hn => hsound.child hn)
    (Generator.start root o).state
  obtain rfl : s'' = s' := congrArg Prod.snd (Except.ok.inj (hlowered''.symm.trans hlowered))
  have hplain : ∀ l ∈ s''.lines, l.Plain :=
    ((Lower.Ensures.forM (fun n hn => Lower.neat_sourcePart hworded hroot hn)) _
      (Lower.start_between hworded hroot hparts o) _ _ hlowered).1.lines
  refine ⟨_, _, hrun, ?_, fun unit hunit => ?_, fun run hmem => ?_⟩
  · obtain ⟨own, hown, hbalanced⟩ := Lower.balanced_levelled hlevels rfl hdepth hblank hplain
    rw [show own.reverse ++ (Generator.start root o).state.lines = own.reverse from
      List.append_nil _] at hown
    rwa [hown, List.reverse_reverse]
  · obtain ⟨n, hn, hprogram, hmem⟩ := mem_units.1 hunit
    exact Lower.sourceRuns_nodes hn hprogram hmem _
  · obtain ⟨⟨n, hn, hprogram, hunit⟩, hwithin⟩ := hruns run hmem
    have hparted : Lower.IsProgramUnit run.node := by
      rcases hsource n hn with hleaf | ⟨-, hunits⟩
      · cases n with
        | leaf => cases hprogram
        | inner => cases hleaf
      · exact hunits run.node hunit
    obtain ⟨_, t, hunitRun, hlater⟩ := hwithin.behind
    obtain ⟨_, t', hunitRun', hunitLevels, hunitDepth⟩ :=
      Lower.unit_levelled ((hsound.child hn).child hunit) hparted (hstarts run hmem)
    obtain rfl : t' = t := congrArg Prod.snd (Except.ok.inj (hunitRun'.symm.trans hunitRun))
    have hunitPlain : ∀ l ∈ t'.lines, l.Plain := by
      obtain ⟨new, hnew⟩ := hlater.lines
      exact fun l hl => hplain l (hnew ▸ List.mem_append_right _ hl)
    obtain ⟨own, hown, hbalanced⟩ :=
      Lower.balanced_levelled hunitLevels (hstarts run hmem) hunitDepth hblank hunitPlain
    exact ⟨t', own, .of_extends hunitRun hown hlater, hbalanced⟩

/-- A loop whose last statement stands inside a block that the loop is around is closed behind it. -/
theorem blocks_balance_across :
    ∃ p q root lines g, Parser.start? "" (scan
        "SUBROUTINE S(X)\nDO 1 I=1,2\nIF (I.EQ.1) THEN\n1 X=1\nENDIF\nEND") = some p ∧
      p.parse = .ok (.ok root, q) ∧
      (Generator.start root { indent := "  " }).run (some root) =
        .ok (({} : Options).header ++ Line.render "  " lines, g) ∧
      Line.render "  " lines =
        "function S(X)\n  for I in 1:2\n    if I == 1\n      X = 1.0\n    end\n  end\n  return X\nend\n" ∧
      Text.Balanced (Line.render "  " lines) := by
  have hstart := start_scan "" "SUBROUTINE S(X)\nDO 1 I=1,2\nIF (I.EQ.1) THEN\n1 X=1\nENDIF\nEND"
  have hok : ((Parser.matched? { source := "", tokens :=
      (scan "SUBROUTINE S(X)\nDO 1 I=1,2\nIF (I.EQ.1) THEN\n1 X=1\nENDIF\nEND").toArray }).any
        fun root => ((Generator.start root { indent := "  " }).run (some root)).toOption.any
          fun r => r.1 == ({} : Options).header ++
            "function S(X)\n  for I in 1:2\n    if I == 1\n      X = 1.0\n    end\n  end\n  return X\nend\n") =
      true := by
    rw [scan_within]
    decide +kernel
  obtain ⟨root, hmatched, hroot⟩ := (Option.any_eq_true _ _).1 hok
  obtain ⟨q, hq⟩ := parse_of_match (Parser.start_sound hstart) hmatched
  have hblank : ∀ c ∈ "  ".toList, c = ' ' ∨ c = '\t' := by simp
  obtain ⟨lines, g, hrun, hbalanced, -⟩ := blocks_balance (o := { indent := "  " }) hstart hq hblank
  refine ⟨_, q, root, lines, g, hstart, hq, hrun, ?_, hbalanced⟩
  rw [hrun] at hroot
  obtain ⟨_, hsome, heq⟩ := (Option.any_eq_true _ _).1 hroot
  obtain rfl := Option.some.inj hsome
  exact (String.append_right_inj _).1 (eq_of_beq heq)

end FortranJulia
