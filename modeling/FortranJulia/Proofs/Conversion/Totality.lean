import FortranJulia.Conversion
import FortranJulia.Proofs.Lowering.Units
import FortranJulia.Proofs.Parsing.Progress

/-!
Conversion meets no fault. Lowering takes children, loops, bounds and slices of lists as if they were
there, and a fault is what it would be if one were not. The shapes of parsed trees rule that out, so
that a source is converted or refused with an error; the blanks of a format are the only thing that
can be too much.
-/

namespace FortranJulia

set_option autoImplicit false

open Julia (Line)

namespace Generator

/-- A sound tree is lowered, whatever is known from earlier runs. -/
theorem run_ends {wide : Prop} {root : Node} (h : root.Sound wide) (g : Generator) :
    ∃ text s, g.run (some root) = .ok (text, { g with state := s }) ∧
      (s.overflow → g.state.overflow ∨ wide) := by
  obtain ⟨_, s, hrun, hspans⟩ := Lower.sources_spans (fun n hn => h.child hn)
    { g.state with lines := [] }
  refine ⟨g.options.header ++ Line.render g.options.indentation s.lines.reverse,
    { s with diagnostics := Diagnostic.sorted s.diagnostics }, ?_, hspans.overflow⟩
  have hall : (((some root).map (·.children)).getD []).forM Lower.sourcePart =
      root.children.forM Lower.sourcePart := rfl
  rw [run, hall, hrun]
  rfl

end Generator

/-- A program that was generated is handed over, unless warnings are forbidden or a format overflows. -/
theorem Conversion.outcome_cases (o : Options) (tokens : List Lexeme) (nodes : Nat) (program : String)
    (g : Generator) :
    (∃ c, Conversion.outcome o tokens nodes program g = .ok c) ∨
    (∃ k c, Conversion.outcome o tokens nodes program g = .error (.strict o.source k c)) ∨
    (Conversion.outcome o tokens nodes program g = .error .overflow ∧ g.state.overflow) := by
  unfold Conversion.outcome
  by_cases hoverflow : g.state.overflow
  · refine .inr (.inr ⟨?_, hoverflow⟩)
    rw [if_pos hoverflow]
    rfl
  · rw [if_neg hoverflow]
    dsimp only
    split
    · exact .inr (.inl ⟨_, _, rfl⟩)
    · exact .inl ⟨_, rfl⟩

/-- What parsing answers: a tree or an error, and never a fault. -/
theorem parse_answers (name source : String) :
    ∃ r, parseChecked name (scan source) = .ok r ∧ parseTokens name (scan source) = r ∧
      ∀ root count, r = .ok (root, count) → ∀ n ∈ root.nodes, n.indexable := by
  cases hp : Parser.start? name (scan source) with
  | none =>
    have hchecked : parseChecked name (scan source) = .ok (.error ⟨name, default, []⟩) := by
      rw [parseChecked, hp]
      rfl
    exact ⟨_, hchecked, by rw [parseTokens, hchecked], by simp⟩
  | some p =>
    obtain ⟨r, q, hq⟩ := Parser.parse_ends (Parser.start_sound hp)
    cases r with
    | error e =>
      have hchecked : parseChecked name (scan source) = .ok (.error e) := by
        rw [parseChecked, hp]
        simp only [hq]
        rfl
      exact ⟨_, hchecked, by rw [parseTokens, hchecked], by simp⟩
    | ok root =>
      have hchecked : parseChecked name (scan source) = .ok (.ok (root, q.count)) := by
        rw [parseChecked, hp]
        simp only [hq]
        rfl
      refine ⟨_, hchecked, by rw [parseTokens, hchecked], ?_⟩
      rintro root' count ⟨⟩ n hn
      exact parse_indexable hp hq hn

/-- Every source is converted or refused: the tokens do not parse, or warnings are forbidden, or one
of its formats asks for more blanks than can be written. Each node of its tree has the children that
are taken from it, and nothing is taken that is not there. -/
theorem conversion_meets_no_fault (source : String) (o : Options) :
    (∃ e, parseTokens o.source (scan source) = .error e ∧
      convertChecked source o = .ok (.error (.syntactic e))) ∨
    ∃ root count, parseTokens o.source (scan source) = .ok (root, count) ∧
      (∀ n ∈ root.nodes, n.indexable) ∧
      ((∃ c, convertChecked source o = .ok (.ok c)) ∨
        (∃ k c, convertChecked source o = .ok (.error (.strict o.source k c))) ∨
        (convertChecked source o = .ok (.error .overflow) ∧ ∃ n ∈ root.nodes, n.overflows)) := by
  obtain ⟨r, hchecked, htokens, hshapes⟩ := parse_answers o.source source
  cases r with
  | error e =>
    refine .inl ⟨e, htokens, ?_⟩
    rw [convertChecked, hchecked]
    rfl
  | ok tree =>
    obtain ⟨root, count⟩ := tree
    have hindexable := hshapes root count rfl
    have hsound : root.Sound (∃ n ∈ root.nodes, n.overflows) :=
      fun m hm => ⟨hindexable m hm, fun hwide => ⟨m, hm, hwide⟩⟩
    obtain ⟨text, s, hrun, hover⟩ := Generator.run_ends hsound (Generator.start root o)
    have hconvert : convertChecked source o = .ok (Conversion.outcome o (scan source) count text
        { Generator.start root o with state := s }) := by
      simp only [convertChecked, hchecked, hrun, bind, Except.bind, pure, Except.pure]
    refine .inr ⟨root, count, htokens, hindexable, ?_⟩
    rw [hconvert]
    rcases Conversion.outcome_cases o (scan source) count text { Generator.start root o with state := s }
      with ⟨c, hc⟩ | ⟨k, c, hc⟩ | ⟨hc, hoverflow⟩
    · exact .inl ⟨c, by rw [hc]⟩
    · exact .inr (.inl ⟨k, c, by rw [hc]⟩)
    · refine .inr (.inr ⟨by rw [hc], ?_⟩)
      exact (hover hoverflow).resolve_left (by simp [Generator.start])

end FortranJulia
