import FortranJulia.Proofs.Conversion.Totality
import FortranJulia.Proofs.Likeness.Generation

/-!
Conversions side by side. A conversion parses its source and runs a generator on the tree. Two sources
whose trees have the same digest, each in a guise of its own, are converted to programs that read the
same in these guises, with as many warnings.
-/

namespace FortranJulia

set_option autoImplicit false

/-- Both results are errors, or both are values, and they are related. -/
inductive Related {α β ε φ : Type} (E : ε → φ → Prop) (R : α → β → Prop) : Except ε α → Except φ β → Prop where
  | error {e : ε} {f : φ} (h : E e f) : Related E R (.error e) (.error f)
  | ok {a : α} {b : β} (h : R a b) : Related E R (.ok a) (.ok b)

namespace Related

variable {α β ε φ : Type} {E E' : ε → φ → Prop} {R R' : α → β → Prop} {x : Except ε α} {y : Except φ β}

theorem imp (h : Related E R x y) (he : ∀ e f, E e f → E' e f) (hr : ∀ a b, R a b → R' a b) :
    Related E' R' x y := by
  cases h with
  | error h => exact .error (he _ _ h)
  | ok h => exact .ok (hr _ _ h)

end Related

/-! ## Outcomes -/

theorem parseChecked_eq {name : String} {tokens : List Lexeme} {p q : Parser} {r : Except ParseError Node}
    (hp : Parser.start? name tokens = some p) (hq : p.parse = .ok (r, q)) :
    parseChecked name tokens = .ok (r.map fun root => (root, q.count)) := by
  simp only [parseChecked, hp, hq, bind, Except.bind, pure, Except.pure]
  cases r <;> rfl

theorem parseSource_eq {name source : String} {p q : Parser} {r : Except ParseError Node}
    (hp : Parser.start? name (scan source) = some p) (hq : p.parse = .ok (r, q)) :
    parseSource name source = r.map fun root => (root, q.count) := by
  rw [parseSource, parseTokens, parseChecked_eq hp hq]

/-- Either a source does not parse, or a generator is run on its tree. -/
theorem conversion_steps (source : String) (o : Options) :
    (∃ p q e, Parser.start? o.source (scan source) = some p ∧ p.parse = .ok (.error e, q) ∧
      convert source o = .error (.syntactic e)) ∨
    ∃ p q root r, Parser.start? o.source (scan source) = some p ∧ p.parse = .ok (.ok root, q) ∧
      (Generator.start root o).run (some root) = .ok r ∧
      convert source o = Conversion.outcome o (scan source) q.count r.1 r.2 := by
  have hp := start_scan o.source source
  obtain ⟨r, q, hq⟩ := Parser.parse_ends (Parser.start_sound hp)
  cases r with
  | error e =>
    refine .inl ⟨_, q, e, hp, hq, ?_⟩
    simp only [convert, convertChecked, parseChecked, hp, hq, bind, Except.bind, pure, Except.pure]
  | ok root =>
    have hsound : root.Sound (∃ n ∈ root.nodes, n.overflows) :=
      fun m hm => ⟨parse_indexable hp hq hm, fun hwide => ⟨m, hm, hwide⟩⟩
    obtain ⟨text, s, hrun, -⟩ := Generator.run_ends hsound (Generator.start root o)
    refine .inr ⟨_, q, root, _, hp, hq, hrun, ?_⟩
    simp only [convert, convertChecked, parseChecked, hp, hq, hrun, bind, Except.bind, pure, Except.pure]

namespace Generator

/-- What generators give for two sources that look the same, each in a guise of its own. -/
structure Matches (g g' : Guise) (r r' : String × Generator) : Prop where
  program : ∃ text, g.text r.1 = g.text text ∧ g'.text r'.1 = g'.text text
  diagnostics : ∃ ds, List.Forall₂ (Diagnostic.Alike g) r.2.diagnostics ds ∧
    List.Forall₂ (Diagnostic.Alike g') r'.2.diagnostics ds
  overflow : r'.2.state.overflow = r.2.state.overflow

theorem runs_match {g g' : Guise} {root root' : Node} (h : root.Whole) (h' : root'.Whole)
    (hsame : root.digest g = root'.digest g') (o : Options) {r r' : String × Generator}
    (hrun : (start root o).run (some root) = .ok r)
    (hrun' : (start root' o).run (some root') = .ok r') : Matches g g' r r' := by
  obtain ⟨m, hm, halike⟩ := run_digest (g := g) h o hrun
  obtain ⟨m', hm', halike'⟩ := run_digest (g := g') h' o hrun'
  obtain rfl : m' = m := by
    rw [hsame, hm'] at hm
    exact Except.ok.inj hm
  exact ⟨⟨m'.1, halike.program, halike'.program⟩,
    ⟨m'.2.diagnostics, halike.diagnostics, halike'.diagnostics⟩,
    halike'.overflow.symm.trans halike.overflow⟩

/-- As many diagnostics of each severity are recorded. -/
theorem Matches.severities {g g' : Guise} {r r' : String × Generator} (h : Matches g g' r r') :
    r'.2.diagnostics.map (·.severity) = r.2.diagnostics.map (·.severity) := by
  have hall : ∀ {g : Guise} {ds ds' : List Diagnostic}, List.Forall₂ (Diagnostic.Alike g) ds ds' →
      ds'.map (·.severity) = ds.map (·.severity) := by
    intro g ds ds' h
    induction h with
    | nil => rfl
    | cons hd _ ih => rw [List.map_cons, List.map_cons, ih, hd.severity]
  obtain ⟨ds, hds, hds'⟩ := h.diagnostics
  rw [← hall hds', hall hds]

theorem Matches.warnings {g g' : Guise} {r r' : String × Generator} (h : Matches g g' r r') :
    Diagnostic.warnings r'.2.diagnostics = Diagnostic.warnings r.2.diagnostics := by
  have hcount : ∀ ds : List Diagnostic,
      Diagnostic.warnings ds = (ds.map (·.severity)).countP (· == .warning) :=
    fun ds => by rw [Diagnostic.warnings, List.countP_map]; rfl
  rw [hcount, hcount, h.severities]

end Generator

/-- Errors of the same kind: refused tokens that are related, as many warnings in finished conversions
that are related, or a format without end. -/
inductive ConversionError.Alike (E : ParseError → ParseError → Prop) (R : Conversion → Conversion → Prop) :
    ConversionError → ConversionError → Prop where
  | syntactic {e e' : ParseError} (h : E e e') : Alike E R (.syntactic e) (.syntactic e')
  | strict (source : String) (warnings : Nat) {c c' : Conversion} (h : R c c') :
    Alike E R (.strict source warnings c) (.strict source warnings c')
  | overflow : Alike E R .overflow .overflow

/-- The outcomes of generators that match. -/
theorem Conversion.outcome_matches {g g' : Guise} {r r' : String × Generator}
    (h : Generator.Matches g g' r r') (o : Options) {tokens tokens' : List Lexeme} {nodes nodes' : Nat}
    (E : ParseError → ParseError → Prop) {R : Conversion → Conversion → Prop}
    (hr : R ⟨r.1, Intrinsic.supportText, programName tokens, r.2.diagnostics, tokens.length, nodes⟩
      ⟨r'.1, Intrinsic.supportText, programName tokens', r'.2.diagnostics, tokens'.length, nodes'⟩) :
    Related (ConversionError.Alike E R) R (outcome o tokens nodes r.1 r.2)
      (outcome o tokens' nodes' r'.1 r'.2) := by
  unfold outcome
  rw [h.overflow, h.warnings]
  by_cases hoverflow : r.2.state.overflow
  · rw [if_pos hoverflow, if_pos hoverflow]
    exact .error .overflow
  · rw [if_neg hoverflow, if_neg hoverflow]
    dsimp only
    split
    · exact .error (.strict _ _ hr)
    · exact .ok hr

end FortranJulia
