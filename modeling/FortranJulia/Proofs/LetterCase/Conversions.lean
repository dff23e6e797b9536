import FortranJulia.Proofs.LetterCase.Parsing
import FortranJulia.Proofs.Likeness.Conversions

/-!
Letter case does not matter. Two sources that are equal in upper case have tokens that are equal in upper
case, and so trees that are; in upper case these have the same digest, so that the programs are equal in
upper case and the diagnostics are about the same places.
-/

namespace FortranJulia

set_option autoImplicit false

/-! ## Trees -/

namespace Node

theorem sketch_caps (n : Node) : n.caps.sketch .same = n.sketch .upper := by
  induction n using Node.induction with
  | leaf i lx => simp [Guise.lexeme_same, Guise.lexeme_upper]
  | inner i l cs ih =>
    have hcs : (cs.map caps).map (sketch .same) = cs.map (sketch .upper) := by
      rw [List.map_map]
      exact List.map_congr_left ih
    rw [caps_inner]
    by_cases hl : l = .endOfStmt
    · subst hl
      rw [sketch_end, sketch_end, hcs]
    · rw [sketch_inner _ hl, sketch_inner _ hl, hcs]

theorem digest_caps (n : Node) : n.caps.digest .same = n.digest .upper := by
  have hstays : ∀ n : Node, n.caps.stays = n.stays := by
    intro n
    cases n <;> simp [stays, hasKind, lexeme?]
  have hkept : ∀ ns : List Node, kept (ns.map caps) = (kept ns).map caps := by
    intro ns
    cases ns with
    | nil => rfl
    | cons n ns =>
      rw [List.map_cons, kept, kept, List.map_cons, List.filter_map]
      exact congrArg _ (congrArg _ (List.filter_congr fun m _ => hstays m))
  cases n with
  | leaf i lx => simp [digest, Guise.lexeme_same, Guise.lexeme_upper]
  | inner i l cs =>
    rw [caps_inner, digest, digest, hkept, List.map_map]
    exact congrArg _ (List.map_congr_left fun n _ => sketch_caps n)

end Node

/-! ## Conversions -/

/-- Severity, rule and place. -/
def Diagnostic.mark (d : Diagnostic) : Severity × String × Int × Int :=
  (d.severity, d.rule, d.line, d.col)

theorem Diagnostic.marks_upper {ds ds' : List Diagnostic} (h : List.Forall₂ (Alike .upper) ds ds') :
    ds'.map mark = ds.map mark := by
  induction h with
  | nil => rfl
  | cons hd _ ih =>
    obtain ⟨k, hk, hk'⟩ := hd.place
    rw [List.map_cons, List.map_cons, ih, mark, mark, hd.severity, hd.rule, hd.col, hk', hk]
    rfl

/-- The conversions are the same up to letter case, and their diagnostics up to the messages. -/
structure Conversion.SameUpToCase (c c' : Conversion) : Prop where
  program : c.program.toUpper = c'.program.toUpper
  support : c.support = c'.support
  name : c.name.toUpper = c'.name.toUpper
  diagnostics : c.diagnostics.map Diagnostic.mark = c'.diagnostics.map Diagnostic.mark
  tokens : c.tokens = c'.tokens
  nodes : c.nodes = c'.nodes

section Sources

variable {s t : String} (h : s.toUpper = t.toUpper)

include h

theorem parses_upToCase {name : String} {p q p' q' : Parser} {r r' : Except ParseError Node}
    (hp : Parser.start? name (scan s) = some p) (hq : p.parse = .ok (r, q))
    (hp' : Parser.start? name (scan t) = some p') (hq' : p'.parse = .ok (r', q')) :
    Related (fun e e' => e.caps = e'.caps) (fun n n' => n.caps = n'.caps ∧ q.count = q'.count) r r' := by
  have hboth := parseChecked_caps name (scan s)
  rw [scan_congr h, parseChecked_caps, parseChecked_eq hp hq, parseChecked_eq hp' hq'] at hboth
  have hinner := Except.ok.inj hboth
  cases r with
  | error e =>
    cases r' with
    | error e' => exact .error (Except.error.inj hinner).symm
    | ok n' => cases hinner
  | ok n =>
    cases r' with
    | error e' => cases hinner
    | ok n' =>
      obtain ⟨hn, hcount⟩ := Prod.mk.inj (Except.ok.inj hinner)
      exact .ok ⟨hn.symm, hcount.symm⟩

theorem parseSource_upToCase (name : String) :
    Related (fun e e' => e.caps = e'.caps) (fun r r' => r.1.caps = r'.1.caps ∧ r.2 = r'.2)
      (parseSource name s) (parseSource name t) := by
  have hp := start_scan name s
  have hp' := start_scan name t
  obtain ⟨r, q, hq⟩ := Parser.parse_ends (Parser.start_sound hp)
  obtain ⟨r', q', hq'⟩ := Parser.parse_ends (Parser.start_sound hp')
  rw [parseSource_eq hp hq, parseSource_eq hp' hq']
  cases parses_upToCase h hp hq hp' hq' with
  | error he => exact .error he
  | ok hn => exact .ok hn

theorem convert_upToCase (o : Options) :
    Related (ConversionError.Alike (fun e e' => e.caps = e'.caps) Conversion.SameUpToCase)
      Conversion.SameUpToCase (convert s o) (convert t o) := by
  rcases conversion_steps s o with ⟨p, q, e, hp, hq, hs⟩ | ⟨p, q, root, r, hp, hq, hrun, hs⟩ <;>
    rcases conversion_steps t o with ⟨p', q', e', hp', hq', ht⟩ | ⟨p', q', root', r', hp', hq', hrun', ht⟩
  · cases parses_upToCase h hp hq hp' hq' with
    | error he =>
      rw [hs, ht]
      exact .error (.syntactic he)
  · cases parses_upToCase h hp hq hp' hq'
  · cases parses_upToCase h hp hq hp' hq'
  · cases parses_upToCase h hp hq hp' hq' with
    | ok hn =>
      obtain ⟨hn, hcount⟩ := hn
      have hdigest : root.digest .upper = root'.digest .upper := by
        rw [← Node.digest_caps, hn, Node.digest_caps]
      have hmatch := Generator.runs_match (parse_whole hp hq) (parse_whole hp' hq') hdigest o hrun hrun'
      obtain ⟨text, htext, htext'⟩ := hmatch.program
      obtain ⟨ds, hds, hds'⟩ := hmatch.diagnostics
      have htokens := scan_congr h
      rw [hs, ht]
      refine Conversion.outcome_matches hmatch o _ ⟨htext.trans htext'.symm, rfl, ?_, ?_, ?_, hcount⟩
      · rw [← programName_caps, htokens, programName_caps]
      · rw [← Diagnostic.marks_upper hds, ← Diagnostic.marks_upper hds']
      · simpa using congrArg List.length htokens

end Sources

/-- Sources that are equal in upper case have tokens of the same kinds at the same places. Both parse or
neither does, to trees that differ in letter case only, and the conversions do, too. -/
theorem letter_case_ignored {s t : String} (h : s.toUpper = t.toUpper) (name : String) (o : Options) :
    ((scan s).map fun lx => (lx.kind, lx.line, lx.col)) =
        ((scan t).map fun lx => (lx.kind, lx.line, lx.col)) ∧
      Related (fun e e' => e.caps = e'.caps) (fun r r' => r.1.caps = r'.1.caps ∧ r.2 = r'.2)
        (parseSource name s) (parseSource name t) ∧
      Related (ConversionError.Alike (fun e e' => e.caps = e'.caps) Conversion.SameUpToCase)
        Conversion.SameUpToCase (convert s o) (convert t o) := by
  refine ⟨?_, parseSource_upToCase h name, convert_upToCase h o⟩
  have hplaces : ∀ tokens : List Lexeme, (tokens.map fun lx => (lx.kind, lx.line, lx.col)) =
      (tokens.map Lexeme.caps).map fun lx => (lx.kind, lx.line, lx.col) :=
    fun tokens => by rw [List.map_map]; rfl
  rw [hplaces, scan_congr h, ← hplaces]

/-- A source with one statement in either case. -/
theorem letter_case_ignored_assignment :
    "x = a\nend".toUpper = "X = A\nEND".toUpper ∧
      (∃ n n' count, parseSource "" "x = a\nend" = .ok (n, count) ∧
        parseSource "" "X = A\nEND" = .ok (n', count) ∧ n.caps = n'.caps) ∧
      Related (ConversionError.Alike (fun e e' => e.caps = e'.caps) Conversion.SameUpToCase)
        Conversion.SameUpToCase (convert "x = a\nend" {}) (convert "X = A\nEND" {}) := by
  have hupper : "x = a\nend".toUpper = "X = A\nEND".toUpper := by
    rw [← String.toList_inj, String.toUpper, String.toUpper, String.toList_map, String.toList_map]
    decide
  obtain ⟨-, hparse, hconvert⟩ := letter_case_ignored hupper "" {}
  refine ⟨hupper, ?_, hconvert⟩
  have hstart := start_scan "" "x = a\nend"
  have hok : (Parser.matched? { source := "", tokens := (scan "x = a\nend").toArray }).isSome := by
    rw [scan_within]
    decide +kernel
  obtain ⟨n, hn⟩ := Option.isSome_iff_exists.1 hok
  obtain ⟨q, hq⟩ := parse_of_match (Parser.start_sound hstart) hn
  have hfirst : parseSource "" "x = a\nend" = .ok (n, q.count) := parseSource_eq hstart hq
  rw [hfirst] at hparse
  generalize parseSource "" "X = A\nEND" = second at hparse
  cases hparse with
  | @ok _ r hr =>
    obtain ⟨n', count⟩ := r
    obtain ⟨hn', rfl⟩ := hr
    exact ⟨n, n', q.count, hfirst, rfl, hn'⟩

end FortranJulia
