import FortranJulia.Proofs.Emission.Lines
import FortranJulia.Proofs.Naming.Programs

/-!
Names that are kept apart. A name is written as it is spelled, a reserved word with an underscore behind it
and the result of a function with one before it. As no name of the source starts with an underscore, two
names meet in the code only if one is a reserved word and the other is that word with an underscore behind
it, and only the result of a function can meet a name that the code has of its own.
-/

namespace FortranJulia

set_option autoImplicit false

open Julia (Line)

/-- The first name is a reserved word, and the second one is what it is escaped to. -/
def Table.Clashes (t : Table) (x y : String) : Prop :=
  Lower.reservedWords.contains (t.spelling x).toLower ∧ t.spelling y = t.spelling x ++ "_"

instance (t : Table) (x y : String) : Decidable (t.Clashes x y) :=
  inferInstanceAs (Decidable (_ ∧ _))

namespace Naming

variable {ν : Naming} {role role' : Role} {x y : String}

/-- The values that code has of its own and that start with an underscore. -/
def temporaries : List String := ["_", "_k", "_r", "_v", "_vals"]

theorem key_of_spelling (h : ν.final.spelling x = ν.final.spelling y) : nameKey x = nameKey y := by
  rw [← ν.final.nameKey_spelling x, ← ν.final.nameKey_spelling y, h]

theorem under_of_upper {d : Char} (hd : Scan.isLetter d) (h : Text.upperChar '_' = Text.upperChar d) :
    d = '_' :=
  ascii_forall (P := fun d => Scan.isLetter d → Text.upperChar '_' = Text.upperChar d → d = '_')
    (by decide) (wordChar_ascii (by simp [Scan.isWordChar, hd])) hd h

/-- A name is spelled with a letter at its start. -/
theorem spelling_head (ν : Naming) (hx : Scan.IsName x.toList) :
    ∃ c cs, (ν.final.spelling x).toList = c :: cs ∧ c ≠ '_' ∧ c ≠ '-' ∧ Decimal.isDigit c = false := by
  obtain ⟨hne, hchars, hdigit⟩ := word_of_nameKey (ν.final.nameKey_spelling x) hx
  obtain ⟨c, cs, hspelling⟩ := List.exists_cons_of_ne_nil hne
  refine ⟨c, cs, hspelling, ?_, ?_, hdigit c (by rw [hspelling]; rfl)⟩
  · rintro rfl
    obtain ⟨d, ds, hname, ⟨hletter, hunder⟩, -⟩ := hx
    have hkeys : (ν.final.spelling x).toList.map Text.upperChar = x.toList.map Text.upperChar := by
      simpa [nameKey, Text.upper] using congrArg String.toList (ν.final.nameKey_spelling x)
    rw [hspelling, hname, List.map_cons, List.map_cons] at hkeys
    exact hunder (under_of_upper hletter (List.cons.inj hkeys).1)
  · rintro rfl
    exact absurd (hchars '-' (by rw [hspelling]; simp)) (by decide)

/-- What is written for a name. -/
theorem written_cases (ν : Naming) (x : String) (hrole : role ≠ .file) :
    ν.written role x = Lower.escaped (ν.final.spelling x) ∨
      role = .variable ∧ ν.result x ∧ ν.written role x = "_" ++ ν.final.spelling x := by
  match role, hrole with
  | .variable, _ =>
    cases hresult : ν.result x with
    | true => exact .inr ⟨rfl, rfl, by rw [written, hresult, if_pos rfl]⟩
    | false => exact .inl (by rw [written, hresult]; rfl)
  | .procedure, _ => exact .inl rfl

/-- What is written with an underscore at its start is the result of a function. -/
theorem written_marked (hx : Scan.IsName x.toList) (hrole : role ≠ .file) {s : String}
    (h : ν.written role x = "_" ++ s) : role = .variable ∧ ν.result x ∧ ν.final.spelling x = s := by
  rcases written_cases ν x hrole with hescaped | ⟨hvariable, hresult, hmarked⟩
  · obtain ⟨c, cs, hspelling, hunder, -⟩ := spelling_head ν hx
    rw [hescaped, Lower.escaped] at h
    have hlist := congrArg String.toList h
    have hmark : ("_" ++ s).toList = '_' :: s.toList := String.toList_append
    rw [hmark] at hlist
    split at hlist
    · rw [String.toList_append, hspelling] at hlist
      exact absurd (List.cons.inj hlist).1 hunder
    · rw [hspelling] at hlist
      exact absurd (List.cons.inj hlist).1 hunder
  · rw [hmarked] at h
    exact ⟨hvariable, hresult, (String.append_right_inj _).1 h⟩

/-- Two names that are written alike differ in letter case only, or one is what the other is escaped
to. -/
theorem written_alike (hx : Scan.IsName x.toList) (hy : Scan.IsName y.toList) (hrole : role ≠ .file)
    (hrole' : role' ≠ .file) (h : ν.written role x = ν.written role' y) :
    nameKey x = nameKey y ∨ ν.final.Clashes x y ∨ ν.final.Clashes y x := by
  rcases written_cases ν x hrole with hescaped | ⟨-, -, hmarked⟩
  · rcases written_cases ν y hrole' with hescaped' | ⟨-, -, hmarked'⟩
    · rw [hescaped, hescaped', Lower.escaped, Lower.escaped] at h
      split at h
      · rename_i hreserved
        split at h
        · exact .inl (key_of_spelling ((String.append_left_inj _).1 h))
        · exact .inr (.inl ⟨hreserved, h.symm⟩)
      · split at h
        · rename_i hreserved
          exact .inr (.inr ⟨hreserved, h⟩)
        · exact .inl (key_of_spelling h)
    · obtain ⟨-, -, hsame⟩ := written_marked hx hrole (h.trans hmarked')
      exact .inl (key_of_spelling hsame)
  · obtain ⟨-, -, hsame⟩ := written_marked hy hrole' (h.symm.trans hmarked)
    exact .inl (key_of_spelling hsame.symm)

/-- The result of a function may be written like a value that the code has of its own. -/
theorem written_temporary (hx : Scan.IsName x.toList) (hrole : role ≠ .file)
    (h : ν.written role x ∈ temporaries) :
    ν.result x ∧ ν.final.spelling x ∈ ["k", "r", "v", "vals"] := by
  obtain ⟨c, cs, hspelling, -⟩ := spelling_head ν hx
  have hall : ∀ w ∈ temporaries, ∃ s ∈ ["", "k", "r", "v", "vals"], w = "_" ++ s := by decide
  obtain ⟨s, hs, hmark⟩ := hall _ h
  obtain ⟨-, hresult, rfl⟩ := written_marked hx hrole hmark
  refine ⟨hresult, (List.mem_cons.1 hs).resolve_left ?_⟩
  intro hempty
  rw [hempty] at hspelling
  cases hspelling

/-- No name is written like the file of a unit with a number. -/
theorem written_ne_number (hx : Scan.IsName x.toList) (hrole : role ≠ .file) (n : Int) :
    ν.written role x ≠ "_" ++ Decimal.ofInt n := by
  intro h
  obtain ⟨c, cs, hspelling, -, hminus, hdigit⟩ := spelling_head ν hx
  obtain ⟨-, -, hsame⟩ := written_marked hx hrole h
  rw [hsame] at hspelling
  have hdigits : c.isDigit = false := hdigit
  rcases ofInt_chars n c (by rw [hspelling]; simp) with rfl | hc
  · exact hminus rfl
  · rw [hdigits] at hc
    cases hc

/-- The file of a unit that is held in a variable is written like the result of a function if it is that
result which holds the unit. -/
theorem written_file (hx : Scan.IsName x.toList) (hrole : role ≠ .file)
    (h : ν.written role x = ν.written .file y) : ν.result x ∧ nameKey x = nameKey y := by
  obtain ⟨-, hresult, hsame⟩ := written_marked hx hrole h
  exact ⟨hresult, key_of_spelling hsame⟩

end Naming

/-! ## Main statement -/

/-- In the code of a parsed program, two names that differ in more than letter case are written
differently in all roles of variables and procedures, unless one is a reserved word and the other is
that word with an underscore behind it. No name is written like a value that the code has of its own or
like the file of a unit, except for the result of a function called K, R, V or VALS, or one that holds
the unit. -/
theorem names_keep_apart {source : String} {o : Options} {p q : Parser} {root : Node}
    (hp : Parser.start? o.source (scan source) = some p) (hq : p.parse = .ok (.ok root, q)) :
    ∃ lines g, (Generator.start root o).run (some root) =
        .ok (o.header ++ Line.render o.indentation lines, g) ∧
      (∀ lx ∈ root.lexemes, Match.isName lx → Scan.IsName lx.text.toList) ∧
      let final := g.state.collection.table
      let runs := Lower.sourceRuns root.children (Generator.start root o).state
      (∀ unit ∈ root.units, ∃ run ∈ runs, run.node = unit) ∧
      ∀ run ∈ runs,
        let names := Naming.ofUnit final run.node
        names.Covers lines (Lower.programUnit run.node) run.state ∧
        ∀ x, Scan.IsName x.toList → ∀ role, role ≠ .file →
          (∀ y, Scan.IsName y.toList → ∀ role', role' ≠ .file →
            names.written role x = names.written role' y →
              nameKey x = nameKey y ∨ final.Clashes x y ∨ final.Clashes y x) ∧
          (names.written role x ∈ Naming.temporaries →
            names.result x ∧ final.spelling x ∈ ["k", "r", "v", "vals"]) ∧
          (∀ n, names.written role x ≠ "_" ++ Decimal.ofInt n) ∧
          ∀ y, names.written role x = names.written .file y → names.result x ∧ nameKey x = nameKey y := by
  have hsound : root.Sound True := fun n hn => ⟨parse_indexable hp hq hn, fun _ => trivial⟩
  obtain ⟨s, hrun, hlowered⟩ := Generator.run_lines hsound o
  obtain ⟨_, s', hlowered', hruns⟩ := Lower.runs_sources (fun n hn => hsound.child hn)
    (Generator.start root o).state
  obtain rfl : s' = s := congrArg Prod.snd (Except.ok.inj (hlowered'.symm.trans hlowered))
  refine ⟨_, _, hrun, fun lx hlx => ((parse_worded hp hq).lexeme lx hlx).2, fun unit hunit => ?_,
    fun run hmem => ⟨?_, fun x hx role hrole => ⟨fun y hy role' hrole' => Naming.written_alike hx hy hrole
      hrole', Naming.written_temporary hx hrole, Naming.written_ne_number hx hrole,
      fun y => Naming.written_file hx hrole⟩⟩⟩
  · obtain ⟨n, hn, hprogram, hmem⟩ := mem_units.1 hunit
    exact Lower.sourceRuns_nodes hn hprogram hmem _
  · obtain ⟨hunit, hwithin⟩ := hruns run hmem
    exact Lower.covers_unit (t := s') (hsound.node (units_nodes (mem_units.2 hunit))) hwithin.behind

/-- A function called K with a dummy argument that is called like a reserved word. -/
theorem names_keep_apart_result : ∃ (p q : Parser) (root : Node) (lines : List Line) (g : Generator),
    Parser.start? "" (scan "FUNCTION K(TYPE)\nK=TYPE+KIND\nEND") = some p ∧
    p.parse = .ok (.ok root, q) ∧
    (Generator.start root { indent := "  " }).run (some root) =
      .ok (({} : Options).header ++ Line.render "  " lines, g) ∧
    Line.render "  " lines =
      "function K(TYPE_)\n  _K = 0\n  _K = trunc(Int, TYPE_ + KIND)\n  return _K\nend\n" ∧
    ∀ unit ∈ root.units, ∀ role, role ≠ .file →
      (Naming.ofUnit g.state.collection.table unit).written role "TYPE" ≠
        (Naming.ofUnit g.state.collection.table unit).written .variable "K" := by
  have hstart := start_scan "" "FUNCTION K(TYPE)\nK=TYPE+KIND\nEND"
  have hok : ((Parser.matched? { source := "", tokens :=
      (scan "FUNCTION K(TYPE)\nK=TYPE+KIND\nEND").toArray }).any fun root =>
        ((Generator.start root { indent := "  " }).run (some root)).toOption.any fun r =>
          r.1 == ({} : Options).header ++
            "function K(TYPE_)\n  _K = 0\n  _K = trunc(Int, TYPE_ + KIND)\n  return _K\nend\n" &&
          (r.2.state.collection.table.spelling "TYPE" == "TYPE" &&
            r.2.state.collection.table.spelling "K" == "K")) = true := by
    rw [scan_within]
    decide +kernel
  obtain ⟨root, hmatched, hroot⟩ := (Option.any_eq_true _ _).1 hok
  obtain ⟨q, hq⟩ := parse_of_match (Parser.start_sound hstart) hmatched
  obtain ⟨lines, g, hrun, -, hruns, hapart⟩ := names_keep_apart (o := { indent := "  " }) hstart hq
  rw [hrun] at hroot
  obtain ⟨_, hsome, hresult⟩ := (Option.any_eq_true _ _).1 hroot
  obtain rfl := Option.some.inj hsome
  simp only [Bool.and_eq_true, beq_iff_eq] at hresult
  obtain ⟨htext, htype, hk⟩ := hresult
  refine ⟨_, q, root, lines, g, hstart, hq, hrun, (String.append_right_inj _).1 htext,
    fun unit hunit role hrole hsame => ?_⟩
  obtain ⟨run, hmem, rfl⟩ := hruns unit hunit
  have htypeName : Scan.IsName "TYPE".toList :=
    ⟨'T', ['Y', 'P', 'E'], rfl, by decide, List.all_eq_true.1 rfl⟩
  have hkName : Scan.IsName "K".toList := ⟨'K', [], rfl, by decide, List.all_eq_true.1 rfl⟩
  rcases ((hapart run hmem).2 "TYPE" htypeName role hrole).1 "K" hkName .variable (by decide) hsame
    with hkey | ⟨-, hclash⟩ | ⟨-, hclash⟩
  · exact absurd hkey (by decide +kernel)
  · rw [htype, hk] at hclash
    exact absurd hclash (by decide)
  · rw [htype, hk] at hclash
    exact absurd hclash (by decide)

/-- A reserved word is escaped to another name of the program. -/
theorem names_run_together : ∃ p q root lines g,
    Parser.start? "" (scan "SUBROUTINE S(I)\nBEGIN=1\nBEGIN_=2\nI=BEGIN\nEND") = some p ∧
    p.parse = .ok (.ok root, q) ∧
    (Generator.start root { indent := "  " }).run (some root) =
      .ok (({} : Options).header ++ Line.render "  " lines, g) ∧
    g.state.collection.table.Clashes "BEGIN" "BEGIN_" ∧
    Line.render "  " lines = "function S(I)\n  BEGIN_ = 0.0\n  BEGIN_ = 0.0\n  BEGIN_ = 1.0\n" ++
      "  BEGIN_ = 2.0\n  I = trunc(Int, BEGIN_)\n  return I\nend\n" := by
  have hstart := start_scan "" "SUBROUTINE S(I)\nBEGIN=1\nBEGIN_=2\nI=BEGIN\nEND"
  have hok : ((Parser.matched? { source := "", tokens :=
      (scan "SUBROUTINE S(I)\nBEGIN=1\nBEGIN_=2\nI=BEGIN\nEND").toArray }).any fun root =>
        ((Generator.start root { indent := "  " }).run (some root)).toOption.any fun r =>
          r.1 == ({} : Options).header ++ ("function S(I)\n  BEGIN_ = 0.0\n  BEGIN_ = 0.0\n" ++
            "  BEGIN_ = 1.0\n  BEGIN_ = 2.0\n  I = trunc(Int, BEGIN_)\n  return I\nend\n") &&
          decide (r.2.state.collection.table.Clashes "BEGIN" "BEGIN_")) = true := by
    rw [scan_within]
    decide +kernel
  obtain ⟨root, hmatched, hroot⟩ := (Option.any_eq_true _ _).1 hok
  obtain ⟨q, hq⟩ := parse_of_match (Parser.start_sound hstart) hmatched
  have hsound : root.Sound True := fun n hn => ⟨parse_indexable hstart hq hn, fun _ => trivial⟩
  obtain ⟨s, hrun, -⟩ := Generator.run_lines hsound { indent := "  " }
  rw [hrun] at hroot
  obtain ⟨_, hsome, hresult⟩ := (Option.any_eq_true _ _).1 hroot
  obtain rfl := Option.some.inj hsome
  simp only [Bool.and_eq_true, beq_iff_eq, decide_eq_true_eq] at hresult
  exact ⟨_, q, root, _, _, hstart, hq, hrun, hresult.2, (String.append_right_inj _).1 hresult.1⟩

end FortranJulia
