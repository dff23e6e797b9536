import FortranJulia.Proofs.Lowering.Routines
import FortranJulia.Proofs.Parsing.Words
import FortranJulia.Proofs.Scanning.Lines

/-!
Names of units. The first statement of a routine has a name in it, which is not empty, so that a routine
of a parsed program can be called. The name of a program is looked for among the tokens of a source, where
the first name right behind the word PROGRAM counts. It is the name in the first statement of the main
program if no other PROGRAM stands before that statement and the name does not read as an edit descriptor.
-/

namespace FortranJulia

set_option autoImplicit false

/-- Does the pattern make a node with a label wherever it matches? -/
def Pattern.brings (l : Label) : Pattern → Bool
  | .node m _ => m == l
  | .branch _ p₁ p₂ | .alt p₁ p₂ => p₁.brings l && p₂.brings l
  | .seq p₁ p₂ => p₁.brings l || p₂.brings l
  | .attempt body => body.brings l
  | _ => false

theorem derives_brings {l : Label} {p : Pattern} {ns : List Node} (h : Derives grammar p ns) :
    p.brings l → ∃ n ∈ ns, n.hasLabel l := by
  induction h with
  | node i m _ =>
    intro hm
    exact ⟨_, List.mem_singleton_self _, beq_iff_eq.2 (congrArg some (eq_of_beq hm))⟩
  | branch_yes _ ih | alt_first _ ih => exact fun hp => ih (Bool.and_eq_true_iff.1 hp).1
  | branch_no _ ih | alt_second _ ih => exact fun hp => ih (Bool.and_eq_true_iff.1 hp).2
  | seq _ _ ih₁ ih₂ =>
    intro hp
    rcases Bool.or_eq_true_iff.1 hp with hp | hp
    · exact (ih₁ hp).imp fun n hn => ⟨List.mem_append_left _ hn.1, hn.2⟩
    · exact (ih₂ hp).imp fun n hn => ⟨List.mem_append_right _ hn.1, hn.2⟩
  | attempt _ ih => exact ih
  | @take p lx i h => cases p <;> simp_all [TreeMatch.accepts?, Pattern.brings]
  | _ => simp [Pattern.brings]

mutual

/-- The first node with a label, in the order of nodes. -/
theorem find?_eq (l : Label) : ∀ n : Node, n.find? l = n.nodes.find? (·.hasLabel l)
  | .leaf _ _ => rfl
  | .inner i m cs => by
    rw [Node.find?, Node.nodes, List.find?_cons, findOf?_eq l cs]
    have hlabel : Node.hasLabel l (.inner i m cs) = (m == l) := rfl
    rw [hlabel]
    cases m == l <;> rfl

theorem findOf?_eq (l : Label) : ∀ ns : List Node,
    Node.findOf? l ns = (Node.nodesOf ns).find? (·.hasLabel l)
  | [] => rfl
  | n :: ns => by
    rw [Node.findOf?, Node.nodesOf, List.find?_append, find?_eq l n, findOf?_eq l ns]
    cases n.nodes.find? (·.hasLabel l) <;> rfl

end

theorem find?_isSome {l : Label} {n k : Node} (hk : k ∈ n.nodes) (hl : k.hasLabel l) :
    (n.find? l).isSome := by
  rw [find?_eq, List.find?_isSome]
  exact ⟨k, hk, hl⟩

/-! ## Routines -/

namespace Label

/-- The label of the name in the first statement of a routine. -/
def routineName? : Label → Option Label
  | .functionStmt => some .functionName
  | .subroutineStmt => some .subroutineName
  | _ => none

end Label

/-- The first statement of a routine has a name in it. -/
theorem rules_routineName {l m : Label} {rule body : Pattern} (hrule : rule ∈ rulesFor grammarPatterns l)
    (hbody : rule.inside = some body) (hm : l.routineName? = some m) : body.brings m := by
  have hall : grammarPatterns.all (Pattern.everyRule fun rule => rule.label?.all fun l =>
      rule.inside.all fun body => l.routineName?.all body.brings) := by
    decide +kernel
  obtain ⟨hmem, hlabel⟩ := List.mem_filter.1 hrule
  have hthis := grammar_rule hall hmem
  simpa [of_decide_eq_true hlabel, hbody, hm] using hthis

namespace Node

/-- Is the unit one that is called, so that its code stands in a function? -/
def isRoutine (unit : Node) : Bool :=
  unit.hasLabel .functionSubprogram || unit.hasLabel .subroutineSubprogram

end Node

section Parsed

variable {name source : String} {p q : Parser} {root : Node}
  (hp : Parser.start? name (scan source) = some p) (hq : p.parse = .ok (.ok root, q))

include hp hq

/-- The name in the first statement of a routine is not empty. -/
theorem parse_nameIn {stmt : Node} {l m : Label} (hstmt : stmt ∈ root.nodes) (hl : stmt.hasLabel l)
    (hm : l.routineName? = some m) : Collection.nameIn (some stmt) m ≠ "" := by
  cases stmt with
  | leaf => cases hl
  | inner i l' cs =>
    obtain rfl : l' = l := by simpa [Node.hasLabel, Node.label?] using hl
    obtain ⟨rule, hrule, body, hbody, hmade⟩ := parse_made hp hq hstmt
    have hinside : rule.inside = some body := by rcases hmade with rfl | ⟨rfl, -⟩ <;> rfl
    obtain ⟨k, hk, hkl⟩ := derives_brings hbody (rules_routineName hrule hinside hm)
    have hchild : k ∈ (Node.inner i l' cs).children := hk
    obtain ⟨found, hfound⟩ := Option.isSome_iff_exists.1 (find?_isSome (nodes_child hchild) hkl)
    obtain ⟨hmem, hlabel⟩ := find?_mem hfound
    have hunit : m ∈ Node.nameLabels ++ Node.unitLabels := by
      cases l' <;> simp [Label.routineName?] at hm <;> subst hm <;> decide
    obtain ⟨c, rest, htext, -⟩ := (parse_worded hp hq).named found (nodes_trans hstmt hmem) m hunit hlabel
    rw [Collection.nameIn, Option.bind_some, hfound]
    intro hempty
    rw [show found.text = "" from hempty] at htext
    cases htext

/-- The routines of a parsed program have names. -/
theorem parse_unitName {unit : Node} (hunit : unit ∈ root.units) (h : unit.isRoutine) :
    unit.unitName ≠ "" := by
  cases unit with
  | leaf => cases h
  | inner i l cs =>
    have hl : l = .functionSubprogram ∨ l = .subroutineSubprogram := by
      simpa [Node.isRoutine, Node.hasLabel, Node.label?] using h
    obtain ⟨head, body, last, hparts⟩ :=
      parse_unit hp hq (units_nodes hunit) (show l.isUnit by rcases hl with rfl | rfl <;> rfl)
    obtain ⟨first, rfl⟩ := Option.isSome_iff_exists.1 (hparts.headed (by rcases hl with rfl | rfl <;> simp))
    have hfirst : first.label? = some l.unitHead := hparts.headLabel first rfl
    have hchild : (Node.inner i l cs).child? l.unitHead = some first := by
      rw [Node.child?, Node.children, hparts.children]
      exact List.find?_cons_of_pos (by simp [Node.hasLabel, hfirst])
    have hnode := nodes_trans (units_nodes hunit) (nodes_child (List.mem_of_find?_eq_some hchild))
    rcases hl with rfl | rfl
    · have hname := parse_nameIn hp hq hnode (beq_iff_eq.2 hfirst) rfl
      rwa [← hchild] at hname
    · have hname := parse_nameIn hp hq hnode (beq_iff_eq.2 hfirst) rfl
      rwa [← hchild] at hname

end Parsed

theorem programName_append {front : List Lexeme} (h : ∀ lx ∈ front, lx.kind ≠ .keyword .PROGRAM)
    (rest : List Lexeme) : programName (front ++ rest) = programName rest := by
  induction front with
  | nil => rfl
  | cons lx front ih =>
    rw [List.cons_append, programName_cons (h lx (by simp)), ih (fun y hy => h y (by simp [hy]))]

/-- The tokens of a part of a tree stand in the tree one behind the other. -/
theorem lexemes_place {n root : Node} (h : n ∈ root.nodes) :
    ∃ front rest, root.lexemes = front ++ n.lexemes ++ rest := by
  induction root using Node.induction with
  | leaf i lx =>
    obtain rfl := List.mem_singleton.1 h
    exact ⟨[], [], by simp⟩
  | inner i l cs ih =>
    rw [Node.nodes, List.mem_cons, mem_nodesOf] at h
    rcases h with rfl | ⟨c, hc, hn⟩
    · exact ⟨[], [], by simp⟩
    · obtain ⟨before, behind, rfl⟩ := List.append_of_mem hc
      obtain ⟨front, rest, hlexemes⟩ := ih c hc hn
      refine ⟨Node.lexemesOf before ++ front, rest ++ Node.lexemesOf behind, ?_⟩
      rw [Node.lexemes, lexemesOf_append, Node.lexemesOf, hlexemes]
      simp only [List.append_assoc]

theorem rules_programStmt {rule : Pattern} (hrule : rule ∈ rulesFor grammarPatterns .programStmt) :
    rule = Grammar.programStmt := by
  have hall : grammarPatterns.all (Pattern.everyRule fun rule =>
      !decide (rule.label? = some .programStmt) || decide (rule = Grammar.programStmt)) := by
    decide +kernel
  obtain ⟨hmem, hlabel⟩ := List.mem_filter.1 hrule
  have hor := grammar_rule hall hmem
  simpa [of_decide_eq_true hlabel] using hor

section Parsed

variable {name source : String} {p q : Parser} {root stmt : Node}
  (hp : Parser.start? name (scan source) = some p) (hq : p.parse = .ok (.ok root, q))

include hp hq

/-- The first statement of a main program has the word PROGRAM and right behind it the name. -/
theorem parse_programStmt (hstmt : stmt ∈ root.nodes) (hl : stmt.hasLabel .programStmt) :
    ∃ front word lx rest, stmt.lexemes = front ++ word :: lx :: rest ∧
      (∀ other ∈ front, other.kind = .integerConst) ∧ word.kind = .keyword .PROGRAM ∧ Match.isName lx ∧
      Collection.nameIn (some stmt) .programName = lx.text := by
  cases stmt with
  | leaf => cases hl
  | inner i l cs =>
    obtain rfl : l = .programStmt := by simpa [Node.hasLabel, Node.label?] using hl
    obtain ⟨rule, hrule, body, hbody, hmade⟩ := parse_made hp hq hstmt
    rw [rules_programStmt hrule] at hmade
    rcases hmade with hnode | ⟨hlevel, -⟩
    · rw [← (Pattern.node.inj hnode).2] at hbody
      obtain ⟨label, _, rfl, hlabel, hbody⟩ := derives_seq.1 hbody
      obtain ⟨_, _, rfl, hword, hbody⟩ := derives_seq.1 hbody
      obtain ⟨_, ends, rfl, hname, -⟩ := derives_seq.1 hbody
      obtain ⟨j, word, rfl, hkind⟩ := derives_token.1 hword
      obtain ⟨k, m, lx, rfl, hisName⟩ := derives_name hname
      have hkeyword : word.kind = .keyword .PROGRAM := hkind
      rcases derives_opt.1 hlabel with rfl | hlabel
      · exact ⟨[], word, lx, Node.lexemesOf ends, by simp [Node.lexemes, Node.lexemesOf], by simp,
          hkeyword, hisName, by simp [Collection.nameIn, Node.find?, Node.findOf?, Node.text, Node.firstLexeme?,
            Node.firstLexemeOf?]⟩
      · obtain ⟨j', cs, rfl, hnumber⟩ := derives_node.1 hlabel
        obtain ⟨m', number, rfl, hconstant⟩ := derives_token.1 hnumber
        exact ⟨[number], word, lx, Node.lexemesOf ends, by simp [Node.lexemes, Node.lexemesOf],
          by simpa using hconstant, hkeyword, hisName,
          by simp [Collection.nameIn, Node.find?, Node.findOf?, Node.text, Node.firstLexeme?,
            Node.firstLexemeOf?]⟩
    · cases hlevel

/-- The name of a parsed program is that in the first statement of its main program, if no other PROGRAM
stands in front of that statement and no token in it reads as an edit descriptor. A source without the
word PROGRAM has no such statement and no name. -/
theorem program_name_agrees :
    (∀ stmt ∈ root.nodes, stmt.hasLabel .programStmt →
      (∃ front rest, scan source = front ++ stmt.lexemes ++ rest) ∧
      ∀ front rest, scan source = front ++ stmt.lexemes ++ rest →
        (∀ lx ∈ front, lx.kind ≠ .keyword .PROGRAM) → (∀ lx ∈ stmt.lexemes, lx.kind ≠ .editConst) →
          programName (scan source) = Collection.nameIn (some stmt) .programName) ∧
    ((∀ lx ∈ scan source, lx.kind ≠ .keyword .PROGRAM) →
      programName (scan source) = "" ∧ ∀ n ∈ root.nodes, n.hasLabel .programStmt = false) := by
  have htokens : root.lexemes = scan source := parse_lexemes hp hq
  refine ⟨fun stmt hstmt hl => ⟨?_, fun front rest hplace hfront hplain => ?_⟩, fun hnone => ⟨?_, ?_⟩⟩
  · obtain ⟨front, rest, hplace⟩ := lexemes_place hstmt
    exact ⟨front, rest, htokens.symm.trans hplace⟩
  · obtain ⟨label, word, lx, ends, hlexemes, hlabel, hword, hisName, hname⟩ :=
      parse_programStmt hp hq hstmt hl
    have hkind : lx.kind = .name := by
      have hno : lx.kind ≠ .editConst := hplain lx (by simp [hlexemes])
      simpa [Match.isName, hno] using hisName
    have hbefore : ∀ other ∈ front ++ label, other.kind ≠ .keyword .PROGRAM := by
      intro other hmem
      rcases List.mem_append.1 hmem with hmem | hmem
      · exact hfront other hmem
      · simp [hlabel other hmem]
    have hsplit : scan source = (front ++ label) ++ word :: lx :: (ends ++ rest) := by
      rw [hplace, hlexemes]
      simp
    rw [hsplit, programName_append hbefore, hname, programName, if_pos (by simp [hword, hkind])]
  · have happend := programName_append hnone []
    rw [List.append_nil] at happend
    exact happend
  · intro n hn
    by_contra hl
    rw [Bool.not_eq_false] at hl
    obtain ⟨label, word, lx, ends, hlexemes, -, hword, -⟩ := parse_programStmt hp hq hn hl
    obtain ⟨front, rest, hplace⟩ := lexemes_place hn
    refine hnone word ?_ hword
    rw [← htokens, hplace, hlexemes]
    simp

end Parsed

/-- A main program with a label in front of its first statement, behind a subroutine. -/
theorem program_name_agrees_behind : ∃ p q root stmt,
    Parser.start? "" (scan "SUBROUTINE S\nEND\n10 PROGRAM P\nEND PROGRAM P") = some p ∧
    p.parse = .ok (.ok root, q) ∧ stmt ∈ root.nodes ∧ stmt.hasLabel .programStmt ∧
    Collection.nameIn (some stmt) .programName = "P" ∧
    programName (scan "SUBROUTINE S\nEND\n10 PROGRAM P\nEND PROGRAM P") = "P" := by
  have hstart := start_scan "" "SUBROUTINE S\nEND\n10 PROGRAM P\nEND PROGRAM P"
  have hok : ((Parser.matched? { source := "", tokens :=
      (scan "SUBROUTINE S\nEND\n10 PROGRAM P\nEND PROGRAM P").toArray }).any fun root =>
        (root.nodes.find? (·.hasLabel .programStmt)).any fun stmt =>
          Collection.nameIn (some stmt) .programName == "P" &&
          (stmt.lexemes.all (·.kind != .editConst) &&
            ((scan "SUBROUTINE S\nEND\n10 PROGRAM P\nEND PROGRAM P").take 5 ++ stmt.lexemes).isPrefixOf
              (scan "SUBROUTINE S\nEND\n10 PROGRAM P\nEND PROGRAM P") &&
            ((scan "SUBROUTINE S\nEND\n10 PROGRAM P\nEND PROGRAM P").take 5).all
              (·.kind != .keyword .PROGRAM))) = true := by
    rw [scan_within]
    decide +kernel
  obtain ⟨root, hmatched, hroot⟩ := (Option.any_eq_true _ _).1 hok
  obtain ⟨stmt, hstmt, hchecks⟩ := (Option.any_eq_true _ _).1 hroot
  simp only [Bool.and_eq_true, List.all_eq_true, bne_iff_ne, ne_eq, beq_iff_eq,
    List.isPrefixOf_iff_prefix] at hchecks
  obtain ⟨hname, ⟨hplain, rest, hplace⟩, hfront⟩ := hchecks
  obtain ⟨q, hq⟩ := parse_of_match (Parser.start_sound hstart) hmatched
  have hmem := List.mem_of_find?_eq_some hstmt
  have hlabel : stmt.hasLabel .programStmt := List.find?_some hstmt
  have hagrees := ((program_name_agrees hstart hq).1 stmt hmem hlabel).2 _ rest hplace.symm hfront hplain
  exact ⟨_, q, root, stmt, hstart, hq, hmem, hlabel, hname, hagrees.trans hname⟩

/-- The name of a program that reads as an edit descriptor is not found. -/
theorem program_name_lost : ∃ p q root stmt, Parser.start? "" (scan "PROGRAM I1\nX=1\nEND") = some p ∧
    p.parse = .ok (.ok root, q) ∧ stmt ∈ root.nodes ∧ stmt.hasLabel .programStmt ∧
    Collection.nameIn (some stmt) .programName = "I1" ∧ programName (scan "PROGRAM I1\nX=1\nEND") = "" := by
  have hstart := start_scan "" "PROGRAM I1\nX=1\nEND"
  have hok : ((Parser.matched? { source := "", tokens := (scan "PROGRAM I1\nX=1\nEND").toArray }).any
      fun root => (root.nodes.find? (·.hasLabel .programStmt)).any fun stmt =>
        Collection.nameIn (some stmt) .programName == "I1" &&
          programName (scan "PROGRAM I1\nX=1\nEND") == "") = true := by
    rw [scan_within]
    decide +kernel
  obtain ⟨root, hmatched, hroot⟩ := (Option.any_eq_true _ _).1 hok
  obtain ⟨stmt, hstmt, hchecks⟩ := (Option.any_eq_true _ _).1 hroot
  simp only [Bool.and_eq_true, beq_iff_eq] at hchecks
  obtain ⟨q, hq⟩ := parse_of_match (Parser.start_sound hstart) hmatched
  exact ⟨_, q, root, stmt, hstart, hq, List.mem_of_find?_eq_some hstmt, List.find?_some hstmt, hchecks.1,
    hchecks.2⟩

end FortranJulia
