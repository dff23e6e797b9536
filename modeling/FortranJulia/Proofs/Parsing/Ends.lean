import FortranJulia.Proofs.Parsing.Programs
import FortranJulia.Proofs.Parsing.Progress
import FortranJulia.Proofs.Parsing.Words

/-!
Ends of statements. Where a statement can end is read off the patterns: some phrases hold no end of a
statement, a statement ends in its last child, and no phrase starts with an end. Comments and line ends
are taken only as ends of statements and between program units, since the words of a format are taken
only where the guard has seen that they are neither.
-/

namespace FortranJulia

set_option autoImplicit false

open Match (Outcome)

/-! ## Patterns -/

namespace Pattern

/-- Is no end of a statement among the nodes that the pattern makes? -/
def bare : Pattern → Bool
  | .branch _ p₁ p₂ | .seq p₁ p₂ | .alt p₁ p₂ => p₁.bare && p₂.bare
  | .star body | .opt body | .attempt body | .whileDo _ body => body.bare
  | .node l _ => l != .endOfStmt
  | .level l body => l != .endOfStmt && body.bare
  | _ => true

/-- Does no statement end in the trees that the pattern makes? -/
def endless : Pattern → Bool
  | .branch _ p₁ p₂ | .seq p₁ p₂ | .alt p₁ p₂ => p₁.endless && p₂.endless
  | .star body | .opt body | .attempt body | .whileDo _ body => body.endless
  | .node l body | .level l body => l != .endOfStmt && body.endless
  | .call phrase => phrase != .actionStmt && phrase != .executableConstruct
  | _ => true

/-- Is there a token before each end of a statement among the nodes that the pattern makes? -/
def led : Pattern → Bool
  | .branch _ p₁ p₂ | .alt p₁ p₂ => p₁.led && p₂.led
  | .seq p₁ p₂ => p₁.led && (p₁.moves true || p₂.led)
  | .star body | .opt body | .attempt body | .whileDo _ body => body.led
  | .node l _ => l != .endOfStmt
  | .level l body => l != .endOfStmt && body.bare
  | _ => true

/-- Does a statement end in the last node that the pattern makes, and in no other? -/
def ended : Pattern → Bool
  | .seq p₁ p₂ => p₁.endless && p₂.ended
  | .alt p₁ p₂ => p₁.ended && p₂.ended
  | .node l _ => l == .endOfStmt
  | _ => false

end Pattern

namespace Node

/-- No statement ends in the subtree. -/
def Tight (n : Node) : Prop :=
  ∀ k ∈ n.nodes, k.hasLabel .endOfStmt = false

/-- Before each end of a statement among the nodes there is a token. -/
def Led : List Node → Prop
  | [] => True
  | n :: ns => n.hasLabel .endOfStmt = false ∧ (n.firstLexeme?.isSome ∨ Led ns)

variable {n m : Node}

namespace Tight

theorem node (h : n.Tight) (hm : m ∈ n.nodes) : m.Tight :=
  fun k hk => h k (nodes_trans hm hk)

theorem child (h : n.Tight) (hm : m ∈ n.children) : m.Tight :=
  h.node (nodes_child hm)

theorem not_end (h : n.Tight) : n.hasLabel .endOfStmt = false :=
  h n (nodes_self n)

theorem leaf (i : Nat) (lx : Lexeme) : (Node.leaf i lx).Tight := by
  intro k hk
  rw [nodes, List.mem_singleton] at hk
  rw [hk]
  rfl

theorem inner {l : Label} (hl : l ≠ .endOfStmt) (i : Nat) {cs : List Node} (h : ∀ c ∈ cs, c.Tight) :
    (Node.inner i l cs).Tight := by
  intro k hk
  rw [nodes, List.mem_cons, mem_nodesOf] at hk
  rcases hk with rfl | ⟨c, hc, hk⟩
  · simpa [hasLabel, label?] using hl
  · exact h c hc k hk

theorem collapse (h : n.Tight) : n.collapse.Tight := by
  unfold Node.collapse
  split
  · exact h.child (by simp [children])
  · exact h

end Tight

theorem collapse_cases (i : Nat) (l : Label) (ns : List Node) :
    (inner i l ns).collapse = inner i l ns ∨ ns = [(inner i l ns).collapse] := by
  unfold collapse
  split
  · rename_i heq
    obtain ⟨-, -, rfl⟩ := Node.inner.inj heq
    exact .inr rfl
  · exact .inl rfl

namespace Led

theorem of_bare {ns : List Node} (h : ∀ n ∈ ns, n.hasLabel .endOfStmt = false) : Led ns := by
  induction ns with
  | nil => trivial
  | cons n ns ih => exact ⟨h n (by simp), .inr (ih fun m hm => h m (by simp [hm]))⟩

theorem append {ms ns : List Node} (hms : Led ms) (hns : (firstLexemeOf? ms).isSome ∨ Led ns) :
    Led (ms ++ ns) := by
  induction ms with
  | nil => exact hns.resolve_left (by simp [firstLexemeOf?])
  | cons m ms ih =>
    obtain ⟨hm, hrest⟩ := hms
    refine ⟨hm, ?_⟩
    cases hfirst : m.firstLexeme? with
    | some lx => exact .inl rfl
    | none =>
      rw [firstLexemeOf?, hfirst] at hns
      exact .inr (ih (hrest.resolve_left (by simp [hfirst])) hns)

end Led

end Node

/-! ## Derivations -/

section Derived

variable {p : Pattern} {ns : List Node}

theorem grammar_bare (phrase : Nonterminal) : (grammar phrase).bare := by
  cases phrase <;> decide

theorem grammar_led (phrase : Nonterminal) : (grammar phrase).led := by
  cases phrase <;> decide

theorem grammar_endless {phrase : Nonterminal} (h : phrase ≠ .actionStmt ∧ phrase ≠ .executableConstruct) :
    (grammar phrase).endless := by
  revert h
  cases phrase <;> decide

theorem derives_bare (h : Derives grammar p ns) : p.bare → ∀ n ∈ ns, n.hasLabel .endOfStmt = false := by
  induction h with
  | take i _ =>
    intro _ n hn
    rw [List.mem_singleton.1 hn]
    rfl
  | check | star_end | opt_none | while_end => simp
  | branch_yes _ ih | alt_first _ ih => exact fun hp => ih (Bool.and_eq_true_iff.1 hp).1
  | branch_no _ ih | alt_second _ ih => exact fun hp => ih (Bool.and_eq_true_iff.1 hp).2
  | seq _ _ ih₁ ih₂ =>
    intro hp n hn
    obtain ⟨h₁, h₂⟩ := Bool.and_eq_true_iff.1 hp
    exact (List.mem_append.1 hn).elim (ih₁ h₁ n) (ih₂ h₂ n)
  | star_more _ _ ih₁ ih₂ | while_more _ _ ih₁ ih₂ =>
    intro hp n hn
    exact (List.mem_append.1 hn).elim (ih₁ hp n) (ih₂ hp n)
  | opt _ ih | attempt _ ih => exact ih
  | call _ ih => exact fun _ => ih (grammar_bare _)
  | node i l _ =>
    intro hp n hn
    rw [List.mem_singleton.1 hn]
    simpa [Node.hasLabel, Node.label?, Pattern.bare] using hp
  | @level _ ns i l _ ih =>
    intro hp n hn
    obtain ⟨hl, hbody⟩ := Bool.and_eq_true_iff.1 hp
    rw [List.mem_singleton.1 hn]
    rcases Node.collapse_cases i l ns with heq | heq
    · rw [heq]
      simpa [Node.hasLabel, Node.label?] using hl
    · have hmem := List.mem_singleton_self (Node.inner i l ns).collapse
      rw [← heq] at hmem
      exact ih hbody _ hmem

theorem derives_endless (h : Derives grammar p ns) : p.endless → ∀ n ∈ ns, n.Tight := by
  induction h with
  | take i _ =>
    intro _ n hn
    rw [List.mem_singleton.1 hn]
    exact .leaf _ _
  | check | star_end | opt_none | while_end => simp
  | branch_yes _ ih | alt_first _ ih => exact fun hp => ih (Bool.and_eq_true_iff.1 hp).1
  | branch_no _ ih | alt_second _ ih => exact fun hp => ih (Bool.and_eq_true_iff.1 hp).2
  | seq _ _ ih₁ ih₂ =>
    intro hp n hn
    obtain ⟨h₁, h₂⟩ := Bool.and_eq_true_iff.1 hp
    exact (List.mem_append.1 hn).elim (ih₁ h₁ n) (ih₂ h₂ n)
  | star_more _ _ ih₁ ih₂ | while_more _ _ ih₁ ih₂ =>
    intro hp n hn
    exact (List.mem_append.1 hn).elim (ih₁ hp n) (ih₂ hp n)
  | opt _ ih | attempt _ ih => exact ih
  | call _ ih =>
    intro hp
    exact ih (grammar_endless (by simpa [Pattern.endless] using hp))
  | node i l _ ih =>
    intro hp n hn
    obtain ⟨hl, hbody⟩ := Bool.and_eq_true_iff.1 hp
    rw [List.mem_singleton.1 hn]
    exact .inner (by simpa using hl) i (ih hbody)
  | level i l _ ih =>
    intro hp n hn
    obtain ⟨hl, hbody⟩ := Bool.and_eq_true_iff.1 hp
    rw [List.mem_singleton.1 hn]
    exact (Node.Tight.inner (by simpa using hl) i (ih hbody)).collapse

theorem derives_moves (h : Derives grammar p ns) :
    ∀ inside, p.moves inside → (Node.firstLexemeOf? ns).isSome := by
  have happend : ∀ {ms ns : List Node}, (Node.firstLexemeOf? ms).isSome ∨ (Node.firstLexemeOf? ns).isSome →
      (Node.firstLexemeOf? (ms ++ ns)).isSome := by
    intro ms ns h
    induction ms with
    | nil => exact h.resolve_left (by simp [Node.firstLexemeOf?])
    | cons m ms ih =>
      rw [List.cons_append, Node.firstLexemeOf?] at *
      cases hm : m.firstLexeme? with
      | some lx => rfl
      | none =>
        rw [hm] at h
        exact ih h
  induction h with
  | take => exact fun _ _ => rfl
  | check | star_end | opt_none | while_end | star_more | while_more | opt => simp [Pattern.moves]
  | branch_yes _ ih | alt_first _ ih => exact fun inside hp => ih inside (Bool.and_eq_true_iff.1 hp).1
  | branch_no _ ih | alt_second _ ih => exact fun inside hp => ih inside (Bool.and_eq_true_iff.1 hp).2
  | seq _ _ ih₁ ih₂ =>
    intro inside hp
    exact happend ((Bool.or_eq_true_iff.1 hp).imp (ih₁ inside) (ih₂ false))
  | attempt _ ih => exact ih
  | call _ ih =>
    intro inside hp
    exact ih false (grammar_moves (by simpa [Pattern.moves] using hp))
  | node i l _ ih =>
    intro inside hp
    have hbody := ih inside hp
    rw [Node.firstLexemeOf?, Node.firstLexeme?]
    obtain ⟨lx, hlx⟩ := Option.isSome_iff_exists.1 hbody
    rw [hlx]
    rfl
  | level i l _ ih =>
    intro inside hp
    have hbody := ih inside hp
    rw [Node.firstLexemeOf?, firstLexeme?_collapse, Node.firstLexeme?]
    obtain ⟨lx, hlx⟩ := Option.isSome_iff_exists.1 hbody
    rw [hlx]
    rfl

theorem derives_led (h : Derives grammar p ns) : p.led → Node.Led ns := by
  have hsingle : ∀ {n : Node}, n.hasLabel .endOfStmt = false → Node.Led [n] :=
    fun hn => ⟨hn, .inr trivial⟩
  induction h with
  | take => exact fun _ => hsingle rfl
  | check | star_end | opt_none | while_end => exact fun _ => trivial
  | branch_yes _ ih | alt_first _ ih => exact fun hp => ih (Bool.and_eq_true_iff.1 hp).1
  | branch_no _ ih | alt_second _ ih => exact fun hp => ih (Bool.and_eq_true_iff.1 hp).2
  | seq h₁ _ ih₁ ih₂ =>
    intro hp
    obtain ⟨hfirst, hsecond⟩ := Bool.and_eq_true_iff.1 hp
    exact (ih₁ hfirst).append ((Bool.or_eq_true_iff.1 hsecond).imp (derives_moves h₁ true) ih₂)
  | star_more _ _ ih₁ ih₂ | while_more _ _ ih₁ ih₂ => exact fun hp => (ih₁ hp).append (.inr (ih₂ hp))
  | opt _ ih | attempt _ ih => exact ih
  | call _ ih => exact fun _ => ih (grammar_led _)
  | node i l _ =>
    intro hp
    exact hsingle (by simpa [Node.hasLabel, Node.label?, Pattern.led] using hp)
  | level i l h =>
    intro hp
    exact hsingle (derives_bare (.level i l h) hp _ (List.mem_singleton_self _))

theorem derives_ended (h : Derives grammar p ns) : p.ended →
    ∃ (front : List Node) (e : Node), ns = front ++ [e] ∧ e.hasLabel .endOfStmt ∧
      ∀ n ∈ front, n.Tight := by
  induction h with
  | take => intro hp; rename_i p _ _ _; cases p <;> simp_all [Pattern.ended, TreeMatch.accepts?]
  | seq h₁ _ _ ih₂ =>
    intro hp
    obtain ⟨hfirst, hsecond⟩ := Bool.and_eq_true_iff.1 hp
    obtain ⟨front, e, rfl, he, hfront⟩ := ih₂ hsecond
    refine ⟨_ ++ front, e, (List.append_assoc _ _ _).symm, he, fun n hn => ?_⟩
    exact (List.mem_append.1 hn).elim (derives_endless h₁ hfirst n) (hfront n)
  | alt_first _ ih => exact fun hp => ih (Bool.and_eq_true_iff.1 hp).1
  | alt_second _ ih => exact fun hp => ih (Bool.and_eq_true_iff.1 hp).2
  | node i l _ =>
    intro hp
    exact ⟨[], _, rfl, by simpa [Node.hasLabel, Node.label?, Pattern.ended] using hp, by simp⟩
  | _ => simp [Pattern.ended]

end Derived

/-! ## Rules -/

namespace Node

/-- The labels of phrases inside statements of which all tokens are looked at. -/
def tightLabels : List Label :=
  [.expr, .fmtSpec, .upperBound, .sectionSubscript, .unitIdentifier, .formatIdentifier,
   .ioControlSpecList, .connectSpecList, .closeSpecList, .positionSpecList]

/-- The labels of phrases that hold a statement label. -/
def numberLabels : List Label :=
  [.lblDef, .lblRef, .doLblRef]

/-- The labels of phrases whose parts are statements or parts of them, and no ends of statements. -/
def blockLabels : List Label :=
  [.body, .conditionalBody, .ifConstruct, .ifStmt]

/-- The labels of statements, and of the first and last ones of units and the marks of IF blocks, that
have an end of their own. -/
def endedLabels : List Label :=
  Label.statements.filter (fun label => !([Label.ifStmt, .ifConstruct].contains label)) ++
    [Label.ifThenStmt, .elseIfStmt, .elseStmt, .endIfStmt, .programStmt, .functionStmt, .subroutineStmt,
     .blockDataStmt, .endProgramStmt, .endFunctionStmt, .endSubroutineStmt, .endBlockDataStmt]

end Node

/-- What the rules of a grammar say about the ends of statements. -/
def Pattern.closing (rule : Pattern) : Bool :=
  rule.label?.all fun l =>
    (!Node.numberLabels.contains l || rule.leads [.integerConst]) && rule.inside.all fun body =>
      (l == .endOfStmt || body.led) && (!Node.tightLabels.contains l || body.endless) &&
        (!Node.blockLabels.contains l || body.bare) && (!Node.endedLabels.contains l || body.ended)

theorem rules_closing {rule : Pattern} (h : rule ∈ grammarPatterns.flatMap Pattern.rules) :
    rule.closing := by
  have hall : grammarPatterns.all (Pattern.everyRule Pattern.closing) := by decide +kernel
  exact grammar_rule hall h

/-- Where statements end in a parsed tree. -/
structure Closes (l : Label) (cs : List Node) : Prop where
  led : l ≠ .endOfStmt → Node.Led cs
  tight : l ∈ Node.tightLabels → ∀ c ∈ cs, c.Tight
  block : l ∈ Node.blockLabels → ∀ c ∈ cs, c.hasLabel .endOfStmt = false
  ended : l ∈ Node.endedLabels →
    ∃ (front : List Node) (e : Node), cs = front ++ [e] ∧ e.hasLabel .endOfStmt ∧
      ∀ c ∈ front, c.Tight

section Parsed

variable {name source : String} {p q : Parser} {root : Node}
  (hp : Parser.start? name (scan source) = some p) (hq : p.parse = .ok (.ok root, q))

include hp hq

theorem parse_closes {i : Nat} {l : Label} {cs : List Node} (h : .inner i l cs ∈ root.nodes) :
    Closes l cs := by
  obtain ⟨rule, hrule, body, hbody, hmade⟩ := parse_made hp hq h
  obtain ⟨hmem, hlabel⟩ := List.mem_filter.1 hrule
  have hclosing := rules_closing hmem
  have hinside : rule.inside = some body := by rcases hmade with rfl | ⟨rfl, -⟩ <;> rfl
  simp only [Pattern.closing, of_decide_eq_true hlabel, hinside, Option.all_some, Bool.and_eq_true,
    Bool.or_eq_true, Bool.not_eq_true', beq_iff_eq, List.contains_eq_mem, decide_eq_false_iff_not] at hclosing
  obtain ⟨-, ⟨⟨hled, htight⟩, hblock⟩, hended⟩ := hclosing
  exact
    { led := fun hl => derives_led hbody (hled.resolve_left hl)
      tight := fun hl => derives_endless hbody (htight.resolve_left (not_not_intro hl))
      block := fun hl => derives_bare hbody (hblock.resolve_left (not_not_intro hl))
      ended := fun hl => derives_ended hbody (hended.resolve_left (not_not_intro hl)) }

/-- A logical IF ends with its action, and no statement ends in front of that. -/
theorem parse_action {i : Nat} {cs : List Node} (h : .inner i .ifStmt cs ∈ root.nodes) :
    ∃ (front : List Node) (action : Node), cs = front ++ [action] ∧ action.IsStatement ∧
      ∀ c ∈ front, c.Tight := by
  obtain ⟨rule, hrule, hmade⟩ := parse_made hp hq h
  have hbody := made_node hmade hrule (show Grammar.ifStmt ∈ soleRules by simp [soleRules])
  simp only [Pattern.all, derives_seq] at hbody
  obtain ⟨c₁, _, rfl, h₁, c₂, _, rfl, h₂, c₃, _, rfl, h₃, c₄, _, rfl, h₄, c₅, ds, rfl, h₅, h₆⟩ := hbody
  obtain ⟨j, l, es, rfl⟩ := derives_solo h₆ rfl
  refine ⟨c₁ ++ c₂ ++ c₃ ++ c₄ ++ c₅, .inner j l es, by simp, derives_action h₆ _ (by simp), ?_⟩
  intro c hc
  simp only [List.mem_append] at hc
  rcases hc with (((hc | hc) | hc) | hc) | hc
  · exact derives_endless h₁ rfl c hc
  · exact derives_endless h₂ rfl c hc
  · exact derives_endless h₃ rfl c hc
  · exact derives_endless h₄ rfl c hc
  · exact derives_endless h₅ rfl c hc

/-- A statement label is a number. -/
theorem parse_number {k : Node} {l : Label} (hk : k ∈ root.nodes) (hl : l ∈ Node.numberLabels)
    (hlabel : k.hasLabel l) : ∀ c ∈ k.text.toList, Decimal.isDigit c := by
  have hleads : ∀ rule ∈ rulesFor grammarPatterns l, rule.leads [.integerConst] := by
    intro rule hrule
    obtain ⟨hmem, hrl⟩ := List.mem_filter.1 hrule
    have hclosing := rules_closing hmem
    simp only [Pattern.closing, of_decide_eq_true hrl, Option.all_some, Bool.and_eq_true] at hclosing
    simpa [hl] using hclosing.1
  obtain ⟨lx, hlx, htext, hkind⟩ := parse_leads hp hq hk hlabel hleads
  have hinteger : lx.kind = .integerConst := by simpa using hkind
  rw [htext]
  exact ((scan_proper hlx (by simp [hinteger])).integer hinteger).2.1

end Parsed

/-! ## Comments -/

/-- Does the pattern leave tokens of a kind alone among the tokens that it takes itself? With `inside`,
the first token is known not to be one. -/
def Pattern.spares (k : Kind) (inside : Bool) : Pattern → Bool
  | .token k' => inside || k' != k
  | .oneOf ks => inside || !ks.contains k
  | .word => inside || k != .name && k != .editConst
  | .any => inside
  | .branch _ p₁ p₂ | .alt p₁ p₂ => p₁.spares k inside && p₂.spares k inside
  | .seq p₁ p₂ => p₁.spares k inside && p₂.spares k false
  | .star body => body.spares k false
  | .opt body | .attempt body => body.spares k inside
  | .whileDo g body => body.spares k (g.excludes k)
  | _ => true

/-- Are comments taken only as ends of statements, below the nodes that the pattern makes? -/
def Pattern.quiet : Pattern → Bool
  | .branch _ p₁ p₂ | .seq p₁ p₂ | .alt p₁ p₂ => p₁.quiet && p₂.quiet
  | .star body | .opt body | .attempt body | .whileDo _ body => body.quiet
  | .node l body | .level l body => (l == .endOfStmt || body.spares .comment false) && body.quiet
  | _ => true

/-- Only ends of statements hold comments. -/
def Node.Quiet (n : Node) : Prop :=
  ∀ i l cs, .inner i l cs ∈ n.nodes → l ≠ .endOfStmt → ∀ j lx, .leaf j lx ∈ cs → lx.kind ≠ .comment

namespace TreeMatch

variable {tokens : Array Lexeme}

/-- The open node has no child of a kind that is a token. -/
def State.Spared (k : Kind) (s : State) : Prop :=
  ∀ i lx, .leaf i lx ∈ s.kids → lx.kind ≠ k

theorem grammar_spares (k : Kind) (phrase : Nonterminal) : (grammar phrase).spares k false := by
  cases phrase <;> rfl

theorem Runs.spared {k : Kind} {p : Pattern} {s t : State} {o : Outcome} (h : Runs grammar tokens p s o t) :
    ∀ inside, p.spares k inside → (inside → (tokenAt tokens s.pos).kind ≠ k) → s.Spared k →
      t.Spared k := by
  have hfalse : ∀ u : State, (false : Bool) = true → (tokenAt tokens u.pos).kind ≠ k := by simp
  induction h with
  | exhausted | check | check_fails | while_end => exact fun _ _ _ hs => hs
  | @take p s ht =>
    intro inside hp hin hs i lx hmem
    rcases List.mem_cons.1 hmem with heq | hmem
    · obtain ⟨-, rfl⟩ := Node.leaf.inj heq
      cases inside with
      | true => exact hin rfl
      | false =>
        intro hk
        cases p <;> simp_all [accepts?, Pattern.spares, Match.isName]
    · exact hs i lx hmem
  | miss =>
    intro inside hp hin hs
    rwa [State.Spared, missed_kids]
  | branch _ ih =>
    intro inside hp hin hs
    obtain ⟨h₁, h₂⟩ := Bool.and_eq_true_iff.1 hp
    exact ih inside (by split <;> assumption) hin hs
  | seq _ _ ih₁ ih₂ =>
    intro inside hp hin hs
    obtain ⟨h₁, h₂⟩ := Bool.and_eq_true_iff.1 hp
    exact ih₂ false h₂ (hfalse _) (ih₁ inside h₁ hin hs)
  | seq_stop _ _ ih | alt_first _ _ ih =>
    exact fun inside hp hin hs => ih inside (Bool.and_eq_true_iff.1 hp).1 hin hs
  | alt_second _ _ _ ih =>
    exact fun inside hp hin hs => ih inside (Bool.and_eq_true_iff.1 hp).2 hin hs
  | star_more _ _ ih₁ ih₂ =>
    exact fun inside hp hin hs => ih₂ false hp (hfalse _) (ih₁ false hp (hfalse _) hs)
  | star_end _ ih | star_stop _ ih => exact fun inside hp hin hs => ih false hp (hfalse _) hs
  | opt _ _ ih | attempt _ _ ih | opt_none _ ih => exact ih
  | attempt_back | node_back | level_back => exact fun _ _ _ hs => hs
  | while_more hg _ _ ih₁ ih₂ =>
    intro inside hp hin hs
    exact ih₂ false hp (hfalse _) (ih₁ _ hp (ne_of_holds hg) hs)
  | while_stop hg _ _ ih =>
    intro inside hp hin hs
    exact ih _ hp (ne_of_holds hg) hs
  | node =>
    intro inside hp hin hs i lx hmem
    exact hs i lx ((List.mem_cons.1 hmem).resolve_left (by simp))
  | @level l _ s t =>
    intro inside hp hin hs i lx hmem
    refine hs i lx ((List.mem_cons.1 hmem).resolve_left fun heq => ?_)
    have hinner := collapse_inner s.count l t.kids.reverse
    rw [← heq] at hinner
    cases hinner
  | call _ ih => exact fun inside hp hin hs => ih false (grammar_spares k _) (hfalse _) hs

theorem grammar_quiet (phrase : Nonterminal) : (grammar phrase).quiet := by
  cases phrase <;> decide +kernel

theorem Runs.quiet {p : Pattern} {s t : State} {o : Outcome} (h : Runs grammar tokens p s o t) :
    p.quiet → (∀ n ∈ s.kids, n.Quiet) → ∀ n ∈ t.kids, n.Quiet := by
  have hleaf : ∀ (i : Nat) (lx : Lexeme), (Node.leaf i lx).Quiet := by
    intro i lx j l cs hmem
    simp [Node.nodes] at hmem
  -- A new node holds what the match of its body added, and that is quiet.
  have hinner : ∀ {s t : State} {l : Label} {body : Pattern}, (l == .endOfStmt || body.spares .comment false) →
      Runs grammar tokens body s.enter .matched t → (∀ n ∈ t.kids, n.Quiet) →
      (Node.inner s.count l t.kids.reverse).Quiet := by
    intro s t l body hl hrun hkids i m cs hmem hm j lx hlx
    rw [Node.nodes, List.mem_cons, mem_nodesOf] at hmem
    rcases hmem with heq | ⟨n, hn, hmem⟩
    · obtain ⟨-, rfl, rfl⟩ := Node.inner.inj heq
      have hspares := (Bool.or_eq_true_iff.1 hl).resolve_left (by simpa using hm)
      refine hrun.spared false hspares (by simp) (fun i lx h => ?_) j lx (List.mem_reverse.1 hlx)
      simp [State.enter] at h
    · exact hkids n (List.mem_reverse.1 hn) i m cs hmem hm j lx hlx
  induction h with
  | exhausted | check | check_fails | while_end | attempt_back | node_back | level_back =>
    exact fun _ hs => hs
  | take =>
    intro _ hs n hn
    rcases List.mem_cons.1 hn with rfl | hn
    · exact hleaf _ _
    · exact hs n hn
  | miss =>
    intro _ hs
    rwa [missed_kids]
  | branch _ ih =>
    intro hp hs
    obtain ⟨h₁, h₂⟩ := Bool.and_eq_true_iff.1 hp
    exact ih (by split <;> assumption) hs
  | seq _ _ ih₁ ih₂ =>
    intro hp hs
    obtain ⟨h₁, h₂⟩ := Bool.and_eq_true_iff.1 hp
    exact ih₂ h₂ (ih₁ h₁ hs)
  | seq_stop _ _ ih | alt_first _ _ ih => exact fun hp hs => ih (Bool.and_eq_true_iff.1 hp).1 hs
  | alt_second _ _ _ ih => exact fun hp hs => ih (Bool.and_eq_true_iff.1 hp).2 hs
  | star_more _ _ ih₁ ih₂ | while_more _ _ _ ih₁ ih₂ => exact fun hp hs => ih₂ hp (ih₁ hp hs)
  | star_end _ ih | star_stop _ ih | opt _ _ ih | opt_none _ ih | attempt _ _ ih | while_stop _ _ _ ih =>
    exact ih
  | node h ih =>
    intro hp hs n hn
    obtain ⟨hl, hbody⟩ := Bool.and_eq_true_iff.1 hp
    rcases List.mem_cons.1 hn with rfl | hn
    · exact hinner hl h (ih hbody (by simp [State.enter]))
    · exact hs n hn
  | @level l _ s t h ih =>
    intro hp hs n hn
    obtain ⟨hl, hbody⟩ := Bool.and_eq_true_iff.1 hp
    have hkids := ih hbody (by simp [State.enter])
    rcases List.mem_cons.1 hn with rfl | hn
    · rcases Node.collapse_cases s.count l t.kids.reverse with heq | heq
      · rw [heq]
        exact hinner hl h hkids
      · have hmem := List.mem_singleton_self (Node.inner s.count l t.kids.reverse).collapse
        rw [← heq] at hmem
        exact hkids _ (List.mem_reverse.1 hmem)
    · exact hs n hn
  | call _ ih => exact fun _ hs => ih (grammar_quiet _) hs

end TreeMatch

/-- Below the parts of a parsed tree, only ends of statements hold comments. -/
theorem parse_quiet {p q : Parser} {root : Node} (hp : p.state.Sound p.tokens)
    (hq : p.parse = .ok (.ok root, q)) : ∀ n ∈ root.children, n.Quiet := by
  obtain ⟨entry, hentry, s, t, low, -, hkids, hruns, -⟩ := Parser.parse_tree hp hq
  obtain ⟨l, body, rfl, hquiet⟩ : ∃ l body, entry = .node l body ∧ body.quiet := by
    rcases List.mem_cons.1 hentry with rfl | hentry
    · exact ⟨.program, _, rfl, by decide +kernel⟩
    · obtain rfl := List.mem_singleton.1 hentry
      exact ⟨.loneName, _, rfl, by decide +kernel⟩
  generalize hu : { t with kids := [root] } = u at hruns
  cases hruns with
  | take ht => simp [TreeMatch.accepts?] at ht
  | node_back _ ho => exact absurd rfl ho
  | @node _ _ _ v h =>
    have hroot : root = .inner s.count l v.kids.reverse := by
      have hk := congrArg TreeMatch.State.kids hu
      simpa [TreeMatch.State.leave, hkids] using hk
    rw [hroot]
    intro n hn
    exact h.quiet hquiet (by simp [TreeMatch.State.enter]) n (List.mem_reverse.1 hn)

end FortranJulia
