import FortranJulia.Lowering.Declaration
import FortranJulia.Proofs.Parsing.Programs

/-!
Phrases that start with a name. An entity of a type declaration, an array declarator, a member of a common
block, a named constant and a reference have the text of the name inside them. Named constants are defined
in PARAMETER statements, and the members of common blocks stand in COMMON statements.
-/

namespace FortranJulia

set_option autoImplicit false

namespace Label

/-- The label of the name that a phrase starts with. -/
def firstName? : Label → Option Label
  | .entityDecl => some .objectName
  | .arrayDeclarator | .commonBlockObject | .variableRef => some .variableName
  | .namedConstantDef => some .namedConstant
  | _ => none

/-- What a part of a PARAMETER or COMMON statement stands in. -/
def listed? : Label → Option Label
  | .namedConstantDef => some .namedConstantDefList
  | .namedConstantDefList => some .parameterStmt
  | .commonBlockObject => some .commonBlockObjectList
  | .commonBlockObjectList => some .commonBlock
  | .commonBlock => some .commonStmt
  | _ => none

theorem isUnit_listed {m : Label} (h : m.listed?.isSome) : m.isUnit = false := by
  cases m <;> first | rfl | exact absurd h nofun

end Label

/-! ## Rules of the grammar -/

namespace Pattern

/-- Is the rule a name with a label and something behind it? -/
def named (l : Label) : Pattern → Bool
  | .node _ (.seq (.node m .word) _) => m == l
  | _ => false

/-- Do the parts of PARAMETER and COMMON statements that the rule makes stand where they have to? -/
def listing (rule : Pattern) : Bool :=
  rule.label?.all fun l => rule.inside.all fun body =>
    body.heads.all fun m => m.listed?.all (· == l)

/-- Is the rule for named constants the only one, do phrases that start with a name start with the right
one, and do the parts of statements stand where they have to? -/
def declares (rule : Pattern) : Bool :=
  (rule.label?.all fun l => l.firstName?.all rule.named) &&
    (!decide (rule.label? = some .namedConstantDef) || decide (rule = Grammar.namedConstantDef)) &&
    rule.listing

end Pattern

theorem rules_declare {rule : Pattern} {l : Label} (hrule : rule ∈ rulesFor grammarPatterns l) :
    rule.label? = some l ∧ (l.firstName?.all rule.named) ∧
      (l = .namedConstantDef → rule = Grammar.namedConstantDef) ∧ rule.listing := by
  have hall : grammarPatterns.all (Pattern.everyRule Pattern.declares) := by decide +kernel
  obtain ⟨hmem, hlabel⟩ := List.mem_filter.1 hrule
  have hl : rule.label? = some l := of_decide_eq_true hlabel
  have hthis := grammar_rule hall hmem
  simp only [Pattern.declares, hl, Option.all_some, Option.some.injEq, Bool.and_eq_true, Bool.or_eq_true,
    Bool.not_eq_true', decide_eq_false_iff_not, decide_eq_true_eq] at hthis
  exact ⟨hl, hthis.1.1, fun heq => hthis.1.2.resolve_left (not_not_intro heq), hthis.2⟩

theorem rules_named {rule : Pattern} {l m : Label} (hrule : rule ∈ rulesFor grammarPatterns l)
    (hl : l.firstName? = some m) : rule.named m := by
  have hnamed := (rules_declare hrule).2.1
  rwa [hl] at hnamed

theorem rules_constant {rule : Pattern} (hrule : rule ∈ rulesFor grammarPatterns .namedConstantDef) :
    rule = Grammar.namedConstantDef :=
  (rules_declare hrule).2.2.1 rfl

theorem rules_listing {rule : Pattern} {l : Label} (hrule : rule ∈ rulesFor grammarPatterns l) :
    rule.listing :=
  (rules_declare hrule).2.2.2

/-- None of the phrases that may contain themselves is a part of a PARAMETER or COMMON statement. -/
theorem phrase_listed {m : Label} (hm : m.listed?.isSome) (phrase : Nonterminal) :
    m ∉ (grammar phrase).heads := by
  have hall : ∀ phrase ∈ [Nonterminal.expr, .multOperand, .fmtSpec, .outputItem, .inputItem,
      .dataStmtObject, .actionStmt, .executableConstruct],
      ∀ m ∈ (grammar phrase).heads, m.listed?.isSome = false := by
    decide
  intro hmem
  rw [hall phrase (by cases phrase <;> simp) m hmem] at hm
  cases hm

/-! ## Parsed trees -/

theorem nodes_parent {n k : Node} (h : k ∈ n.nodes) :
    k = n ∨ ∃ i l cs, .inner i l cs ∈ n.nodes ∧ k ∈ cs := by
  induction n using Node.induction with
  | leaf i lx => exact .inl (List.mem_singleton.1 h)
  | inner i l cs ih =>
    rw [Node.nodes, List.mem_cons, mem_nodesOf] at h
    rcases h with rfl | ⟨c, hc, hk⟩
    · exact .inl rfl
    · refine .inr ?_
      rcases ih c hc hk with rfl | ⟨j, m, ds, hnode, hmem⟩
      · exact ⟨i, l, cs, nodes_self _, hc⟩
      · have hchild : c ∈ (Node.inner i l cs).children := hc
        exact ⟨j, m, ds, nodes_trans (nodes_child hchild) hnode, hmem⟩

/-- The phrases of a tree have the texts of the names that they start with, and its named constants have
values. -/
structure Node.Declarative (root : Node) : Prop where
  named : ∀ k ∈ root.nodes, ∀ l m, k.hasLabel l → l.firstName? = some m → Lower.childText k m = k.text
  valued : ∀ k ∈ root.nodes, k.hasLabel .namedConstantDef → (k.child? .expr).isSome

theorem Node.Declarative.node {root n : Node} (h : root.Declarative) (hn : n ∈ root.nodes) : n.Declarative :=
  ⟨fun k hk => h.named k (nodes_trans hn hk), fun k hk => h.valued k (nodes_trans hn hk)⟩

section Parsed

variable {name source : String} {p q : Parser} {root whole k : Node}
  (hp : Parser.start? name (scan source) = some p) (hq : p.parse = .ok (.ok root, q))

include hp hq

/-- A phrase that starts with a name has its text. -/
theorem parse_named {l m : Label} (hk : k ∈ root.nodes) (hl : k.hasLabel l)
    (hm : l.firstName? = some m) : Lower.childText k m = k.text := by
  cases k with
  | leaf => cases hl
  | inner i l' cs =>
    obtain rfl : l' = l := by simpa [Node.hasLabel, Node.label?] using hl
    obtain ⟨rule, hrule, body, hbody, hmade⟩ := parse_made hp hq hk
    have hnamed := rules_named hrule hm
    obtain ⟨rest, rfl⟩ : ∃ rest, body = .seq (.node m .word) rest := by
      rcases hmade with rfl | ⟨rfl, -⟩
      · unfold Pattern.named at hnamed
        split at hnamed
        · rename_i heq
          obtain rfl := eq_of_beq hnamed
          exact ⟨_, (Pattern.node.inj heq).2⟩
        · cases hnamed
      · cases hnamed
    obtain ⟨_, ns, rfl, hfirst, -⟩ := derives_seq.1 hbody
    obtain ⟨j, j', lx, rfl, -⟩ := derives_name hfirst
    simp [Lower.childText, Node.child?, Node.children, Node.hasLabel, Node.label?, Node.text,
      Node.firstLexeme?, Node.firstLexemeOf?]

/-- A named constant has a value. -/
theorem parse_constant (hk : k ∈ root.nodes) (hl : k.hasLabel .namedConstantDef) :
    (k.child? .expr).isSome := by
  cases k with
  | leaf => cases hl
  | inner i l cs =>
    obtain rfl : l = .namedConstantDef := by simpa [Node.hasLabel, Node.label?] using hl
    obtain ⟨rule, hrule, body, hbody, hmade⟩ := parse_made hp hq hk
    obtain rfl := rules_constant hrule
    obtain rfl : body = _ := by
      rcases hmade with heq | ⟨heq, -⟩
      · exact (Pattern.node.inj heq).2.symm
      · cases heq
    simp only [Pattern.all, derives_seq, Grammar.expr, derives_call, grammar, Grammar.exprBody,
      derives_node] at hbody
    obtain ⟨_, _, rfl, -, _, _, rfl, -, j, ds, rfl, -⟩ := hbody
    rw [Node.child?, List.find?_isSome]
    exact ⟨.inner j .expr ds, by simp [Node.children], rfl⟩

theorem parse_declarative : root.Declarative :=
  ⟨fun _ hk _ _ hl hm => parse_named hp hq hk hl hm, fun _ hk hl => parse_constant hp hq hk hl⟩

/-- What a part of a PARAMETER or COMMON statement stands in, from the inside to the outside. -/
theorem parse_listed {m l : Label} (hwhole : whole ∈ root.nodes) (hk : k ∈ whole.nodes)
    (hm : k.hasLabel m) (hunit : whole.label?.any Label.isUnit) (hl : m.listed? = some l) :
    ∃ n ∈ whole.nodes, n.hasLabel l ∧ k ∈ n.nodes := by
  rcases nodes_parent hk with rfl | ⟨i, l', cs, hnode, hmem⟩
  · rw [eq_of_beq hm, Option.any_some, Label.isUnit_listed (by rw [hl]; rfl)] at hunit
    cases hunit
  · obtain ⟨rule, hrule, body, hbody, hmade⟩ := parse_made hp hq (nodes_trans hwhole hnode)
    have hhead : m ∈ body.heads := derives_heads_of hbody
      (fun phrase hphrase => absurd hphrase (phrase_listed (by rw [hl]; rfl) phrase)) k hmem
      (eq_of_beq hm)
    have hlisting := rules_listing hrule
    have hlabel : l = l' := by
      have hboth : rule.label? = some l' ∧ rule.inside = some body := by
        rcases hmade with rfl | ⟨rfl, -⟩ <;> exact ⟨rfl, rfl⟩
      rw [Pattern.listing, hboth.1, hboth.2, Option.all_some, Option.all_some, List.all_eq_true]
        at hlisting
      simpa [hl] using hlisting m hhead
    refine ⟨.inner i l' cs, hnode, by simp [Node.hasLabel, Node.label?, hlabel], ?_⟩
    exact nodes_child (n := .inner i l' cs) hmem

/-- The named constants of a unit are defined in PARAMETER statements. -/
theorem parse_parameters (hwhole : whole ∈ root.nodes) (hunit : whole.label?.any Label.isUnit)
    (hk : k ∈ whole.nodes) (hl : k.hasLabel .namedConstantDef) :
    ∃ stmt ∈ whole.nodes, stmt.hasLabel .parameterStmt ∧ k ∈ stmt.nodes := by
  obtain ⟨list, hlist, hlistLabel, hin⟩ := parse_listed hp hq hwhole hk hl hunit rfl
  obtain ⟨stmt, hstmt, hlabel, hinside⟩ := parse_listed hp hq hwhole hlist hlistLabel hunit rfl
  exact ⟨stmt, hstmt, hlabel, nodes_trans hinside hin⟩

/-- The members of common blocks stand in COMMON statements. -/
theorem parse_commons (hwhole : whole ∈ root.nodes) (hunit : whole.label?.any Label.isUnit)
    (hk : k ∈ whole.nodes) (hl : k.hasLabel .commonBlockObject) :
    ∃ stmt ∈ whole.nodes, stmt.hasLabel .commonStmt ∧ k ∈ stmt.nodes := by
  obtain ⟨list, hlist, hlistLabel, hin⟩ := parse_listed hp hq hwhole hk hl hunit rfl
  obtain ⟨block, hblock, hblockLabel, hinBlock⟩ :=
    parse_listed hp hq hwhole hlist hlistLabel hunit rfl
  obtain ⟨stmt, hstmt, hlabel, hinside⟩ := parse_listed hp hq hwhole hblock hblockLabel hunit rfl
  exact ⟨stmt, hstmt, hlabel, nodes_trans hinside (nodes_trans hinBlock hin)⟩

end Parsed

end FortranJulia
