import FortranJulia.Proofs.Parsing.Shapes
import FortranJulia.Proofs.Scanning.Spans

/-!
Words of parsed trees. Line ends stand only in the phrases that end statements, in formats and beside
the program; every other token is on one line. A phrase that is made for a name starts with one, and
a phrase for a label or a sign with its token.
-/

namespace FortranJulia

set_option autoImplicit false

/-! ## Texts of lexemes -/

namespace Text

/-- The text has no line end. -/
def Inline (s : String) : Prop :=
  '\n' ∉ s.toList

theorem dropTrailing_subset (f : Char → Bool) (cs : List Char) : dropTrailing f cs ⊆ cs := by
  intro c hc
  have hmem := (List.dropWhile_sublist f).subset (List.mem_reverse.1 hc)
  exact List.mem_reverse.1 hmem

theorem inline_juliaString (s : String) : Inline (juliaString s) := by
  have hchar : ∀ c, '\n' ∉ juliaChar c := by
    intro c
    unfold juliaChar
    grind
  unfold Inline juliaString
  simp [hchar]

end Text

/-- Only a line end has one in its text. -/
theorem Lexeme.ReadFrom.inline {source : List Char} {a : Span} {lx : Lexeme}
    (h : lx.ReadFrom source a) (hk : lx.kind ≠ .newline) : Text.Inline lx.text := by
  have hchars := h.newline
  rw [if_neg hk] at hchars
  by_cases hconst : lx.kind = .charConst
  · obtain ⟨value, -, htext, -⟩ := h.constant hconst
    rw [htext]
    exact Text.inline_juliaString _
  · by_cases hcomment : lx.kind = .comment
    · rw [Text.Inline, h.comment hcomment]
      exact fun hmem => hchars (Text.dropTrailing_subset _ _ hmem)
    · rw [Text.Inline, h.text hconst hcomment]
      exact hchars

theorem scan_inline {source : String} {lx : Lexeme} (h : lx ∈ scan source) (hk : lx.kind ≠ .newline) :
    Text.Inline lx.text := by
  obtain ⟨spans, lexemes, heq, hcovers⟩ :=
    Scan.lexemesFrom_covers .start source.toList [] ⟨rfl, rfl⟩
  rw [show scan source = _ from heq, List.mem_append, List.mem_singleton] at h
  rcases h with h | rfl
  · obtain ⟨i, hi, rfl⟩ := List.getElem_of_mem h
    have hspan : i < spans.length := hcovers.read.length_eq ▸ hi
    exact (hcovers.read.get hspan hi).inline hk
  · simp [Text.Inline, Lexeme.endOfSource]

/-! ## Line ends -/

/-- The labels of phrases that may hold line ends. -/
def Label.lined : List Label :=
  [.endOfStmt, .fmtSpec, .program, .loneName]

/-- May the pattern take a token of a kind that is not inside a phrase, other than as a name? -/
def Pattern.takes (k : Kind) : Pattern → Bool
  | .token k' => k' == k
  | .oneOf ks => ks.contains k
  | .any => true
  | .branch _ p₁ p₂ | .seq p₁ p₂ | .alt p₁ p₂ => p₁.takes k || p₂.takes k
  | .star body | .opt body | .attempt body | .whileDo _ body => body.takes k
  | _ => false

theorem collapse_inner (i : Nat) (l : Label) (ns : List Node) :
    (Node.inner i l ns).collapse.isLeaf = false := by
  unfold Node.collapse
  split <;> rfl

theorem derives_takes {k : Kind} (hk : k = .newline ∨ k = .editConst) {p : Pattern} {ns : List Node}
    (h : Derives grammar p ns) :
    p.takes k = false → ∀ i lx, .leaf i lx ∈ ns → lx.kind = k → Match.isName lx := by
  induction h with
  | @take p lx i h =>
    intro hp j lx' hmem hkind
    obtain ⟨-, rfl⟩ := Node.leaf.inj (List.mem_singleton.1 hmem)
    cases p <;> simp_all [TreeMatch.accepts?, Pattern.takes]
  | check | star_end | opt_none | while_end => simp
  | branch_yes _ ih | alt_first _ ih => exact fun hp => ih (Bool.or_eq_false_iff.1 hp).1
  | branch_no _ ih | alt_second _ ih => exact fun hp => ih (Bool.or_eq_false_iff.1 hp).2
  | seq _ _ ih₁ ih₂ =>
    intro hp i lx hmem
    obtain ⟨h₁, h₂⟩ := Bool.or_eq_false_iff.1 hp
    exact (List.mem_append.1 hmem).elim (ih₁ h₁ i lx) (ih₂ h₂ i lx)
  | star_more _ _ ih₁ ih₂ | while_more _ _ ih₁ ih₂ =>
    intro hp i lx hmem
    exact (List.mem_append.1 hmem).elim (ih₁ hp i lx) (ih₂ hp i lx)
  | opt _ ih | attempt _ ih => exact ih
  | @call phrase _ _ ih =>
    intro _
    refine ih ?_
    rcases hk with rfl | rfl <;> cases phrase <;> rfl
  | node i l _ => simp
  | level i l _ =>
    intro _ j lx hmem
    have hinner := collapse_inner i l ‹_›
    rw [← List.mem_singleton.1 hmem] at hinner
    cases hinner

/-! ## First words -/

/-- Does everything that the pattern matches start with a name, or with a token of these kinds? -/
def Pattern.leads (ks : List Kind) : Pattern → Bool
  | .token k => ks.contains k
  | .oneOf ms => ms.all ks.contains
  | .word => ks.contains .name
  | .branch _ p₁ p₂ | .alt p₁ p₂ => p₁.leads ks && p₂.leads ks
  | .seq p₁ _ => p₁.leads ks
  | .attempt body | .node _ body | .level _ body => body.leads ks
  | _ => false

theorem firstLexemeOf?_append {ms ns : List Node} {lx : Lexeme}
    (h : Node.firstLexemeOf? ms = some lx) : Node.firstLexemeOf? (ms ++ ns) = some lx := by
  induction ms with
  | nil => cases h
  | cons m ms ih =>
    rw [Node.firstLexemeOf?] at h
    rw [List.cons_append, Node.firstLexemeOf?]
    cases hm : m.firstLexeme? with
    | some lx' =>
      rw [hm] at h
      exact h
    | none =>
      rw [hm] at h
      exact ih h

theorem firstLexeme?_collapse (n : Node) : n.collapse.firstLexeme? = n.firstLexeme? := by
  unfold Node.collapse
  split
  · rename_i i l j m cs
    simp only [Node.firstLexeme?, Node.firstLexemeOf?]
    cases Node.firstLexemeOf? cs <;> rfl
  · rfl

/-- A name may also be a descriptor, if it has no point. -/
theorem derives_leads {ks : List Kind} {p : Pattern} {ns : List Node} (h : Derives grammar p ns) :
    p.leads ks → ∃ lx, Node.firstLexemeOf? ns = some lx ∧
      (lx.kind ∈ ks ∨ .name ∈ ks ∧ Match.isName lx) := by
  induction h with
  | @take p lx i h =>
    intro hp
    refine ⟨lx, rfl, ?_⟩
    cases p <;> simp_all [TreeMatch.accepts?, Pattern.leads]
  | check | star_end | opt_none | while_end | star_more | while_more | opt => simp [Pattern.leads]
  | branch_yes _ ih | alt_first _ ih => exact fun hp => ih (Bool.and_eq_true_iff.1 hp).1
  | branch_no _ ih | alt_second _ ih => exact fun hp => ih (Bool.and_eq_true_iff.1 hp).2
  | seq _ _ ih _ =>
    intro hp
    obtain ⟨lx, hlx, hk⟩ := ih hp
    exact ⟨lx, firstLexemeOf?_append hlx, hk⟩
  | attempt _ ih => exact ih
  | call => simp [Pattern.leads]
  | node i l _ ih =>
    intro hp
    obtain ⟨lx, hlx, hk⟩ := ih hp
    exact ⟨lx, by simp [Node.firstLexemeOf?, Node.firstLexeme?, hlx], hk⟩
  | level i l _ ih =>
    intro hp
    obtain ⟨lx, hlx, hk⟩ := ih hp
    exact ⟨lx, by simp [Node.firstLexemeOf?, firstLexeme?_collapse, Node.firstLexeme?, hlx], hk⟩

namespace Node

/-- The labels of phrases in statements that start with a name. -/
def nameLabels : List Label :=
  [.entityDecl, .objectName, .arrayDeclarator, .commonBlockObject, .variableName, .variableRef,
   .namedConstantDef, .namedConstant, .namedConstantUse, .externalName, .intrinsicProcedureName,
   .refName, .sfDummyArgName, .impliedDoVariable, .subroutineNameUse]

/-- The labels of the names in the first statement of a unit. -/
def unitLabels : List Label :=
  [.functionName, .subroutineName, .programName, .blockDataName, .dummyArgName]

end Node

/-- What the rules of a grammar say about names, labels and line ends. -/
def Pattern.worded (rule : Pattern) : Bool :=
  rule.label?.all fun l =>
    (!(Node.nameLabels ++ Node.unitLabels).contains l || rule.leads [.name]) &&
    (!([Label.lblDef, .lblRef, .sign].contains l) || rule.leads [.integerConst, .plus, .minus]) &&
    (Label.lined.contains l || rule.inside.all fun body => !body.takes .newline) &&
    (!([Label.program, .loneName].contains l) || rule.inside.all fun body => !body.takes .editConst)

theorem rules_worded {l : Label} {rule : Pattern} (hrule : rule ∈ rulesFor grammarPatterns l) :
    (l ∈ Node.nameLabels ++ Node.unitLabels → rule.leads [.name]) ∧
      (l ∈ [Label.lblDef, .lblRef, .sign] → rule.leads [.integerConst, .plus, .minus]) ∧
      (l ∉ Label.lined → ∀ body, rule.inside = some body → body.takes .newline = false) ∧
      (l ∈ [Label.program, .loneName] → ∀ body, rule.inside = some body →
        body.takes .editConst = false) := by
  have hall : grammarPatterns.all (Pattern.everyRule Pattern.worded) := by decide +kernel
  obtain ⟨hmem, hlabel⟩ := List.mem_filter.1 hrule
  have hthis := grammar_rule hall hmem
  rw [Pattern.worded, of_decide_eq_true hlabel, Option.all_some] at hthis
  simp only [Bool.and_eq_true, Bool.or_eq_true, Bool.not_eq_true', List.contains_eq_mem,
    decide_eq_false_iff_not, decide_eq_true_eq] at hthis
  obtain ⟨⟨⟨hname, hnumber⟩, hline⟩, hedit⟩ := hthis
  refine ⟨fun hl => hname.resolve_left (not_not_intro hl),
    fun hl => hnumber.resolve_left (not_not_intro hl), fun hl body hbody => ?_, fun hl body hbody => ?_⟩
  · simpa [hbody] using hline.resolve_left hl
  · simpa [hbody] using hedit.resolve_left (not_not_intro hl)

/-! ## Parsed trees -/

/-- The names, labels and tokens of a tree are such as a source can have. -/
structure Node.Worded (root : Node) : Prop where
  named : ∀ k ∈ root.nodes, ∀ l ∈ nameLabels ++ unitLabels, k.hasLabel l → Scan.IsName k.text.toList
  numbered : ∀ k ∈ root.nodes, ∀ l ∈ [Label.lblDef, .lblRef, .sign], k.hasLabel l → Text.Inline k.text
  lexeme : ∀ lx ∈ root.lexemes, (lx.kind ≠ .newline → Text.Inline lx.text) ∧
    (Match.isName lx → Scan.IsName lx.text.toList)
  lines : ∀ i l cs, .inner i l cs ∈ root.nodes → l ∉ Label.lined → ∀ j lx, .leaf j lx ∈ cs →
    lx.kind ≠ .newline
  edits : ∀ i l cs, .inner i l cs ∈ root.nodes → l ∈ [Label.program, .loneName] →
    ∀ j lx, .leaf j lx ∈ cs → lx.kind = .editConst → Match.isName lx

namespace Node.Worded

variable {n m : Node}

theorem node (h : n.Worded) (hm : m ∈ n.nodes) : m.Worded where
  named k hk := h.named k (nodes_trans hm hk)
  numbered k hk := h.numbered k (nodes_trans hm hk)
  lexeme lx hlx := h.lexeme lx (lexemes_of_nodes hm hlx)
  lines i l cs hk := h.lines i l cs (nodes_trans hm hk)
  edits i l cs hk := h.edits i l cs (nodes_trans hm hk)

theorem child (h : n.Worded) (hm : m ∈ n.children) : m.Worded :=
  h.node (nodes_child hm)

end Node.Worded

theorem scan_isName {source : String} {lx : Lexeme} (h : lx ∈ scan source) (hname : Match.isName lx) :
    Scan.IsName lx.text.toList := by
  simp only [Match.isName, Bool.or_eq_true, Bool.and_eq_true, beq_iff_eq, Bool.not_eq_true',
    List.contains_eq_mem, decide_eq_false_iff_not] at hname
  have hproper := scan_proper h (by rcases hname with hk | ⟨hk, -⟩ <;> simp [hk])
  rcases hname with hk | ⟨hk, hpoint⟩
  · exact hproper.name hk
  · exact hproper.edit hk hpoint

theorem firstLexeme?_mem {n : Node} {lx : Lexeme} (h : n.firstLexeme? = some lx) : lx ∈ n.lexemes := by
  induction n using Node.induction with
  | leaf i lx' =>
    obtain rfl := Option.some.inj h
    exact List.mem_singleton_self _
  | inner i l cs ih =>
    refine mem_lexemesOf.2 ?_
    rw [Node.firstLexeme?] at h
    induction cs with
    | nil => cases h
    | cons c cs ih' =>
      rw [Node.firstLexemeOf?] at h
      cases hc : c.firstLexeme? with
      | some lx' =>
        rw [hc] at h
        obtain rfl := Option.some.inj h
        exact ⟨c, by simp, ih c (by simp) hc⟩
      | none =>
        rw [hc] at h
        obtain ⟨d, hd, hmem⟩ := ih' (fun d hd => ih d (by simp [hd])) h
        exact ⟨d, by simp [hd], hmem⟩

section Parsed

variable {name source : String} {p q : Parser} {root : Node}
  (hp : Parser.start? name (scan source) = some p) (hq : p.parse = .ok (.ok root, q))

include hp hq

/-- The first lexeme of a phrase, if all rules for it say how it starts. -/
theorem parse_leads {ks : List Kind} {k : Node} {l : Label} (hk : k ∈ root.nodes) (hl : k.hasLabel l)
    (hrules : ∀ rule ∈ rulesFor grammarPatterns l, rule.leads ks) :
    ∃ lx ∈ scan source, k.text = lx.text ∧ (lx.kind ∈ ks ∨ .name ∈ ks ∧ Match.isName lx) := by
  cases k with
  | leaf => cases hl
  | inner i l' cs =>
    obtain rfl : l' = l := by simpa [Node.hasLabel, Node.label?] using hl
    obtain ⟨rule, hrule, body, hbody, hmade⟩ := parse_made hp hq hk
    have hleads : body.leads ks := by
      have hthis := hrules rule hrule
      rcases hmade with rfl | ⟨rfl, -⟩ <;> exact hthis
    obtain ⟨lx, hlx, hkind⟩ := derives_leads hbody hleads
    have hfirst : (Node.inner i l' cs).firstLexeme? = some lx := hlx
    refine ⟨lx, parse_lexemes hp hq ▸ lexemes_of_nodes hk (firstLexeme?_mem hfirst), ?_, hkind⟩
    rw [Node.text, hfirst]
    rfl

theorem parse_worded : root.Worded := by
  have hlexeme : ∀ {lx : Lexeme}, lx ∈ root.lexemes → lx ∈ scan source :=
    fun hlx => parse_lexemes hp hq ▸ hlx
  refine ⟨fun k hk l hl hlabel => ?_, fun k hk l hl hlabel => ?_, fun lx hlx => ?_,
    fun i l cs hn hl j lx hleaf => ?_, fun i l cs hn hl j lx hleaf => ?_⟩
  · obtain ⟨lx, hlx, htext, hkind⟩ :=
      parse_leads hp hq hk hlabel (fun rule hrule => (rules_worded hrule).1 hl)
    have hname : Match.isName lx := by
      rcases hkind with hkind | ⟨-, hname⟩
      · simp [Match.isName, List.mem_singleton.1 hkind]
      · exact hname
    rw [htext]
    exact scan_isName hlx hname
  · obtain ⟨lx, hlx, htext, hkind⟩ :=
      parse_leads hp hq hk hlabel (fun rule hrule => (rules_worded hrule).2.1 hl)
    have hne : lx.kind ≠ .newline := by
      intro hnewline
      rw [hnewline] at hkind
      exact absurd hkind (by simp)
    rw [htext]
    exact scan_inline hlx hne
  · exact ⟨scan_inline (hlexeme hlx), scan_isName (hlexeme hlx)⟩
  · obtain ⟨rule, hrule, body, hbody, hmade⟩ := parse_made hp hq hn
    have hinside : rule.inside = some body := by
      rcases hmade with rfl | ⟨rfl, -⟩ <;> rfl
    intro hkind
    have hname := derives_takes (.inl rfl) hbody ((rules_worded hrule).2.2.1 hl body hinside) j lx hleaf
      hkind
    simp [Match.isName, hkind] at hname
  · obtain ⟨rule, hrule, body, hbody, hmade⟩ := parse_made hp hq hn
    have hinside : rule.inside = some body := by
      rcases hmade with rfl | ⟨rfl, -⟩ <;> rfl
    exact derives_takes (.inr rfl) hbody ((rules_worded hrule).2.2.2 hl body hinside) j lx hleaf

end Parsed

end FortranJulia
