import FortranJulia.Proofs.Parsing.Expressions

/-!
Shapes of parsed trees. Lowering takes children from nodes without looking whether they are there:
the first or last operand of an operation, the parts of a complex constant, the statement of a
logical IF, the bounds of an implied loop. `Node.indexable` says of one node that it has what is
taken from it, and every node of a parsed tree does.
-/

namespace FortranJulia

set_option autoImplicit false

namespace Node

/-- What follows a condition of an IF block: a body, and then another condition or the END IF. -/
def armed : List Node → Bool
  | [body, last] => body.hasLabel .conditionalBody && last.hasLabel .endIfStmt
  | body :: next :: rest =>
    body.hasLabel .conditionalBody && (next.hasLabel .elseIfStmt || next.hasLabel .elseStmt) &&
      armed rest
  | _ => false

/-- The labels of phrases that are never empty. -/
def filled : List Label :=
  [.expr, .orOperand, .andOperand, .level4Expr, .level3Expr, .addOperand, .primary,
   .unsignedArithmeticConstant, .logicalConstant]

/-- Does the node have the children that are taken from one with its label? -/
def indexable : Node → Bool
  | .leaf _ _ => true
  | .inner i l cs =>
    (!filled.contains l || !cs.isEmpty) &&
    match l with
    | .expr => (Node.inner i l cs).expression?.isSome
    | .multOperand => cs.any fun c => c.hasLabel .powerOp && !c.children.isEmpty
    | .complexConst => decide (2 ≤ (cs.filter (·.hasLabel .complexComponent)).length)
    | .lowerBound | .upperBound | .subroutineArg => cs.head?.all (·.expression?.isSome)
    | .dataConstant => cs.all fun c =>
        c.hasLabel .sign || c.hasLabel .namedConstantUse || c.expression?.isSome
    | .dataImpliedDo => decide ((cs.filter (·.hasLabel .expr)).length ≤ 3)
    | .ifStmt => cs.getLast?.any fun c => !c.hasLabel .labelDoStmt && !c.hasLabel .ifConstruct
    | .ifConstruct => cs.head?.any (·.hasLabel .ifThenStmt) && armed cs.tail
    | .labelDoStmt => cs.any (·.hasLabel .loopControl)
    | .ioControlSpec => cs.head?.all fun c => c.isLeaf || c.hasLabel .unitIdentifier
    | _ => true

end Node

/-! ## Rules by label -/

/-- What the head of a loop with a label consists of. -/
def loopHead : Pattern :=
  Grammar.stmt [Pattern.kw .DO, .node .doLblRef (.token .integerConst), .opt (.token .comma),
    Grammar.loopControl]

/-- The rules for labels that only one rule has. -/
def soleRules : List Pattern :=
  [Grammar.multOperandBody, Grammar.complexConst, .node .lowerBound Grammar.expr,
   .node .upperBound (.alt Grammar.expr (.token .star)), Grammar.subroutineArg,
   Grammar.dataConstant,
   Grammar.impliedDo .dataImpliedDo .dataIDoObjectList Grammar.dataStmtObject,
   Grammar.ifStmt, Grammar.ifConstruct, .node .labelDoStmt loopHead, Grammar.ioControlSpec,
   Grammar.mainProgram, Grammar.functionSubprogram, Grammar.subroutineSubprogram,
   Grammar.blockDataSubprogram, Grammar.body, Grammar.conditionalBody]

theorem soleRules_sole {r rule : Pattern} (hr : r ∈ soleRules)
    (hrule : rule ∈ grammarPatterns.flatMap Pattern.rules) (hlabel : rule.label? = r.label?) :
    rule = r := by
  have hall : grammarPatterns.all (Pattern.everyRule fun rule =>
      soleRules.all fun r => !decide (rule.label? = r.label?) || decide (rule = r)) := by
    decide +kernel
  have hor := List.all_eq_true.1 (grammar_rule hall hrule) r hr
  simpa [hlabel] using hor

section Made

variable {l : Label} {rule body : Pattern} {cs : List Node}

theorem made_node (h : Made grammar rule l cs) (hrule : rule ∈ rulesFor grammarPatterns l)
    (hsole : .node l body ∈ soleRules) : Derives grammar body cs := by
  obtain ⟨hmem, hlabel⟩ := List.mem_filter.1 hrule
  have heq := soleRules_sole hsole hmem (of_decide_eq_true hlabel)
  obtain ⟨body', hbody, hnode | ⟨hlevel, -⟩⟩ := h
  · cases heq.symm.trans hnode
    exact hbody
  · cases heq.symm.trans hlevel

theorem made_level (h : Made grammar rule l cs) (hrule : rule ∈ rulesFor grammarPatterns l)
    (hsole : .level l body ∈ soleRules) :
    Derives grammar body cs ∧ ∀ i m ds, cs ≠ [.inner i m ds] := by
  obtain ⟨hmem, hlabel⟩ := List.mem_filter.1 hrule
  have heq := soleRules_sole hsole hmem (of_decide_eq_true hlabel)
  obtain ⟨body', hbody, hnode | ⟨hlevel, hkept⟩⟩ := h
  · cases heq.symm.trans hnode
  · cases heq.symm.trans hlevel
    exact ⟨hbody, hkept⟩

end Made

/-! ## What patterns bear -/

/-- Does the pattern make a node wherever it matches? -/
def Pattern.bears : Pattern → Bool
  | .token _ | .oneOf _ | .word | .any | .node _ _ | .level _ _ | .call _ => true
  | .branch _ p₁ p₂ | .alt p₁ p₂ => p₁.bears && p₂.bears
  | .seq p₁ p₂ => p₁.bears || p₂.bears
  | .attempt body => body.bears
  | _ => false

theorem derives_bears {p : Pattern} {ns : List Node} (h : Derives grammar p ns) :
    p.bears → ns ≠ [] := by
  induction h with
  | take | node | level => simp
  | check | star_end | opt_none | while_end => simp [Pattern.bears]
  | star_more | while_more | opt => simp [Pattern.bears]
  | branch_yes _ ih | alt_first _ ih =>
    intro hp
    simp only [Pattern.bears, Bool.and_eq_true] at hp
    exact ih hp.1
  | branch_no _ ih | alt_second _ ih =>
    intro hp
    simp only [Pattern.bears, Bool.and_eq_true] at hp
    exact ih hp.2
  | seq _ _ ih₁ ih₂ =>
    intro hp
    simp only [Pattern.bears, Bool.or_eq_true] at hp
    rcases hp with hp | hp
    · exact fun hnil => ih₁ hp (List.append_eq_nil_iff.1 hnil).1
    · exact fun hnil => ih₂ hp (List.append_eq_nil_iff.1 hnil).2
  | attempt _ ih => exact ih
  | @call phrase _ _ ih => exact fun _ => ih (by cases phrase <;> rfl)

/-- The only part of a pattern that has one part. -/
def Pattern.inside : Pattern → Option Pattern
  | .node _ p | .level _ p | .star p | .opt p | .attempt p => some p
  | _ => none

/-- A phrase with one of these labels is never empty. -/
theorem made_filled {l : Label} {rule : Pattern} {cs : List Node} (h : Made grammar rule l cs)
    (hrule : rule ∈ rulesFor grammarPatterns l) (hl : Node.filled.contains l) : cs ≠ [] := by
  have hall : grammarPatterns.all (Pattern.everyRule fun rule =>
      !rule.label?.any Node.filled.contains || rule.inside.any Pattern.bears) := by
    decide +kernel
  have hthis := grammar_rule hall (List.mem_filter.1 hrule).1
  obtain ⟨body, hbody, rfl | ⟨rfl, -⟩⟩ := h
  · simp only [Pattern.label?, Option.any_some, hl, Bool.not_true, Bool.false_or] at hthis
    exact derives_bears hbody hthis
  · simp only [Pattern.label?, Option.any_some, hl, Bool.not_true, Bool.false_or] at hthis
    exact derives_bears hbody hthis

/-- The labels of the only node that a pattern makes, if it makes an inner one. -/
def Pattern.tops : Pattern → Option (List Label)
  | .node l _ => some [l]
  | .level _ body => body.tops
  | .alt p₁ p₂ => p₁.tops.bind fun ls => p₂.tops.map (ls ++ ·)
  | _ => none

theorem derives_tops {p : Pattern} {ns : List Node} (h : Derives grammar p ns) :
    ∀ {ls : List Label}, p.tops = some ls → ∃ i l cs, ns = [.inner i l cs] ∧ l ∈ ls := by
  induction h with
  | node i l _ =>
    intro ls hls
    obtain rfl := Option.some.inj hls
    exact ⟨i, l, _, rfl, List.mem_singleton_self l⟩
  | level i l _ ih =>
    intro ls hls
    obtain ⟨i', l', cs, rfl, hl⟩ := ih hls
    exact ⟨i', l', cs, rfl, hl⟩
  | alt_first _ ih =>
    intro ls hls
    obtain ⟨ls₁, h₁, h₂⟩ := Option.bind_eq_some_iff.1 hls
    obtain ⟨ls₂, -, rfl⟩ := Option.map_eq_some_iff.1 h₂
    obtain ⟨i, l, cs, rfl, hl⟩ := ih h₁
    exact ⟨i, l, cs, rfl, List.mem_append_left _ hl⟩
  | alt_second _ ih =>
    intro ls hls
    obtain ⟨ls₁, -, h₂⟩ := Option.bind_eq_some_iff.1 hls
    obtain ⟨ls₂, htops, rfl⟩ := Option.map_eq_some_iff.1 h₂
    obtain ⟨i, l, cs, rfl, hl⟩ := ih htops
    exact ⟨i, l, cs, rfl, List.mem_append_right _ hl⟩
  | @take p lx i h => cases p <;> simp_all [TreeMatch.accepts?, Pattern.tops]
  | _ => simp [Pattern.tops]

/-! ## Children by label -/

section Children

variable {cs : List Node}

theorem expression?_of_part {n : Node} {e : Expression} (h : Part.ofNode n = .expr e) :
    n.expression? = some e := by
  simp [Node.expression?, h]

theorem reads_expression? {k : Nat} {n : Node} (h : n.Reads k) : n.expression?.isSome := by
  obtain ⟨-, e, hpart, -⟩ := h
  simp [expression?_of_part hpart]

theorem within_derives {k : Nat} {p : Pattern} (hp : ∀ size, Within size k p)
    (h : Derives grammar p cs) : ∃ n, cs = [n] ∧ n.Reads k := by
  exact hp (Node.inner 0 .expr cs).nodes.length cs (fun n hn => child_smaller hn) h

theorem bound_children (h : Derives grammar (.alt Grammar.expr (.token .star)) cs) :
    cs.head?.all (·.expression?.isSome) := by
  rcases derives_alt.1 h with h | h
  · obtain ⟨n, rfl, hn⟩ := derives_expr h
    exact reads_expression? hn
  · obtain ⟨i, lx, rfl, -⟩ := derives_token.1 h
    rfl

theorem argument_children (h : Derives grammar (Pattern.first
    [Grammar.expr, .token .hollerithConst, .seq (.token .star) Grammar.lblRef]) cs) :
    cs.head?.all (·.expression?.isSome) := by
  simp only [Pattern.first, derives_alt, derives_seq, derives_token] at h
  rcases h with h | ⟨i, lx, rfl, -⟩ | ⟨_, _, rfl, ⟨i, lx, rfl, -⟩, -⟩
  · obtain ⟨n, rfl, hn⟩ := derives_expr h
    exact reads_expression? hn
  · rfl
  · rfl

theorem dataConstant_children {body : Pattern} (hbody : Grammar.dataConstant = .node .dataConstant body)
    (h : Derives grammar body cs) :
    cs.all fun c => c.hasLabel .sign || c.hasLabel .namedConstantUse || c.expression?.isSome := by
  obtain rfl := (Pattern.node.inj hbody).2
  simp only [Pattern.first, derives_alt, derives_seq, derives_opt, derives_oneOf] at h
  rcases h with ⟨ss, ms, rfl, hsign, hnumber⟩ | ⟨i, lx, rfl, -⟩ | h | h
  · obtain ⟨n, rfl, hn⟩ := within_derives unsignedArithmeticConstant_within hnumber
    have hexpr := reads_expression? hn
    rcases hsign with rfl | hsign
    · simp [hexpr]
    · obtain ⟨i, j, s, rfl, -⟩ := derives_sign hsign
      simp [hexpr, Node.hasLabel, Node.label?]
  · rfl
  · obtain ⟨n, rfl, hn⟩ := within_derives logicalConstant_within h
    simp [reads_expression? hn]
  · obtain ⟨i, j, lx, rfl, -⟩ := derives_name h
    rfl

theorem multOperand_children {body : Pattern}
    (hbody : Grammar.multOperandBody = .level .multOperand body) (h : Derives grammar body cs)
    (hkept : ∀ i m ds, cs ≠ [.inner i m ds]) :
    cs.any fun c => c.hasLabel .powerOp && !c.children.isEmpty := by
  obtain rfl := (Pattern.level.inj hbody).2
  obtain ⟨ms, ops, rfl, hms, hops⟩ := derives_seq.1 h
  obtain ⟨i, ds, rfl, -⟩ := derives_node.1 hms
  rcases derives_opt.1 hops with rfl | hops
  · exact absurd rfl (hkept i .primary ds)
  · obtain ⟨j, es, rfl, hes⟩ := derives_node.1 hops
    have hne := derives_bears hes rfl
    simp [Node.hasLabel, Node.label?, Node.children, hne]

theorem complexConst_children {body : Pattern}
    (hbody : Grammar.complexConst = .node .complexConst body) (h : Derives grammar body cs) :
    2 ≤ (cs.filter (·.hasLabel .complexComponent)).length := by
  obtain rfl := (Pattern.node.inj hbody).2
  simp only [Pattern.all, derives_seq, derives_token, Grammar.complexComponent, derives_node] at h
  obtain ⟨_, _, rfl, ⟨j₁, t₁, rfl, -⟩, _, _, rfl, ⟨i₁, c₁, rfl, -⟩, _, _, rfl, ⟨j₂, t₂, rfl, -⟩, _, _,
    rfl, ⟨i₂, c₂, rfl, -⟩, j₃, t₃, rfl, -⟩ := h
  simp [Node.hasLabel, Node.label?]

/-- A loop with its items in parentheses has two or three bounds. -/
theorem impliedDo_children {l items : Label} {item body : Pattern}
    (hbody : Grammar.impliedDo l items item = .node l body) (hitems : items ≠ .expr)
    (h : Derives grammar body cs) :
    (∃ a b, cs.filter (·.hasLabel .expr) = [a, b]) ∨
      ∃ a b c, cs.filter (·.hasLabel .expr) = [a, b, c] := by
  obtain rfl := (Pattern.node.inj hbody).2
  simp only [Grammar.impliedDoControl, Grammar.impliedDoItems, Pattern.name, Grammar.expr, grammar,
    Grammar.exprBody, List.cons_append, List.nil_append, Pattern.all, derives_seq, derives_token,
    derives_node, derives_call, derives_opt, derives_attempt] at h
  obtain ⟨_, _, rfl, ⟨j₁, t₁, rfl, -⟩, _, _, rfl, ⟨i₁, c₁, rfl, -⟩, _, _, rfl, ⟨j₂, t₂, rfl, -⟩, _, _,
    rfl, ⟨i₂, c₂, rfl, -⟩, _, _, rfl, ⟨j₃, t₃, rfl, -⟩, _, _, rfl, ⟨i₃, c₃, rfl, -⟩, _, _, rfl,
    ⟨j₄, t₄, rfl, -⟩, _, _, rfl, ⟨i₄, c₄, rfl, -⟩, _, _, rfl, hstep, j₅, t₅, rfl, -⟩ := h
  rcases hstep with rfl | ⟨_, _, rfl, ⟨j₆, t₆, rfl, -⟩, i₅, c₅, rfl, -⟩
  · exact .inl ⟨.inner i₃ .expr c₃, .inner i₄ .expr c₄, by simp [Node.hasLabel, Node.label?, hitems]⟩
  · exact .inr ⟨.inner i₃ .expr c₃, .inner i₄ .expr c₄, .inner i₅ .expr c₅,
      by simp [Node.hasLabel, Node.label?, hitems]⟩

theorem dataImpliedDo_children {body : Pattern}
    (hbody : Grammar.impliedDo .dataImpliedDo .dataIDoObjectList Grammar.dataStmtObject =
      .node .dataImpliedDo body) (h : Derives grammar body cs) :
    (cs.filter (·.hasLabel .expr)).length ≤ 3 := by
  rcases impliedDo_children hbody (by decide) h with ⟨a, b, hexprs⟩ | ⟨a, b, c, hexprs⟩ <;>
    simp [hexprs]

theorem ifStmt_children {body : Pattern} (hbody : Grammar.ifStmt = .node .ifStmt body)
    (h : Derives grammar body cs) :
    cs.getLast?.any fun c => !c.hasLabel .labelDoStmt && !c.hasLabel .ifConstruct := by
  obtain rfl := (Pattern.node.inj hbody).2
  simp only [Pattern.all, derives_seq] at h
  obtain ⟨_, _, rfl, -, _, _, rfl, -, _, _, rfl, -, _, _, rfl, -, _, _, rfl, -, h⟩ := h
  obtain ⟨i, l, ds, rfl, hl⟩ := derives_tops (derives_call.1 h) rfl
  have hall : ∀ l ∈ (Grammar.actionStmtBody.tops.getD []), l ≠ .labelDoStmt ∧ l ≠ .ifConstruct := by
    decide
  obtain ⟨hdo, hif⟩ := hall l hl
  simp [← List.append_assoc, Node.hasLabel, Node.label?, hdo, hif]

/-- Another condition and its body in front of what may follow a body. -/
theorem armed_cons {b c : Node} {rest : List Node} (hb : b.hasLabel .conditionalBody)
    (hc : c.hasLabel .elseIfStmt || c.hasLabel .elseStmt) (h : Node.armed rest) :
    Node.armed (b :: c :: rest) := by
  cases rest with
  | nil => cases h
  | cons d rest =>
    simp only [Node.armed, hb, hc, Bool.true_and]
    exact h

theorem ifConstruct_children {body : Pattern} (hbody : Grammar.ifConstruct = .node .ifConstruct body)
    (h : Derives grammar body cs) :
    cs.head?.any (·.hasLabel .ifThenStmt) && Node.armed cs.tail := by
  obtain rfl := (Pattern.node.inj hbody).2
  simp only [Pattern.all, derives_seq, Grammar.ifThenStmt, Grammar.endIfStmt, Grammar.conditionalBody,
    derives_node] at h
  obtain ⟨_, _, rfl, ⟨i₁, c₁, rfl, -⟩, _, _, rfl, ⟨i₂, c₂, rfl, -⟩, arms, _, rfl, harms, other, _, rfl,
    hother, i₃, c₃, rfl, -⟩ := h
  -- What stands behind a body of the block, from the last part to the first.
  have hother' : ∀ i c, Node.armed (.inner i .conditionalBody c :: (other ++ [.inner i₃ .endIfStmt c₃])) := by
    intro i c
    rcases derives_opt.1 hother with rfl | hother
    · rfl
    · obtain ⟨_, _, rfl, helse, hbody⟩ := derives_seq.1 (derives_attempt.1 hother)
      obtain ⟨j₁, d₁, rfl, -⟩ := derives_node.1 helse
      obtain ⟨j₂, d₂, rfl, -⟩ := derives_node.1 hbody
      exact armed_cons rfl rfl rfl
  have harms' : ∀ i c, Node.armed
      (.inner i .conditionalBody c :: (arms ++ (other ++ [.inner i₃ .endIfStmt c₃]))) := by
    obtain ⟨groups, rfl, hgroups⟩ := derives_star harms
    clear harms
    induction groups with
    | nil => exact hother'
    | cons g groups ih =>
      intro i c
      obtain ⟨_, _, rfl, helse, hbody⟩ := derives_seq.1 (derives_attempt.1 (hgroups g (by simp)))
      obtain ⟨j₁, d₁, rfl, -⟩ := derives_node.1 helse
      obtain ⟨j₂, d₂, rfl, -⟩ := derives_node.1 hbody
      exact armed_cons rfl rfl (ih (fun ms hms => hgroups ms (by simp [hms])) j₂ d₂)
  simpa [Node.hasLabel, Node.label?] using harms' i₂ c₂

theorem loopHead_children (h : Derives grammar loopHead cs) :
    cs.any (·.hasLabel .loopControl) := by
  simp only [loopHead, Grammar.stmt, List.cons_append, List.nil_append, Pattern.all, derives_seq,
    Grammar.loopControl, derives_node] at h
  obtain ⟨_, _, rfl, -, _, _, rfl, -, _, _, rfl, -, _, _, rfl, -, _, _, rfl, ⟨i, ds, rfl, -⟩, -⟩ := h
  simp [Node.hasLabel, Node.label?]

theorem ioControlSpec_children {body : Pattern}
    (hbody : Grammar.ioControlSpec = .node .ioControlSpec body) (h : Derives grammar body cs) :
    cs.head?.all fun c => c.isLeaf || c.hasLabel .unitIdentifier := by
  obtain rfl := (Pattern.node.inj hbody).2
  simp only [Pattern.first, Grammar.unitSpec, Grammar.errSpec, Grammar.iostatSpec, Pattern.spec,
    Grammar.unitIdentifier, derives_alt, derives_seq, derives_token, derives_node] at h
  rcases h with h | h | h | h | h | h | ⟨i, ds, rfl, -⟩
  case inr.inr.inr.inr.inr.inr => rfl
  all_goals
    obtain ⟨_, _, rfl, ⟨i, lx, rfl, -⟩, -⟩ := h
    rfl

end Children

/-! ## Main statement -/

theorem parse_indexable {name source : String} {p q : Parser} {root n : Node}
    (hp : Parser.start? name (scan source) = some p) (hq : p.parse = .ok (.ok root, q))
    (hn : n ∈ root.nodes) : n.indexable := by
  cases n with
  | leaf => rfl
  | inner i l cs =>
    obtain ⟨rule, hrule, hmade⟩ := parse_made hp hq hn
    have hnode : ∀ {body : Pattern}, .node l body ∈ soleRules → Derives grammar body cs :=
      fun hsole => made_node hmade hrule hsole
    have hfilled : (!Node.filled.contains l || !cs.isEmpty) = true := by
      cases hl : Node.filled.contains l with
      | false => rfl
      | true => simpa using made_filled hmade hrule hl
    unfold Node.indexable
    refine Bool.and_eq_true_iff.2 ⟨hfilled, ?_⟩
    split
    · exact reads_expression? (parse_reads hp hq hn rfl)
    · obtain ⟨hbody, hkept⟩ := made_level hmade hrule
        (show Grammar.multOperandBody ∈ soleRules by simp [soleRules])
      exact multOperand_children rfl hbody hkept
    · exact decide_eq_true (complexConst_children rfl
        (hnode (show Grammar.complexConst ∈ soleRules by simp [soleRules])))
    · have hbody : Derives grammar Grammar.expr cs := hnode (by simp [soleRules])
      exact bound_children (.alt_first hbody)
    · exact bound_children (hnode (by simp [soleRules]))
    · exact argument_children
        (hnode (show Grammar.subroutineArg ∈ soleRules by simp [soleRules]))
    · exact dataConstant_children rfl
        (hnode (show Grammar.dataConstant ∈ soleRules by simp [soleRules]))
    · exact decide_eq_true (dataImpliedDo_children rfl (hnode
        (show Grammar.impliedDo .dataImpliedDo .dataIDoObjectList Grammar.dataStmtObject ∈
          soleRules by simp [soleRules])))
    · exact ifStmt_children rfl (hnode (show Grammar.ifStmt ∈ soleRules by simp [soleRules]))
    · exact ifConstruct_children rfl
        (hnode (show Grammar.ifConstruct ∈ soleRules by simp [soleRules]))
    · exact loopHead_children (hnode (by simp [soleRules]))
    · exact ioControlSpec_children rfl
        (hnode (show Grammar.ioControlSpec ∈ soleRules by simp [soleRules]))
    · rfl

end FortranJulia
