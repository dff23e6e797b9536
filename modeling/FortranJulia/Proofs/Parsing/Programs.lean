import FortranJulia.Proofs.Parsing.Shapes
import FortranJulia.Symbol.Collect

/-!
Shapes of whole programs. A parsed tree holds its program units under one node and nothing but tokens
beside it. A unit consists of its first statement, which a main program may lack, of its body, if it
has one, and of its END.
-/

namespace FortranJulia

set_option autoImplicit false

/-! ## Units -/

namespace Label

/-- The label of the first statement of a unit. -/
def unitHead : Label → Label
  | .functionSubprogram => .functionStmt
  | .subroutineSubprogram => .subroutineStmt
  | .blockDataSubprogram => .blockDataStmt
  | _ => .programStmt

/-- The label of the END of a unit. -/
def unitEnd : Label → Label
  | .functionSubprogram => .endFunctionStmt
  | .subroutineSubprogram => .endSubroutineStmt
  | .blockDataSubprogram => .endBlockDataStmt
  | _ => .endProgramStmt

end Label

/-- What a unit with a label consists of. -/
structure UnitParts (l : Label) (cs : List Node) (head body : Option Node) (last : Node) : Prop where
  children : cs = head.toList ++ (body.toList ++ [last])
  headed : l ≠ .mainProgram → head.isSome
  headLabel : ∀ n, head = some n → n.label? = some l.unitHead
  bodyLabel : ∀ n, body = some n → n.label? = some .body
  lastLabel : last.label? = some l.unitEnd

section Derived

variable {cs : List Node}

theorem derives_body (h : Derives grammar (.opt Grammar.body) cs) :
    ∃ body : Option Node, cs = body.toList ∧ ∀ n, body = some n → n.label? = some .body := by
  rcases derives_opt.1 h with rfl | h
  · exact ⟨none, rfl, by simp⟩
  · obtain ⟨i, ds, rfl, -⟩ := derives_node.1 h
    exact ⟨some (.inner i .body ds), rfl, by rintro n ⟨⟩; rfl⟩

/-- A unit with its first statement. -/
theorem derives_headed {l first last : Label} {head tail : Pattern} (hfirst : l.unitHead = first)
    (hlast : l.unitEnd = last)
    (h : Derives grammar (.seq (.node first head) (.seq (.opt Grammar.body) (.node last tail))) cs) :
    ∃ head body last, UnitParts l cs head body last := by
  obtain ⟨_, _, rfl, hhead, hrest⟩ := derives_seq.1 h
  obtain ⟨_, _, rfl, hbody, htail⟩ := derives_seq.1 hrest
  obtain ⟨i, ds, rfl, -⟩ := derives_node.1 hhead
  obtain ⟨j, es, rfl, -⟩ := derives_node.1 htail
  obtain ⟨body, rfl, hlabel⟩ := derives_body hbody
  refine ⟨some (.inner i first ds), body, .inner j last es, rfl, fun _ => rfl, ?_, hlabel, ?_⟩
  · rintro n ⟨⟩
    rw [hfirst]
    rfl
  · rw [hlast]
    rfl

/-- A main program without a first statement. -/
theorem derives_headless {tail : Pattern}
    (h : Derives grammar (.seq (.opt Grammar.body) (.node .endProgramStmt tail)) cs) :
    ∃ head body last, UnitParts .mainProgram cs head body last := by
  obtain ⟨_, _, rfl, hbody, htail⟩ := derives_seq.1 h
  obtain ⟨j, es, rfl, -⟩ := derives_node.1 htail
  obtain ⟨body, rfl, hlabel⟩ := derives_body hbody
  exact ⟨none, body, .inner j .endProgramStmt es, rfl, by simp, by simp, hlabel, rfl⟩

end Derived

/-! ## Parsed trees -/

/-! ## Places of statements -/

namespace Label

/-- The labels of the statements that a logical IF can have. -/
def actions : List Label :=
  Grammar.actionStmtBody.tops.getD []

/-- The labels of what stands in a list of statements. -/
def statements : List Label :=
  actions ++ [Label.labelDoStmt, .ifConstruct, .dataStmt] ++
    Grammar.specificationPartConstruct.tops.getD []

/-- The labels of statements and of what they stand in. -/
def placed : List Label :=
  statements ++ [Label.conditionalBody, .body, .mainProgram, .functionSubprogram, .subroutineSubprogram,
    .blockDataSubprogram, .executableProgram, .program]

/-- What a statement, a list of statements or a unit stands in. -/
def places : Label → List Label
  | .program => []
  | .executableProgram => [.program]
  | .mainProgram | .functionSubprogram | .subroutineSubprogram | .blockDataSubprogram =>
    [.executableProgram]
  | .body => [.mainProgram, .functionSubprogram, .subroutineSubprogram, .blockDataSubprogram]
  | .conditionalBody => [.ifConstruct]
  | _ => [.body, .conditionalBody, .ifStmt]

theorem statement_placed {l : Label} (h : l ∈ statements) : l ∈ placed :=
  List.mem_append_left _ h

theorem places_placed {m l : Label} (hm : m ∈ placed) (hl : l ∈ m.places) : l ∈ placed := by
  have hall : ∀ m ∈ placed, ∀ l ∈ m.places, l ∈ placed := by decide
  exact hall m hm l hl

/-- What stands in a statement: the statement of a logical IF, or a list of an IF block. -/
theorem places_statement {m l : Label} (hm : m ∈ placed) (hl : l ∈ m.places) (h : l ∈ statements) :
    l = .ifStmt ∧ m ∈ statements ∨ l = .ifConstruct ∧ m = .conditionalBody := by
  have hall : ∀ m ∈ placed, ∀ l ∈ m.places, l ∈ statements →
      l = .ifStmt ∧ m ∈ statements ∨ l = .ifConstruct ∧ m = .conditionalBody := by decide
  exact hall m hm l hl h

/-- What stands in a list of statements. -/
theorem places_list {m l : Label} (hm : m ∈ placed) (hl : l ∈ m.places)
    (h : l = .body ∨ l = .conditionalBody) : m ∈ statements := by
  have hall : ∀ m ∈ placed, ∀ l ∈ m.places, l = .body ∨ l = .conditionalBody → m ∈ statements := by
    decide
  exact hall m hm l hl h

/-- What stands in a unit. -/
theorem places_unit {m l : Label} (hm : m ∈ placed) (hl : l ∈ m.places) (h : l.isUnit) :
    m = .body := by
  have hall : ∀ m ∈ placed, ∀ l ∈ m.places, l.isUnit → m = .body := by decide
  exact hall m hm l hl h

end Label

/-- Does the pattern make one inner node and nothing else? -/
def Pattern.solo : Pattern → Bool
  | .node _ _ => true
  | .level _ body => body.solo
  | .alt p₁ p₂ => p₁.solo && p₂.solo
  | .call phrase => phrase == .actionStmt || phrase == .executableConstruct
  | _ => false

theorem derives_solo {p : Pattern} {ns : List Node} (h : Derives grammar p ns) :
    p.solo → ∃ i l cs, ns = [.inner i l cs] := by
  induction h with
  | node i l _ => exact fun _ => ⟨i, l, _, rfl⟩
  | level i l _ ih =>
    intro hp
    obtain ⟨j, m, ds, rfl⟩ := ih hp
    exact ⟨j, m, ds, rfl⟩
  | alt_first _ ih => exact fun hp => ih (Bool.and_eq_true_iff.1 hp).1
  | alt_second _ ih => exact fun hp => ih (Bool.and_eq_true_iff.1 hp).2
  | @call phrase _ _ ih =>
    intro hp
    cases phrase with
    | actionStmt | executableConstruct => exact ih rfl
    | _ => cases hp
  | @take p lx i h => cases p <;> simp_all [TreeMatch.accepts?, Pattern.solo]
  | _ => simp [Pattern.solo]

/-- The labels from `Label.placed` that a phrase can have. -/
def Nonterminal.heads : Nonterminal → List Label
  | .actionStmt => Label.actions
  | .executableConstruct => .labelDoStmt :: .ifConstruct :: Label.actions
  | _ => []

/-- The labels of the nodes that a pattern makes, apart from what is inside them and from phrases with
labels that are not in `Label.placed`. -/
def Pattern.heads : Pattern → List Label
  | .node l _ => [l]
  | .level l body => if body.solo then body.heads else l :: body.heads
  | .branch _ p₁ p₂ | .seq p₁ p₂ | .alt p₁ p₂ => p₁.heads ++ p₂.heads
  | .star body | .opt body | .attempt body | .whileDo _ body => body.heads
  | .call phrase => phrase.heads
  | _ => []

theorem phrase_heads {l : Label} (hl : l ∈ Label.placed) (phrase : Nonterminal)
    (h : l ∈ (grammar phrase).heads) : l ∈ phrase.heads := by
  have hall : ∀ phrase ∈ [Nonterminal.expr, .multOperand, .fmtSpec, .outputItem, .inputItem,
      .dataStmtObject, .actionStmt, .executableConstruct],
      ∀ l ∈ (grammar phrase).heads, l ∈ Label.placed → l ∈ phrase.heads := by
    decide +kernel
  exact hall phrase (by cases phrase <;> simp) l h hl

/-- The label of a node that a pattern makes is among the heads of the pattern, if the phrases tell
where it may come from. -/
theorem derives_heads_of {p : Pattern} {ns : List Node} (h : Derives grammar p ns) {l : Label}
    (hl : ∀ phrase, l ∈ (grammar phrase).heads → l ∈ phrase.heads) :
    ∀ n ∈ ns, n.label? = some l → l ∈ p.heads := by
  induction h with
  | take i _ =>
    intro n hn hlabel
    obtain rfl := List.mem_singleton.1 hn
    cases hlabel
  | check | star_end | opt_none | while_end => simp
  | branch_yes _ ih | alt_first _ ih =>
    exact fun n hn hlabel => List.mem_append_left _ (ih n hn hlabel)
  | branch_no _ ih | alt_second _ ih =>
    exact fun n hn hlabel => List.mem_append_right _ (ih n hn hlabel)
  | seq _ _ ih₁ ih₂ =>
    intro n hn hlabel
    rcases List.mem_append.1 hn with hn | hn
    · exact List.mem_append_left _ (ih₁ n hn hlabel)
    · exact List.mem_append_right _ (ih₂ n hn hlabel)
  | star_more _ _ ih₁ ih₂ | while_more _ _ ih₁ ih₂ =>
    intro n hn hlabel
    rcases List.mem_append.1 hn with hn | hn
    · exact ih₁ n hn hlabel
    · exact ih₂ n hn hlabel
  | opt _ ih | attempt _ ih => exact ih
  | @call phrase _ _ ih =>
    exact fun n hn hlabel => hl phrase (ih n hn hlabel)
  | node i m _ =>
    intro n hn hlabel
    obtain rfl := List.mem_singleton.1 hn
    obtain rfl := Option.some.inj hlabel
    simp [Pattern.heads]
  | @level body ns i m hbody ih =>
    intro n hn hlabel
    obtain rfl := List.mem_singleton.1 hn
    rw [Pattern.heads]
    -- Either the level gives way to its only child, or it stays and has its own label.
    unfold Node.collapse at hlabel
    split at hlabel
    · rename_i heq
      cases heq
      have hhead := ih _ (by simp) hlabel
      split
      · exact hhead
      · exact List.mem_cons_of_mem _ hhead
    · rename_i hstays
      obtain rfl := Option.some.inj hlabel
      have hkept : ¬ body.solo := by
        intro hsolo
        obtain ⟨j, k, ds, rfl⟩ := derives_solo hbody hsolo
        exact hstays i m j k ds rfl
      rw [if_neg hkept]
      exact List.mem_cons_self

theorem derives_heads {p : Pattern} {ns : List Node} (h : Derives grammar p ns) {l : Label}
    (hl : l ∈ Label.placed) : ∀ n ∈ ns, n.label? = some l → l ∈ p.heads :=
  derives_heads_of h (phrase_heads hl)

/-- The node is a statement. -/
def Node.IsStatement (n : Node) : Prop :=
  ∃ l ∈ Label.statements, n.label? = some l

/-- The statements of a tree, its lists of statements and its units stand where they can be found. -/
structure Node.Placed (root : Node) : Prop where
  place : ∀ {i l cs}, .inner i l cs ∈ root.nodes → ∀ c ∈ cs, ∀ m ∈ Label.placed,
    c.label? = some m → l ∈ m.places
  action : ∀ {i cs}, .inner i .ifStmt cs ∈ root.nodes → ∀ c ∈ cs.dropLast, ∀ m ∈ Label.placed,
    c.label? ≠ some m

namespace Node.Placed

variable {n m stmt : Node}

theorem node (h : n.Placed) (hm : m ∈ n.nodes) : m.Placed :=
  ⟨fun hi => h.place (nodes_trans hm hi), fun hi => h.action (nodes_trans hm hi)⟩

theorem child (h : n.Placed) (hm : m ∈ n.children) : m.Placed :=
  h.node (nodes_child hm)

/-- What a statement stands in, from the outside to the inside, is among what is placed. -/
theorem label (h : n.Placed) (hmem : stmt ∈ n.nodes) (hstmt : stmt.IsStatement) :
    ∃ l ∈ Label.placed, n.label? = some l := by
  induction n using Node.induction with
  | leaf i lx =>
    obtain rfl := List.mem_singleton.1 hmem
    obtain ⟨_, _, hl⟩ := hstmt
    cases hl
  | inner i l cs ih =>
    rw [Node.nodes, List.mem_cons, mem_nodesOf] at hmem
    rcases hmem with rfl | ⟨c, hc, hmem⟩
    · obtain ⟨m, hm, hlabel⟩ := hstmt
      exact ⟨m, Label.statement_placed hm, hlabel⟩
    · obtain ⟨m, hm, hlabel⟩ := ih c hc (h.child hc) hmem
      exact ⟨l, Label.places_placed hm (h.place (nodes_self _) c hc m hm hlabel), rfl⟩

end Node.Placed

section Parsed

variable {name source : String} {p q : Parser} {root : Node}

/-- The units of a parsed tree have their parts. -/
theorem parse_unit (hp : Parser.start? name (scan source) = some p) (hq : p.parse = .ok (.ok root, q))
    {i : Nat} {l : Label} {cs : List Node} (hn : .inner i l cs ∈ root.nodes) (hl : l.isUnit) :
    ∃ head body last, UnitParts l cs head body last := by
  obtain ⟨rule, hrule, hmade⟩ := parse_made hp hq hn
  have hnode : ∀ {body : Pattern}, .node l body ∈ soleRules → Derives grammar body cs :=
    fun hsole => made_node hmade hrule hsole
  cases l with
  | mainProgram =>
    have hbody := hnode (show Grammar.mainProgram ∈ soleRules by simp [soleRules])
    rcases derives_alt.1 hbody with hbody | hbody
    · exact derives_headed rfl rfl hbody
    · exact derives_headless hbody
  | functionSubprogram =>
    exact derives_headed rfl rfl
      (hnode (show Grammar.functionSubprogram ∈ soleRules by simp [soleRules]))
  | subroutineSubprogram =>
    exact derives_headed rfl rfl
      (hnode (show Grammar.subroutineSubprogram ∈ soleRules by simp [soleRules]))
  | blockDataSubprogram =>
    exact derives_headed rfl rfl
      (hnode (show Grammar.blockDataSubprogram ∈ soleRules by simp [soleRules]))
  | _ => cases hl

theorem parse_parts (hp : Parser.start? name (scan source) = some p) (hq : p.parse = .ok (.ok root, q))
    {n : Node} {l : Label} (hn : n ∈ root.nodes) (hlabel : n.hasLabel l) (hl : l.isUnit) :
    ∃ head body last, UnitParts l n.children head body last := by
  cases n with
  | leaf i lx => cases hlabel
  | inner i m cs =>
    have hm : m = l := by simpa [Node.hasLabel, Node.label?] using hlabel
    exact hm ▸ parse_unit hp hq hn (hm ▸ hl)

theorem derives_tokens {ks : List Kind} {ns : List Node} (h : Derives grammar (.star (.oneOf ks)) ns) :
    ∀ n ∈ ns, n.isLeaf := by
  obtain ⟨groups, rfl, hgroups⟩ := derives_star h
  intro n hn
  obtain ⟨g, hg, hn⟩ := List.mem_flatten.1 hn
  obtain ⟨i, lx, rfl, -⟩ := derives_oneOf.1 (hgroups g hg)
  obtain rfl := List.mem_singleton.1 hn
  rfl

theorem derives_programUnit {ns : List Node} (h : Derives grammar Grammar.programUnit ns) :
    ∀ n ∈ ns, n.label?.any Label.isUnit := by
  obtain ⟨i, l, cs, rfl, hl⟩ := derives_tops h rfl
  have hall : ∀ l ∈ (Grammar.programUnit.tops.getD []), l.isUnit := by decide
  intro n hn
  obtain rfl := List.mem_singleton.1 hn
  exact hall l hl

/-- A parsed tree holds tokens and, if it is not that of a single name, one node with the units. -/
theorem parse_source (hp : Parser.start? name (scan source) = some p) (hq : p.parse = .ok (.ok root, q)) :
    (root.hasLabel .loneName ∧ ∀ n ∈ root.children, n.isLeaf) ∨
    (root.hasLabel .program ∧ ∃ front i units back,
      root.children = front ++ .inner i .executableProgram units :: back ∧
      (∀ n ∈ front ++ back, n.isLeaf) ∧ ∀ unit ∈ units, unit.label?.any Label.isUnit) := by
  obtain ⟨entry, hentry, hderives⟩ := Parser.parse_derives (Parser.start_sound hp) hq
  rcases List.mem_cons.1 hentry with rfl | hentry
  · obtain ⟨i, cs, hroot, hcs⟩ := derives_node.1 hderives
    obtain rfl := List.singleton_inj.1 hroot
    simp only [Pattern.all, derives_seq, derives_token, derives_node] at hcs
    obtain ⟨front, _, rfl, hfront, _, _, rfl, ⟨j, units, rfl, hunits⟩, back, _, rfl, hback, k, lx, rfl,
      -⟩ := hcs
    refine .inr ⟨rfl, front, j, units, back ++ [.leaf k lx], rfl, fun n hn => ?_, fun unit hunit => ?_⟩
    · simp only [List.mem_append, List.mem_singleton] at hn
      rcases hn with hn | hn | rfl
      · exact derives_tokens hfront n hn
      · exact derives_tokens hback n hn
      · rfl
    · obtain ⟨first, more, rfl, hfirst, hmore⟩ := derives_seq.1 hunits
      obtain ⟨groups, rfl, hgroups⟩ := derives_star hmore
      rcases List.mem_append.1 hunit with hunit | hunit
      · exact derives_programUnit hfirst unit hunit
      · obtain ⟨g, hg, hunit⟩ := List.mem_flatten.1 hunit
        exact derives_programUnit (hgroups g hg) unit hunit
  · obtain rfl := List.mem_singleton.1 hentry
    obtain ⟨i, cs, hroot, hcs⟩ := derives_node.1 hderives
    obtain rfl := List.singleton_inj.1 hroot
    simp only [Pattern.all, derives_seq, derives_token, derives_word] at hcs
    obtain ⟨front, _, rfl, hfront, _, _, rfl, ⟨j, word, rfl, -⟩, back, _, rfl, hback, k, lx, rfl,
      -⟩ := hcs
    refine .inl ⟨rfl, fun n hn => ?_⟩
    simp only [Node.children, List.mem_append, List.mem_singleton] at hn
    rcases hn with hn | rfl | hn | rfl
    · exact derives_tokens hfront n hn
    · rfl
    · exact derives_tokens hback n hn
    · rfl

/-- A parsed tree holds units under one node, if it is not that of a single name, and tokens. -/
theorem parse_program (hp : Parser.start? name (scan source) = some p)
    (hq : p.parse = .ok (.ok root, q)) :
    (root.hasLabel .program ∨ root.hasLabel .loneName) ∧ ∀ n ∈ root.children, n.isLeaf ∨
      n.hasLabel .executableProgram ∧ ∀ unit ∈ n.children, unit.label?.any Label.isUnit := by
  rcases parse_source hp hq with ⟨hlabel, hleaves⟩ | ⟨hlabel, front, i, units, back, hchildren, hleaves,
    hunits⟩
  · exact ⟨.inr hlabel, fun n hn => .inl (hleaves n hn)⟩
  · refine ⟨.inl hlabel, fun n hn => ?_⟩
    rw [hchildren, List.mem_append, List.mem_cons] at hn
    rcases hn with hn | rfl | hn
    · exact .inl (hleaves n (List.mem_append_left _ hn))
    · exact .inr ⟨rfl, hunits⟩
    · exact .inl (hleaves n (List.mem_append_right _ hn))

theorem ifStmt_action {body : Pattern} (hbody : Grammar.ifStmt = .node .ifStmt body) {cs : List Node}
    (h : Derives grammar body cs) {m : Label} (hm : m ∈ Label.placed) :
    ∀ c ∈ cs.dropLast, c.label? ≠ some m := by
  obtain rfl := (Pattern.node.inj hbody).2
  obtain ⟨c₁, _, rfl, h₁, h⟩ := derives_seq.1 h
  obtain ⟨c₂, _, rfl, h₂, h⟩ := derives_seq.1 h
  obtain ⟨c₃, _, rfl, h₃, h⟩ := derives_seq.1 h
  obtain ⟨c₄, _, rfl, h₄, h⟩ := derives_seq.1 h
  obtain ⟨c₅, _, rfl, h₅, h⟩ := derives_seq.1 h
  obtain ⟨i, l, ds, rfl⟩ := derives_solo h rfl
  have hfree : ∀ m ∈ Label.placed, ∀ p ∈ [Pattern.opt Grammar.lblDef, Pattern.kw .IF, .token .lparen,
      Grammar.expr, .token .rparen], m ∉ p.heads := by
    decide +kernel
  have hnone : ∀ {p : Pattern} {ns : List Node}, p ∈ [Pattern.opt Grammar.lblDef, Pattern.kw .IF,
      .token .lparen, Grammar.expr, .token .rparen] → Derives grammar p ns →
      ∀ c ∈ ns, c.label? ≠ some m := by
    intro p ns hp hns c hc hlabel
    exact hfree m hm p hp (derives_heads hns hm c hc hlabel)
  intro c hc
  simp only [← List.append_assoc, List.dropLast_concat, List.mem_append] at hc
  rcases hc with (((hc | hc) | hc) | hc) | hc
  · exact hnone (by simp) h₁ c hc
  · exact hnone (by simp) h₂ c hc
  · exact hnone (by simp) h₃ c hc
  · exact hnone (by simp) h₄ c hc
  · exact hnone (by simp) h₅ c hc

/-- Does everything that a rule makes have the label of the rule among its places? -/
def Pattern.fits : Pattern → Bool
  | .node l body => body.heads.all fun m => m.places.contains l || !Label.placed.contains m
  | .level l body => body.solo || body.heads.all fun m => m.places.contains l || !Label.placed.contains m
  | _ => true

theorem rules_fit {rule : Pattern} (hrule : rule ∈ grammarPatterns.flatMap Pattern.rules) :
    rule.fits := by
  have hall : grammarPatterns.all (Pattern.everyRule Pattern.fits) := by decide +kernel
  exact grammar_rule hall hrule

/-- The statements of a parsed tree are where they are looked for. -/
theorem parse_placed (hp : Parser.start? name (scan source) = some p)
    (hq : p.parse = .ok (.ok root, q)) : root.Placed := by
  constructor
  · intro i l cs hn c hc m hm hlabel
    obtain ⟨rule, hrule, body, hbody, hmade⟩ := parse_made hp hq hn
    have hfits := rules_fit (List.mem_filter.1 hrule).1
    have hhead := derives_heads hbody hm c hc hlabel
    have hplaces : (body.heads.all fun m => m.places.contains l || !Label.placed.contains m) = true := by
      rcases hmade with rfl | ⟨rfl, hkept⟩
      · exact hfits
      · refine (Bool.or_eq_true_iff.1 hfits).resolve_left (fun hsolo => ?_)
        obtain ⟨j, k, ds, rfl⟩ := derives_solo hbody hsolo
        exact hkept j k ds rfl
    simpa [hm] using List.all_eq_true.1 hplaces m hhead
  · intro i cs hn c hc m hm
    obtain ⟨rule, hrule, hmade⟩ := parse_made hp hq hn
    exact ifStmt_action rfl
      (made_node hmade hrule (show Grammar.ifStmt ∈ soleRules by simp [soleRules])) hm c hc

/-! ## Lists of statements -/

theorem derives_solo_level {l : Label} {body : Pattern} {ns : List Node}
    (h : Derives grammar (.level l body) ns) (hsolo : body.solo) : Derives grammar body ns := by
  obtain ⟨i, cs, rfl, hbody⟩ := derives_level.1 h
  obtain ⟨j, k, ds, rfl⟩ := derives_solo hbody hsolo
  exact hbody

/-- What a pattern makes that makes one statement. -/
theorem derives_statement {p : Pattern} {ns : List Node} (h : Derives grammar p ns)
    (hp : ∀ l ∈ p.tops.getD [], l ∈ Label.statements) (hsome : p.tops.isSome) :
    ∀ n ∈ ns, n.IsStatement := by
  obtain ⟨ls, hls⟩ := Option.isSome_iff_exists.1 hsome
  obtain ⟨i, l, cs, rfl, hl⟩ := derives_tops h hls
  rw [hls] at hp
  exact fun n hn => ⟨l, hp l hl, by rw [List.mem_singleton.1 hn]; rfl⟩

theorem derives_action {ns : List Node} (h : Derives grammar Grammar.actionStmt ns) :
    ∀ n ∈ ns, n.IsStatement :=
  derives_statement (derives_call.1 h)
    (fun _ hl => List.mem_append_left _ (List.mem_append_left _ hl)) rfl

theorem derives_executable {ns : List Node} (h : Derives grammar Grammar.executableConstruct ns) :
    ∀ n ∈ ns, n.IsStatement := by
  have hbody := derives_solo_level (derives_call.1 h) rfl
  simp only [Pattern.first, derives_alt] at hbody
  rcases hbody with haction | hloop | hblock
  · exact derives_action haction
  · exact derives_statement hloop (by decide) rfl
  · exact derives_statement hblock (by decide) rfl

theorem derives_construct {p : Pattern} (hp : p ∈ [Grammar.bodyConstruct, Grammar.executionPartConstruct])
    {ns : List Node} (h : Derives grammar p ns) : ∀ n ∈ ns, n.IsStatement := by
  simp only [List.mem_cons, List.not_mem_nil, or_false] at hp
  rcases hp with rfl | rfl
  · have hbody := derives_solo_level h rfl
    simp only [Pattern.first, derives_alt] at hbody
    rcases hbody with hexecutable | hspecification
    · exact derives_executable hexecutable
    · exact derives_statement hspecification (fun _ hl => List.mem_append_right _ hl) rfl
  · have hbody := derives_solo_level h rfl
    simp only [Pattern.first, derives_alt] at hbody
    rcases hbody with hexecutable | hformat | hdata | hentry
    · exact derives_executable hexecutable
    · exact derives_statement hformat (by decide) rfl
    · exact derives_statement hdata (by decide) rfl
    · exact derives_statement hentry (by decide) rfl

/-- The lists of statements of a parsed tree hold statements only. -/
theorem parse_list (hp : Parser.start? name (scan source) = some p) (hq : p.parse = .ok (.ok root, q))
    {i : Nat} {l : Label} {cs : List Node} (h : .inner i l cs ∈ root.nodes)
    (hl : l = .body ∨ l = .conditionalBody) : ∀ c ∈ cs, c.IsStatement := by
  obtain ⟨rule, hrule, hmade⟩ := parse_made hp hq h
  have hstar : ∀ {p : Pattern} {ns : List Node},
      p ∈ [Grammar.bodyConstruct, Grammar.executionPartConstruct] → Derives grammar (.star p) ns →
        ∀ n ∈ ns, n.IsStatement := by
    intro p ns hmem hns n hn
    obtain ⟨groups, rfl, hgroups⟩ := derives_star hns
    obtain ⟨g, hg, hn⟩ := List.mem_flatten.1 hn
    exact derives_construct hmem (hgroups g hg) n hn
  rcases hl with rfl | rfl
  · have hbody := made_node hmade hrule (show Grammar.body ∈ soleRules by simp [soleRules])
    obtain ⟨first, more, rfl, hfirst, hmore⟩ := derives_seq.1 hbody
    intro c hc
    rcases List.mem_append.1 hc with hc | hc
    · exact derives_construct (by simp) hfirst c hc
    · exact hstar (by simp) hmore c hc
  · exact hstar (by simp)
      (made_node hmade hrule (show Grammar.conditionalBody ∈ soleRules by simp [soleRules]))

end Parsed

end FortranJulia
