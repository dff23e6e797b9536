import FortranJulia.Proofs.Parsing.Yield

/-!
Derivations: what a pattern can match, without a cursor. `Derives` says that nodes are what a
pattern makes of some tokens. A match that succeeds derives the nodes it adds, provided that a body
which may fail under a repetition or an option leaves nothing behind; `tidy` checks that of the
grammar. Every inner node of a derived tree is made by one of the rules of the grammar, and so the
children that a label promises are read off its rule.
-/

namespace FortranJulia

set_option autoImplicit false

open Match (Outcome)

/-! ## Patterns that fail without a trace -/

namespace Pattern

/-- Does the pattern match everywhere? -/
def surely : Pattern → Bool
  | .star _ | .opt _ => true
  | .seq p₁ p₂ => p₁.surely && p₂.surely
  | _ => false

/-- Does the pattern add no node where it fails? -/
def clean : Pattern → Bool
  | .branch _ yes no => yes.clean && no.clean
  | .seq p₁ p₂ => p₁.clean && p₂.surely
  | .alt _ p₂ => p₂.clean
  | .whileDo _ _ => false
  | _ => true

/-- Are the bodies of options and repetitions clean? -/
def tidy : Pattern → Bool
  | .branch _ yes no => yes.tidy && no.tidy
  | .seq p₁ p₂ | .alt p₁ p₂ => p₁.tidy && p₂.tidy
  | .star body | .opt body => body.clean && body.tidy
  | .attempt body | .whileDo _ body | .node _ body | .level _ body => body.tidy
  | _ => true

end Pattern

theorem grammar_tidy (phrase : Nonterminal) : (grammar phrase).tidy ∧ (grammar phrase).clean := by
  cases phrase <;> decide

theorem entry_tidy {entry : Pattern} (h : entry ∈ [Grammar.program, Grammar.loneName]) :
    entry.tidy := by
  revert entry
  decide

/-! ## Derivations -/

/-- The nodes are what a pattern makes of some tokens. -/
inductive Derives (grammar : Nonterminal → Pattern) : Pattern → List Node → Prop where
  | take {p : Pattern} {lx : Lexeme} (i : Nat) (h : TreeMatch.accepts? p lx = some true) :
      Derives grammar p [.leaf i lx]
  | check (g : Guard) : Derives grammar (.check g) []
  | branch_yes {g : Guard} {yes no : Pattern} {ns : List Node} (h : Derives grammar yes ns) :
      Derives grammar (.branch g yes no) ns
  | branch_no {g : Guard} {yes no : Pattern} {ns : List Node} (h : Derives grammar no ns) :
      Derives grammar (.branch g yes no) ns
  | seq {p₁ p₂ : Pattern} {ms ns : List Node} (h₁ : Derives grammar p₁ ms)
      (h₂ : Derives grammar p₂ ns) : Derives grammar (.seq p₁ p₂) (ms ++ ns)
  | alt_first {p₁ p₂ : Pattern} {ns : List Node} (h : Derives grammar p₁ ns) :
      Derives grammar (.alt p₁ p₂) ns
  | alt_second {p₁ p₂ : Pattern} {ns : List Node} (h : Derives grammar p₂ ns) :
      Derives grammar (.alt p₁ p₂) ns
  | star_end (body : Pattern) : Derives grammar (.star body) []
  | star_more {body : Pattern} {ms ns : List Node} (h₁ : Derives grammar body ms)
      (h₂ : Derives grammar (.star body) ns) : Derives grammar (.star body) (ms ++ ns)
  | opt_none (body : Pattern) : Derives grammar (.opt body) []
  | opt {body : Pattern} {ns : List Node} (h : Derives grammar body ns) :
      Derives grammar (.opt body) ns
  | attempt {body : Pattern} {ns : List Node} (h : Derives grammar body ns) :
      Derives grammar (.attempt body) ns
  | while_end (g : Guard) (body : Pattern) : Derives grammar (.whileDo g body) []
  | while_more {g : Guard} {body : Pattern} {ms ns : List Node} (h₁ : Derives grammar body ms)
      (h₂ : Derives grammar (.whileDo g body) ns) : Derives grammar (.whileDo g body) (ms ++ ns)
  | node {body : Pattern} {ns : List Node} (i : Nat) (l : Label) (h : Derives grammar body ns) :
      Derives grammar (.node l body) [.inner i l ns]
  | level {body : Pattern} {ns : List Node} (i : Nat) (l : Label) (h : Derives grammar body ns) :
      Derives grammar (.level l body) [(Node.inner i l ns).collapse]
  | call {phrase : Nonterminal} {ns : List Node} (h : Derives grammar (grammar phrase) ns) :
      Derives grammar (.call phrase) ns

/-! ## From matches -/

namespace TreeMatch

variable {tokens : Array Lexeme}

theorem Runs.not_failed {grammar : Nonterminal → Pattern} {p : Pattern} {s t : State} {o : Outcome}
    (h : Runs grammar tokens p s o t) : p.surely → o ≠ .failed := by
  induction h with
  | exhausted => simp
  | take | check | star_end | opt_none | while_end | node | level => simp
  | star_stop => simp
  | miss ht =>
    intro hp
    rename_i p s
    cases p <;> simp_all [accepts?, Pattern.surely]
  | seq _ _ _ ih₂ =>
    intro hp
    simp only [Pattern.surely, Bool.and_eq_true] at hp
    exact ih₂ hp.2
  | seq_stop _ _ ih =>
    intro hp
    simp only [Pattern.surely, Bool.and_eq_true] at hp
    exact ih hp.1
  | star_more _ _ _ ih₂ => exact ih₂
  | opt _ ho => exact fun _ => ho
  | _ => simp [Pattern.surely]

/-- From one state to another the open node got nodes that a pattern derives. -/
def Adds (grammar : Nonterminal → Pattern) (p : Pattern) (s t : State) : Prop :=
  ∃ news, t.kids = news.reverse ++ s.kids ∧ Derives grammar p news

namespace Adds

variable {grammar : Nonterminal → Pattern} {s t u : State}

theorem none {p : Pattern} (hkids : t.kids = s.kids) (h : Derives grammar p []) :
    Adds grammar p s t :=
  ⟨[], hkids, h⟩

theorem imp {p q : Pattern} (h : Adds grammar p s t)
    (hpq : ∀ ns, Derives grammar p ns → Derives grammar q ns) : Adds grammar q s t := by
  obtain ⟨news, hkids, hnews⟩ := h
  exact ⟨news, hkids, hpq news hnews⟩

theorem append {p q r : Pattern} (h : Adds grammar p s t) (h' : Adds grammar q t u)
    (hr : ∀ ms ns, Derives grammar p ms → Derives grammar q ns → Derives grammar r (ms ++ ns)) :
    Adds grammar r s u := by
  obtain ⟨ms, hkids, hms⟩ := h
  obtain ⟨ns, hkids', hns⟩ := h'
  refine ⟨ms ++ ns, ?_, hr ms ns hms hns⟩
  rw [hkids', hkids, List.reverse_append, List.append_assoc]

theorem leave {p body : Pattern} {finish : Node → Node} {l : Label}
    (h : Adds grammar body s.enter t)
    (hp : ∀ ns, Derives grammar body ns → Derives grammar p [finish (.inner s.count l ns)]) :
    Adds grammar p s (s.leave t finish l) := by
  obtain ⟨news, hkids, hnews⟩ := h
  have hchildren : t.kids.reverse = news := by
    rw [hkids]
    simp [State.enter]
  refine ⟨[finish (.inner s.count l t.kids.reverse)], rfl, ?_⟩
  rw [hchildren]
  exact hp news hnews

end Adds

/-- A match derives the nodes it adds, and where it fails it adds none if the pattern is clean. -/
theorem Runs.adds {grammar : Nonterminal → Pattern}
    (hgrammar : ∀ phrase, (grammar phrase).tidy ∧ (grammar phrase).clean) {p : Pattern}
    {s t : State} {o : Outcome} (h : Runs grammar tokens p s o t) : p.tidy →
    (o = .matched → Adds grammar p s t) ∧ (o = .failed → p.clean → t.kids = s.kids) := by
  induction h with
  | exhausted => simp
  | take ht =>
    intro _
    exact ⟨fun _ => ⟨[.leaf _ _], rfl, .take _ ht⟩, by simp⟩
  | miss => exact fun _ => ⟨by simp, fun _ _ => missed_kids _ _⟩
  | check => exact fun _ => ⟨fun _ => .none rfl (.check _), by simp⟩
  | check_fails => exact fun _ => ⟨by simp, fun _ _ => rfl⟩
  | @branch g yes no s t o _ ih =>
    intro hp
    simp only [Pattern.tidy, Bool.and_eq_true] at hp
    obtain ⟨hadd, hfail⟩ := ih (by split <;> simp [hp])
    refine ⟨fun ho => (hadd ho).imp ?_, fun ho hc => hfail ho ?_⟩
    · intro ns hns
      split at hns
      · exact .branch_yes hns
      · exact .branch_no hns
    · simp only [Pattern.clean, Bool.and_eq_true] at hc
      split <;> simp [hc]
  | seq _ h₂ ih₁ ih₂ =>
    intro hp
    simp only [Pattern.tidy, Bool.and_eq_true] at hp
    refine ⟨fun ho => ((ih₁ hp.1).1 rfl).append ((ih₂ hp.2).1 ho) (fun _ _ => .seq), ?_⟩
    intro ho hc
    simp only [Pattern.clean, Bool.and_eq_true] at hc
    exact absurd ho (h₂.not_failed hc.2)
  | seq_stop _ ho ih =>
    intro hp
    simp only [Pattern.tidy, Bool.and_eq_true] at hp
    refine ⟨fun h => absurd h ho, fun h hc => (ih hp.1).2 h ?_⟩
    simp only [Pattern.clean, Bool.and_eq_true] at hc
    exact hc.1
  | alt_first _ ho ih =>
    intro hp
    simp only [Pattern.tidy, Bool.and_eq_true] at hp
    exact ⟨fun h => ((ih hp.1).1 h).imp (fun _ => .alt_first), fun h => absurd h ho⟩
  | alt_second _ _ _ ih =>
    intro hp
    simp only [Pattern.tidy, Bool.and_eq_true] at hp
    -- The second pattern starts from the children that stood before the first.
    obtain ⟨hadd, hfail⟩ := ih hp.2
    refine ⟨fun ho => ?_, fun ho hc => hfail ho hc⟩
    obtain ⟨news, hkids, hnews⟩ := hadd ho
    exact ⟨news, hkids, .alt_second hnews⟩
  | @star_more body _ _ _ _ _ h₂ ih₁ ih₂ =>
    intro hp
    have hbody : body.clean ∧ body.tidy := by
      simpa only [Pattern.tidy, Bool.and_eq_true] using hp
    refine ⟨fun ho => ((ih₁ hbody.2).1 rfl).append ((ih₂ hp).1 ho) (fun _ _ => .star_more), ?_⟩
    exact fun ho => absurd ho (h₂.not_failed rfl)
  | star_end _ ih =>
    intro hp
    simp only [Pattern.tidy, Bool.and_eq_true] at hp
    exact ⟨fun _ => .none ((ih hp.2).2 rfl hp.1) (.star_end _), by simp⟩
  | star_stop => exact fun _ => ⟨by simp, by simp⟩
  | opt _ ho ih =>
    intro hp
    simp only [Pattern.tidy, Bool.and_eq_true] at hp
    exact ⟨fun h => ((ih hp.2).1 h).imp (fun _ => .opt), fun h => absurd h ho⟩
  | opt_none _ ih =>
    intro hp
    simp only [Pattern.tidy, Bool.and_eq_true] at hp
    exact ⟨fun _ => .none ((ih hp.2).2 rfl hp.1) (.opt_none _), by simp⟩
  | attempt _ ho ih =>
    exact fun hp => ⟨fun h => ((ih hp).1 h).imp (fun _ => .attempt), fun h => absurd h ho⟩
  | attempt_back => exact fun _ => ⟨by simp, fun _ _ => rfl⟩
  | while_more _ _ _ ih₁ ih₂ =>
    exact fun hp => ⟨fun ho => ((ih₁ hp).1 rfl).append ((ih₂ hp).1 ho) (fun _ _ => .while_more),
      by simp [Pattern.clean]⟩
  | while_stop _ _ ho => exact fun _ => ⟨fun h => absurd h ho, by simp [Pattern.clean]⟩
  | while_end => exact fun _ => ⟨fun _ => .none rfl (.while_end _ _), by simp⟩
  | node _ ih => exact fun hp => ⟨fun _ => ((ih hp).1 rfl).leave (fun _ => .node _ _), by simp⟩
  | level _ ih => exact fun hp => ⟨fun _ => ((ih hp).1 rfl).leave (fun _ => .level _ _), by simp⟩
  | node_back _ ho | level_back _ ho => exact fun _ => ⟨fun h => absurd h ho, fun _ _ => rfl⟩
  | call _ ih =>
    intro _
    obtain ⟨hadd, hfail⟩ := ih (hgrammar _).1
    exact ⟨fun ho => (hadd ho).imp (fun _ => .call), fun ho _ => hfail ho (hgrammar _).2⟩

end TreeMatch

/-- The tree that a parser returns is derived from a pattern for a whole source. -/
theorem Parser.parse_derives {p q : Parser} {n : Node} (hp : p.state.Sound p.tokens)
    (h : p.parse = .ok (.ok n, q)) :
    ∃ entry ∈ [Grammar.program, Grammar.loneName], Derives grammar entry [n] := by
  obtain ⟨entry, hentry, s, t, low, -, hkids, hruns, -⟩ := parse_tree hp h
  obtain ⟨news, hnews, hderives⟩ := (hruns.adds grammar_tidy (entry_tidy hentry)).1 rfl
  have hsingle : [n] = news := by
    rw [hkids, List.append_nil] at hnews
    simpa using congrArg List.reverse hnews
  exact ⟨entry, hentry, hsingle ▸ hderives⟩

/-! ## What a pattern derives -/

section Inversion

variable {g : Nonterminal → Pattern} {ns : List Node}

theorem derives_token {k : Kind} :
    Derives g (.token k) ns ↔ ∃ i lx, ns = [.leaf i lx] ∧ lx.kind = k := by
  constructor
  · intro h
    cases h with
    | take i h => exact ⟨i, _, rfl, by simpa [TreeMatch.accepts?] using h⟩
  · rintro ⟨i, lx, rfl, rfl⟩
    exact .take i (by simp [TreeMatch.accepts?])

theorem derives_oneOf {ks : List Kind} :
    Derives g (.oneOf ks) ns ↔ ∃ i lx, ns = [.leaf i lx] ∧ lx.kind ∈ ks := by
  constructor
  · intro h
    cases h with
    | take i h => exact ⟨i, _, rfl, by simpa [TreeMatch.accepts?] using h⟩
  · rintro ⟨i, lx, rfl, h⟩
    exact .take i (by simpa [TreeMatch.accepts?] using h)

theorem derives_word :
    Derives g .word ns ↔ ∃ i lx, ns = [.leaf i lx] ∧ Match.isName lx := by
  constructor
  · intro h
    cases h with
    | take i h => exact ⟨i, _, rfl, by simpa [TreeMatch.accepts?] using h⟩
  · rintro ⟨i, lx, rfl, h⟩
    exact .take i (by simpa [TreeMatch.accepts?] using h)

theorem derives_seq {p₁ p₂ : Pattern} :
    Derives g (.seq p₁ p₂) ns ↔
      ∃ ms ks, ns = ms ++ ks ∧ Derives g p₁ ms ∧ Derives g p₂ ks := by
  constructor
  · intro h
    cases h with
    | take i h => simp [TreeMatch.accepts?] at h
    | seq h₁ h₂ => exact ⟨_, _, rfl, h₁, h₂⟩
  · rintro ⟨ms, ks, rfl, h₁, h₂⟩
    exact .seq h₁ h₂

theorem derives_alt {p₁ p₂ : Pattern} :
    Derives g (.alt p₁ p₂) ns ↔ Derives g p₁ ns ∨ Derives g p₂ ns := by
  constructor
  · intro h
    cases h with
    | take i h => simp [TreeMatch.accepts?] at h
    | alt_first h => exact .inl h
    | alt_second h => exact .inr h
  · rintro (h | h)
    · exact .alt_first h
    · exact .alt_second h

theorem derives_opt {body : Pattern} : Derives g (.opt body) ns ↔ ns = [] ∨ Derives g body ns := by
  constructor
  · intro h
    cases h with
    | take i h => simp [TreeMatch.accepts?] at h
    | opt_none => exact .inl rfl
    | opt h => exact .inr h
  · rintro (rfl | h)
    · exact .opt_none body
    · exact .opt h

theorem derives_attempt {body : Pattern} :
    Derives g (.attempt body) ns ↔ Derives g body ns := by
  constructor
  · intro h
    cases h with
    | take i h => simp [TreeMatch.accepts?] at h
    | attempt h => exact h
  · exact .attempt

theorem derives_call {phrase : Nonterminal} :
    Derives g (.call phrase) ns ↔ Derives g (g phrase) ns := by
  constructor
  · intro h
    cases h with
    | take i h => simp [TreeMatch.accepts?] at h
    | call h => exact h
  · exact .call

theorem derives_node {l : Label} {body : Pattern} :
    Derives g (.node l body) ns ↔ ∃ i cs, ns = [.inner i l cs] ∧ Derives g body cs := by
  constructor
  · intro h
    cases h with
    | take i h => simp [TreeMatch.accepts?] at h
    | node i _ h => exact ⟨i, _, rfl, h⟩
  · rintro ⟨i, cs, rfl, h⟩
    exact .node i l h

theorem derives_level {l : Label} {body : Pattern} :
    Derives g (.level l body) ns ↔
      ∃ i cs, ns = [(Node.inner i l cs).collapse] ∧ Derives g body cs := by
  constructor
  · intro h
    cases h with
    | take i h => simp [TreeMatch.accepts?] at h
    | level i _ h => exact ⟨i, _, rfl, h⟩
  · rintro ⟨i, cs, rfl, h⟩
    exact .level i l h

/-- The nodes of a repetition fall into groups that its body derives. -/
theorem derives_star {body : Pattern} (h : Derives g (.star body) ns) :
    ∃ groups : List (List Node), ns = groups.flatten ∧ ∀ ms ∈ groups, Derives g body ms := by
  generalize hp : Pattern.star body = p at h
  induction h with
  | take i h =>
    subst hp
    simp [TreeMatch.accepts?] at h
  | star_end => exact ⟨[], rfl, by simp⟩
  | star_more h₁ _ _ ih₂ =>
    cases hp
    obtain ⟨groups, rfl, hgroups⟩ := ih₂ rfl
    exact ⟨_ :: groups, rfl, by simpa using ⟨h₁, hgroups⟩⟩
  | _ => cases hp

end Inversion

/-! ## Nodes of trees -/

/-- Induction on a node and its children. -/
theorem Node.induction {motive : Node → Prop} (leaf : ∀ i lx, motive (.leaf i lx))
    (inner : ∀ i l cs, (∀ c ∈ cs, motive c) → motive (.inner i l cs)) (n : Node) : motive n :=
  @Node.rec motive (fun cs => ∀ c ∈ cs, motive c) leaf inner
    (fun _ hc => absurd hc List.not_mem_nil)
    (fun _ _ hn hns => List.forall_mem_cons.2 ⟨hn, hns⟩) n

theorem nodes_child {m : Node} {n : Node} (h : m ∈ n.children) : m ∈ n.nodes := by
  cases n with
  | leaf => cases h
  | inner i l cs => exact List.mem_cons_of_mem _ (mem_nodesOf.2 ⟨m, h, nodes_self m⟩)

/-- The nodes of a tree inside a tree are nodes of it. -/
theorem nodes_trans {m n root : Node} (hn : n ∈ root.nodes) (hm : m ∈ n.nodes) : m ∈ root.nodes := by
  induction root using Node.induction with
  | leaf i lx =>
    rw [Node.nodes, List.mem_singleton] at hn
    rwa [hn] at hm
  | inner i l cs ih =>
    rw [Node.nodes, List.mem_cons, mem_nodesOf] at hn
    rcases hn with rfl | ⟨c, hc, hn⟩
    · exact hm
    · exact List.mem_cons_of_mem _ (mem_nodesOf.2 ⟨c, hc, ih c hc hn⟩)

theorem Node.hasLabel_child? {n m : Node} {l : Label} (h : n.child? l = some m) : m.hasLabel l :=
  List.find?_some h

theorem Node.hasLabel_childrenWith {n m : Node} {l : Label} (h : m ∈ n.childrenWith l) :
    m.hasLabel l :=
  (List.mem_filter.1 h).2

theorem Node.hasLabel_findAll {n m : Node} {l : Label} (h : m ∈ n.findAll l) : m.hasLabel l :=
  (List.mem_filter.1 h).2

/-- The first node with a label is one of the nodes. -/
theorem find?_mem {l : Label} {n k : Node} (h : n.find? l = some k) : k ∈ n.nodes ∧ k.hasLabel l := by
  induction n using Node.induction with
  | leaf => cases h
  | inner i l' cs ih =>
    rw [Node.find?] at h
    split at h
    · rename_i hl
      obtain rfl := Option.some.inj h
      exact ⟨nodes_self _, by simpa [Node.hasLabel, Node.label?] using hl⟩
    · have hbelow : ∀ ns, (∀ c ∈ ns, c ∈ cs) → Node.findOf? l ns = some k →
          ∃ c ∈ cs, k ∈ c.nodes ∧ k.hasLabel l := by
        intro ns
        induction ns with
        | nil =>
        intro _ hk
        cases hk
        | cons n ns ihs =>
          intro hns hk
          rw [Node.findOf?] at hk
          cases hn : n.find? l with
          | some m =>
            rw [hn] at hk
            obtain rfl := Option.some.inj hk
            exact ⟨n, hns n (by simp), ih n (hns n (by simp)) hn⟩
          | none =>
            rw [hn] at hk
            exact ihs (fun c hc => hns c (by simp [hc])) hk
      obtain ⟨c, hc, hmem, hlabel⟩ := hbelow cs (fun _ hc => hc) h
      exact ⟨List.mem_cons_of_mem _ (mem_nodesOf.2 ⟨c, hc, hmem⟩), hlabel⟩

theorem mem_lexemesOf {lx : Lexeme} {ns : List Node} :
    lx ∈ Node.lexemesOf ns ↔ ∃ n ∈ ns, lx ∈ n.lexemes := by
  induction ns with
  | nil => simp [Node.lexemesOf]
  | cons n ns ih => simp [Node.lexemesOf, ih]

/-- The lexemes of a tree inside a tree are lexemes of it. -/
theorem lexemes_of_nodes {n root : Node} (hn : n ∈ root.nodes) {lx : Lexeme} (hlx : lx ∈ n.lexemes) :
    lx ∈ root.lexemes := by
  induction root using Node.induction with
  | leaf i lx =>
    rw [Node.nodes, List.mem_singleton] at hn
    rwa [hn] at hlx
  | inner i l cs ih =>
    rw [Node.nodes, List.mem_cons, mem_nodesOf] at hn
    rcases hn with rfl | ⟨c, hc, hn⟩
    · exact hlx
    · exact mem_lexemesOf.2 ⟨c, hc, ih c hc hn⟩

/-! ## Rules -/

/-- The patterns inside a pattern that make nodes. -/
def Pattern.rules : Pattern → List Pattern
  | .branch _ p₁ p₂ | .seq p₁ p₂ | .alt p₁ p₂ => p₁.rules ++ p₂.rules
  | .star body | .opt body | .attempt body | .whileDo _ body => body.rules
  | .node l body => .node l body :: body.rules
  | .level l body => .level l body :: body.rules
  | _ => []

/-- The label of the nodes that a pattern makes. -/
def Pattern.label? : Pattern → Option Label
  | .node l _ | .level l _ => some l
  | _ => none

/-- The rules for nodes with a label in some patterns. -/
def rulesFor (ps : List Pattern) (l : Label) : List Pattern :=
  (ps.flatMap Pattern.rules).filter (·.label? = some l)

/-- The patterns that make up the grammar: those for whole sources and the nonterminals. -/
def grammarPatterns : List Pattern :=
  [Grammar.program, Grammar.loneName] ++
    [Nonterminal.expr, .multOperand, .fmtSpec, .outputItem, .inputItem, .dataStmtObject, .actionStmt,
      .executableConstruct].map grammar

theorem grammar_mem (phrase : Nonterminal) : grammar phrase ∈ grammarPatterns := by
  cases phrase <;> simp [grammarPatterns]

/-- Does a check hold of every rule of a pattern? A rule that stands at many places of the grammar is
checked once where this is evaluated, and not as often as the list of the rules has it. -/
def Pattern.everyRule (check : Pattern → Bool) : Pattern → Bool
  | .branch _ p₁ p₂ | .seq p₁ p₂ | .alt p₁ p₂ => p₁.everyRule check && p₂.everyRule check
  | .star body | .opt body | .attempt body | .whileDo _ body => body.everyRule check
  | .node l body => check (.node l body) && body.everyRule check
  | .level l body => check (.level l body) && body.everyRule check
  | _ => true

theorem everyRule_rules (check : Pattern → Bool) (p : Pattern) :
    p.everyRule check = p.rules.all check := by
  induction p with
  | branch _ _ _ ih₁ ih₂ | seq _ _ ih₁ ih₂ | alt _ _ ih₁ ih₂ =>
    rw [Pattern.everyRule, Pattern.rules, List.all_append, ih₁, ih₂]
  | star _ ih | opt _ ih | attempt _ ih | whileDo _ _ ih => rw [Pattern.everyRule, Pattern.rules, ih]
  | node _ _ ih | level _ _ ih => rw [Pattern.everyRule, Pattern.rules, List.all_cons, ih]
  | token | oneOf | word | any | check | call => rfl

/-- What a check of the grammar says of its rules. -/
theorem grammar_rule {check : Pattern → Bool} (h : grammarPatterns.all (Pattern.everyRule check))
    {rule : Pattern} (hrule : rule ∈ grammarPatterns.flatMap Pattern.rules) : check rule := by
  obtain ⟨p, hp, hrule⟩ := List.mem_flatMap.1 hrule
  have hevery := List.all_eq_true.1 h p hp
  rw [everyRule_rules] at hevery
  exact List.all_eq_true.1 hevery rule hrule

/-- The node is one that a rule makes and keeps. -/
def Made (g : Nonterminal → Pattern) (rule : Pattern) (l : Label) (cs : List Node) : Prop :=
  ∃ body, Derives g body cs ∧
    (rule = .node l body ∨ rule = .level l body ∧ ∀ i m ds, cs ≠ [.inner i m ds])

/-- Every inner node of a tree of the grammar is made by a rule for its label. -/
theorem Derives.made {p : Pattern} {ns : List Node} (h : Derives grammar p ns) :
    (∀ rule ∈ p.rules, rule ∈ grammarPatterns.flatMap Pattern.rules) →
      ∀ i l cs, .inner i l cs ∈ Node.nodesOf ns →
        ∃ rule ∈ rulesFor grammarPatterns l, Made grammar rule l cs := by
  have hrule : ∀ {l : Label} {rule : Pattern}, rule.label? = some l →
      rule ∈ grammarPatterns.flatMap Pattern.rules → rule ∈ rulesFor grammarPatterns l := by
    intro l rule hlabel hmem
    exact List.mem_filter.2 ⟨hmem, by simpa using hlabel⟩
  have hsplit : ∀ (ms ks : List Node) (m : Node), m ∈ Node.nodesOf (ms ++ ks) →
      m ∈ Node.nodesOf ms ∨ m ∈ Node.nodesOf ks := by
    intro ms ks m hm
    simpa [nodesOf_map] using hm
  induction h with
  | take i _ =>
    intro _ j l cs hmem
    simp [Node.nodesOf, Node.nodes] at hmem
  | check | star_end | opt_none | while_end =>
    intro _ i l cs hmem
    simp [Node.nodesOf] at hmem
  | branch_yes _ ih | alt_first _ ih =>
    intro hp
    exact ih (fun rule hr => hp rule (by simp [Pattern.rules, hr]))
  | branch_no _ ih | alt_second _ ih =>
    intro hp
    exact ih (fun rule hr => hp rule (by simp [Pattern.rules, hr]))
  | seq _ _ ih₁ ih₂ =>
    intro hp i l cs hmem
    rcases hsplit _ _ _ hmem with hmem | hmem
    · exact ih₁ (fun rule hr => hp rule (by simp [Pattern.rules, hr])) i l cs hmem
    · exact ih₂ (fun rule hr => hp rule (by simp [Pattern.rules, hr])) i l cs hmem
  | star_more _ _ ih₁ ih₂ | while_more _ _ ih₁ ih₂ =>
    intro hp i l cs hmem
    rcases hsplit _ _ _ hmem with hmem | hmem
    · exact ih₁ hp i l cs hmem
    · exact ih₂ hp i l cs hmem
  | opt _ ih | attempt _ ih => exact ih
  | call _ ih =>
    intro _
    exact ih (fun rule hr => List.mem_flatMap.2 ⟨_, grammar_mem _, hr⟩)
  | @node body ns j m hbody ih =>
    intro hp i l cs hmem
    simp only [Node.nodesOf, Node.nodes, List.append_nil, List.mem_cons, Node.inner.injEq] at hmem
    rcases hmem with ⟨-, rfl, rfl⟩ | hmem
    · exact ⟨_, hrule rfl (hp _ (by simp [Pattern.rules])), body, hbody, .inl rfl⟩
    · exact ih (fun rule hr => hp rule (by simp [Pattern.rules, hr])) i l cs hmem
  | @level body ns j m hbody ih =>
    intro hp i l cs hmem
    have hbelow := ih (fun rule hr => hp rule (by simp [Pattern.rules, hr])) i l cs
    -- A level that gives way is no node of the tree; one that stays has no inner node for its
    -- only child.
    unfold Node.collapse at hmem
    split at hmem
    · rename_i heq
      cases heq
      exact hbelow hmem
    · rename_i hstays
      simp only [Node.nodesOf, Node.nodes, List.append_nil, List.mem_cons, Node.inner.injEq] at hmem
      rcases hmem with ⟨-, rfl, rfl⟩ | hmem
      · refine ⟨_, hrule rfl (hp _ (by simp [Pattern.rules])), body, hbody, .inr ⟨rfl, ?_⟩⟩
        rintro i' m' ds rfl
        exact hstays j l i' m' ds rfl
      · exact hbelow hmem

/-- Every inner node of the tree that a parser returns is made by a rule for its label. -/
theorem Parser.parse_made {p q : Parser} {root : Node} (hp : p.state.Sound p.tokens)
    (hq : p.parse = .ok (.ok root, q)) {i : Nat} {l : Label} {cs : List Node}
    (h : .inner i l cs ∈ root.nodes) :
    ∃ rule ∈ rulesFor grammarPatterns l, Made grammar rule l cs := by
  obtain ⟨entry, hentry, hderives⟩ := parse_derives hp hq
  refine hderives.made (fun rule hrule => ?_) i l cs (mem_nodesOf.2 ⟨root, by simp, h⟩)
  exact List.mem_flatMap.2 ⟨entry, List.mem_append_left _ hentry, hrule⟩

/-- Every inner node of a parsed source is made by a rule for its label. -/
theorem parse_made {name source : String} {p q : Parser} {root : Node}
    (hp : Parser.start? name (scan source) = some p) (hq : p.parse = .ok (.ok root, q)) {i : Nat}
    {l : Label} {cs : List Node} (h : .inner i l cs ∈ root.nodes) :
    ∃ rule ∈ rulesFor grammarPatterns l, Made grammar rule l cs :=
  Parser.parse_made (Parser.start_sound hp) hq h

end FortranJulia
