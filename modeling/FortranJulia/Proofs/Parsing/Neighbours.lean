import FortranJulia.Proofs.Parsing.Ends
import FortranJulia.Proofs.Parsing.Expressions
import FortranJulia.Proofs.Parsing.Precedence
import FortranJulia.Proofs.Scanning.Rereading
import Mathlib.Data.List.Chain

/-!
Tokens that stand side by side. The kinds of the first and of the last token that a pattern can match are
read off the pattern, and with them the pairs that can occur inside a phrase. Blanks between most tokens of
an expression can be left out because a few pairs do not: in an expression no number with a point follows a
name, no star another one and no colon another one, and behind an expression there is no such number either.
-/

namespace FortranJulia

set_option autoImplicit false

open TreeMatch (operandKinds)

/-! ## First and last tokens -/

/-- The kinds that an operand of an expression can end with. -/
def operandEnds : List Kind :=
  [.rparen, .name, .editConst, .realConst, .integerConst, .charConst, .trueConst, .falseConst,
   .hollerithConst, .binaryConst, .octalConst, .hexConst]

/-- The kinds that the phrases of a nonterminal can start with. Formats and items to be written may start
with any, and of the others but expressions it is enough to know that they do not start with a number with
a point. -/
def Nonterminal.firsts : Nonterminal → List Kind
  | .multOperand => .name :: .editConst :: operandKinds
  | .expr => .notOp :: .plus :: .minus :: .name :: .editConst :: operandKinds
  | .fmtSpec | .outputItem => Kind.all
  | _ => Kind.all.filter (· != .realConst)

/-- The kinds that they can end with, where these are told apart. -/
def Nonterminal.lasts : Nonterminal → List Kind
  | .multOperand | .expr => operandEnds
  | _ => Kind.all

namespace Pattern

/-- The kinds of tokens that what the pattern matches can start with. -/
def firsts : Pattern → List Kind
  | .token k => [k]
  | .oneOf ks => ks
  | .word => [.name, .editConst]
  | .any => Kind.all
  | .check _ => []
  | .branch _ p₁ p₂ | .alt p₁ p₂ => p₁.firsts ++ p₂.firsts
  | .seq p₁ p₂ => p₁.firsts ++ (if p₁.moves true then [] else p₂.firsts)
  | .star body | .opt body | .attempt body | .whileDo _ body | .node _ body | .level _ body => body.firsts
  | .call phrase => phrase.firsts

def lasts : Pattern → List Kind
  | .token k => [k]
  | .oneOf ks => ks
  | .word => [.name, .editConst]
  | .any => Kind.all
  | .check _ => []
  | .branch _ p₁ p₂ | .alt p₁ p₂ => p₁.lasts ++ p₂.lasts
  | .seq p₁ p₂ => p₂.lasts ++ (if p₂.moves true then [] else p₁.lasts)
  | .star body | .opt body | .attempt body | .whileDo _ body | .node _ body | .level _ body => body.lasts
  | .call phrase => phrase.lasts

end Pattern

namespace Pattern

/-- Does every token that the pattern can match meet the one behind it? -/
def meets : Pattern → Bool
  | .branch _ p₁ p₂ | .alt p₁ p₂ => p₁.meets && p₂.meets
  | .seq p₁ p₂ => p₁.meets && p₂.meets && p₁.lasts.all fun a => p₂.firsts.all a.meets
  | .star body | .whileDo _ body => body.meets && body.lasts.all fun a => body.firsts.all a.meets
  | .opt body | .attempt body | .node _ body | .level _ body => body.meets
  | .call phrase => phrase.exprLabel?.isSome
  | _ => true

/-- Can what the pattern matches end with an expression? -/
def endsInExpr : Pattern → Bool
  | .branch _ p₁ p₂ | .alt p₁ p₂ => p₁.endsInExpr || p₂.endsInExpr
  | .seq p₁ p₂ => p₂.endsInExpr || (!p₂.moves true && p₁.endsInExpr)
  | .star body | .opt body | .attempt body | .whileDo _ body => body.endsInExpr
  | .node l body | .level l body => l == .expr || body.endsInExpr
  | .call phrase => [.expr, .outputItem, .actionStmt, .executableConstruct].contains phrase
  | _ => false

/-- Does no number with a point come right behind an expression in what the pattern matches? -/
def parts : Pattern → Bool
  | .branch _ p₁ p₂ | .alt p₁ p₂ => p₁.parts && p₂.parts
  | .seq p₁ p₂ => p₁.parts && p₂.parts && !(p₁.endsInExpr && p₂.firsts.contains .realConst)
  | .star body | .whileDo _ body => body.parts && !(body.endsInExpr && body.firsts.contains .realConst)
  | .opt body | .attempt body | .node _ body | .level _ body => body.parts
  | _ => true

end Pattern

/-! ## The grammar -/

theorem Specifier.mem_all (s : Specifier) : s ∈ Specifier.all := by
  cases s <;> decide

theorem Keyword.mem_all (k : Keyword) : k ∈ Keyword.all := by
  cases k <;> decide

theorem Kind.mem_all (k : Kind) : k ∈ Kind.all := by
  cases k with
  | specifier s => exact List.mem_append_left _ (List.mem_append_right _ (List.mem_map_of_mem s.mem_all))
  | keyword k => exact List.mem_append_right _ (List.mem_map_of_mem k.mem_all)
  | _ => exact List.mem_append_left _ (List.mem_append_left _ (by decide))

/-- What is said of the inside of a nonterminal and of its last phrase holds of its phrases. -/
def Nonterminal.told (phrase : Nonterminal) : Bool :=
  (phrase.exprLabel?.isNone || (grammar phrase).meets) &&
    (!(grammar phrase).endsInExpr || (Pattern.call phrase).endsInExpr) && (grammar phrase).parts

theorem grammar_told : [Nonterminal.expr, .multOperand, .fmtSpec, .outputItem, .inputItem,
    .dataStmtObject, .actionStmt, .executableConstruct].all (·.told) ∧
      Grammar.program.parts ∧ Grammar.loneName.parts := by
  decide +kernel

theorem Nonterminal.told_all (phrase : Nonterminal) : phrase.told :=
  List.all_eq_true.1 grammar_told.1 phrase (by cases phrase <;> decide)

section Told

variable (phrase : Nonterminal)

theorem told_firsts : ∀ k ∈ (grammar phrase).firsts, k ∈ phrase.firsts := by
  cases phrase with
  | fmtSpec | outputItem => exact fun k _ => k.mem_all
  | expr | multOperand => decide +kernel
  | inputItem | dataStmtObject | actionStmt | executableConstruct =>
    -- These can start with any token but a number with a point.
    refine fun k hk => List.mem_filter.2 ⟨k.mem_all, ?_⟩
    rw [bne_iff_ne]
    rintro rfl
    revert hk
    decide +kernel

theorem told_lasts : ∀ k ∈ (grammar phrase).lasts, k ∈ phrase.lasts := by
  cases phrase with
  | expr | multOperand => decide +kernel
  | _ => exact fun k _ => k.mem_all

theorem told_meets (h : phrase.exprLabel?.isSome) : (grammar phrase).meets := by
  have htold := phrase.told_all
  simp only [Nonterminal.told, Bool.and_eq_true, Bool.or_eq_true] at htold
  exact htold.1.1.resolve_left fun hnone => by
    rw [Option.isNone_iff_eq_none.1 hnone] at h
    cases h

theorem told_endsInExpr (h : (grammar phrase).endsInExpr) : (Pattern.call phrase).endsInExpr := by
  have htold := phrase.told_all
  simp only [Nonterminal.told, Bool.and_eq_true, Bool.or_eq_true] at htold
  exact htold.1.2.resolve_left (by rw [h]; decide)

theorem told_parts : (grammar phrase).parts :=
  (Bool.and_eq_true_iff.1 phrase.told_all).2

end Told

/-! ## What is derived -/

section Derived

variable {p : Pattern} {ns : List Node}

theorem derives_ne_nil (h : Derives grammar p ns) (hp : p.moves true) : Node.lexemesOf ns ≠ [] := by
  obtain ⟨lx, hlx⟩ := Option.isSome_iff_exists.1 (derives_moves h true hp)
  have hmem : lx ∈ (Node.inner 0 .expr ns).lexemes := firstLexeme?_mem (n := .inner 0 .expr ns) hlx
  exact List.ne_nil_of_mem hmem

/-- What a token pattern takes is of the kinds that it starts and ends with. -/
theorem accepts_kind {lx : Lexeme} (h : TreeMatch.accepts? p lx = some true) :
    lx.kind ∈ p.firsts ∧ lx.kind ∈ p.lasts := by
  cases p with
  | word =>
    have hname := TreeMatch.kind_of_isName (by simpa [TreeMatch.accepts?] using h)
    simpa [Pattern.firsts, Pattern.lasts] using hname
  | any => exact ⟨Kind.mem_all _, Kind.mem_all _⟩
  | _ => simp_all [TreeMatch.accepts?, Pattern.firsts, Pattern.lasts]

/-- The tokens of one node are those of what it is made around. -/
theorem lexemesOf_node (i : Nat) (l : Label) (ns : List Node) :
    Node.lexemesOf [.inner i l ns] = Node.lexemesOf ns ∧
      Node.lexemesOf [(Node.inner i l ns).collapse] = Node.lexemesOf ns := by
  simp [Node.lexemesOf, lexemes_collapse, Node.lexemes]

theorem derives_firsts (h : Derives grammar p ns) :
    ∀ lx ∈ (Node.lexemesOf ns).head?, lx.kind ∈ p.firsts := by
  induction h with
  | take i h =>
    rintro lx ⟨⟩
    exact (accepts_kind h).1
  | check | star_end | opt_none | while_end => simp [Node.lexemesOf]
  | branch_yes _ ih | alt_first _ ih => exact fun lx hlx => List.mem_append_left _ (ih lx hlx)
  | branch_no _ ih | alt_second _ ih => exact fun lx hlx => List.mem_append_right _ (ih lx hlx)
  | @seq p₁ p₂ ms ks h₁ _ ih₁ ih₂ =>
    intro lx hlx
    rw [lexemesOf_append, List.head?_append] at hlx
    rw [Pattern.firsts, List.mem_append]
    cases hms : Node.lexemesOf ms with
    | nil =>
      have hempty : p₁.moves true = false := Bool.eq_false_iff.2 fun hmoves => derives_ne_nil h₁ hmoves hms
      rw [hms] at hlx
      simpa [hempty] using .inr (ih₂ lx hlx)
    | cons a w =>
      rw [hms] at hlx ih₁
      exact .inl (ih₁ lx hlx)
  | @star_more _ ms _ _ _ ih₁ ih₂ | @while_more _ _ ms _ _ _ ih₁ ih₂ =>
    intro lx hlx
    rw [lexemesOf_append, List.head?_append] at hlx
    cases hms : Node.lexemesOf ms with
    | nil =>
      rw [hms] at hlx
      exact ih₂ lx hlx
    | cons a w =>
      rw [hms] at hlx ih₁
      exact ih₁ lx hlx
  | opt _ ih | attempt _ ih => exact ih
  | call _ ih => exact fun lx hlx => (told_firsts _) _ (ih lx hlx)
  | node i l _ ih =>
    rw [(lexemesOf_node i l _).1]
    exact ih
  | level i l _ ih =>
    rw [(lexemesOf_node i l _).2]
    exact ih

theorem derives_lasts (h : Derives grammar p ns) :
    ∀ lx ∈ (Node.lexemesOf ns).getLast?, lx.kind ∈ p.lasts := by
  induction h with
  | take i h =>
    rintro lx ⟨⟩
    exact (accepts_kind h).2
  | check | star_end | opt_none | while_end => simp [Node.lexemesOf]
  | branch_yes _ ih | alt_first _ ih => exact fun lx hlx => List.mem_append_left _ (ih lx hlx)
  | branch_no _ ih | alt_second _ ih => exact fun lx hlx => List.mem_append_right _ (ih lx hlx)
  | @seq p₁ p₂ ms ks _ h₂ ih₁ ih₂ =>
    intro lx hlx
    rw [lexemesOf_append, List.getLast?_append] at hlx
    rw [Pattern.lasts, List.mem_append]
    cases hks : (Node.lexemesOf ks).getLast? with
    | none =>
      have hempty : p₂.moves true = false :=
        Bool.eq_false_iff.2 fun hmoves => derives_ne_nil h₂ hmoves (List.getLast?_eq_none_iff.1 hks)
      rw [hks] at hlx
      simpa [hempty] using .inr (ih₁ lx hlx)
    | some a =>
      rw [hks] at hlx ih₂
      exact .inl (ih₂ lx hlx)
  | @star_more _ _ ks _ _ ih₁ ih₂ | @while_more _ _ _ ks _ _ ih₁ ih₂ =>
    intro lx hlx
    rw [lexemesOf_append, List.getLast?_append] at hlx
    cases hks : (Node.lexemesOf ks).getLast? with
    | none =>
      rw [hks] at hlx
      exact ih₁ lx hlx
    | some a =>
      rw [hks] at hlx ih₂
      exact ih₂ lx hlx
  | opt _ ih | attempt _ ih => exact ih
  | call _ ih => exact fun lx hlx => (told_lasts _) _ (ih lx hlx)
  | node i l _ ih =>
    rw [(lexemesOf_node i l _).1]
    exact ih
  | level i l _ ih =>
    rw [(lexemesOf_node i l _).2]
    exact ih

end Derived

/-! ## Inside an expression -/

theorem meets_append {p₁ p₂ : Pattern} {ms ks : List Node}
    (hall : p₁.lasts.all fun a => p₂.firsts.all a.meets)
    (hlast : ∀ lx ∈ (Node.lexemesOf ms).getLast?, lx.kind ∈ p₁.lasts)
    (hfirst : ∀ lx ∈ (Node.lexemesOf ks).head?, lx.kind ∈ p₂.firsts)
    (hms : (Node.lexemesOf ms).IsChain fun a b => a.kind.meets b.kind)
    (hks : (Node.lexemesOf ks).IsChain fun a b => a.kind.meets b.kind) :
    (Node.lexemesOf (ms ++ ks)).IsChain fun a b => a.kind.meets b.kind := by
  rw [lexemesOf_append]
  exact hms.append hks fun a ha b hb =>
    List.all_eq_true.1 (List.all_eq_true.1 hall _ (hlast a ha)) _ (hfirst b hb)

theorem derives_meets {p : Pattern} {ns : List Node} (h : Derives grammar p ns) : p.meets →
    (Node.lexemesOf ns).IsChain fun a b => a.kind.meets b.kind := by
  induction h with
  | take => exact fun _ => .singleton _
  | check | star_end | opt_none | while_end => exact fun _ => .nil
  | branch_yes _ ih | alt_first _ ih => exact fun hp => ih (Bool.and_eq_true_iff.1 hp).1
  | branch_no _ ih | alt_second _ ih => exact fun hp => ih (Bool.and_eq_true_iff.1 hp).2
  | seq h₁ h₂ ih₁ ih₂ =>
    intro hp
    simp only [Pattern.meets, Bool.and_eq_true] at hp
    exact meets_append hp.2 (derives_lasts h₁) (derives_firsts h₂) (ih₁ hp.1.1) (ih₂ hp.1.2)
  | star_more h₁ h₂ ih₁ ih₂ | while_more h₁ h₂ ih₁ ih₂ =>
    intro hp
    have hfirst := derives_firsts h₂
    simp only [Pattern.firsts] at hfirst
    exact meets_append (Bool.and_eq_true_iff.1 hp).2 (derives_lasts h₁) hfirst
      (ih₁ (Bool.and_eq_true_iff.1 hp).1) (ih₂ hp)
  | opt _ ih | attempt _ ih => exact ih
  | call _ ih => exact fun hp => ih (told_meets _ hp)
  | node i l _ ih =>
    rw [(lexemesOf_node i l _).1]
    exact ih
  | level i l _ ih =>
    rw [(lexemesOf_node i l _).2]
    exact ih

/-! ## Behind an expression -/

/-- The node stands among others with no number with a point right behind it. It can stand at their end
only as the flag tells. -/
def Parted (n : Node) (atEnd : Bool) (ns : List Node) : Prop :=
  ∃ front rest, Node.lexemesOf ns = front ++ n.lexemes ++ rest ∧
    (∀ lx ∈ rest.head?, lx.kind ≠ .realConst) ∧ (rest = [] → atEnd)

section Parted

variable {n : Node} {ms ks : List Node} {atEnd : Bool}

theorem Parted.behind (h : Parted n atEnd ks) (ms : List Node) : Parted n atEnd (ms ++ ks) := by
  obtain ⟨front, rest, hks, hrest⟩ := h
  exact ⟨Node.lexemesOf ms ++ front, rest, by simp [lexemesOf_append, hks], hrest⟩

theorem Parted.before {p₁ p₂ : Pattern} (h : Parted n p₁.endsInExpr ms)
    (hparts : !(p₁.endsInExpr && p₂.firsts.contains .realConst))
    (hfirst : ∀ lx ∈ (Node.lexemesOf ks).head?, lx.kind ∈ p₂.firsts)
    (hend : Node.lexemesOf ks = [] → p₁.endsInExpr → atEnd) : Parted n atEnd (ms ++ ks) := by
  obtain ⟨front, rest, hms, hhead, hrest⟩ := h
  refine ⟨front, rest ++ Node.lexemesOf ks, by simp [lexemesOf_append, hms], ?_, fun hnil => ?_⟩
  · cases rest with
    | nil =>
      intro lx hlx hkind
      have hmem := hfirst lx hlx
      rw [hkind] at hmem
      simp [hrest rfl, hmem] at hparts
    | cons a w => exact hhead
  · obtain ⟨rfl, hks⟩ := List.append_eq_nil_iff.1 hnil
    exact hend hks (hrest rfl)

theorem derives_parted {p : Pattern} {ns : List Node} (h : Derives grammar p ns) : p.parts →
    ∀ n ∈ Node.nodesOf ns, n.hasLabel .expr → Parted n p.endsInExpr ns := by
  have hsplit : ∀ {ms ks : List Node} {m : Node}, m ∈ Node.nodesOf (ms ++ ks) →
      m ∈ Node.nodesOf ms ∨ m ∈ Node.nodesOf ks := by
    intro ms ks m hm
    simpa [nodesOf_map] using hm
  have hinner : ∀ {body : Pattern} (i : Nat) (l : Label) (ns : List Node),
      (∀ n ∈ Node.nodesOf ns, n.hasLabel .expr → Parted n body.endsInExpr ns) →
      ∀ n ∈ Node.nodesOf [.inner i l ns], n.hasLabel .expr →
        Parted n (l == .expr || body.endsInExpr) [.inner i l ns] := by
    intro body i l ns h n hn hl
    simp only [Node.nodesOf, Node.nodes, List.append_nil, List.mem_cons] at hn
    rcases hn with rfl | hn
    · have hexpr : l = .expr := by simpa [Node.hasLabel, Node.label?] using hl
      exact ⟨[], [], by simp [Node.lexemesOf], by simp, fun _ => by simp [hexpr]⟩
    · obtain ⟨front, rest, hns, hhead, hrest⟩ := h n hn hl
      rw [← (lexemesOf_node i l ns).1] at hns
      exact ⟨front, rest, hns, hhead, fun h => by simp [hrest h]⟩
  induction h with
  | take i h =>
    intro _ n hn hl
    obtain rfl : n = _ := by simpa [Node.nodesOf, Node.nodes] using hn
    cases hl
  | check | star_end | opt_none | while_end =>
    intro _ n hn
    simp [Node.nodesOf] at hn
  | branch_yes _ ih | alt_first _ ih =>
    intro hp n hn hl
    obtain ⟨front, rest, hns, hhead, hrest⟩ := ih (Bool.and_eq_true_iff.1 hp).1 n hn hl
    exact ⟨front, rest, hns, hhead, fun h => by simp [Pattern.endsInExpr, hrest h]⟩
  | branch_no _ ih | alt_second _ ih =>
    intro hp n hn hl
    obtain ⟨front, rest, hns, hhead, hrest⟩ := ih (Bool.and_eq_true_iff.1 hp).2 n hn hl
    exact ⟨front, rest, hns, hhead, fun h => by simp [Pattern.endsInExpr, hrest h]⟩
  | @seq p₁ p₂ ms ks h₁ h₂ ih₁ ih₂ =>
    intro hp n hn hl
    simp only [Pattern.parts, Bool.and_eq_true] at hp
    rcases hsplit hn with hn | hn
    · refine (ih₁ hp.1.1 n hn hl).before hp.2 (derives_firsts h₂) fun hnil hends => ?_
      have hempty : p₂.moves true = false := Bool.eq_false_iff.2 fun hmoves => derives_ne_nil h₂ hmoves hnil
      simp [Pattern.endsInExpr, hempty, hends]
    · obtain ⟨front, rest, hks, hhead, hrest⟩ := ih₂ hp.1.2 n hn hl
      exact Parted.behind ⟨front, rest, hks, hhead, fun h => by simp [Pattern.endsInExpr, hrest h]⟩ ms
  | star_more h₁ h₂ ih₁ ih₂ | while_more h₁ h₂ ih₁ ih₂ =>
    intro hp n hn hl
    rcases hsplit hn with hn | hn
    · have hfirst := derives_firsts h₂
      simp only [Pattern.firsts] at hfirst
      exact (ih₁ (Bool.and_eq_true_iff.1 hp).1 n hn hl).before (Bool.and_eq_true_iff.1 hp).2 hfirst
        fun _ hends => hends
    · exact (ih₂ hp n hn hl).behind _
  | opt _ ih | attempt _ ih => exact ih
  | call _ ih =>
    intro _ n hn hl
    obtain ⟨front, rest, hns, hhead, hrest⟩ := ih (told_parts _) n hn hl
    exact ⟨front, rest, hns, hhead, fun h => told_endsInExpr _ (hrest h)⟩
  | @node body ns i l _ ih => exact fun hp => hinner i l ns (ih hp)
  | @level body ns i l _ ih =>
    intro hp n hn hl
    rcases Node.collapse_cases i l ns with heq | heq
    · rw [heq] at hn ⊢
      exact hinner i l ns (ih hp) n hn hl
    · rw [← heq] at hn ⊢
      obtain ⟨front, rest, hns, hhead, hrest⟩ := ih hp n hn hl
      exact ⟨front, rest, hns, hhead, fun h => by simp [Pattern.endsInExpr, hrest h]⟩

end Parted

/-! ## Parsed trees -/

section Parsed

variable {name source : String} {p q : Parser} {root n : Node}
  (hp : Parser.start? name (scan source) = some p) (hq : p.parse = .ok (.ok root, q))
  (hn : n ∈ root.nodes) (hlabel : n.hasLabel .expr)

include hp hq hn hlabel

/-- The tokens of an expression stand in the source one behind the other, and right behind them no number
with a point. -/
theorem parse_parted : ∃ front rest, scan source = front ++ n.lexemes ++ rest ∧
    ∀ lx ∈ rest.head?, lx.kind ≠ .realConst := by
  obtain ⟨entry, hentry, hderives⟩ := Parser.parse_derives (Parser.start_sound hp) hq
  have hparts : entry.parts := by
    rcases List.mem_cons.1 hentry with rfl | hentry
    · exact grammar_told.2.1
    · obtain rfl := List.mem_singleton.1 hentry
      exact grammar_told.2.2
  obtain ⟨front, rest, hroot, hhead, -⟩ :=
    derives_parted hderives hparts n (mem_nodesOf.2 ⟨root, by simp, hn⟩) hlabel
  refine ⟨front, rest, ?_, hhead⟩
  rw [← parse_lexemes hp hq, ← hroot]
  simp [Node.lexemesOf]

end Parsed

end FortranJulia
