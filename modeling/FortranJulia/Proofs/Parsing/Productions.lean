import FortranJulia.Proofs.Parsing.Derivation

/-!
The grammar of expressions, as productions without an order of choice, and its derivation trees.
A match of an expression that succeeds gives the derivation tree of the tokens it has taken, less the
levels that hold nothing but another phrase.
-/

namespace FortranJulia

set_option autoImplicit false

/-! ## Productions -/

/-- The right side of a production. -/
inductive Bnf where
  /-- One token of any of these kinds. -/
  | token (kinds : List Kind)
  /-- A name, or a descriptor without a point. -/
  | name
  | phrase (label : Label)
  | seq (first second : Bnf)
  | alt (first second : Bnf)
  | many (body : Bnf)
  | opt (body : Bnf)
  deriving DecidableEq

namespace Bnf

def relations : List Kind := [.eqOp, .neOp, .ltOp, .leOp, .gtOp, .geOp]

def production : Label → Bnf
  | .expr => .seq (.phrase .orOperand) (.many (.phrase .orOp))
  | .orOp => .seq (.token [.orOp]) (.phrase .orOperand)
  | .orOperand => .seq (.phrase .andOperand) (.many (.phrase .andOp))
  | .andOp => .seq (.token [.andOp]) (.phrase .andOperand)
  | .andOperand => .seq (.many (.token [.notOp])) (.phrase .level4Expr)
  | .level4Expr => .seq (.phrase .level3Expr) (.opt (.phrase .relOp))
  | .relOp => .seq (.token relations) (.phrase .level3Expr)
  | .level3Expr => .seq (.phrase .level2Expr) (.many (.phrase .concatOp))
  | .concatOp => .seq (.token [.slash]) (.seq (.token [.slash]) (.phrase .level2Expr))
  | .level2Expr =>
    .seq (.opt (.phrase .sign)) (.seq (.phrase .addOperand) (.many (.phrase .addOp)))
  | .addOp => .seq (.token [.plus, .minus]) (.phrase .addOperand)
  | .sign => .token [.plus, .minus]
  | .addOperand => .seq (.phrase .multOperand) (.many (.phrase .multOp))
  | .multOp => .seq (.token [.star, .slash]) (.phrase .multOperand)
  | .multOperand => .seq (.phrase .primary) (.opt (.phrase .powerOp))
  | .powerOp => .seq (.token [.starStar]) (.seq (.opt (.phrase .sign)) (.phrase .multOperand))
  | .primary =>
    .alt (.phrase .unsignedArithmeticConstant) <| .alt (.phrase .functionReference) <|
    .alt (.phrase .nameDataRef) <|
    .alt (.seq (.token [.lparen]) (.seq (.phrase .expr) (.token [.rparen]))) <|
    .alt (.token [.charConst]) <| .alt (.phrase .logicalConstant) <|
    .token [.hollerithConst, .binaryConst, .octalConst, .hexConst]
  | .unsignedArithmeticConstant => .alt (.phrase .complexConst) (.token [.realConst, .integerConst])
  | .complexConst =>
    .seq (.token [.lparen]) <| .seq (.phrase .complexComponent) <| .seq (.token [.comma]) <|
    .seq (.phrase .complexComponent) (.token [.rparen])
  | .complexComponent => .seq (.opt (.phrase .sign)) (.token [.integerConst, .realConst])
  | .logicalConstant => .token [.trueConst, .falseConst]
  | .functionReference => .seq (.phrase .refName) (.seq (.token [.lparen]) (.token [.rparen]))
  | .refName => .name
  | .nameDataRef => .seq (.phrase .refName) (.many (.phrase .complexDataRefTail))
  | .complexDataRefTail =>
    .seq (.token [.lparen]) (.seq (.phrase .sectionSubscriptList) (.token [.rparen]))
  | .sectionSubscriptList =>
    .seq (.phrase .sectionSubscript) (.many (.seq (.token [.comma]) (.phrase .sectionSubscript)))
  | .sectionSubscript =>
    .alt (.seq (.phrase .expr) (.opt (.seq (.token [.colon]) (.opt (.phrase .expr))))) <|
    .alt (.seq (.token [.colon]) (.opt (.phrase .expr))) <|
    .seq (.token [.star]) (.phrase .lblRef)
  | .lblRef => .token [.integerConst]
  | _ => .token []

/-- The phrases that give way to their only child if that is a phrase. -/
def levels : List Label :=
  [.orOperand, .andOperand, .level4Expr, .level3Expr, .level2Expr, .addOperand, .multOperand]

/-! ## Derivation trees -/

inductive Tree where
  | leaf (lexeme : Lexeme)
  | inner (label : Label) (children : List Tree)

/-- The trees are what a right side makes of the lexemes. -/
inductive Gives : Bnf → List Lexeme → List Tree → Prop where
  | token {ks : List Kind} {lx : Lexeme} (h : lx.kind ∈ ks) : Gives (.token ks) [lx] [.leaf lx]
  | name {lx : Lexeme} (h : Match.isName lx) : Gives .name [lx] [.leaf lx]
  | phrase {w : List Lexeme} {ts : List Tree} (l : Label) (h : Gives (production l) w ts) :
      Gives (.phrase l) w [.inner l ts]
  | seq {a b : Bnf} {w v : List Lexeme} {ts us : List Tree} (h₁ : Gives a w ts)
      (h₂ : Gives b v us) : Gives (.seq a b) (w ++ v) (ts ++ us)
  | alt_first {a b : Bnf} {w : List Lexeme} {ts : List Tree} (h : Gives a w ts) :
      Gives (.alt a b) w ts
  | alt_second {a b : Bnf} {w : List Lexeme} {ts : List Tree} (h : Gives b w ts) :
      Gives (.alt a b) w ts
  | many_end (a : Bnf) : Gives (.many a) [] []
  | many_more {a : Bnf} {w v : List Lexeme} {ts us : List Tree} (h₁ : Gives a w ts)
      (h₂ : Gives (.many a) v us) : Gives (.many a) (w ++ v) (ts ++ us)
  | opt_none (a : Bnf) : Gives (.opt a) [] []
  | opt {a : Bnf} {w : List Lexeme} {ts : List Tree} (h : Gives a w ts) : Gives (.opt a) w ts

/-- `tree` is a derivation tree of the lexemes for a phrase. -/
def Tree.IsDerivation (l : Label) (w : List Lexeme) (tree : Tree) : Prop :=
  Gives (.phrase l) w [tree]

/-- A level gives way to its only child if that is a phrase. -/
def Tree.giveWay (l : Label) : List Tree → Tree
  | [.inner m kids] => if l ∈ levels then .inner m kids else .inner l [.inner m kids]
  | kids => .inner l kids

mutual

/-- The tree with every level that has nothing but a phrase to hold left out. -/
def Tree.collapsed : Tree → Tree
  | .leaf lx => .leaf lx
  | .inner l kids => Tree.giveWay l (collapsedAll kids)

def Tree.collapsedAll : List Tree → List Tree
  | [] => []
  | t :: ts => t.collapsed :: collapsedAll ts

end

@[simp]
theorem Tree.collapsedAll_append (ts us : List Tree) :
    Tree.collapsedAll (ts ++ us) = Tree.collapsedAll ts ++ Tree.collapsedAll us := by
  induction ts with
  | nil => rfl
  | cons t ts ih => simp [Tree.collapsedAll, ih]

end Bnf

open Bnf (Tree)

mutual

/-- A node without the numbers of its nodes. -/
def Node.shape : Node → Tree
  | .leaf _ lx => .leaf lx
  | .inner _ l kids => .inner l (shapes kids)

def Node.shapes : List Node → List Tree
  | [] => []
  | n :: ns => n.shape :: shapes ns

end

@[simp]
theorem Node.shapes_append (ms ns : List Node) :
    Node.shapes (ms ++ ns) = Node.shapes ms ++ Node.shapes ns := by
  induction ms with
  | nil => rfl
  | cons m ms ih => simp [Node.shapes, ih]

theorem Node.shapes_eq_map (ns : List Node) : Node.shapes ns = ns.map Node.shape := by
  induction ns with
  | nil => rfl
  | cons n ns ih => rw [Node.shapes, List.map_cons, ih]

theorem Node.shape_collapse {l : Label} (hl : l ∈ Bnf.levels) (i : Nat) (kids : List Node) :
    (Node.inner i l kids).collapse.shape = Tree.giveWay l (Node.shapes kids) := by
  match kids with
  | [] => rfl
  | [.leaf j lx] => rfl
  | [.inner j m cs] => simp [Node.collapse, Node.shape, Node.shapes, Tree.giveWay, hl]
  | a :: b :: rest => simp [Node.collapse, Node.shape, Node.shapes, Tree.giveWay]

theorem Node.shape_inner {l : Label} (hl : l ∉ Bnf.levels) (i : Nat) (kids : List Node) :
    (Node.inner i l kids).shape = Tree.giveWay l (Node.shapes kids) := by
  match kids with
  | [] => rfl
  | [.leaf j lx] => rfl
  | [.inner j m cs] => simp [Node.shape, Node.shapes, Tree.giveWay, hl]
  | a :: b :: rest => simp [Node.shape, Node.shapes, Tree.giveWay]

/-! ## Patterns as right sides -/

/-- The phrase that a nonterminal of expressions stands for. -/
def Nonterminal.exprLabel? : Nonterminal → Option Label
  | .expr => some .expr
  | .multOperand => some .multOperand
  | _ => none

namespace Pattern

/-- What a pattern for expressions matches, without the order of its choices. -/
def bnf : Pattern → Bnf
  | .token k => .token [k]
  | .oneOf ks => .token ks
  | .word => .name
  | .seq p₁ p₂ => .seq p₁.bnf p₂.bnf
  | .alt p₁ p₂ => .alt p₁.bnf p₂.bnf
  | .star body => .many body.bnf
  | .opt body => .opt body.bnf
  | .attempt body => body.bnf
  | .node l _ | .level l _ => .phrase l
  | .call phrase => (phrase.exprLabel?.map .phrase).getD (.token [])
  | .any | .check _ | .branch _ _ _ | .whileDo _ _ => .token []

/-- Do the nodes of the pattern follow the productions of expressions? -/
def inExpr : Pattern → Bool
  | .token _ | .oneOf _ | .word => true
  | .seq p₁ p₂ | .alt p₁ p₂ => p₁.inExpr && p₂.inExpr
  | .star body | .opt body | .attempt body => body.inExpr
  | .node l body => Bnf.production l == body.bnf && !Bnf.levels.contains l && body.inExpr
  | .level l body => Bnf.production l == body.bnf && Bnf.levels.contains l && body.inExpr
  | .call phrase => phrase.exprLabel?.isSome
  | .any | .check _ | .branch _ _ _ | .whileDo _ _ => false

end Pattern

/-- The patterns for expressions have the productions of expressions. -/
theorem grammar_inExpr {phrase : Nonterminal} {l : Label} (h : phrase.exprLabel? = some l) :
    (grammar phrase).inExpr ∧ (grammar phrase).bnf = .phrase l := by
  cases phrase with
  | expr =>
    obtain rfl := Option.some.inj h
    exact ⟨by decide, rfl⟩
  | multOperand =>
    obtain rfl := Option.some.inj h
    exact ⟨by decide, rfl⟩
  | _ => cases h

/-- What a pattern for expressions makes of tokens is a derivation with its levels left out. -/
theorem derives_bnf {p : Pattern} {ns : List Node} (h : Derives grammar p ns) : p.inExpr →
    ∃ ts, Bnf.Gives p.bnf (Node.lexemesOf ns) ts ∧ Node.shapes ns = Tree.collapsedAll ts := by
  induction h with
  | @take p lx i h =>
    intro hp
    cases p with
    | token k => exact ⟨[.leaf lx], .token (by simpa [TreeMatch.accepts?] using h), rfl⟩
    | oneOf ks => exact ⟨[.leaf lx], .token (by simpa [TreeMatch.accepts?] using h), rfl⟩
    | word => exact ⟨[.leaf lx], .name (by simpa [TreeMatch.accepts?] using h), rfl⟩
    | any => simp [Pattern.inExpr] at hp
    | _ => simp [TreeMatch.accepts?] at h
  | @seq p₁ p₂ ms ns h₁ h₂ ih₁ ih₂ =>
    intro hp
    simp only [Pattern.inExpr, Bool.and_eq_true] at hp
    obtain ⟨ts, hts, hshape⟩ := ih₁ hp.1
    obtain ⟨us, hus, hshape'⟩ := ih₂ hp.2
    refine ⟨ts ++ us, ?_, by simp [hshape, hshape']⟩
    rw [lexemesOf_append]
    exact .seq hts hus
  | alt_first _ ih =>
    intro hp
    simp only [Pattern.inExpr, Bool.and_eq_true] at hp
    obtain ⟨ts, hts, hshape⟩ := ih hp.1
    exact ⟨ts, .alt_first hts, hshape⟩
  | alt_second _ ih =>
    intro hp
    simp only [Pattern.inExpr, Bool.and_eq_true] at hp
    obtain ⟨ts, hts, hshape⟩ := ih hp.2
    exact ⟨ts, .alt_second hts, hshape⟩
  | star_end body => exact fun _ => ⟨[], .many_end _, rfl⟩
  | @star_more body ms ns h₁ h₂ ih₁ ih₂ =>
    intro hp
    obtain ⟨ts, hts, hshape⟩ := ih₁ hp
    obtain ⟨us, hus, hshape'⟩ := ih₂ hp
    refine ⟨ts ++ us, ?_, by simp [hshape, hshape']⟩
    rw [lexemesOf_append]
    exact .many_more hts hus
  | opt_none body => exact fun _ => ⟨[], .opt_none _, rfl⟩
  | opt _ ih =>
    intro hp
    obtain ⟨ts, hts, hshape⟩ := ih hp
    exact ⟨ts, .opt hts, hshape⟩
  | attempt _ ih => exact ih
  | @node body ns i l _ ih =>
    intro hp
    simp only [Pattern.inExpr, Bool.and_eq_true, beq_iff_eq, Bool.not_eq_true',
      List.contains_eq_mem, decide_eq_false_iff_not] at hp
    obtain ⟨ts, hts, hshape⟩ := ih hp.2
    refine ⟨[.inner l ts], ?_, ?_⟩
    · rw [← hp.1.1] at hts
      simpa [Node.lexemesOf, lexemes_inner, Pattern.bnf] using Bnf.Gives.phrase l hts
    · simp only [Node.shapes, Tree.collapsedAll, Tree.collapsed]
      rw [Node.shape_inner hp.1.2, hshape]
  | @level body ns i l _ ih =>
    intro hp
    simp only [Pattern.inExpr, Bool.and_eq_true, beq_iff_eq, List.contains_eq_mem,
      decide_eq_true_eq] at hp
    obtain ⟨ts, hts, hshape⟩ := ih hp.2
    refine ⟨[.inner l ts], ?_, ?_⟩
    · rw [← hp.1.1] at hts
      simpa [Node.lexemesOf, lexemes_collapse, lexemes_inner, Pattern.bnf] using
        Bnf.Gives.phrase l hts
    · simp only [Node.shapes, Tree.collapsedAll, Tree.collapsed]
      rw [Node.shape_collapse hp.1.2, hshape]
  | @call phrase ns _ ih =>
    intro hp
    obtain ⟨l, hl⟩ := Option.isSome_iff_exists.1 hp
    obtain ⟨hin, hbnf⟩ := grammar_inExpr hl
    obtain ⟨ts, hts, hshape⟩ := ih hin
    refine ⟨ts, ?_, hshape⟩
    rw [hbnf] at hts
    simpa [Pattern.bnf, hl] using hts
  | _ => simp [Pattern.inExpr]

end FortranJulia
