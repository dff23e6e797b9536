import FortranJulia.Proofs.Parsing.Acceptance
import FortranJulia.Symbol.Scope
import FortranJulia.Tree.Expression

/-!
Logical expressions as the standard has them: names, constants and parentheses, negation,
conjunction, disjunction and, weakest of all, equivalence, which groups to the left. The grammar of
expressions reads an equivalence as a comparison, which binds more tightly than a negation and stands
alone. It has what the standard has where the operands of every equivalence are names, constants or
in parentheses.
-/

namespace FortranJulia

set_option autoImplicit false

open Bnf (Tree Gives production)

/-! ## Formulas -/

inductive Formula where
  /-- One of the two logical constants. -/
  | constant (lexeme : Lexeme)
  | name (lexeme : Lexeme)
  | group (body : Formula)
  | not (body : Formula)
  | and (left right : Formula)
  | or (left right : Formula)
  /-- An equivalence, or the negation of one. -/
  | equivalence (same : Bool) (left right : Formula)

namespace Formula

/-- The value of a formula. Names have their values by key. -/
def value (names : String → Bool) : Formula → Bool
  | .constant lx => lx.kind == .trueConst
  | .name lx => names (nameKey lx.text)
  | .group φ => φ.value names
  | .not φ => !φ.value names
  | .and φ ψ => φ.value names && ψ.value names
  | .or φ ψ => φ.value names || ψ.value names
  | .equivalence same φ ψ => (φ.value names == ψ.value names) == same

/-- The standard has the lexemes for a formula of a level. Equivalences are of level 0, disjunctions,
conjunctions and negations of the next ones, and operands of level 4. -/
inductive Written : Nat → Formula → List Lexeme → Prop where
  | constant {lx : Lexeme} (h : lx.kind ∈ [Kind.trueConst, .falseConst]) :
      Written 4 (.constant lx) [lx]
  | name {lx : Lexeme} (h : Match.isName lx) : Written 4 (.name lx) [lx]
  | group {φ : Formula} {w : List Lexeme} {opening closing : Lexeme} (ho : opening.kind = .lparen)
      (hc : closing.kind = .rparen) (h : Written 0 φ w) :
      Written 4 (.group φ) (opening :: (w ++ [closing]))
  | not {φ : Formula} {w : List Lexeme} {op : Lexeme} (hop : op.kind = .notOp) (h : Written 4 φ w) :
      Written 3 (.not φ) (op :: w)
  | and {φ ψ : Formula} {v w : List Lexeme} {op : Lexeme} (h : Written 2 φ v)
      (hop : op.kind = .andOp) (h' : Written 3 ψ w) : Written 2 (.and φ ψ) (v ++ op :: w)
  | or {φ ψ : Formula} {v w : List Lexeme} {op : Lexeme} (h : Written 1 φ v)
      (hop : op.kind = .orOp) (h' : Written 2 ψ w) : Written 1 (.or φ ψ) (v ++ op :: w)
  | equivalence {same : Bool} {φ ψ : Formula} {v w : List Lexeme} {op : Lexeme} (h : Written 0 φ v)
      (hop : op.kind = if same then .eqOp else .neOp) (h' : Written 1 ψ w) :
      Written 0 (.equivalence same φ ψ) (v ++ op :: w)
  | lift {k : Nat} {φ : Formula} {w : List Lexeme} (h : Written (k + 1) φ w) : Written k φ w

/-- The grammar of expressions has the lexemes for a formula of a level, counted as the levels of
expressions are. -/
inductive Accepted : Nat → Formula → List Lexeme → Prop where
  | constant {lx : Lexeme} (h : lx.kind ∈ [Kind.trueConst, .falseConst]) :
      Accepted 8 (.constant lx) [lx]
  | name {lx : Lexeme} (h : Match.isName lx) : Accepted 8 (.name lx) [lx]
  | group {φ : Formula} {w : List Lexeme} {opening closing : Lexeme} (ho : opening.kind = .lparen)
      (hc : closing.kind = .rparen) (h : Accepted 0 φ w) :
      Accepted 8 (.group φ) (opening :: (w ++ [closing]))
  | equivalence {same : Bool} {φ ψ : Formula} {v w : List Lexeme} {op : Lexeme}
      (h : Accepted 4 φ v) (hop : op.kind = if same then .eqOp else .neOp) (h' : Accepted 4 ψ w) :
      Accepted 3 (.equivalence same φ ψ) (v ++ op :: w)
  | not {φ : Formula} {w : List Lexeme} {op : Lexeme} (hop : op.kind = .notOp)
      (h : Accepted 3 φ w) : Accepted 2 (.not φ) (op :: w)
  | and {φ ψ : Formula} {v w : List Lexeme} {op : Lexeme} (h : Accepted 1 φ v)
      (hop : op.kind = .andOp) (h' : Accepted 2 ψ w) : Accepted 1 (.and φ ψ) (v ++ op :: w)
  | or {φ ψ : Formula} {v w : List Lexeme} {op : Lexeme} (h : Accepted 0 φ v)
      (hop : op.kind = .orOp) (h' : Accepted 1 ψ w) : Accepted 0 (.or φ ψ) (v ++ op :: w)
  | lift {k : Nat} {φ : Formula} {w : List Lexeme} (h : Accepted (k + 1) φ w) : Accepted k φ w

theorem Accepted.weaker {i j : Nat} {φ : Formula} {w : List Lexeme} (h : Accepted j φ w)
    (hij : i ≤ j) : Accepted i φ w := by
  induction hij with
  | refl => exact h
  | step _ ih => exact ih (.lift h)

/-- A name, a constant or a formula in parentheses. -/
def isOperand : Formula → Bool
  | .constant _ | .name _ | .group _ => true
  | _ => false

/-- Are the operands of every equivalence names, constants or in parentheses? -/
def apart : Formula → Bool
  | .constant _ | .name _ => true
  | .group φ | .not φ => φ.apart
  | .and φ ψ | .or φ ψ => φ.apart && ψ.apart
  | .equivalence _ φ ψ => (φ.isOperand && φ.apart) && (ψ.isOperand && ψ.apart)

/-- The level in the grammar of expressions of a level of the standard. -/
def expressionLevel : Nat → Nat
  | 0 | 1 => 0
  | 2 => 1
  | 3 => 2
  | _ => 8

theorem expressionLevel_le (k : Nat) : expressionLevel k ≤ expressionLevel (k + 1) := by
  match k with
  | 0 | 1 | 2 | 3 => decide
  | _ + 4 => exact Nat.le_refl 8

/-- The grammar has every formula of the standard of which the equivalences are apart. -/
theorem Written.accepted {k : Nat} {φ : Formula} {w : List Lexeme} (h : Written k φ w) :
    φ.apart → Accepted (expressionLevel k) φ w ∧ (φ.isOperand → Accepted 8 φ w) := by
  induction h with
  | constant h => exact fun _ => ⟨.constant h, fun _ => .constant h⟩
  | name h => exact fun _ => ⟨.name h, fun _ => .name h⟩
  | group ho hc _ ih =>
    exact fun ha => ⟨.group ho hc (ih ha).1, fun _ => .group ho hc (ih ha).1⟩
  | not hop _ ih =>
    exact fun ha => ⟨.not hop ((ih ha).1.weaker (by decide)), fun hno => absurd hno Bool.false_ne_true⟩
  | and _ hop _ ih ih' =>
    intro ha
    obtain ⟨ha, ha'⟩ := Bool.and_eq_true_iff.1 ha
    exact ⟨.and (ih ha).1 hop (ih' ha').1, fun hno => absurd hno Bool.false_ne_true⟩
  | or _ hop _ ih ih' =>
    intro ha
    obtain ⟨ha, ha'⟩ := Bool.and_eq_true_iff.1 ha
    exact ⟨.or (ih ha).1 hop (ih' ha').1, fun hno => absurd hno Bool.false_ne_true⟩
  | equivalence _ hop _ ih ih' =>
    intro ha
    simp only [apart, Bool.and_eq_true] at ha
    obtain ⟨⟨hoperand, ha⟩, hoperand', ha'⟩ := ha
    -- Of the level of comparisons, so that the operands have to bind more tightly.
    have hcomparison := Accepted.equivalence (((ih ha).2 hoperand).weaker (by decide)) hop
      (((ih' ha').2 hoperand').weaker (by decide))
    exact ⟨hcomparison.weaker (by decide), fun hno => absurd hno Bool.false_ne_true⟩
  | @lift k _ _ _ ih =>
    exact fun ha => ⟨(ih ha).1.weaker (expressionLevel_le k), (ih ha).2⟩

/-- The expression that a formula stands for. -/
def expression : Formula → Expression
  | .constant lx => .constant lx
  | .name lx => .reference lx []
  | .group φ => .group φ.expression
  | .not φ => .negated 1 φ.expression
  | .and φ ψ => .binary .and φ.expression ψ.expression
  | .or φ ψ => .binary .or φ.expression ψ.expression
  | .equivalence same φ ψ => .binary (if same then .eq else .ne) φ.expression ψ.expression

end Formula

/-! ## Parts of trees -/

namespace Bnf.Tree

mutual

/-- What a tree contributes to the expression around it. -/
def part : Tree → Part
  | .leaf lx => .token lx
  | .inner l kids => Part.ofInner l (parts kids)

def parts : List Tree → List Part
  | [] => []
  | t :: ts => t.part :: parts ts

end

theorem parts_append (ts us : List Tree) : parts (ts ++ us) = parts ts ++ parts us := by
  induction ts with
  | nil => rfl
  | cons t ts ih => rw [List.cons_append, parts, parts, ih, List.cons_append]

end Bnf.Tree

open Bnf.Tree (part parts parts_append)

mutual

theorem part_shape : ∀ n : Node, n.shape.part = Part.ofNode n
  | .leaf _ _ => by rw [Node.shape, part, Part.ofNode]
  | .inner _ _ kids => by rw [Node.shape, part, Part.ofNode, parts_shapes kids]

theorem parts_shapes : ∀ ns : List Node, parts (Node.shapes ns) = Part.ofNodes ns
  | [] => by rw [Node.shapes, parts, Part.ofNodes]
  | n :: ns => by rw [Node.shapes, parts, Part.ofNodes, part_shape n, parts_shapes ns]

end

/-- The expression of a node can be read off its shape. -/
theorem expression?_of_shape {n : Node} {e : Expression} (h : n.shape.part = .expr e) :
    n.expression? = some e := by
  rw [Node.expression?, ← part_shape, h]

/-! ## Operations in a row -/

theorem applyAll_append (op : BinaryOp) (r : Expression) (ps : List Part) : ∀ {e e' : Expression},
    Part.applyAll e ps = .expr e' →
      Part.applyAll e (ps ++ [.operation op r]) = .expr (.binary op e' r) := by
  induction ps with
  | nil =>
    intro e e' h
    cases h
    rfl
  | cons p ps ih =>
    intro e e' h
    cases p with
    | operation op' r' => exact ih h
    | _ => cases h

/-- One more operation behind a row of them. -/
theorem chain_append {op : BinaryOp} {r e : Expression} {ps : List Part}
    (h : Part.chain ps = .expr e) :
    Part.chain (ps ++ [.operation op r]) = .expr (.binary op e r) := by
  cases ps with
  | nil => cases h
  | cons p ps =>
    cases p with
    | expr e₁ => exact applyAll_append op r ps h
    | sign =>
      cases ps with
      | nil => cases h
      | cons q ps =>
        cases q with
        | expr e₁ => exact applyAll_append op r ps h
        | _ => cases h
    | _ => cases h

theorem chain_single {p : Part} {e : Expression} (h : Part.chain [p] = .expr e) : p = .expr e := by
  cases p with
  | expr => exact h
  | _ => cases h

/-- One more of what may be repeated. -/
theorem Bnf.Gives.many_append {a : Bnf} {w v : List Lexeme} {ts us : List Tree}
    (h : Gives (.many a) w ts) (h' : Gives a v us) : Gives (.many a) (w ++ v) (ts ++ us) := by
  generalize hmany : Bnf.many a = b at h
  induction h with
  | many_end =>
    cases hmany
    simpa using Gives.many_more h' (.many_end _)
  | many_more h₁ _ _ ih =>
    cases hmany
    rw [List.append_assoc, List.append_assoc]
    exact .many_more h₁ (ih rfl)
  | _ => cases hmany

/-! ## Phrases that hold expressions -/

/-- The lexemes are derived for a phrase, and the tree without its idle levels holds an expression. -/
def Parses (l : Label) (w : List Lexeme) (e : Expression) : Prop :=
  ∃ tree : Tree, tree.IsDerivation l w ∧
    ∃ m kids, tree.collapsed = .inner m kids ∧ Part.ofInner m (parts kids) = .expr e

/-- The lexemes are derived for a phrase that is a row of operations. -/
def Chains (l : Label) (w : List Lexeme) (e : Expression) : Prop :=
  ∃ ts : List Tree, Gives (production l) w ts ∧ Part.chain (parts (Tree.collapsedAll ts)) = .expr e ∧
    ∃ m kids rest, Tree.collapsedAll ts = .inner m kids :: rest

section Phrases

variable {l m : Label} {v w : List Lexeme} {op : Lexeme} {e r : Expression}

theorem parses_chain (h : Chains l w e) (hchain : ∀ ps, Part.ofInner l ps = Part.chain ps) :
    Parses l w e := by
  obtain ⟨ts, hts, hpart, m, kids, rest, hkids⟩ := h
  refine ⟨.inner l ts, .phrase l hts, ?_⟩
  rw [Tree.collapsed]
  rw [hkids] at hpart ⊢
  have hsame : Part.ofInner l (parts (.inner m kids :: rest)) = .expr e := by rw [hchain, hpart]
  cases rest with
  | nil =>
    rw [Tree.giveWay]
    split
    · exact ⟨m, kids, rfl, chain_single hpart⟩
    · exact ⟨l, _, rfl, hsame⟩
  | cons t rest => exact ⟨l, _, rfl, hsame⟩

/-- A level that holds nothing but a phrase. -/
theorem Parses.level (h : Parses m w e) (hl : l ∈ Bnf.levels)
    (hgives : ∀ ts, Gives (.phrase m) w ts → Gives (production l) w ts) : Parses l w e := by
  obtain ⟨tree, htree, n, kids, hcollapsed, hpart⟩ := h
  refine ⟨.inner l [tree], .phrase l (hgives _ htree), n, kids, ?_, hpart⟩
  rw [Tree.collapsed, Tree.collapsedAll, Tree.collapsedAll, hcollapsed, Tree.giveWay, if_pos hl]

/-- A row that holds a single phrase. -/
theorem Parses.chain (h : Parses m w e)
    (hgives : ∀ ts, Gives (.phrase m) w ts → Gives (production l) w ts) : Chains l w e := by
  obtain ⟨tree, htree, n, kids, hcollapsed, hpart⟩ := h
  refine ⟨[tree], hgives _ htree, ?_, n, kids, [], ?_⟩
  · rw [Tree.collapsedAll, Tree.collapsedAll, hcollapsed, parts, parts, part, hpart]
    rfl
  · rw [Tree.collapsedAll, Tree.collapsedAll, hcollapsed]

theorem gives_alone {a b : Bnf} {ts : List Tree} (h : Gives a w ts) :
    Gives (.seq a (.many b)) w ts := by
  simpa using Gives.seq h (.many_end b)

theorem gives_alone_opt {a b : Bnf} {ts : List Tree} (h : Gives a w ts) :
    Gives (.seq a (.opt b)) w ts := by
  simpa using Gives.seq h (.opt_none b)

theorem gives_behind_none {a b : Bnf} {ts : List Tree} (h : Gives b w ts) :
    Gives (.seq (.opt a) b) w ts :=
  .seq (.opt_none a) h

theorem parses_comparison {op' : BinaryOp} (hl : Parses .level3Expr v e)
    (hr : Parses .level3Expr w r) (hop : op.kind ∈ Bnf.relations)
    (hop' : BinaryOp.ofRelation? op.kind = some op') :
    Parses .level4Expr (v ++ op :: w) (.binary op' e r) := by
  obtain ⟨tree, htree, m, kids, hcollapsed, hpart⟩ := hl
  obtain ⟨tree', htree', m', kids', hcollapsed', hpart'⟩ := hr
  have hrel : Gives (.phrase .relOp) (op :: w) [.inner .relOp [.leaf op, tree']] :=
    .phrase .relOp (.seq (.token hop) htree')
  refine parses_chain ⟨[tree, .inner .relOp [.leaf op, tree']], .seq htree (.opt hrel), ?_⟩
    fun _ => rfl
  simp only [Tree.collapsedAll, Tree.collapsed, hcollapsed, hcollapsed', Tree.giveWay, parts, part,
    hpart, hpart']
  refine ⟨?_, m, kids, _, rfl⟩
  show Part.chain [.expr e, Part.operationOf (BinaryOp.ofRelation? op.kind) r] = _
  rw [hop']
  rfl

/-- One more operation in a row. -/
theorem Chains.append {b : Bnf} {oper operand : Label} {k : Kind} {op' : BinaryOp}
    (h : Chains l v e) (hl : production l = .seq b (.many (.phrase oper)))
    (hoper : production oper = .seq (.token [k]) (.phrase operand)) (hop : op.kind = k)
    (hpart : ∀ lx r, Part.ofInner oper [.token lx, .expr r] = .operation op' r)
    (hr : Parses operand w r) : Chains l (v ++ op :: w) (.binary op' e r) := by
  obtain ⟨ts, hts, hchain, m, kids, rest, hkids⟩ := h
  obtain ⟨tree, htree, n, kids', hcollapsed, hr'⟩ := hr
  rw [hl] at hts
  obtain ⟨w₁, w₂, ts₁, ts₂, rfl, rfl, h₁, h₂⟩ := TreeMatch.gives_both hts
  have htoken : Gives (.token [k]) [op] [.leaf op] := .token (List.mem_singleton.2 hop)
  have hoperation : Gives (.phrase oper) (op :: w) [.inner oper [.leaf op, tree]] := by
    refine .phrase oper ?_
    rw [hoper]
    exact .seq htoken htree
  have hgives : Gives (production l) (w₁ ++ w₂ ++ op :: w)
      (ts₁ ++ ts₂ ++ [.inner oper [.leaf op, tree]]) := by
    rw [hl, List.append_assoc, List.append_assoc]
    exact .seq h₁ (h₂.many_append hoperation)
  have hlast : Tree.collapsedAll [.inner oper [.leaf op, tree]] =
      [.inner oper [.leaf op, .inner n kids']] := by
    rw [Tree.collapsedAll, Tree.collapsedAll, Tree.collapsed, Tree.collapsedAll, Tree.collapsedAll,
      Tree.collapsedAll, Tree.collapsed, hcollapsed]
    rfl
  refine ⟨_, hgives, ?_, m, kids, rest ++ [.inner oper [.leaf op, .inner n kids']], ?_⟩
  · rw [Bnf.Tree.collapsedAll_append (ts₁ ++ ts₂), hlast, parts_append]
    have hthis : parts [.inner oper [.leaf op, .inner n kids']] = [.operation op' r] := by
      rw [parts, parts, part, parts, parts, parts, part, part, hr', hpart]
    rw [hthis]
    exact chain_append hchain
  · rw [Bnf.Tree.collapsedAll_append (ts₁ ++ ts₂), hlast, hkids, List.cons_append]

/-- A negation of a comparison or an operand. -/
theorem parses_not (hop : op.kind = .notOp) (h : Parses .level4Expr w e) :
    Parses .andOperand (op :: w) (.negated 1 e) := by
  obtain ⟨tree, htree, m, kids, hcollapsed, hpart⟩ := h
  have hmany : Gives (.many (.token [.notOp])) [op] [.leaf op] :=
    .many_more (.token (List.mem_singleton.2 hop)) (.many_end _)
  refine ⟨.inner .andOperand [.leaf op, tree], .phrase .andOperand (.seq hmany htree), .andOperand,
    [.leaf op, .inner m kids], ?_, ?_⟩
  · rw [Tree.collapsed, Tree.collapsedAll, Tree.collapsedAll, Tree.collapsedAll, Tree.collapsed,
      hcollapsed]
    rfl
  · rw [parts, parts, parts, part, part, hpart]
    rfl

theorem parses_group {opening closing : Lexeme} (ho : opening.kind = .lparen)
    (hc : closing.kind = .rparen) (h : Parses .expr w e) :
    Parses .primary (opening :: (w ++ [closing])) (.group e) := by
  obtain ⟨tree, htree, m, kids, hcollapsed, hpart⟩ := h
  refine ⟨.inner .primary [.leaf opening, tree, .leaf closing],
    .phrase .primary (.alt_second (.alt_second (.alt_second (.alt_first (.seq
      (.token (List.mem_singleton.2 ho)) (.seq htree (.token (List.mem_singleton.2 hc)))))))),
    .primary, [.leaf opening, .inner m kids, .leaf closing], ?_, ?_⟩
  · rw [Tree.collapsed, Tree.collapsedAll, Tree.collapsedAll, Tree.collapsedAll, Tree.collapsedAll,
      Tree.collapsed, Tree.collapsed, hcollapsed]
    rfl
  · rw [parts, parts, parts, parts, part, part, part, hpart]
    rfl

theorem parses_name {lx : Lexeme} (h : Match.isName lx) : Parses .primary [lx] (.reference lx []) := by
  have hname : Gives (.phrase .refName) [lx] [.inner .refName [.leaf lx]] := .phrase .refName (.name h)
  exact ⟨.inner .primary [.inner .nameDataRef [.inner .refName [.leaf lx]]],
    .phrase .primary (.alt_second (.alt_second (.alt_first (.phrase .nameDataRef (gives_alone hname))))),
    .primary, [.inner .nameDataRef [.inner .refName [.leaf lx]]], rfl, rfl⟩

theorem parses_constant {lx : Lexeme} (h : lx.kind ∈ [Kind.trueConst, .falseConst]) :
    Parses .primary [lx] (.constant lx) :=
  ⟨.inner .primary [.inner .logicalConstant [.leaf lx]],
    .phrase .primary (.alt_second (.alt_second (.alt_second (.alt_second (.alt_second
      (.alt_first (.phrase .logicalConstant (.token h)))))))),
    .primary, [.inner .logicalConstant [.leaf lx]], rfl, rfl⟩

end Phrases

/-! ## Formulas in the grammar -/

namespace Formula

/-- What is derived for an expression of a level. -/
def Parsed : Nat → List Lexeme → Expression → Prop
  | 0, w, e => Chains .expr w e
  | 1, w, e => Chains .orOperand w e
  | 2, w, e => Parses .andOperand w e
  | 3, w, e => Parses .level4Expr w e
  | 4, w, e => Parses .level3Expr w e
  | 5, w, e => Parses .level2Expr w e
  | 6, w, e => Parses .addOperand w e
  | 7, w, e => Parses .multOperand w e
  | 8, w, e => Parses .primary w e
  | _, _, _ => False

theorem Parsed.lift {w : List Lexeme} {e : Expression} : ∀ {k : Nat}, Parsed (k + 1) w e → Parsed k w e
  | 0, h => (parses_chain (l := .orOperand) h fun _ => rfl).chain fun _ => gives_alone
  | 1, h => Parses.chain h fun _ => gives_alone
  | 2, h => Parses.level h (by decide) fun _ ht => .seq (.many_end _) ht
  | 3, h => Parses.level h (by decide) fun _ => gives_alone_opt
  | 4, h => Parses.level h (by decide) fun _ => gives_alone
  | 5, h => Parses.level h (by decide) fun _ ht => gives_behind_none (gives_alone ht)
  | 6, h => Parses.level h (by decide) fun _ => gives_alone
  | 7, h => Parses.level h (by decide) fun _ => gives_alone_opt
  | _ + 8, h => absurd h id

/-- A formula is derived as the expression that it stands for. -/
theorem Accepted.parsed {k : Nat} {φ : Formula} {w : List Lexeme} (h : Accepted k φ w) :
    Parsed k w φ.expression := by
  induction h with
  | constant h => exact parses_constant h
  | name h => exact parses_name h
  | group ho hc _ ih => exact parses_group ho hc (parses_chain ih fun _ => rfl)
  | @equivalence same _ _ _ _ _ _ hop _ ih ih' =>
    refine parses_comparison ih ih' ?_ ?_ <;> rw [hop] <;> cases same <;> decide
  | not hop _ ih => exact parses_not hop ih
  | and _ hop _ ih ih' => exact Chains.append ih rfl rfl hop (fun _ _ => rfl) ih'
  | or _ hop _ ih ih' =>
    exact Chains.append ih rfl rfl hop (fun _ _ => rfl) (parses_chain ih' fun _ => rfl)
  | lift _ ih => exact ih.lift

end Formula

end FortranJulia
