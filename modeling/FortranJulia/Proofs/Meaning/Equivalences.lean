import FortranJulia.Proofs.Meaning.Translation
import FortranJulia.Proofs.Parsing.Course
import FortranJulia.Proofs.Parsing.Formulas

/-!
The truth of logical expressions. An equivalence is written as a comparison of truth values, which
Julia reads as tightly as the grammar of expressions does. What the grammar has for a formula is
therefore written with the value of the formula, and so is every expression of the standard of which
the equivalences are apart. An equivalence without parentheses behind a disjunction is not.
-/

namespace FortranJulia

set_option autoImplicit false

open Julia (Expr Lexes Spells Term Token)
open TreeMatch (exprKinds)

/-! ## Truth values in Julia -/

namespace Julia

/-- The truth value of a term. Truth values are compared with `==` and `!=`, and the right operand
of a connective counts only if the left one leaves the answer open. -/
def Term.truth (names : String → Quantity) : Term → Option Bool
  | .name x =>
    if x = "true".toList then some true
    else if x = "false".toList then some false
    else
      match names (String.ofList x) with
      | .logical b => some b
      | _ => none
  | .unary .not a => (truth names a).map (!·)
  | .binary .or a b => (truth names a).bind fun x => if x then some true else truth names b
  | .binary .and a b => (truth names a).bind fun x => if x then truth names b else some false
  | .binary .eq a b => (truth names a).bind fun x => (truth names b).map (x == ·)
  | .binary .ne a b => (truth names a).bind fun x => (truth names b).map (x != ·)
  | _ => none

/-- The truth value of a text. -/
def truthOf (names : String → Quantity) (text : String) : Option Bool :=
  (termOf text).bind (Term.truth names)

end Julia

namespace BinaryOp

/-- The truth value of an operation on truth values. -/
def connect? : BinaryOp → Option (Bool → Bool → Bool)
  | .or => some (· || ·)
  | .and => some (· && ·)
  | .eq => some (· == ·)
  | .ne => some (· != ·)
  | _ => none

end BinaryOp

section Texts

variable {values : String → Quantity} {e l r : Expr} {a b : Bool} {op : BinaryOp}
  {f : Bool → Bool → Bool}

-- The lemmas below share the equations of `Term.truth`.
attribute [local simp] Term.truth

theorem truth_operation {t u : Term} (hf : op.connect? = some f) (ht : t.truth values = some a)
    (hu : u.truth values = some b) : (Term.binary op.sign t u).truth values = some (f a b) := by
  cases op <;> cases hf <;> cases a <;> simp [BinaryOp.sign, Term.truth, ht, hu]

/-- The text of an expression is read as a term of a level with a truth value. -/
def Tells (values : String → Quantity) (j : Nat) (e : Expr) (b : Bool) : Prop :=
  ∃ ts t, Lexes e.text.toList ts ∧ e.text.toList ≠ [] ∧ e.text.toList.head? ≠ some '=' ∧
    Spells j ts t ∧ t.truth values = some b

theorem Tells.truthOf {j : Nat} (h : Tells values j e b) : Julia.truthOf values e.text = some b := by
  obtain ⟨ts, t, hlex, -, -, hspells, ht⟩ := h
  rw [Julia.truthOf, Julia.termOf_spells hlex (spells_weaker (Nat.zero_le j) hspells),
    Option.bind_some, ht]

theorem Tells.weaker {i j : Nat} (h : Tells values j e b) (hij : i ≤ j) : Tells values i e b := by
  obtain ⟨ts, t, hlex, hne, hfirst, hspells, ht⟩ := h
  exact ⟨ts, t, hlex, hne, hfirst, spells_weaker hij hspells, ht⟩

theorem tells_word {w : String} (htext : e.text = w) (hw : Julia.IsWord w.toList)
    (hb : (Term.name w.toList).truth values = some b) : Tells values 7 e b := by
  subst htext
  refine ⟨_, _, lexes_isWord hw, hw.ne_nil, ?_, .name _, hb⟩
  intro hhead
  have hword := hw.chars '=' (List.mem_of_mem_head? hhead)
  cases hword

theorem tells_name {w : String} (hw : Julia.IsWord w.toList) (htrue : w ≠ "true")
    (hfalse : w ≠ "false") (hb : values w = .logical b) : Tells values 7 (.name w) b := by
  refine tells_word (w := w) rfl hw ?_
  have htrue' : w.toList ≠ "true".toList := fun h => htrue (String.toList_inj.1 h)
  have hfalse' : w.toList ≠ "false".toList := fun h => hfalse (String.toList_inj.1 h)
  rw [Term.truth, if_neg htrue', if_neg hfalse', String.ofList_toList, hb]

theorem tells_truth (b : Bool) : Tells values 7 (.truth b) b := by
  cases b with
  | true => exact tells_word (w := "true") rfl (Julia.isWord_of_check rfl) rfl
  | false => exact tells_word (w := "false") rfl (Julia.isWord_of_check rfl) rfl

theorem tells_group (h : Tells values 0 e b) : Tells values 7 (.paren e) b := by
  obtain ⟨ts, t, hlex, -, -, hspells, ht⟩ := h
  refine ⟨_, t, toList_paren e ▸ Julia.lexes_group hlex, ?_, ?_, .group hspells, ht⟩
  · simp
  · simp

theorem tells_negated (h : Tells values 7 e b) : Tells values 5 (.negated 1 e) (!b) := by
  obtain ⟨ts, t, hlex, hne, hfirst, hspells, ht⟩ := h
  have htext : (Expr.negated 1 e).text.toList = List.replicate 1 '!' ++ e.text.toList := by
    show (String.join (List.replicate 1 "!") ++ e.text).toList = _
    rw [String.toList_append, toList_negations]
  refine ⟨_, .unary .not t, htext ▸ Julia.lexes_negations hlex hne hfirst 1, ?_, ?_,
    .unary rfl (spells_weaker (by decide) hspells), ?_⟩
  · rw [htext]
    exact List.cons_ne_nil _ _
  · rw [htext]
    exact fun h => by cases h
  · rw [Term.truth, ht, Option.map_some]

/-- A connective groups to the left. -/
theorem tells_connective (op : BinaryOp) {j : Nat} (hbinding : op.sign.binding? = some j) (hj : j ∈ [0, 1])
    (hf : op.connect? = some f) (hl : Tells values j l a) (hr : Tells values (j + 1) r b) :
    Tells values j (.operation op.julia l r) (f a b) := by
  obtain ⟨ts, t, hlex, hne, hfirst, hspells, ht⟩ := hl
  obtain ⟨us, u, hlex', -, -, hspells', hu⟩ := hr
  obtain ⟨hne', hhead⟩ := operation_head (r := r) op.julia hne
  exact ⟨_, _, lexes_written op hlex hlex', hne', by rwa [hhead],
    .left hbinding (List.mem_append_left [3, 4] hj) hspells hspells', truth_operation hf ht hu⟩

theorem tells_comparison (hbinding : op.sign.binding? = some 2) (hf : op.connect? = some f)
    (hl : Tells values 3 l a) (hr : Tells values 3 r b) :
    Tells values 2 (.operation op.julia l r) (f a b) := by
  obtain ⟨ts, t, hlex, hne, hfirst, hspells, ht⟩ := hl
  obtain ⟨us, u, hlex', -, -, hspells', hu⟩ := hr
  obtain ⟨hne', hhead⟩ := operation_head (r := r) op.julia hne
  exact ⟨_, _, lexes_written op hlex hlex', hne', by rwa [hhead],
    .comparison hbinding hspells hspells', truth_operation hf ht hu⟩

end Texts

/-! ## Lowering -/

/-- An operation that is no power and no quotient is written as one, whatever the types are. -/
theorem yields_operation {P : Lexeme → Prop} {names : String → Quantity} {s : LowerState}
    {W W₁ W₂ : (String → Quantity) → Expr → Prop} {op : BinaryOp} {l r : Expression}
    (hop : op ∉ [.power, .divide]) (hl : ∀ s, Yields P names s (Lower.expr l) W₁)
    (hr : ∀ s, Yields P names s (Lower.expr r) W₂)
    (hW : ∀ values x y, W₁ values x → W₂ values y → W values (.operation op.julia x y)) :
    Yields P names s (Lower.expr (.binary op l r)) W := by
  have hpower : op ≠ .power := by
    rintro rfl
    exact hop (by decide)
  rw [expr_binary hpower]
  refine yields_pair (.operation op.julia) (hl s) (fun more => hr (s.recorded more)) ?_ hW
  intro x y more
  have hcombine : ∀ i j, combine op i j x y = .operation op.julia x y := by
    intro i j
    cases op <;> first | rfl | exact absurd (by decide) hop
  rw [← hcombine (l.typeOf (s.recorded more).collection.table)
    (r.typeOf (s.recorded more).collection.table)]
  rfl

theorem juliaLevel_le (k : Nat) : juliaLevel k ≤ juliaLevel (k + 1) := by
  match k with
  | 0 | 1 | 2 | 3 | 4 | 5 | 6 | 7 => decide
  | _ + 8 => exact Nat.le_refl 7

/-- What is written for a formula of a level has its value. An operand needs no parentheses. -/
def Formula.Told (k : Nat) (φ : Formula) (names : String → Bool) (values : String → Quantity)
    (e : Expr) : Prop :=
  Tells values (juliaLevel k) e (φ.value names) ∧
    (φ.expression.isPrimary → Tells values 7 e (φ.value names))

/-- Every formula that the grammar has is written with its value. -/
theorem Formula.Accepted.yields {P : Lexeme → Prop} (hP : ∀ lx, P lx → lx.kind ≠ .eof → lx.Proper)
    (names : String → Bool) {k : Nat} {φ : Formula} {w : List Lexeme} (h : Accepted k φ w) :
    (∀ lx ∈ w, P lx) → ∀ s,
      Yields P (fun x => .logical (names x)) s (Lower.expr φ.expression) (φ.Told k names) := by
  induction h with
  | @constant lx h =>
    intro _ s
    have htruth : lx.juliaConstant = .truth (lx.kind == .trueConst) := by
      simp only [List.mem_cons, List.not_mem_nil, or_false] at h
      rcases h with h | h <;> rw [Lexeme.juliaConstant, h] <;> rfl
    have htells : ∀ values, Tells values 7 lx.juliaConstant (lx.kind == .trueConst) := by
      intro values
      rw [htruth]
      exact tells_truth _
    exact yields_pure fun values => ⟨htells values, fun _ => htells values⟩
  | @name lx hn =>
    intro hw s
    have hlx : P lx := hw lx (by simp)
    refine (yields_ident hlx hn (hP lx hlx)).imp ?_
    rintro values e ⟨x, rfl, hword, htrue, hfalse, hvalue⟩
    have htells := tells_name hword htrue hfalse hvalue
    exact ⟨htells, fun _ => htells⟩
  | group _ _ _ ih =>
    intro hw s
    refine yields_map .paren (ih (fun lx hlx => hw lx (by simp [hlx])) s) ?_
    exact fun values e he => ⟨tells_group he.1, fun _ => tells_group he.1⟩
  | @equivalence same _ _ _ _ _ _ _ _ ih ih' =>
    intro hw s
    have hop : (if same then BinaryOp.eq else .ne) ∉ [BinaryOp.power, .divide] := by
      cases same <;> decide
    have hbinding : (if same then BinaryOp.eq else .ne).sign.binding? = some 2 := by
      cases same <;> rfl
    have hconnect : (if same then BinaryOp.eq else .ne).connect? = some fun a b => (a == b) == same := by
      cases same <;> refine congrArg some (funext fun a => funext fun b => ?_) <;>
        cases a <;> cases b <;> rfl
    refine yields_operation hop (ih (fun lx hlx => hw lx (by simp [hlx])))
      (ih' (fun lx hlx => hw lx (by simp [hlx]))) fun values x y hx hy => ⟨?_, fun hno => by cases hno⟩
    have htells := tells_comparison hbinding hconnect hx.1 hy.1
    exact htells
  | @not φ _ _ _ _ ih =>
    intro hw s
    refine yields_map (fun e => .negated 1 (if φ.expression.isPrimary then e else .paren e))
      (ih (fun lx hlx => hw lx (by simp [hlx])) s) fun values e he => ⟨?_, fun hno => by cases hno⟩
    refine (tells_negated ?_).weaker (by decide)
    split
    · exact he.2 ‹_›
    · exact tells_group (he.1.weaker (Nat.zero_le _))
  | and _ _ _ ih ih' =>
    intro hw s
    refine yields_operation (by decide) (ih (fun lx hlx => hw lx (by simp [hlx])))
      (ih' (fun lx hlx => hw lx (by simp [hlx]))) fun values x y hx hy => ⟨?_, fun hno => by cases hno⟩
    exact tells_connective .and rfl (by decide) rfl hx.1 hy.1
  | or _ _ _ ih ih' =>
    intro hw s
    refine yields_operation (by decide) (ih (fun lx hlx => hw lx (by simp [hlx])))
      (ih' (fun lx hlx => hw lx (by simp [hlx]))) fun values x y hx hy => ⟨?_, fun hno => by cases hno⟩
    exact tells_connective .or rfl (by decide) rfl hx.1 hy.1
  | @lift k _ _ _ ih =>
    intro hw s
    exact (ih hw s).imp fun values e he => ⟨he.1.weaker (juliaLevel_le k), he.2⟩

/-- Wherever an expression is looked for, the lexemes of a formula that the grammar has are taken in
full, as the expression that the formula stands for. -/
theorem Formula.Accepted.added {tokens : Array Lexeme} (hend : EndsInEof tokens) {c : Call}
    (hc : c.Sound tokens) (hdeep : c.Deep tokens) (hexpr : c.pattern = Grammar.expr) {φ : Formula}
    {w rest : List Lexeme} {next : Lexeme} (hdrop : tokens.toList.drop c.state.pos = w ++ next :: rest)
    (hnext : next.kind ∉ exprKinds) (h : Accepted 0 φ w) :
    ∃ t n, c.Adds tokens t n ∧ t.pos = c.state.pos + w.length ∧ n.expression? = some φ.expression := by
  have hparses : Parses .expr w φ.expression := parses_chain h.parsed fun _ => rfl
  obtain ⟨tree, hder, m, kids, hcollapsed, hpart⟩ := hparses
  obtain ⟨t, n, hadds, hpos, hshape, -⟩ :=
    (expressions_follow_grammar hend hc hdeep hexpr).1 w rest next tree hdrop hder hnext
  refine ⟨t, n, hadds, hpos, expression?_of_shape ?_⟩
  rw [hshape, hcollapsed, Bnf.Tree.part, hpart]

/-! ## Main statement -/

/-- Equivalences keep their place where their operands are names, constants or in parentheses.
Wherever an expression is looked for, the lexemes that the standard has for such a formula are taken
in full, and the expression is lowered to a text that Julia reads with the value of the formula. -/
theorem apart_equivalences_keep_truth {source : String} {c : Call}
    (hc : c.Sound (scan source).toArray) (hdeep : c.Deep (scan source).toArray)
    (hexpr : c.pattern = Grammar.expr) {φ : Formula} {w rest : List Lexeme} {next : Lexeme}
    (hdrop : (scan source).drop c.state.pos = w ++ next :: rest) (hnext : next.kind ∉ exprKinds)
    (hwritten : φ.Written 0 w) (hapart : φ.apart) :
    ∃ t n, c.Adds (scan source).toArray t n ∧ t.pos = c.state.pos + w.length ∧
      ∀ (names : String → Bool) (s : LowerState), ∃ e s', (Lower.exprOf n).run s = .ok (e, s') ∧
        ∀ values : String → Quantity, (∀ lx ∈ w, Match.isName lx →
            values (s'.variableName lx.text) = .logical (names (nameKey lx.text))) →
          Julia.truthOf values e.text = some (φ.value names) := by
  have haccepted : φ.Accepted 0 w := (hwritten.accepted hapart).1
  obtain ⟨t, n, hadds, hpos, hexpression⟩ := haccepted.added (scan_endsInEof source) hc hdeep hexpr
    (by simpa using hdrop) hnext
  refine ⟨t, n, hadds, hpos, fun names s => ?_⟩
  have hscan : ∀ lx ∈ w, lx ∈ scan source := by
    intro lx hlx
    refine List.mem_of_mem_drop (i := c.state.pos) ?_
    rw [hdrop]
    exact List.mem_append_left _ hlx
  obtain ⟨e, more, hrun, he⟩ := haccepted.yields (P := (· ∈ w))
    (fun lx hlx => scan_proper (hscan lx hlx)) names (fun _ hlx => hlx) s
  rw [← exprOf_expression hexpression] at hrun
  refine ⟨e, s.recorded more, hrun, fun values hvalues => (he [] values ?_).1.truthOf⟩
  rw [LowerState.recorded_nil]
  exact hvalues

/-- A negation in parentheses. -/
theorem apart_equivalences_keep_truth_negation :
    let source := "L=(.NOT.A).EQV.B\nEND"
    let c : Call := ⟨50000, Grammar.expr, some 0,
      (({ pos := 2 } : Match.State).push (.phrase .assignmentStmt)).2⟩
    ∃ t n e s', c.Adds (scan source).toArray t n ∧ t.pos = 8 ∧
      (Lower.exprOf n).run {} = .ok (e, s') ∧
      Julia.truthOf (fun _ => .logical true) e.text = some false := by
  intro source c
  let opening : Lexeme := ⟨.lparen, "(", none, 1, 3⟩
  let negation : Lexeme := ⟨.notOp, ".NOT.", none, 1, 4⟩
  let a : Lexeme := ⟨.name, "A", none, 1, 9⟩
  let closing : Lexeme := ⟨.rparen, ")", none, 1, 10⟩
  let equivalence : Lexeme := ⟨.eqOp, ".EQV.", none, 1, 11⟩
  let b : Lexeme := ⟨.name, "B", none, 1, 16⟩
  let next : Lexeme := ⟨.newline, "\n", none, 1, 17⟩
  have hscan : scan source = ⟨.name, "L", none, 1, 1⟩ :: ⟨.equal, "=", none, 1, 2⟩ ::
      ([opening, negation, a, closing, equivalence, b] ++ next ::
        [⟨.keyword .END, "END", none, 2, 1⟩, .endOfSource 2 4]) := by
    rw [scan_within]
    decide +kernel
  have hc : c.Sound (scan source).toArray := by
    rw [hscan]
    exact ⟨⟨by decide, Arena.push_sound Arena.sound_empty (Cell.sound_phrase _)⟩, Nat.zero_lt_one⟩
  have hdeep : c.Deep (scan source).toArray := by
    rw [hscan]
    unfold Call.Deep
    decide
  have hnegation : Formula.Written 0 (.not (.name a)) [negation, a] :=
    .lift (.lift (.lift (.not rfl (.name (by decide)))))
  have hgroup : Formula.Written 0 (.group (.not (.name a))) [opening, negation, a, closing] :=
    .lift (.lift (.lift (.lift (.group rfl rfl hnegation))))
  have hwritten : Formula.Written 0 (.equivalence true (.group (.not (.name a))) (.name b))
      [opening, negation, a, closing, equivalence, b] :=
    .equivalence hgroup rfl (.lift (.lift (.lift (.name (by decide)))))
  obtain ⟨t, n, hadds, hpos, hall⟩ := apart_equivalences_keep_truth hc hdeep rfl
    (by rw [hscan]; rfl) (by decide) hwritten (by decide)
  obtain ⟨e, s', hrun, he⟩ := hall (fun _ => true) {}
  exact ⟨t, n, e, s', hadds, hpos, hrun, he _ fun _ _ _ => rfl⟩

/-- Behind a disjunction without parentheses an equivalence is not read as in the standard, which
takes the disjunction as its left operand. -/
theorem equivalence_behind_disjunction :
    let source := "L=A.OR.B.EQV.C\nEND"
    let c : Call := ⟨50000, Grammar.expr, some 0,
      (({ pos := 2 } : Match.State).push (.phrase .assignmentStmt)).2⟩
    let names : String → Bool := fun x => x != "C"
    ∃ (φ : Formula) (w rest : List Lexeme) (next : Lexeme),
      (scan source).drop c.state.pos = w ++ next :: rest ∧ next.kind ∉ exprKinds ∧ φ.Written 0 w ∧
      c.Sound (scan source).toArray ∧ c.Deep (scan source).toArray ∧
      ∃ t n e s', c.Adds (scan source).toArray t n ∧ t.pos = c.state.pos + w.length ∧
        (Lower.exprOf n).run {} = .ok (e, s') ∧ e.text = "A || B == C" ∧
        (∀ lx ∈ w, Match.isName lx → s'.variableName lx.text = nameKey lx.text) ∧
        φ.value names = false ∧
        Julia.truthOf (fun x => .logical (names x)) e.text = some true := by
  intro source c names
  let a : Lexeme := ⟨.name, "A", none, 1, 3⟩
  let disjunction : Lexeme := ⟨.orOp, ".OR.", none, 1, 4⟩
  let b : Lexeme := ⟨.name, "B", none, 1, 8⟩
  let equivalence : Lexeme := ⟨.eqOp, ".EQV.", none, 1, 9⟩
  let d : Lexeme := ⟨.name, "C", none, 1, 14⟩
  let next : Lexeme := ⟨.newline, "\n", none, 1, 15⟩
  let rest : List Lexeme := [⟨.keyword .END, "END", none, 2, 1⟩, .endOfSource 2 4]
  have hscan : scan source = ⟨.name, "L", none, 1, 1⟩ :: ⟨.equal, "=", none, 1, 2⟩ ::
      ([a, disjunction, b, equivalence, d] ++ next :: rest) := by
    rw [scan_within]
    decide +kernel
  have hc : c.Sound (scan source).toArray := by
    rw [hscan]
    exact ⟨⟨by decide, Arena.push_sound Arena.sound_empty (Cell.sound_phrase _)⟩, Nat.zero_lt_one⟩
  have hdeep : c.Deep (scan source).toArray := by
    rw [hscan]
    unfold Call.Deep
    decide
  have hdrop : (scan source).drop c.state.pos = [a, disjunction, b, equivalence, d] ++ next :: rest := by
    rw [hscan]
    rfl
  have hwritten : Formula.Written 0 (.equivalence true (.or (.name a) (.name b)) (.name d))
      [a, disjunction, b, equivalence, d] :=
    .equivalence (v := [a, disjunction, b])
      (.lift (.or (v := [a]) (.lift (.lift (.lift (.name (by decide))))) rfl
        (.lift (.lift (.name (by decide))))))
      rfl (.lift (.lift (.lift (.name (by decide)))))
  -- What the grammar has instead is the disjunction of a name and a comparison.
  have hcomparison : Formula.Accepted 3 (.equivalence true (.name b) (.name d)) [b, equivalence, d] :=
    .equivalence (v := [b]) ((Formula.Accepted.name (by decide)).weaker (by decide)) rfl
      ((Formula.Accepted.name (by decide)).weaker (by decide))
  have haccepted : Formula.Accepted 0 (.or (.name a) (.equivalence true (.name b) (.name d)))
      [a, disjunction, b, equivalence, d] :=
    .or (v := [a]) ((Formula.Accepted.name (by decide)).weaker (by decide)) rfl
      (hcomparison.weaker (by decide))
  obtain ⟨t, n, hadds, hpos, hexpression⟩ := haccepted.added (scan_endsInEof source) hc hdeep rfl
    (by rw [List.toList_toArray]; exact hdrop) (by decide)
  have hcheck : ((Lower.expr (.binary .or (.reference a []) (.binary .eq (.reference b [])
      (.reference d [])))).run {}).toOption.any (fun r => r.1.text == "A || B == C" &&
        ["A", "B", "C"].all fun x => r.2.variableName x == nameKey x) = true := by
    decide +kernel
  obtain ⟨⟨e, s'⟩, hrun, hlowered⟩ := (Option.any_eq_true _ _).1 hcheck
  simp only [Bool.and_eq_true, beq_iff_eq, List.all_cons, List.all_nil, Bool.and_true] at hlowered
  obtain ⟨htext, ha, hb, hd⟩ := hlowered
  refine ⟨_, _, rest, next, hdrop, by decide, hwritten, hc, hdeep, t, n, e, s', hadds, hpos, ?_, htext,
    ?_, by decide +kernel, ?_⟩
  · rw [exprOf_expression hexpression]
    exact ok_of_toOption (Option.mem_toList.2 hrun)
  · simp only [List.mem_cons, List.not_mem_nil, or_false]
    rintro lx (rfl | rfl | rfl | rfl | rfl) hname
    · exact ha
    · cases hname
    · exact hb
    · cases hname
    · exact hd
  · rw [htext]
    decide +kernel

end FortranJulia
