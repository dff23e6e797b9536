import FortranJulia.Proofs.Parsing.Precedence
import FortranJulia.Proofs.Parsing.Progress

/-!
The expressions that are matched are the ones of the grammar. Levels of operators are read one on top
of the other; with the operands of the module before, this closes the induction, and the main
statement follows for every match of an expression in the course of a parse.
-/

namespace FortranJulia

set_option autoImplicit false

open Match (Outcome)
open Bnf (Tree Gives production)

namespace TreeMatch

variable {tokens : Array Lexeme} {n : Nat}

/-! ## Operators -/

theorem misses_powerOp {rest : List Lexeme} (h : Ends factorKinds rest) :
    Misses tokens (.node .powerOp (.seq (.token .starStar) (.seq (.opt Grammar.sign.unfolded)
      (.call .multOperand)))) rest := by
  obtain ⟨lx, tail, rfl, hlx⟩ := h
  exact .node (fails_token fun heq => hlx (by rw [heq]; decide))

/-- A sign is read where there is one, and none where an operand starts. -/
theorem reads_sign {p : Pattern} {w v rest : List Lexeme} {ts us : List Tree}
    (h : Gives (.opt (.phrase .sign)) w ts) (hread : Reads tokens p v us rest) (hrest : rest ≠ [])
    (hp : ∀ {lx ws}, StartsNone lx → Misses tokens p (lx :: ws)) :
    Reads tokens (.opt Grammar.sign.unfolded) w ts (v ++ rest) := by
  rcases gives_perhaps h with ⟨rfl, rfl⟩ | h
  · exact .opt_none (misses_before signKinds hread hrest
      (fun lx ws hlx => (hp (startsNone_of_kind hlx (by decide))).fails) (fun _ _ => misses_sign))
  · exact .opt (covers_sign w ts _ (Nat.le_refl _) h trivial)

theorem covers_multOperand (hexpr : ∀ m < n, CoversExpr tokens m) :
    Covers tokens n (.call .multOperand) .multOperand (Ends factorKinds) := by
  suffices hall : ∀ k ≤ n, Covers tokens k (.call .multOperand) .multOperand (Ends factorKinds) from
    hall n (Nat.le_refl n)
  intro k
  induction k using Nat.strong_induction_on with
  | _ k ih =>
    intro hk w ts rest hw h hrest
    refine .call (Covers.node (n := k) ?_ w ts rest hw h hrest)
    intro w ts rest hw h hrest
    obtain ⟨w₁, w₂, ts₁, ts₂, rfl, rfl, hbase, hpower⟩ := gives_both h
    have hprimary := (covers_primary hexpr).less hk
    rw [List.length_append] at hw
    rcases gives_perhaps hpower with ⟨rfl, rfl⟩ | hpower
    · exact .seq (hprimary w₁ ts₁ _ (by omega) hbase (hrest.mono (by decide)))
        (.opt_none (misses_powerOp hrest))
    · obtain ⟨kids, rfl, hop⟩ := gives_phrase hpower
      obtain ⟨v₁, _, us₁, _, rfl, rfl, h₁, h⟩ := gives_both hop
      obtain ⟨v₂, v₃, us₂, us₃, rfl, rfl, h₂, h₃⟩ := gives_both h
      obtain ⟨starStar, rfl, rfl, hkind⟩ := gives_tokens h₁
      simp only [List.length_append, List.length_singleton] at hw
      have hright := ih v₃.length (by omega) (by omega) v₃ us₃ rest (Nat.le_refl _) h₃ hrest
      have hsign := reads_sign h₂ hright hrest.ne_nil misses_multOperand
      refine .seq (hprimary w₁ ts₁ _ (by omega) hbase (.cons hkind (by decide))) (.opt (.node ?_))
      exact .seq (.token (List.mem_singleton.1 hkind)) (.seq hsign hright)

/-- A slash before another one is no division. -/
theorem misses_multOp {rest : List Lexeme} (h : Ends productKinds rest) (hslash : Doubled rest) :
    Misses tokens (.node .multOp (.seq (.oneOf [.star, .slash]) (.call .multOperand))) rest := by
  obtain ⟨lx, tail, rfl, hlx⟩ := h
  have hstar : lx.kind ≠ .star := fun heq => hlx (by rw [heq]; decide)
  refine .node ?_
  by_cases hkind : lx.kind = .slash
  · obtain ⟨lx', tail', rfl, hkind'⟩ := hslash lx tail rfl hkind
    have hmem : lx'.kind ∈ [Kind.slash] := by simp [hkind']
    have hnone : StartsNone lx' := startsNone_of_kind hmem (by decide)
    exact .seq_second (w := [lx]) (.oneOf (by simp [hkind])) (by simp)
      (misses_multOperand hnone).fails
  · exact .seq_first (Misses.oneOf (by simp [hstar, hkind])).fails

theorem misses_operator {ks ks' : List Kind} {l : Label} {p : Pattern} {rest : List Lexeme}
    (h : Ends ks rest) (hks : ∀ k ∈ ks', k ∈ ks) :
    Misses tokens (.node l (.seq (.oneOf ks') p)) rest := by
  obtain ⟨lx, tail, rfl, hlx⟩ := h
  exact .node (.seq_first (Misses.oneOf fun hmem => hlx (hks _ hmem)).fails)

theorem misses_operatorToken {ks : List Kind} {k : Kind} {l : Label} {p : Pattern}
    {rest : List Lexeme} (h : Ends ks rest) (hk : k ∈ ks) :
    Misses tokens (.node l (.seq (.token k) p)) rest := by
  obtain ⟨lx, tail, rfl, hlx⟩ := h
  exact .node (fails_token fun heq => hlx (heq ▸ hk))

/-- The first token of an operator with its operand. -/
theorem gives_operator {ks : List Kind} {b : Bnf} {w : List Lexeme} {ts : List Tree}
    (h : Gives (.seq (.token ks) b) w ts) : ∃ lx tail, w = lx :: tail ∧ lx.kind ∈ ks := by
  obtain ⟨w₁, w₂, ts₁, ts₂, rfl, rfl, h₁, h₂⟩ := gives_both h
  obtain ⟨lx, rfl, rfl, hlx⟩ := gives_tokens h₁
  exact ⟨lx, w₂, rfl, hlx⟩

theorem ends_operator {ks ks' : List Kind} {b : Bnf} {w rest : List Lexeme} {ts : List Tree}
    (h : Gives (.seq (.token ks) b) w ts) (hks : ∀ k ∈ ks, k ∉ ks') : Ends ks' (w ++ rest) := by
  obtain ⟨lx, tail, rfl, hlx⟩ := gives_operator h
  exact ⟨lx, tail ++ rest, rfl, hks _ hlx⟩

/-- What may stand behind a sum or one of its terms. -/
def EndsDoubled (ks : List Kind) (rest : List Lexeme) : Prop :=
  Ends ks rest ∧ Doubled rest

theorem covers_addOperand (hexpr : ∀ m < n, CoversExpr tokens m) :
    Covers tokens n Grammar.addOperand.unfolded .addOperand (EndsDoubled productKinds) := by
  have hfactor := covers_multOperand hexpr
  have hop := covers_operator .multOp rfl accepts_oneOf hfactor
  refine .node fun w ts rest hw h hrest => ?_
  refine reads_chain hfactor hop (fun w ts rest h => ends_operator h (by decide)) ?_ ?_ hw h hrest
  · exact fun rest h => h.1.mono (by decide)
  · exact fun rest h => misses_multOp h.1 h.2

theorem covers_level2Expr (hexpr : ∀ m < n, CoversExpr tokens m) :
    Covers tokens n Grammar.level2Expr.unfolded .level2Expr (EndsDoubled sumKinds) := by
  have hterm := covers_addOperand hexpr
  have hop := covers_operator .addOp rfl accepts_oneOf hterm
  have hbetween : ∀ w ts rest, Gives (production .addOp) w ts →
      EndsDoubled productKinds (w ++ rest) := by
    intro w ts rest h
    obtain ⟨lx, tail, rfl, hlx⟩ := gives_operator h
    refine ⟨.cons hlx (by decide), .of_ne ?_⟩
    rintro heq
    rw [heq] at hlx
    exact absurd hlx (by decide)
  refine .node fun w ts rest hw h hrest => ?_
  obtain ⟨w₁, w₂, ts₁, ts₂, rfl, rfl, hsign, hterms⟩ := gives_both h
  rw [List.length_append] at hw
  have hread := reads_chain hterm hop hbetween (fun rest h => ⟨h.1.mono (by decide), h.2⟩)
    (fun rest h => misses_operator h.1 (by decide)) (by omega) hterms hrest
  exact .seq (reads_sign hsign hread hrest.1.ne_nil fun h => .seq (misses_addOperand h)) hread

theorem covers_level3Expr (hexpr : ∀ m < n, CoversExpr tokens m) :
    Covers tokens n Grammar.level3Expr.unfolded .level3Expr (Ends concatKinds) := by
  have hsum := covers_level2Expr hexpr
  have hop : Covers tokens n
      (.node .concatOp (.seq (.token .slash) (.seq (.token .slash) Grammar.level2Expr.unfolded)))
      .concatOp (EndsDoubled sumKinds) := by
    refine .node fun w ts rest hw h hrest => ?_
    obtain ⟨w₁, _, ts₁, _, rfl, rfl, h₁, h⟩ := gives_both h
    obtain ⟨w₂, w₃, ts₂, ts₃, rfl, rfl, h₂, h₃⟩ := gives_both h
    obtain ⟨first, rfl, rfl, hfirst⟩ := gives_tokens h₁
    obtain ⟨second, rfl, rfl, hsecond⟩ := gives_tokens h₂
    simp only [List.length_append] at hw
    exact .seq (.token (List.mem_singleton.1 hfirst)) <|
      .seq (.token (List.mem_singleton.1 hsecond)) (hsum w₃ ts₃ rest (by omega) h₃ hrest)
  have hbetween : ∀ w ts rest, Gives (production .concatOp) w ts →
      EndsDoubled sumKinds (w ++ rest) := by
    intro w ts rest h
    obtain ⟨w₁, _, ts₁, _, rfl, rfl, h₁, h⟩ := gives_both h
    obtain ⟨w₂, w₃, ts₂, ts₃, rfl, rfl, h₂, h₃⟩ := gives_both h
    obtain ⟨first, rfl, rfl, hfirst⟩ := gives_tokens h₁
    obtain ⟨second, rfl, rfl, hsecond⟩ := gives_tokens h₂
    refine ⟨.cons hfirst (by decide), fun lx tail heq _ => ?_⟩
    obtain ⟨rfl, rfl⟩ := List.cons.inj heq
    exact ⟨second, w₃ ++ rest, rfl, List.mem_singleton.1 hsecond⟩
  refine .node fun w ts rest hw h hrest => ?_
  refine reads_chain hsum hop hbetween ?_ ?_ hw h hrest
  · exact fun rest h => ⟨h.mono (by decide), h.doubled (by decide)⟩
  · exact fun rest h => misses_operatorToken h (by decide)

theorem covers_level4Expr (hexpr : ∀ m < n, CoversExpr tokens m) :
    Covers tokens n Grammar.level4Expr.unfolded .level4Expr (Ends relationKinds) := by
  have htext := covers_level3Expr hexpr
  have hop := covers_operator .relOp rfl accepts_oneOf htext
  refine .node fun w ts rest hw h hrest => ?_
  obtain ⟨w₁, w₂, ts₁, ts₂, rfl, rfl, hleft, hright⟩ := gives_both h
  rw [List.length_append] at hw
  rcases gives_perhaps hright with ⟨rfl, rfl⟩ | hright
  · exact .seq (htext w₁ ts₁ _ (by omega) hleft (hrest.mono (by decide)))
      (.opt_none (misses_operator hrest (by decide)))
  · have hread := hop w₂ ts₂ rest (by omega) hright (hrest.mono (by decide))
    obtain ⟨kids, -, hright⟩ := gives_phrase hright
    have hbetween : Ends concatKinds (w₂ ++ rest) := ends_operator hright (by decide)
    exact .seq (htext w₁ ts₁ _ (by omega) hleft hbetween) (.opt hread)

theorem covers_andOperand (hexpr : ∀ m < n, CoversExpr tokens m) :
    Covers tokens n Grammar.andOperand.unfolded .andOperand (Ends relationKinds) := by
  refine .node fun w ts rest hw h hrest => ?_
  obtain ⟨w₁, w₂, ts₁, ts₂, rfl, rfl, hnots, hrelation⟩ := gives_both h
  rw [List.length_append] at hw
  have hread := covers_level4Expr hexpr w₂ ts₂ rest (by omega) hrelation hrest
  have hlast : Misses tokens (.token .notOp) (w₂ ++ rest) := by
    refine misses_before [.notOp] hread hrest.ne_nil (fun lx ws hlx => ?_)
      (fun lx ws hlx => Misses.token (by simpa using hlx))
    have hsign : lx.kind ∉ signKinds := by rw [List.mem_singleton.1 hlx]; decide
    exact (misses_level4Expr (startsNone_of_kind hlx (by decide)) hsign).fails
  have hitem : ∀ w ts rest, w.length ≤ w₁.length → Gives (.token [.notOp]) w ts → True →
      Reads tokens (.token .notOp) w ts rest := by
    intro w ts rest _ h _
    obtain ⟨lx, rfl, rfl, hlx⟩ := gives_tokens h
    exact .token (List.mem_singleton.1 hlx)
  obtain ⟨hall, -⟩ := reads_many (fun _ => True) hitem (fun _ _ _ _ => trivial) (fun _ _ => trivial)
    (fun _ h => h) (Nat.le_refl _) hnots hlast
  exact .seq hall hread

theorem covers_orOperand (hexpr : ∀ m < n, CoversExpr tokens m) :
    Covers tokens n Grammar.orOperand.unfolded .orOperand (Ends conjunctionKinds) := by
  have hnegation := covers_andOperand hexpr
  have hop := covers_operator .andOp rfl accepts_token hnegation
  refine .node fun w ts rest hw h hrest => ?_
  refine reads_chain hnegation hop (fun w ts rest h => ends_operator h (by decide)) ?_ ?_ hw h hrest
  · exact fun rest h => h.mono (by decide)
  · exact fun rest h => misses_operatorToken h (by decide)

theorem covers_exprBody (hexpr : ∀ m < n, CoversExpr tokens m) : CoversExpr tokens n := by
  have hconjunction := covers_orOperand hexpr
  have hop := covers_operator .orOp rfl accepts_token hconjunction
  intro w ts rest hw h hrest
  refine .call (Covers.node (n := n) ?_ w ts rest hw h hrest)
  intro w ts rest hw h hrest
  refine reads_chain hconjunction hop (fun w ts rest h => ends_operator h (by decide)) ?_ ?_ hw h
    hrest
  · exact fun rest h => h.mono (by decide)
  · exact fun rest h => misses_operatorToken h (by decide)

/-- Every derivation of an expression is read before a token that does not carry it on. -/
theorem covers_expr (tokens : Array Lexeme) (n : Nat) : CoversExpr tokens n := by
  induction n using Nat.strong_induction_on with
  | _ n ih => exact covers_exprBody ih

end TreeMatch

open TreeMatch

/-! ## Derivation trees and matches -/

/-- No expression has two derivation trees. -/
theorem derivation_unique {w : List Lexeme} {tree tree' : Tree} (h : tree.IsDerivation .expr w)
    (h' : tree'.IsDerivation .expr w) : tree = tree' := by
  let rest : List Lexeme := [.endOfSource 0 0]
  have hends : Ends exprKinds rest := ⟨.endOfSource 0 0, [], rfl, by decide⟩
  let s : TreeMatch.State := ⟨0, 0, [], {}⟩
  have hs : s.Before (w ++ rest).toArray (w ++ rest) := ⟨by simp [s], by simp [rest]⟩
  obtain ⟨t, ht, -, news, hkids, hshape⟩ :=
    covers_expr _ _ w [tree] rest (Nat.le_refl _) h hends s hs (by simp [rest])
  obtain ⟨t', ht', -, news', hkids', hshape'⟩ :=
    covers_expr _ _ w [tree'] rest (Nat.le_refl _) h' hends s hs (by simp [rest])
  obtain ⟨-, rfl⟩ := ht.unique (by simp) ht' (by simp)
  have hsame : news = news' := by
    rw [hkids] at hkids'
    simpa [s] using hkids'
  rw [hsame, hshape'] at hshape
  exact (List.cons.inj hshape).1.symm

/-- The match succeeds in a state, in which its parent has one more child, and no node that was there
has changed. -/
structure Call.Adds (tokens : Array Lexeme) (c : Call) (t : Match.State) (n : Node) : Prop where
  result : c.result tokens = .ok (.matched, t)
  grows : ∃ q, c.parent = some q ∧ Grows q c.state.tree t.tree [n]

/-- A deep match of an expression in the arena and the one with trees that it follows. -/
theorem expr_runs {tokens : Array Lexeme} (hend : EndsInEof tokens) {c : Call}
    (hc : c.Sound tokens) (hdeep : c.Deep tokens) (hexpr : c.pattern = Grammar.expr) :
    ∃ o t u q news, c.result tokens = .ok (o, t) ∧ o ≠ .exhausted ∧ c.parent = some q ∧
      Runs grammar tokens Grammar.expr c.state.bare o u ∧
      Steps tokens q c.state t c.state.bare u news ∧ u.kids.reverse = news := by
  have horderly : c.pattern.Orderly := by
    rw [hexpr]
    exact ⟨by decide, by decide +kernel, by decide⟩
  have hsettled := (deep_settled hend hc horderly hdeep).1
  obtain ⟨depth, pattern, parent, s⟩ := c
  obtain rfl : pattern = Grammar.expr := hexpr
  obtain ⟨hs, hfits⟩ := hc
  cases parent with
  | none => simp [Fits, Pattern.isRule, Grammar.expr] at hfits
  | some q =>
    have hq : q < s.tree.contents.length := Arena.contents_length hs.tree ▸ hfits
    obtain ⟨o, t, u, news, hrun, hout, hsteps⟩ :=
      run_follows grammar tokens depth Grammar.expr q s s.bare hs.agree hq
    refine ⟨o, t, u, q, news, hrun, ?_, rfl, run_runs hout, hsteps, ?_⟩
    · rintro rfl
      exact hsettled t hrun
    · rw [hsteps.kids]
      simp [Match.State.bare]

theorem shapes_single {ns : List Node} {tree : Tree} (h : Node.shapes ns = [tree]) :
    ∃ n, ns = [n] ∧ n.shape = tree := by
  match ns with
  | [] => cases h
  | [n] => exact ⟨n, rfl, (List.cons.inj h).1⟩
  | _ :: _ :: _ => cases h

/-- The tokens of a derivation are taken in full in front of one that does not carry the expression on. -/
theorem expr_taken {tokens : Array Lexeme} (hend : EndsInEof tokens) {c : Call} (hc : c.Sound tokens)
    (hdeep : c.Deep tokens) (hexpr : c.pattern = Grammar.expr) {w rest : List Lexeme} {next : Lexeme}
    {tree : Tree} (hdrop : tokens.toList.drop c.state.pos = w ++ next :: rest)
    (hder : tree.IsDerivation .expr w) (hnext : next.kind ∉ exprKinds) :
    ∃ t n, c.Adds tokens t n ∧ t.pos = c.state.pos + w.length ∧ n.shape = tree.collapsed := by
  obtain ⟨o, t, u, q, news, hresult, hended, hparent, hruns, hsteps, hkids⟩ := expr_runs hend hc hdeep hexpr
  have hbefore : c.state.bare.Before tokens (w ++ next :: rest) := ⟨hdrop, by simp⟩
  obtain ⟨v, hv, hpos, made, hmade, hshape⟩ := covers_expr tokens _ w [tree] (next :: rest)
    (Nat.le_refl _) hder ⟨next, rest, rfl, hnext⟩ c.state.bare hbefore (by simp)
  obtain ⟨v', hv', hunfolds⟩ := hruns.unfolds rfl (u := c.state.bare) ⟨rfl, rfl⟩
  obtain ⟨rfl, rfl⟩ := hv'.unique hended hv (by simp)
  have hshapes : Node.shapes news = [tree.collapsed] := by
    rw [← hkids, shapes_reverse, ← hunfolds.kids, hmade]
    simp [Match.State.bare, shapes_reverse, hshape, Tree.collapsedAll]
  obtain ⟨n, rfl, hn⟩ := shapes_single hshapes
  refine ⟨t, n, ⟨hresult, q, hparent, hsteps.grows⟩, ?_, hn⟩
  rw [hsteps.agree.pos, ← hunfolds.pos, hpos]
  rfl

/-! ## Main statement -/

/-- Expressions are parsed as their grammar says. The tokens of a derivation are taken in full if the
token behind them does not carry the expression on, and whenever an expression is found, the tokens
that were taken are derived from the grammar. The node that is built is the derivation tree, of which
there is only one, less the levels that hold nothing but a phrase. Every match of an expression that
a parser calls for is as deep as is asked here. -/
theorem expressions_follow_grammar {tokens : Array Lexeme} (hend : EndsInEof tokens) {c : Call}
    (hc : c.Sound tokens) (hdeep : c.Deep tokens) (hexpr : c.pattern = Grammar.expr) :
    (∀ (w rest : List Lexeme) (next : Lexeme) (tree : Tree),
      tokens.toList.drop c.state.pos = w ++ next :: rest → tree.IsDerivation .expr w →
      next.kind ∉ exprKinds →
      ∃ t n, c.Adds tokens t n ∧ t.pos = c.state.pos + w.length ∧ n.shape = tree.collapsed ∧
        ∀ tree' : Tree, tree'.IsDerivation .expr w → tree' = tree) ∧
    (∀ t, c.result tokens = .ok (.matched, t) →
      ∃ (n : Node) (tree : Tree), c.Adds tokens t n ∧ c.state.pos ≤ t.pos ∧
        tree.IsDerivation .expr (span tokens c.state.pos t.pos) ∧ n.shape = tree.collapsed ∧
        ∀ tree' : Tree,
          tree'.IsDerivation .expr (span tokens c.state.pos t.pos) → tree' = tree) := by
  refine ⟨?_, ?_⟩
  · intro w rest next tree hdrop hder hnext
    obtain ⟨t, n, hadds, hpos, hshape⟩ := expr_taken hend hc hdeep hexpr hdrop hder hnext
    exact ⟨t, n, hadds, hpos, hshape, fun tree' h => derivation_unique h hder⟩
  · intro t' ht'
    obtain ⟨o, t, u, q, news, hresult, hended, hparent, hruns, hsteps, hkids⟩ :=
      expr_runs hend hc hdeep hexpr
    obtain ⟨rfl, rfl⟩ := Prod.mk.inj (Except.ok.inj (hresult.symm.trans ht'))
    obtain ⟨hle, -, made, hmade, hspan⟩ :=
      hruns.yields hend grammar_sparesEnd false (by decide) (by simp) hc.state.inside
    obtain ⟨made', hmade', hderives⟩ := (hruns.adds grammar_tidy rfl).1 rfl
    have hnews : made = news ∧ made' = news := by
      rw [← hkids, hmade]
      refine ⟨by simp [Match.State.bare], ?_⟩
      rw [hmade] at hmade'
      simpa [Match.State.bare] using hmade'.symm
    obtain ⟨rfl, rfl⟩ := hnews
    obtain ⟨ts, hts, hshapes⟩ := derives_bnf hderives rfl
    obtain ⟨kids, rfl, -⟩ := gives_phrase (l := .expr) hts
    obtain ⟨n, rfl, hn⟩ := shapes_single hshapes
    rw [hspan] at hts
    have hpos : t.pos = u.pos := hsteps.agree.pos
    rw [hpos]
    exact ⟨n, .inner .expr kids, ⟨hresult, q, hparent, hsteps.grows⟩, hle, hts, hn,
      fun tree' h => derivation_unique h hts⟩

/-- A number with a sign. -/
theorem expressions_follow_grammar_minus_two :
    let minus : Lexeme := ⟨.minus, "-", none, 1, 1⟩
    let two : Lexeme := ⟨.integerConst, "2", some (.int 2), 1, 2⟩
    let tokens : Array Lexeme := #[minus, two, .endOfSource 1 3]
    let s : Match.State := (({} : Match.State).push (.phrase .assignmentStmt)).2
    let c : Call := ⟨20000, Grammar.expr, some 0, s⟩
    EndsInEof tokens ∧ c.Sound tokens ∧ c.Deep tokens ∧
      ∃ t n, c.Adds tokens t n ∧ t.pos = 2 ∧
        n.shape = Tree.inner .expr [.inner .level2Expr [.inner .sign [.leaf minus],
          .inner .primary [.inner .unsignedArithmeticConstant [.leaf two]]]] := by
  intro minus two tokens s c
  have hend : EndsInEof tokens := by
    intro i hi
    obtain rfl : i = 2 := Nat.succ.inj hi
    rfl
  have hsound : c.Sound tokens :=
    ⟨⟨by decide, Arena.push_sound Arena.sound_empty (Cell.sound_phrase _)⟩, Nat.zero_lt_one⟩
  have hdeep : c.Deep tokens := by
    unfold Call.Deep
    decide
  have hnumber : Gives (.phrase .primary) [two] _ :=
    .phrase .primary (.alt_first (.phrase .unsignedArithmeticConstant
      (.alt_second (.token (by decide)))))
  have hsign : Gives (.phrase .sign) [minus] _ := .phrase .sign (.token (by decide))
  have hfactor : Gives (.phrase .multOperand) [two] _ :=
    .phrase .multOperand (.seq hnumber (.opt_none _))
  have hterm : Gives (.phrase .addOperand) [two] _ :=
    .phrase .addOperand (.seq hfactor (.many_end _))
  have hsum : Gives (.phrase .level2Expr) [minus, two] _ :=
    .phrase .level2Expr (.seq (.opt hsign) (.seq hterm (.many_end _)))
  have hrelation : Gives (.phrase .level4Expr) [minus, two] _ :=
    .phrase .level4Expr (.seq (.phrase .level3Expr (.seq hsum (.many_end _))) (.opt_none _))
  have hnegation : Gives (.phrase .andOperand) [minus, two] _ :=
    .phrase .andOperand (.seq (.many_end _) hrelation)
  have hder : Gives (.phrase .expr) [minus, two] _ :=
    .phrase .expr (.seq (.phrase .orOperand (.seq hnegation (.many_end _))) (.many_end _))
  obtain ⟨t, n, hadds, hpos, hshape, -⟩ := (expressions_follow_grammar hend hsound hdeep rfl).1
    [minus, two] [] (.endOfSource 1 3) _ rfl hder (by decide)
  exact ⟨hend, hsound, hdeep, t, n, hadds, hpos, hshape⟩

end FortranJulia
