import FortranJulia.Proofs.Parsing.Prediction

/-!
Every phrase of expressions is read in full, from the weakest operator down to constants, names and
subscripts. Expressions in parentheses and subscripts are shorter than the phrase around them, so
the induction is on a bound for the number of tokens.
-/

namespace FortranJulia

set_option autoImplicit false

open Bnf (Tree Gives production)
open Grammar (primary unsignedArithmeticConstant complexConst complexComponent functionReference
  nameDataRef logicalConstant sign complexDataRefTail sectionSubscript lblRef)

namespace TreeMatch

variable {tokens : Array Lexeme} {n : Nat} {lx : Lexeme} {w ws rest : List Lexeme}
  {ts : List Tree}

/-! ## Tokens that start nothing -/

/-- The kinds that an operand starts with, names apart. -/
def operandKinds : List Kind :=
  [.lparen, .realConst, .integerConst, .charConst, .trueConst, .falseConst, .hollerithConst,
   .binaryConst, .octalConst, .hexConst]

def signKinds : List Kind := [.plus, .minus]

/-- No operand starts with the token. -/
structure StartsNone (lx : Lexeme) : Prop where
  kind : lx.kind ∉ operandKinds
  name : Match.isName lx = false

theorem startsNone_of_kind {ks : List Kind} (h : lx.kind ∈ ks)
    (hks : ∀ k ∈ ks, k ∉ .name :: .editConst :: operandKinds) : StartsNone lx := by
  have hne := hks _ h
  simp only [List.mem_cons, not_or] at hne
  exact ⟨by simpa [operandKinds] using hne.2.2, by simp [Match.isName, hne.1, hne.2.1]⟩

theorem kind_of_isName (h : Match.isName lx) : lx.kind = .name ∨ lx.kind = .editConst := by
  simp only [Match.isName, Bool.or_eq_true, beq_iff_eq, Bool.and_eq_true] at h
  exact h.imp_right And.left

theorem fails_constant (h : lx.kind ∉ [Kind.lparen, .realConst, .integerConst]) :
    Fails tokens unsignedArithmeticConstant.unfolded (lx :: ws) := by
  simp only [List.mem_cons, List.not_mem_nil, or_false, not_or] at h
  have hcomplex : Misses tokens complexConst.unfolded (lx :: ws) :=
    .node (.seq_first (Misses.token h.1).fails)
  have hnumber : Misses tokens (.oneOf [.realConst, .integerConst]) (lx :: ws) :=
    .oneOf (by simp [h.2.1, h.2.2])
  exact (Misses.node (.alt hcomplex.fails hnumber.fails)).fails

theorem misses_name (h : Match.isName lx = false) (l : Label) :
    Misses tokens (Pattern.name l).unfolded (lx :: ws) :=
  .node (Misses.accept (p := .word) (by simp [accepts?, h])).fails

theorem fails_functionReference (h : Match.isName lx = false) :
    Fails tokens functionReference.unfolded (lx :: ws) :=
  (Misses.node (.seq_first (misses_name h .refName).fails)).fails

theorem fails_nameDataRef (h : Match.isName lx = false) :
    Fails tokens nameDataRef.unfolded (lx :: ws) :=
  (Misses.node (.seq_first (misses_name h .refName).fails)).fails

theorem fails_token {k : Kind} {p : Pattern} (h : lx.kind ≠ k) :
    Fails tokens (.seq (.token k) p) (lx :: ws) :=
  .seq_first (Misses.token h).fails

theorem fails_logicalConstant (h : lx.kind ∉ [Kind.trueConst, .falseConst]) :
    Fails tokens logicalConstant.unfolded (lx :: ws) :=
  (Misses.node (Misses.oneOf h).fails).fails

theorem misses_primary (h : StartsNone lx) : Misses tokens primary.unfolded (lx :: ws) := by
  have hkind := h.kind
  simp only [operandKinds, List.mem_cons, List.not_mem_nil, or_false, not_or] at hkind
  refine .node ?_
  refine .alt (fails_constant (by simp [hkind])) ?_
  refine .alt (fails_functionReference h.name) ?_
  refine .alt (fails_nameDataRef h.name) ?_
  refine .alt (fails_token hkind.1) ?_
  refine .alt (Misses.token hkind.2.2.2.1).fails ?_
  refine .alt (fails_logicalConstant (by simp [hkind])) ?_
  exact (Misses.oneOf (by simp [hkind])).fails

theorem misses_multOperand (h : StartsNone lx) : Misses tokens (.call .multOperand) (lx :: ws) :=
  .call (.node (.seq_first (misses_primary h).fails))

theorem misses_sign (h : lx.kind ∉ signKinds) : Misses tokens sign.unfolded (lx :: ws) :=
  .node (Misses.oneOf h).fails

theorem misses_addOperand (h : StartsNone lx) :
    Misses tokens Grammar.addOperand.unfolded (lx :: ws) :=
  .node (.seq_first (misses_multOperand h).fails)

theorem misses_level2Expr (h : StartsNone lx) (hsign : lx.kind ∉ signKinds) :
    Misses tokens Grammar.level2Expr.unfolded (lx :: ws) := by
  have hnone : Reads tokens (.opt sign.unfolded) [] [] (lx :: ws) := .opt_none (misses_sign hsign)
  exact .node (.seq_second hnone (by simp) (.seq_first (misses_addOperand h).fails))

theorem misses_level3Expr (h : StartsNone lx) (hsign : lx.kind ∉ signKinds) :
    Misses tokens Grammar.level3Expr.unfolded (lx :: ws) :=
  .node (.seq_first (misses_level2Expr h hsign).fails)

theorem misses_level4Expr (h : StartsNone lx) (hsign : lx.kind ∉ signKinds) :
    Misses tokens Grammar.level4Expr.unfolded (lx :: ws) :=
  .node (.seq_first (misses_level3Expr h hsign).fails)

theorem misses_andOperand (h : StartsNone lx) (hsign : lx.kind ∉ signKinds)
    (hnot : lx.kind ≠ .notOp) : Misses tokens Grammar.andOperand.unfolded (lx :: ws) := by
  have hnone : Reads tokens (.star (.token .notOp)) [] [] (lx :: ws) := .star_end (Misses.token hnot)
  exact .node (.seq_second hnone (by simp) (misses_level4Expr h hsign).fails)

theorem misses_expr {ks : List Kind} (h : lx.kind ∈ ks)
    (hks : ∀ k ∈ ks, k ∉ .notOp :: .plus :: .minus :: .name :: .editConst :: operandKinds) :
    Misses tokens Grammar.expr.unfolded (lx :: ws) := by
  have hstarts : StartsNone lx :=
    startsNone_of_kind h (fun k hk hmem => hks k hk (by simp_all))
  have hne := hks _ h
  simp only [List.mem_cons, not_or] at hne
  have hsign : lx.kind ∉ signKinds := by simp [signKinds, hne]
  exact .call (.node (.seq_first
    (Misses.node (.seq_first (misses_andOperand hstarts hsign hne.1).fails)).fails))

/-- The first token of what a pattern reads is none before which another pattern would not. -/
theorem misses_before {p q : Pattern} (ks : List Kind) (hread : Reads tokens q w ts rest)
    (hrest : rest ≠ []) (hq : ∀ lx ws, lx.kind ∈ ks → Fails tokens q (lx :: ws))
    (hp : ∀ lx ws, lx.kind ∉ ks → Misses tokens p (lx :: ws)) : Misses tokens p (w ++ rest) := by
  intro s hs
  obtain ⟨lx, ws, hws⟩ := List.exists_cons_of_ne_nil hs.some_left
  by_cases hlx : lx.kind ∈ ks
  · exact absurd (hws ▸ hq lx ws hlx) (hread.not_fails hrest hs)
  · rw [hws] at hs
    exact hp lx ws hlx s hs

/-! ## Constants and names -/

theorem covers_sign : Covers tokens n sign.unfolded .sign fun _ => True := by
  refine .node fun w ts rest _ h _ => ?_
  obtain ⟨lx, rfl, rfl, hlx⟩ := gives_tokens h
  exact .oneOf hlx

theorem covers_refName : Covers tokens n (Pattern.name .refName).unfolded .refName fun _ => True := by
  refine .node fun w ts rest _ h _ => ?_
  obtain ⟨lx, rfl, rfl, hlx⟩ := gives_names h
  exact Reads.accept (p := .word) (by simp [accepts?, hlx])

theorem covers_lblRef : Covers tokens n lblRef.unfolded .lblRef fun _ => True := by
  refine .node fun w ts rest _ h _ => ?_
  obtain ⟨lx, rfl, rfl, hlx⟩ := gives_tokens h
  exact .token (by simpa using hlx)

theorem covers_logicalConstant :
    Covers tokens n logicalConstant.unfolded .logicalConstant fun _ => True := by
  refine .node fun w ts rest _ h _ => ?_
  obtain ⟨lx, rfl, rfl, hlx⟩ := gives_tokens h
  exact .oneOf hlx

theorem covers_complexComponent :
    Covers tokens n complexComponent.unfolded .complexComponent fun _ => True := by
  refine .node fun w ts rest _ h _ => ?_
  obtain ⟨w₁, w₂, ts₁, ts₂, rfl, rfl, hsign, hnumber⟩ := gives_both h
  obtain ⟨lx, rfl, rfl, hlx⟩ := gives_tokens hnumber
  refine .seq ?_ (.oneOf hlx)
  rcases gives_perhaps hsign with ⟨rfl, rfl⟩ | hsign
  · refine .opt_none (misses_sign ?_)
    intro hmem
    simp only [signKinds, List.mem_cons, List.not_mem_nil, or_false] at hlx hmem
    rcases hlx with hlx | hlx <;> rw [hlx] at hmem <;> simp at hmem
  · exact .opt (covers_sign w₁ ts₁ _ (Nat.le_refl _) hsign trivial)

theorem covers_complexConst : Covers tokens n complexConst.unfolded .complexConst fun _ => True := by
  refine .node fun w ts rest _ h _ => ?_
  obtain ⟨w₁, _, ts₁, _, rfl, rfl, h₁, h⟩ := gives_both h
  obtain ⟨w₂, _, ts₂, _, rfl, rfl, h₂, h⟩ := gives_both h
  obtain ⟨w₃, _, ts₃, _, rfl, rfl, h₃, h⟩ := gives_both h
  obtain ⟨w₄, w₅, ts₄, ts₅, rfl, rfl, h₄, h₅⟩ := gives_both h
  obtain ⟨lparen, rfl, rfl, hlparen⟩ := gives_tokens h₁
  obtain ⟨comma, rfl, rfl, hcomma⟩ := gives_tokens h₃
  obtain ⟨rparen, rfl, rfl, hrparen⟩ := gives_tokens h₅
  exact .seq (.token (by simpa using hlparen)) <|
    .seq (covers_complexComponent w₂ ts₂ _ (Nat.le_refl _) h₂ trivial) <|
    .seq (.token (by simpa using hcomma)) <|
    .seq (covers_complexComponent w₄ ts₄ _ (Nat.le_refl _) h₄ trivial)
      (.token (by simpa using hrparen))

theorem covers_constant :
    Covers tokens n unsignedArithmeticConstant.unfolded .unsignedArithmeticConstant
      fun _ => True := by
  refine .node fun w ts rest _ h _ => ?_
  rcases gives_either h with h | h
  · exact .alt_first (covers_complexConst w ts rest (Nat.le_refl _) h trivial)
  · obtain ⟨lx, rfl, rfl, hlx⟩ := gives_tokens h
    have hne : lx.kind ≠ .lparen := by
      intro heq
      rw [heq] at hlx
      simp at hlx
    exact .alt_second (Misses.node (fails_token hne)).fails (.oneOf hlx)

theorem covers_functionReference :
    Covers tokens n functionReference.unfolded .functionReference fun _ => True := by
  refine .node fun w ts rest _ h _ => ?_
  obtain ⟨w₁, _, ts₁, _, rfl, rfl, h₁, h⟩ := gives_both h
  obtain ⟨w₂, w₃, ts₂, ts₃, rfl, rfl, h₂, h₃⟩ := gives_both h
  obtain ⟨lparen, rfl, rfl, hlparen⟩ := gives_tokens h₂
  obtain ⟨rparen, rfl, rfl, hrparen⟩ := gives_tokens h₃
  exact .seq (covers_refName w₁ ts₁ _ (Nat.le_refl _) h₁ trivial) <|
    .seq (.token (by simpa using hlparen)) (.token (by simpa using hrparen))

/-! ## Subscripts -/

/-- Expressions up to a length are read. -/
def CoversExpr (tokens : Array Lexeme) (n : Nat) : Prop :=
  Covers tokens n Grammar.expr.unfolded .expr (Ends exprKinds)

/-- What stands behind a subscript. -/
def subscriptEnds : List Kind := [.comma, .rparen]

/-- A token of one of these kinds comes next. -/
def Starts (ks : List Kind) (rest : List Lexeme) : Prop :=
  ∃ lx tail, rest = lx :: tail ∧ lx.kind ∈ ks

theorem Starts.ends {ks ks' : List Kind} (h : Starts ks rest) (hks : ∀ k ∈ ks, k ∉ ks') :
    Ends ks' rest := by
  obtain ⟨lx, tail, rfl, hlx⟩ := h
  exact ⟨lx, tail, rfl, hks _ hlx⟩

theorem Starts.mono {ks ks' : List Kind} (h : Starts ks rest) (hks : ∀ k ∈ ks, k ∈ ks') :
    Starts ks' rest := by
  obtain ⟨lx, tail, rfl, hlx⟩ := h
  exact ⟨lx, tail, rfl, hks _ hlx⟩

theorem Starts.misses_expr {ks : List Kind} (h : Starts ks rest)
    (hks : ∀ k ∈ ks, k ∉ .notOp :: .plus :: .minus :: .name :: .editConst :: operandKinds) :
    Misses tokens Grammar.expr.unfolded rest := by
  obtain ⟨lx, tail, rfl, hlx⟩ := h
  exact TreeMatch.misses_expr hlx hks

/-- A colon and what may follow it. -/
theorem reads_colon (hexpr : CoversExpr tokens n) (hw : w.length ≤ n)
    (h : Gives (.seq (.token [.colon]) (.opt (.phrase .expr))) w ts)
    (hrest : Starts subscriptEnds rest) :
    Reads tokens (.seq (.token .colon) (.opt Grammar.expr.unfolded)) w ts rest := by
  obtain ⟨w₁, w₂, ts₁, ts₂, rfl, rfl, hcolon, hupper⟩ := gives_both h
  obtain ⟨colon, rfl, rfl, hkind⟩ := gives_tokens hcolon
  rw [List.length_append] at hw
  refine .seq (.token (by simpa using hkind)) ?_
  rcases gives_perhaps hupper with ⟨rfl, rfl⟩ | hupper
  · exact .opt_none (hrest.misses_expr (by decide))
  · exact .opt (hexpr w₂ ts₂ rest (by omega) hupper (hrest.ends (by decide)))

theorem covers_sectionSubscript (hexpr : CoversExpr tokens n) :
    Covers tokens n sectionSubscript.unfolded .sectionSubscript (Starts subscriptEnds) := by
  refine .node fun w ts rest hw h hrest => ?_
  rcases gives_either h with h | h
  · obtain ⟨w₁, w₂, ts₁, ts₂, rfl, rfl, hlower, hrange⟩ := gives_both h
    rw [List.length_append] at hw
    refine .alt_first (.seq ?_ ?_)
    · refine hexpr w₁ ts₁ _ (by omega) hlower ?_
      rcases gives_perhaps hrange with ⟨rfl, rfl⟩ | hrange
      · exact hrest.ends (by decide)
      · obtain ⟨wc, wu, _, _, rfl, -, hcolon, -⟩ := gives_both hrange
        obtain ⟨colon, rfl, -, hkind⟩ := gives_tokens hcolon
        exact .cons hkind (by decide)
    · rcases gives_perhaps hrange with ⟨rfl, rfl⟩ | hrange
      · obtain ⟨lx, tail, rfl, hlx⟩ := hrest
        refine .opt_none (.seq (Misses.token ?_))
        rintro heq
        rw [heq] at hlx
        exact absurd hlx (by decide)
      · exact .opt (reads_colon hexpr (by omega) hrange hrest)
  · have hnone : ∀ {k : Kind} {lx ws}, lx.kind = k → k ∈ [Kind.colon, .star] →
        Fails tokens (.seq Grammar.expr.unfolded (.opt (.seq (.token .colon)
          (.opt Grammar.expr.unfolded)))) (lx :: ws) := by
      rintro k lx ws rfl hk
      exact .seq_first (misses_expr hk (by decide)).fails
    rcases gives_either h with h | h
    · have hread := reads_colon hexpr hw h hrest
      obtain ⟨wc, wu, _, _, rfl, -, hcolon, -⟩ := gives_both h
      obtain ⟨colon, rfl, -, hkind⟩ := gives_tokens hcolon
      exact .alt_second (hnone (List.mem_singleton.1 hkind) (by decide)) (.alt_first hread)
    · obtain ⟨w₁, w₂, ts₁, ts₂, rfl, rfl, hstar, hlabel⟩ := gives_both h
      obtain ⟨star, rfl, rfl, hkind⟩ := gives_tokens hstar
      have hkind : star.kind = .star := List.mem_singleton.1 hkind
      have hcolon : star.kind ≠ .colon := by simp [hkind]
      exact .alt_second (hnone hkind (by decide)) <| .alt_second (fails_token hcolon) <|
        .seq (.token hkind) (covers_lblRef w₂ ts₂ rest (Nat.le_refl _) hlabel trivial)

theorem fails_sectionSubscript (h : lx.kind = .rparen) :
    Fails tokens sectionSubscript.unfolded (lx :: ws) := by
  have hmem : lx.kind ∈ [Kind.rparen] := by simp [h]
  have hexpr : Misses tokens Grammar.expr.unfolded (lx :: ws) := misses_expr hmem (by decide)
  refine (Misses.node (.alt (.seq_first hexpr.fails) (.alt ?_ ?_))).fails
  · exact fails_token (by simp [h])
  · exact fails_token (by simp [h])

/-- A list of subscripts, which does not start with the end of the list. -/
theorem covers_sectionSubscriptList (hexpr : CoversExpr tokens n) :
    Covers tokens n (Pattern.list .sectionSubscriptList sectionSubscript).unfolded
      .sectionSubscriptList (Starts [.rparen]) := by
  refine .node fun w ts rest hw h hrest => ?_
  obtain ⟨w₁, w₂, ts₁, ts₂, rfl, rfl, hfirst, hmore⟩ := gives_both h
  rw [List.length_append] at hw
  have hitem : ∀ w ts rest, w.length ≤ n →
      Gives (.seq (.token [.comma]) (.phrase .sectionSubscript)) w ts → Starts subscriptEnds rest →
      Reads tokens (.attempt (.seq (.token .comma) sectionSubscript.unfolded)) w ts rest := by
    intro w ts rest hw h hrest
    obtain ⟨w₁, w₂, ts₁, ts₂, rfl, rfl, hcomma, hitem⟩ := gives_both h
    obtain ⟨comma, rfl, rfl, hkind⟩ := gives_tokens hcomma
    rw [List.length_append] at hw
    exact .attempt (.seq (.token (by simpa using hkind))
      (covers_sectionSubscript hexpr w₂ ts₂ rest (by omega) hitem hrest))
  have hnext : ∀ w ts rest, Gives (.seq (.token [.comma]) (.phrase .sectionSubscript)) w ts →
      Starts subscriptEnds (w ++ rest) := by
    intro w ts rest h
    obtain ⟨w₁, w₂, ts₁, ts₂, rfl, rfl, hcomma, -⟩ := gives_both h
    obtain ⟨comma, rfl, rfl, hkind⟩ := gives_tokens hcomma
    exact ⟨comma, w₂ ++ rest, rfl, by rw [List.mem_singleton.1 hkind]; decide⟩
  have hstop : ∀ rest, Starts [.rparen] rest →
      Misses tokens (.attempt (.seq (.token .comma) sectionSubscript.unfolded)) rest := by
    rintro rest ⟨rparen, tail, rfl, hkind⟩
    exact .attempt (fails_token (by simp [List.mem_singleton.1 hkind]))
  obtain ⟨hread, hbetween⟩ := reads_many _ hitem hnext (fun _ h => h.mono (by decide)) hstop (by omega)
    hmore hrest
  exact .seq (covers_sectionSubscript hexpr w₁ ts₁ _ (by omega) hfirst hbetween) hread

theorem fails_sectionSubscriptList (h : lx.kind = .rparen) :
    Fails tokens (Pattern.list .sectionSubscriptList sectionSubscript).unfolded (lx :: ws) :=
  (Misses.node (.seq_first (fails_sectionSubscript h))).fails

/-! ## References and operands -/

theorem covers_complexDataRefTail (hexpr : ∀ m < n, CoversExpr tokens m) :
    Covers tokens n complexDataRefTail.unfolded .complexDataRefTail fun _ => True := by
  refine .node fun w ts rest hw h _ => ?_
  obtain ⟨w₁, _, ts₁, _, rfl, rfl, h₁, h⟩ := gives_both h
  obtain ⟨w₂, w₃, ts₂, ts₃, rfl, rfl, h₂, h₃⟩ := gives_both h
  obtain ⟨lparen, rfl, rfl, hlparen⟩ := gives_tokens h₁
  obtain ⟨rparen, rfl, rfl, hrparen⟩ := gives_tokens h₃
  simp only [List.length_append, List.length_singleton] at hw
  have hlist := covers_sectionSubscriptList (hexpr w₂.length (by omega)) w₂ ts₂ ([rparen] ++ rest)
    (Nat.le_refl _) h₂ ⟨rparen, rest, rfl, hrparen⟩
  exact .seq (.token (by simpa using hlparen)) (.seq hlist (.token (by simpa using hrparen)))

/-- A name with subscripts is no name with an empty list of arguments. -/
theorem fails_functionReference_of_tails (hexpr : ∀ m < n, CoversExpr tokens m) {v : List Lexeme}
    {us : List Tree} (hv : v.length ≤ n) (hname : Gives (.phrase .refName) w ts)
    (htails : Gives (.many (.phrase .complexDataRefTail)) v us) (hrest : Ends [.lparen] rest) :
    Fails tokens functionReference.unfolded (w ++ (v ++ rest)) := by
  have hread : ∀ ws, Reads tokens (Pattern.name .refName).unfolded w ts ws :=
    fun ws => covers_refName w ts ws (Nat.le_refl _) hname trivial
  refine (Misses.node ?_).fails
  cases htails with
  | many_end =>
    obtain ⟨lx, tail, rfl, hlx⟩ := hrest
    exact .seq_second (hread _) (by simp) (fails_token (by simpa using hlx))
  | @many_more _ v₁ v₂ us₁ us₂ htail hmore =>
    obtain ⟨kids, -, htail⟩ := gives_phrase htail
    obtain ⟨w₁, _, ts₁, _, rfl, -, h₁, h⟩ := gives_both htail
    obtain ⟨w₂, w₃, ts₂, ts₃, rfl, -, h₂, h₃⟩ := gives_both h
    obtain ⟨lparen, rfl, -, hlparen⟩ := gives_tokens h₁
    obtain ⟨rparen, rfl, -, hrparen⟩ := gives_tokens h₃
    simp only [List.length_append, List.length_singleton] at hv
    have hlist := covers_sectionSubscriptList (hexpr w₂.length (by omega)) w₂ ts₂
      ([rparen] ++ (v₂ ++ rest)) (Nat.le_refl _) h₂ ⟨rparen, _, rfl, hrparen⟩
    have hclosed : Misses tokens (.token .rparen) (w₂ ++ ([rparen] ++ (v₂ ++ rest))) :=
      misses_before [.rparen] hlist (by simp)
        (fun lx ws h => fails_sectionSubscriptList (by simpa using h))
        (fun lx ws h => Misses.token (by simpa using h))
    have hopened : Fails tokens (.seq (.token .lparen) (.token .rparen))
        ([lparen] ++ (w₂ ++ ([rparen] ++ (v₂ ++ rest)))) :=
      .seq_second (.token (by simpa using hlparen)) (by simp) hclosed.fails
    simp only [List.append_assoc]
    exact .seq_second (hread _) (by simp) hopened

theorem covers_nameDataRef (hexpr : ∀ m < n, CoversExpr tokens m) :
    Covers tokens n nameDataRef.unfolded .nameDataRef (Ends [.lparen]) := by
  refine .node fun w ts rest hw h hrest => ?_
  obtain ⟨w₁, w₂, ts₁, ts₂, rfl, rfl, hname, htails⟩ := gives_both h
  rw [List.length_append] at hw
  have hstop : ∀ rest, Ends [.lparen] rest → Misses tokens complexDataRefTail.unfolded rest := by
    rintro rest ⟨lx, tail, rfl, hlx⟩
    exact .node (fails_token (by simpa using hlx))
  obtain ⟨hread, -⟩ := reads_many (fun _ => True) (covers_complexDataRefTail hexpr)
    (fun _ _ _ _ => trivial) (fun _ _ => trivial) hstop (by omega) htails hrest
  exact .seq (covers_refName w₁ ts₁ _ (Nat.le_refl _) hname trivial) hread

/-- A number with or without a sign is an expression. -/
theorem gives_expr_of_component (h : Gives (.phrase .complexComponent) w ts) :
    ∃ us, Gives (.phrase .expr) w us := by
  have hone : ∀ {l m : Label} {b : Bnf} {v : List Lexeme} {us : List Tree},
      production l = .seq (.phrase m) (.many b) → Gives (.phrase m) v us →
        Gives (.phrase l) v [.inner l us] := by
    intro l m b v us hl hm
    refine .phrase l ?_
    rw [hl]
    simpa using Gives.seq hm (.many_end b)
  obtain ⟨kids, -, h⟩ := gives_phrase h
  obtain ⟨w₁, w₂, ts₁, ts₂, rfl, -, hsign, hnumber⟩ := gives_both h
  obtain ⟨lx, rfl, -, hlx⟩ := gives_tokens hnumber
  have hconstant : Gives (production .unsignedArithmeticConstant) [lx] [.leaf lx] :=
    .alt_second (.token (by simpa [or_comm] using hlx))
  have hprimary := Gives.phrase .primary (.alt_first (.phrase .unsignedArithmeticConstant hconstant))
  have hfactor := Gives.phrase .multOperand
    (by simpa [production] using Gives.seq hprimary (.opt_none (.phrase .powerOp)))
  have hterm := hone (l := .addOperand) rfl hfactor
  have hsum := Gives.phrase .level2Expr
    (by simpa [production] using Gives.seq hsign (.seq hterm (.many_end (.phrase .addOp))))
  have htext := hone (l := .level3Expr) rfl hsum
  have hrelation := Gives.phrase .level4Expr
    (by simpa [production] using Gives.seq htext (.opt_none (.phrase .relOp)))
  have hnegation := Gives.phrase .andOperand
    (by simpa [production] using Gives.seq (.many_end (.token [.notOp])) hrelation)
  exact ⟨_, hone (l := .expr) rfl (hone (l := .orOperand) rfl hnegation)⟩

/-- Where an expression starts with a number, no comma follows the number: the number alone would
be all of the expression. -/
theorem fails_complexConst_of_component (hexpr : CoversExpr tokens n) {c e : List Lexeme}
    {us : List Tree} {lparen rparen : Lexeme} (hlparen : lparen.kind = .lparen)
    (hrparen : rparen.kind = .rparen) (hc : Gives (.phrase .complexComponent) c us)
    (he : Gives (.phrase .expr) (c ++ e) ts) (hn : (c ++ e).length ≤ n) :
    Fails tokens complexConst.unfolded ([lparen] ++ (c ++ (e ++ ([rparen] ++ rest)))) := by
  intro s hs
  have hread : Reads tokens complexComponent.unfolded c us (e ++ ([rparen] ++ rest)) :=
    covers_complexComponent c us _ (Nat.le_refl _) hc trivial
  have hcomma : Fails tokens (.token .comma) (e ++ ([rparen] ++ rest)) := by
    cases e with
    | nil => exact (Misses.token (by simp [hrparen])).fails
    | cons next e =>
      refine (Misses.token fun hnext => ?_).fails
      obtain ⟨vs, hv⟩ := gives_expr_of_component hc
      have hlen : c.length ≤ n := by
        rw [List.length_append] at hn
        omega
      have hnumber := hexpr c vs (next :: e ++ ([rparen] ++ rest)) hlen hv
        ⟨next, _, rfl, by rw [hnext]; decide⟩
      have hwhole := hexpr (c ++ next :: e) ts ([rparen] ++ rest) hn he
        ⟨rparen, rest, rfl, by rw [hrparen]; decide⟩
      have hinner : State.Before tokens { s with pos := s.pos + 1 }
          (c ++ (next :: e ++ ([rparen] ++ rest))) :=
        State.Before.behind (w := [lparen]) hs rfl (by simp)
      have hsame := hnumber.length_eq hwhole (by simp) (by simp) (by simp) hinner
      simp only [List.length_append, List.length_cons] at hsame
      omega
  exact (Misses.node (.seq_second (.token hlparen) (by simp)
    (.seq_second hread (by simp) (.seq_first hcomma)))).fails s hs

/-- An expression in parentheses is no complex constant. -/
theorem fails_complexConst (hexpr : CoversExpr tokens n) {lparen rparen : Lexeme}
    (hlparen : lparen.kind = .lparen) (hrparen : rparen.kind = .rparen)
    (hw : Gives (.phrase .expr) w ts) (hn : w.length ≤ n) :
    Fails tokens complexConst.unfolded ([lparen] ++ (w ++ ([rparen] ++ rest))) := by
  have hnone : ∀ {ws}, ws ≠ [] → Fails tokens complexComponent.unfolded ws →
      Fails tokens complexConst.unfolded ([lparen] ++ ws) := fun hws h =>
    (Misses.node (.seq_second (.token hlparen) hws (.seq_first h))).fails
  have hunsigned : ∀ {lx ws}, lx.kind ∉ signKinds → lx.kind ∉ [Kind.integerConst, .realConst] →
      Fails tokens complexComponent.unfolded (lx :: ws) := fun hsign hnumber =>
    (Misses.node (.seq_second (.opt_none (misses_sign hsign)) (by simp)
      (Misses.oneOf hnumber).fails)).fails
  have hsigned : ∀ {sg lx ws}, sg.kind ∈ signKinds → lx.kind ∉ [Kind.integerConst, .realConst] →
      Fails tokens complexComponent.unfolded (sg :: lx :: ws) := by
    intro sg lx ws hsg hnumber
    have hread : Reads tokens (.opt sign.unfolded) [sg] [.inner .sign [.leaf sg]] (lx :: ws) :=
      .opt (.node (.oneOf hsg))
    exact (Misses.node (.seq_second hread (by simp) (Misses.oneOf hnumber).fails)).fails
  have hrparen' : rparen.kind ∉ [Kind.integerConst, .realConst] := by simp [hrparen]
  match w with
  | [] => exact hnone (by simp) (hunsigned (by simp [hrparen, signKinds]) hrparen')
  | a :: e =>
    by_cases hnumber : a.kind ∈ [Kind.integerConst, .realConst]
    · have hc : Gives (.phrase .complexComponent) [a] _ :=
        .phrase _ (.seq (.opt_none (.phrase .sign)) (.token hnumber))
      exact fails_complexConst_of_component hexpr hlparen hrparen hc hw hn
    · by_cases hsg : a.kind ∈ signKinds
      · match e with
        | [] => exact hnone (by simp) (hsigned hsg hrparen')
        | b :: e =>
          by_cases hsecond : b.kind ∈ [Kind.integerConst, .realConst]
          · have hc : Gives (.phrase .complexComponent) [a, b] _ :=
              .phrase _ (.seq (.opt (.phrase .sign (.token hsg))) (.token hsecond))
            exact fails_complexConst_of_component hexpr hlparen hrparen hc hw hn
          · exact hnone (by simp) (hsigned hsg hsecond)
      · exact hnone (by simp) (hunsigned hsg hnumber)

theorem covers_primary (hexpr : ∀ m < n, CoversExpr tokens m) :
    Covers tokens n primary.unfolded .primary (Ends [.lparen]) := by
  refine .node fun w ts rest hw h hrest => ?_
  have hnamed : ∀ {v us ws}, Gives (.phrase .refName) v us →
      Fails tokens unsignedArithmeticConstant.unfolded (v ++ ws) := by
    intro v us ws h
    obtain ⟨kids, -, h⟩ := gives_phrase h
    obtain ⟨lx, rfl, -, hlx⟩ := gives_names h
    exact fails_constant (by rcases kind_of_isName hlx with h | h <;> simp [h])
  rcases gives_either h with h | h
  · exact .alt_first (covers_constant w ts rest (Nat.le_refl _) h trivial)
  rcases gives_either h with h | h
  · have hread : Reads tokens functionReference.unfolded w ts rest :=
      covers_functionReference w ts rest (Nat.le_refl _) h trivial
    obtain ⟨kids, -, h⟩ := gives_phrase h
    obtain ⟨v, v', us, us', rfl, -, hname, -⟩ := gives_both h
    have hconstant : Fails tokens unsignedArithmeticConstant.unfolded (v ++ (v' ++ rest)) :=
      hnamed hname
    rw [← List.append_assoc] at hconstant
    exact .alt_second hconstant (.alt_first hread)
  rcases gives_either h with h | h
  · have hread := covers_nameDataRef hexpr w ts rest hw h hrest
    obtain ⟨kids, -, h⟩ := gives_phrase h
    obtain ⟨v, v', us, us', rfl, -, hname, htails⟩ := gives_both h
    have hconstant : Fails tokens unsignedArithmeticConstant.unfolded (v ++ (v' ++ rest)) :=
      hnamed hname
    rw [List.length_append] at hw
    have hfunction := fails_functionReference_of_tails hexpr (by omega) hname htails hrest
    rw [← List.append_assoc] at hconstant hfunction
    exact .alt_second hconstant (.alt_second hfunction (.alt_first hread))
  rcases gives_either h with h | h
  · obtain ⟨w₁, _, ts₁, _, rfl, rfl, h₁, h⟩ := gives_both h
    obtain ⟨w₂, w₃, ts₂, ts₃, rfl, rfl, h₂, h₃⟩ := gives_both h
    obtain ⟨lparen, rfl, rfl, hlparen⟩ := gives_tokens h₁
    obtain ⟨rparen, rfl, rfl, hrparen⟩ := gives_tokens h₃
    have hlparen : lparen.kind = .lparen := List.mem_singleton.1 hlparen
    have hrparen : rparen.kind = .rparen := List.mem_singleton.1 hrparen
    simp only [List.length_append, List.length_singleton] at hw
    have hinner := hexpr w₂.length (by omega)
    have hname : Match.isName lparen = false := by simp [Match.isName, hlparen]
    have hcomplex : Fails tokens complexConst.unfolded ([lparen] ++ (w₂ ++ ([rparen] ++ rest))) :=
      fails_complexConst hinner hlparen hrparen h₂ (Nat.le_refl _)
    have hnumber : Fails tokens (.oneOf [.realConst, .integerConst])
        ([lparen] ++ (w₂ ++ ([rparen] ++ rest))) := (Misses.oneOf (by simp [hlparen])).fails
    have hconstant : Fails tokens unsignedArithmeticConstant.unfolded
        ([lparen] ++ (w₂ ++ ([rparen] ++ rest))) := (Misses.node (.alt hcomplex hnumber)).fails
    have hread := hinner w₂ ts₂ ([rparen] ++ rest) (Nat.le_refl _) h₂
      ⟨rparen, rest, rfl, by rw [hrparen]; decide⟩
    refine .alt_second (by simpa only [List.append_assoc] using hconstant) ?_
    refine .alt_second (fails_functionReference hname) (.alt_second (fails_nameDataRef hname) ?_)
    exact .alt_first (.seq (.token hlparen) (.seq hread (.token hrparen)))
  -- A single token of a kind that starts nothing else.
  have hsingle : ∀ {ks : List Kind} {v us} {p : Pattern},
      (∀ k ∈ ks, k ∉ Kind.name :: .editConst :: .lparen :: .realConst :: .integerConst :: []) →
      (∃ lx, v = [lx] ∧ lx.kind ∈ ks) → Reads tokens p v us rest →
      Reads tokens (.alt unsignedArithmeticConstant.unfolded (.alt functionReference.unfolded
        (.alt nameDataRef.unfolded (.alt (.seq (.token .lparen)
          (.seq Grammar.expr.unfolded (.token .rparen))) p)))) v us rest := by
    rintro ks v us p hks ⟨lx, rfl, hlx⟩ hread
    have hkind := hks _ hlx
    simp only [List.mem_cons, List.not_mem_nil, or_false, not_or] at hkind
    have hname : Match.isName lx = false := by simp [Match.isName, hkind]
    exact .alt_second (fails_constant (by simp [hkind])) <|
      .alt_second (fails_functionReference hname) <| .alt_second (fails_nameDataRef hname) <|
      .alt_second (fails_token hkind.2.2.1) hread
  rcases gives_either h with h | h
  · obtain ⟨lx, rfl, rfl, hlx⟩ := gives_tokens h
    exact hsingle (by decide) ⟨lx, rfl, hlx⟩ (.alt_first (.token (List.mem_singleton.1 hlx)))
  rcases gives_either h with h | h
  · have hread : Reads tokens logicalConstant.unfolded w ts rest :=
      covers_logicalConstant w ts rest (Nat.le_refl _) h trivial
    obtain ⟨kids, -, h⟩ := gives_phrase h
    obtain ⟨lx, rfl, -, hlx⟩ := gives_tokens h
    have hne : lx.kind ≠ .charConst := by rintro heq; rw [heq] at hlx; simp at hlx
    exact hsingle (by decide) ⟨lx, rfl, hlx⟩
      (.alt_second (Misses.token hne).fails (.alt_first hread))
  · obtain ⟨lx, rfl, rfl, hlx⟩ := gives_tokens h
    have hne : lx.kind ≠ .charConst := by rintro heq; rw [heq] at hlx; simp at hlx
    have hne' : lx.kind ∉ [Kind.trueConst, .falseConst] := by
      intro hmem
      simp only [List.mem_cons, List.not_mem_nil, or_false] at hmem
      rcases hmem with hmem | hmem <;> rw [hmem] at hlx <;> simp at hlx
    exact hsingle (by decide) ⟨lx, rfl, hlx⟩
      (.alt_second (Misses.token hne).fails
        (.alt_second (fails_logicalConstant hne') (.oneOf hlx)))

end TreeMatch

end FortranJulia
