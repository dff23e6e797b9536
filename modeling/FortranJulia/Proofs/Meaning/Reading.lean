import FortranJulia.Proofs.Meaning.Julia
import Mathlib.Data.List.TakeWhile
import Mathlib.Tactic.FieldSimp
import Mathlib.Tactic.NormNum

/-!
What a text is read as. `Lexes` says which tokens a text is cut into wherever it ends at a blank, a
closing parenthesis or a comma, and `Spells` which tokens spell a term of a level, as a grammar.
Main statement: a text whose tokens spell a term has the value of that term.
-/

namespace FortranJulia.Julia

set_option autoImplicit false

/-! ## Texts and their tokens -/

/-- The text goes on with something that ends a word. -/
def Breaks (rest : List Char) : Prop :=
  ∀ c, rest.head? = some c → isWordChar c = false ∧ c ≠ '.'

theorem breaks_nil : Breaks [] := by
  simp [Breaks]

theorem breaks_cons {c : Char} (hc : isWordChar c = false) (hpoint : c ≠ '.') (rest : List Char) :
    Breaks (c :: rest) := by
  intro d hd
  cases hd
  exact ⟨hc, hpoint⟩

-- The lemmas below share the equations of `tokensFrom`.
attribute [local simp] tokensFrom

theorem tokensFrom_continues {run : List Char} {c : Char} (hc : continues run c) (cs : List Char) :
    tokensFrom run (c :: cs) = tokensFrom (run ++ [c]) cs := by
  cases cs with
  | nil => simp [tokensFrom, hc]
  | cons d cs => rw [tokensFrom, if_pos hc]

/-- A run of word characters is one run. -/
theorem tokensFrom_run (w : List Char) : ∀ run rest, (∀ c ∈ w, isWordChar c) →
    tokensFrom run (w ++ rest) = tokensFrom (run ++ w) rest := by
  induction w with
  | nil => intro run rest _; simp
  | cons c w ih =>
    intro run rest hw
    have hc : continues run c := by simp [continues, hw c (by simp)]
    rw [List.cons_append, tokensFrom_continues hc, ih _ rest (fun d hd => hw d (by simp [hd])),
      List.append_assoc, List.singleton_append]

/-- A run ends where something comes that ends a word. -/
theorem tokensFrom_break (run : List Char) {rest : List Char} (h : Breaks rest) :
    tokensFrom run rest =
      (finish run).bind fun ts => (tokensFrom [] rest).map (ts ++ ·) := by
  cases rest with
  | nil => simp [tokensFrom, finish]
  | cons c cs =>
    obtain ⟨hc, hpoint⟩ := h c rfl
    have hstop : ∀ r, continues r c = false := by
      intro r
      simp [continues, hc, hpoint]
    cases cs with
    | nil => simp [tokensFrom, hstop, finish]
    | cons d cs =>
      rw [tokensFrom, tokensFrom, if_neg (by simp [hstop]), if_neg (by simp [hstop])]
      congr 1
      funext ts
      cases longSign? c d with
      | some s => simp [finish, Option.map_map, Function.comp_def]
      | none =>
        simp only [finish, Option.bind_some, List.nil_append]
        cases single c with
        | none => rfl
        | some us => simp [Option.map_map, Function.comp_def]

theorem tokensFrom_single {c : Char} {us : List Token} (hc : continues [] c = false)
    (hus : single c = some us) {cs : List Char} (hlong : ∀ d, cs.head? = some d →
      longSign? c d = none) : tokensFrom [] (c :: cs) = (tokensFrom [] cs).map (us ++ ·) := by
  cases cs with
  | nil => simp [tokensFrom, hc, hus, finish]
  | cons d cs =>
    rw [tokensFrom, if_neg (by simp [hc]), hlong d rfl]
    simp [finish, hus]

theorem tokensFrom_long {c d : Char} {s : Sign} (hc : continues [] c = false)
    (hs : longSign? c d = some s) (cs : List Char) :
    tokensFrom [] (c :: d :: cs) = (tokensFrom [] cs).map (.sign s :: ·) := by
  rw [tokensFrom, if_neg (by simp [hc]), hs]
  simp [finish]

/-- The text is cut into the tokens wherever it ends at something that ends a word. -/
def Lexes (cs : List Char) (ts : List Token) : Prop :=
  ∀ rest, Breaks rest → tokensFrom [] (cs ++ rest) = (tokensFrom [] rest).map (ts ++ ·)

/-- The text is cut into the tokens whatever comes after it. -/
def Cuts (cs : List Char) (ts : List Token) : Prop :=
  ∀ rest, tokensFrom [] (cs ++ rest) = (tokensFrom [] rest).map (ts ++ ·)

theorem lexes_nil : Lexes [] [] := by
  intro rest _
  simp

theorem lexes_word {w : List Char} (hne : w ≠ []) (hw : ∀ c ∈ w, isWordChar c)
    (hfirst : ∀ c, w.head? = some c → Decimal.isDigit c = false) : Lexes w [.word w] := by
  intro rest hrest
  obtain ⟨c, cs, rfl⟩ := List.exists_cons_of_ne_nil hne
  have hfinish : finish (c :: cs) = some [.word (c :: cs)] := by
    rw [finish, if_neg (by simp [hfirst c rfl])]
  rw [tokensFrom_run _ [] rest hw, List.nil_append, tokensFrom_break _ hrest, hfinish]
  rfl

theorem isDigit_isWordChar {c : Char} (h : Decimal.isDigit c) : isWordChar c := by
  simp [isWordChar, Scan.isWordChar, h]

theorem number?_digits {ds : List Char} (hds : ∀ d ∈ ds, Decimal.isDigit d) :
    number? ds = some (.integer (Decimal.ofDigits ds)) := by
  rw [number?, List.takeWhile_eq_self_iff.2 hds, List.dropWhile_eq_nil_iff.2 hds]

theorem lexes_digits {ds : List Char} (hne : ds ≠ []) (hds : ∀ d ∈ ds, Decimal.isDigit d) :
    Lexes ds [.number (.integer (Decimal.ofDigits ds))] := by
  intro rest hrest
  obtain ⟨c, cs, rfl⟩ := List.exists_cons_of_ne_nil hne
  have hfinish : finish (c :: cs) = some [.number (.integer (Decimal.ofDigits (c :: cs)))] := by
    rw [finish, if_pos (hds c (by simp)), number?_digits hds]
    rfl
  rw [tokensFrom_run _ [] rest (fun d hd => isDigit_isWordChar (hds d hd)), List.nil_append,
    tokensFrom_break _ hrest, hfinish]
  rfl

theorem ofDigits_zero (ds : List Char) : Decimal.ofDigits (ds ++ ['0']) = 10 * Decimal.ofDigits ds := by
  simp [Decimal.ofDigits]

/-- A literal with a point and a zero is the real of the same value. -/
theorem lexes_decimal {ds : List Char} (hne : ds ≠ []) (hds : ∀ d ∈ ds, Decimal.isDigit d) :
    Lexes (ds ++ ['.', '0']) [.number (.real (Decimal.ofDigits ds))] := by
  intro rest hrest
  obtain ⟨c, cs, rfl⟩ := List.exists_cons_of_ne_nil hne
  have hpoint : continues (c :: cs) '.' := by
    simp [continues, hds c (by simp)]
  have hzero : continues (c :: cs ++ ['.']) '0' := rfl
  have hnumber : number? (c :: cs ++ ['.', '0']) =
      some (.real (Decimal.ofDigits (c :: cs))) := by
    have htake : (c :: cs ++ ['.', '0']).takeWhile Decimal.isDigit = c :: cs := by
      rw [List.takeWhile_append_of_pos hds]
      simp [Decimal.isDigit]
    have hdrop : (c :: cs ++ ['.', '0']).dropWhile Decimal.isDigit = ['.', '0'] := by
      rw [List.dropWhile_append_of_pos hds]
      simp [Decimal.isDigit]
    have hten : ((10 * Decimal.ofDigits (c :: cs) : Nat) : Rat) / (Nat.pow 10 1 : Nat) =
        Decimal.ofDigits (c :: cs) := by
      have hpow : ((Nat.pow 10 1 : Nat) : Rat) = 10 := by norm_num
      rw [hpow]
      push_cast
      field_simp
    rw [number?, htake, hdrop]
    simp only [ofDigits_zero]
    rw [if_pos (by decide), ← hten]
    rfl
  have hfinish : finish (c :: cs ++ ['.', '0']) =
      some [.number (.real (Decimal.ofDigits (c :: cs)))] := by
    rw [List.cons_append, finish, if_pos (hds c (by simp)), ← List.cons_append, hnumber]
    rfl
  calc tokensFrom [] (c :: cs ++ ['.', '0'] ++ rest)
      = tokensFrom (c :: cs) ('.' :: '0' :: rest) := by
        rw [List.append_assoc, tokensFrom_run _ [] _ (fun d hd => isDigit_isWordChar (hds d hd))]
        rfl
    _ = tokensFrom (c :: cs ++ ['.']) ('0' :: rest) := tokensFrom_continues hpoint _
    _ = tokensFrom (c :: cs ++ ['.'] ++ ['0']) rest := tokensFrom_continues hzero _
    _ = tokensFrom (c :: cs ++ ['.', '0']) rest := by rw [List.append_assoc]; rfl
    _ = (tokensFrom [] rest).map ([.number (.real (Decimal.ofDigits (c :: cs)))] ++ ·) := by
        rw [tokensFrom_break _ hrest, hfinish]
        rfl

/-! ### Texts side by side -/

theorem Cuts.append {a b : List Char} {ta tb : List Token} (ha : Cuts a ta) (hb : Cuts b tb) :
    Cuts (a ++ b) (ta ++ tb) := by
  intro rest
  rw [List.append_assoc, ha, hb, Option.map_map]
  simp [Function.comp_def]

theorem Cuts.lexes {a b : List Char} {ta tb : List Token} (ha : Cuts a ta) (hb : Lexes b tb) :
    Lexes (a ++ b) (ta ++ tb) := by
  intro rest hrest
  rw [List.append_assoc, ha, hb rest hrest, Option.map_map]
  simp [Function.comp_def]

/-- A text and another one behind it that ends a word. -/
theorem Lexes.append {a b : List Char} {ta tb : List Token} (ha : Lexes a ta) (hb : Lexes b tb)
    (hbreak : ∀ rest, Breaks rest → Breaks (b ++ rest)) : Lexes (a ++ b) (ta ++ tb) := by
  intro rest hrest
  rw [List.append_assoc, ha _ (hbreak rest hrest), hb rest hrest, Option.map_map]
  simp [Function.comp_def]

theorem cuts_sign {c : Char} {s : Sign} (hc : continues [] c = false)
    (hs : single c = some [.sign s]) (hlong : ∀ d, longSign? c d = none) : Cuts [c] [.sign s] := by
  intro rest
  exact tokensFrom_single hc hs (fun d _ => hlong d)

theorem cuts_blank : Cuts [' '] [] := by
  intro rest
  exact tokensFrom_single rfl rfl (fun d _ => rfl)

theorem cuts_opening : Cuts ['('] [.sign .opening] := cuts_sign rfl rfl (fun _ => rfl)

theorem cuts_closing : Cuts [')'] [.sign .closing] := cuts_sign rfl rfl (fun _ => rfl)

theorem cuts_comma : Cuts [','] [.sign .comma] := cuts_sign rfl rfl (fun _ => rfl)

theorem cuts_plus : Cuts ['+'] [.sign .plus] := cuts_sign rfl rfl (fun _ => rfl)

theorem cuts_minus : Cuts ['-'] [.sign .minus] := cuts_sign rfl rfl (fun _ => rfl)

/-- A text in parentheses. -/
theorem lexes_group {a : List Char} {ta : List Token} (ha : Lexes a ta) :
    Lexes (['('] ++ (a ++ [')'])) ([Token.sign .opening] ++ (ta ++ [Token.sign .closing])) := by
  refine cuts_opening.lexes (ha.append ?_ (fun rest _ => breaks_cons rfl (by decide) rest))
  simpa using cuts_closing.lexes lexes_nil

/-- A word with a text in parentheses behind it. -/
theorem lexes_call {f a : List Char} {ta : List Token} (hf : Lexes f [.word f]) (ha : Lexes a ta) :
    Lexes (f ++ (['('] ++ (a ++ [')']))) (.word f :: .sign .opening :: (ta ++ [Token.sign .closing])) :=
  hf.append (lexes_group ha) (fun rest _ => breaks_cons rfl (by decide) _)

/-- Two texts with a comma between them. -/
theorem lexes_pair {a b : List Char} {ta tb : List Token} (ha : Lexes a ta) (hb : Lexes b tb) :
    Lexes (a ++ ([',', ' '] ++ b)) (ta ++ (.sign .comma :: tb)) := by
  refine ha.append ?_ (fun rest _ => breaks_cons rfl (by decide) _)
  exact (cuts_comma.append cuts_blank).lexes hb

/-- Two texts with an operator between them. -/
theorem lexes_operation {a b op : List Char} {ta tb : List Token} {s : Sign} (ha : Lexes a ta)
    (hop : Cuts (op ++ [' ']) [.sign s]) (hb : Lexes b tb) :
    Lexes (a ++ (' ' :: (op ++ (' ' :: b)))) (ta ++ (.sign s :: tb)) := by
  refine ha.append ?_ (fun rest _ => breaks_cons rfl (by decide) _)
  have h := cuts_blank.lexes (hop.lexes hb)
  simpa using h

/-- Exclamation marks in front of a text that starts with no equals sign. -/
theorem lexes_negations {a : List Char} {ta : List Token} (ha : Lexes a ta) (hne : a ≠ [])
    (hfirst : a.head? ≠ some '=') (n : Nat) :
    Lexes (List.replicate n '!' ++ a) (List.replicate n (Token.sign .not) ++ ta) := by
  induction n with
  | zero => exact ha
  | succ n ih =>
    intro rest hrest
    rw [List.replicate_succ, List.cons_append, List.cons_append, tokensFrom_single rfl rfl,
      ih rest hrest, Option.map_map]
    · simp [Function.comp_def, List.replicate_succ]
    · intro d hd
      obtain ⟨c, cs, rfl⟩ := List.exists_cons_of_ne_nil hne
      have hd' : d ≠ '=' := by
        rintro rfl
        cases n with
        | zero => simp_all
        | succ n => simp [List.replicate_succ] at hd
      unfold longSign?
      split <;> simp_all

/-! ## Tokens and their terms -/

/-- The tokens spell a term of a level. -/
inductive Spells : Nat → List Token → Term → Prop where
  | literal (q : Quantity) : Spells 7 [.number q] (.literal q)
  | name (x : List Char) : Spells 7 [.word x] (.name x)
  | group {ts : List Token} {t : Term} (h : Spells 0 ts t) :
      Spells 7 (.sign .opening :: (ts ++ [Token.sign .closing])) t
  | call {ts : List Token} {t : Term} (f : List Char) (h : Spells 0 ts t) :
      Spells 7 (.word f :: .sign .opening :: (ts ++ [Token.sign .closing])) (.call f t)
  | call₂ {ts us : List Token} {t u : Term} (f : List Char) (h : Spells 0 ts t)
      (h' : Spells 0 us u) :
      Spells 7 (.word f :: .sign .opening :: (ts ++ .sign .comma :: (us ++ [Token.sign .closing])))
        (.call₂ f t u)
  | power {ts us : List Token} {t u : Term} (h : Spells 7 ts t) (h' : Spells 5 us u) :
      Spells 6 (ts ++ .sign .power :: us) (.binary .power t u)
  | unary {ts : List Token} {t : Term} {s : Sign} (hs : s.isUnary) (h : Spells 5 ts t) :
      Spells 5 (.sign s :: ts) (.unary s t)
  | left {k : Nat} {ts us : List Token} {t u : Term} {s : Sign} (hs : s.binding? = some k)
      (hk : k ∈ [0, 1, 3, 4]) (h : Spells k ts t) (h' : Spells (k + 1) us u) :
      Spells k (ts ++ .sign s :: us) (.binary s t u)
  | comparison {ts us : List Token} {t u : Term} {s : Sign} (hs : s.binding? = some 2)
      (h : Spells 3 ts t) (h' : Spells 3 us u) : Spells 2 (ts ++ .sign s :: us) (.binary s t u)
  | lift {k : Nat} {ts : List Token} {t : Term} (h : Spells (k + 1) ts t) : Spells k ts t

/-- What comes next does not belong to a term of the level before it. -/
def Stops (k : Nat) (rest : List Token) : Prop :=
  ∀ s, nextSign rest = some s → s ≠ .opening ∧
    ∀ b, s.binding? = some b → b < k ∨ b = k ∧ k ∈ [0, 1, 3, 4]

theorem Stops.lift {k : Nat} {rest : List Token} (h : Stops k rest) : Stops (k + 1) rest := by
  intro s hs
  obtain ⟨hne, hbinding⟩ := h s hs
  refine ⟨hne, fun b hb => .inl ?_⟩
  rcases hbinding b hb with hlt | ⟨rfl, -⟩ <;> omega

theorem stops_nil (k : Nat) : Stops k [] := by
  intro s hs
  cases hs

theorem stops_sign {k : Nat} {s : Sign} (hne : s ≠ .opening)
    (hs : ∀ b, s.binding? = some b → b < k ∨ b = k ∧ k ∈ [0, 1, 3, 4]) (rest : List Token) :
    Stops k (.sign s :: rest) := by
  intro s' hs'
  cases hs'
  exact ⟨hne, hs⟩

/-- Reading ends before an operator that binds more weakly than the level. -/
theorem extend_stops {k level : Nat} {rest : List Token} (h : Stops k rest)
    (hlevel : k < level ∨ k = level ∧ k ∉ [0, 1, 3, 4]) (depth : Nat) (t : Term) :
    extend (depth + 1) level t rest = some (t, rest) := by
  cases rest with
  | nil => rfl
  | cons tok rest =>
    cases tok with
    | number | word => rfl
    | sign s =>
      rw [extend]
      cases hb : s.binding? with
      | none => rfl
      | some b =>
        have hlt : b < level := by
          rcases (h s rfl).2 b hb with hbk | ⟨rfl, hk⟩
          · omega
          · rcases hlevel with hlevel | ⟨-, hno⟩
            · exact hlevel
            · exact absurd hk hno
        exact if_pos hlt

/-- Reading takes an operator that binds at least as tightly as the level, and its right operand. -/
theorem extend_takes {level b : Nat} {s : Sign} (hs : s.binding? = some b) (hlevel : level ≤ b)
    {depth depth' : Nat} {us rest : List Token} {t u : Term}
    (hread : read depth (s.rightLevel b) (us ++ rest) = some (u, rest))
    (hrest : b = 2 → Stops 2 rest) (hdepth : depth = depth' + 1) :
    extend (depth + 1) level t (.sign s :: (us ++ rest)) = extend (depth' + 1) level (.binary s t u) rest := by
  have hcomparison : (s.isComparison && (nextSign rest).any Sign.isComparison) = false := by
    rw [Bool.and_eq_false_iff]
    by_cases hb : b = 2
    · right
      cases hnext : nextSign rest with
      | none => rfl
      | some s' =>
        rw [Option.any_some, Sign.isComparison, decide_eq_false_iff_not]
        intro hs'
        rcases (hrest hb s' hnext).2 2 hs' with hlt | ⟨-, hk⟩
        · omega
        · simp at hk
    · left
      simp [Sign.isComparison, hs, hb]
  rw [extend, hs]
  simp only
  rw [if_neg (by omega), hread, Option.bind_some, hcomparison, hdepth]
  rfl

/-- The tokens are read as a term of a level, and reading goes on behind them. -/
def ReadAs (k : Nat) (ts : List Token) (t : Term) : Prop :=
  ∀ level ≤ k, ∀ rest, Stops k rest → ∀ depth, ∃ depth' ≥ depth,
    read (depth + 1 + ts.length) level (ts ++ rest) = extend (depth' + 1) level t rest

/-- A whole term before something that is no operator. -/
theorem ReadAs.inside {k : Nat} {ts : List Token} {t : Term} (h : ReadAs k ts t) {s : Sign}
    (hs : s.binding? = none) (hne : s ≠ .opening) (rest : List Token) (depth : Nat) :
    read (depth + 1 + ts.length) 0 (ts ++ .sign s :: rest) = some (t, .sign s :: rest) := by
  have hstops : Stops k (.sign s :: rest) := stops_sign hne (by simp [hs]) rest
  obtain ⟨depth', -, heq⟩ := h 0 (Nat.zero_le _) _ hstops depth
  rw [heq, extend, hs]

/-- A whole operand before something that does not belong to it. -/
theorem ReadAs.operand {k j level : Nat} {ts rest : List Token} {t : Term} (h : ReadAs k ts t)
    (hlevel : level ≤ k) (hstops : Stops k rest) (hstops' : Stops j rest)
    (hj : j < level ∨ j = level ∧ j ∉ [0, 1, 3, 4]) {depth : Nat} (hdepth : ts.length < depth) :
    read depth level (ts ++ rest) = some (t, rest) := by
  obtain ⟨depth', -, heq⟩ := h level hlevel rest hstops (depth - ts.length - 1)
  have hfuel : depth - ts.length - 1 + 1 + ts.length = depth := by omega
  rw [hfuel] at heq
  rw [heq, extend_stops hstops' hj]

/-- No operator binds between products and powers, so that what ends a power ends an exponent. -/
theorem Stops.of_power {rest : List Token} (h : Stops 6 rest) : Stops 5 rest := by
  intro s hs
  obtain ⟨hne, hbinding⟩ := h s hs
  refine ⟨hne, fun b hb => .inl ?_⟩
  have hfive : b ≠ 5 := by
    rintro rfl
    cases s <;> cases hb
  rcases hbinding b hb with hlt | ⟨-, hk⟩
  · omega
  · simp at hk

theorem append_length_fuel (depth : Nat) (s : Sign) (ts us : List Token) :
    depth + 1 + (ts ++ .sign s :: us).length = depth + 1 + us.length + 1 + ts.length := by
  rw [List.length_append, List.length_cons]
  omega

theorem append_operator (s : Sign) (ts us rest : List Token) :
    (ts ++ .sign s :: us) ++ rest = ts ++ .sign s :: (us ++ rest) := by
  rw [List.append_assoc, List.cons_append]

/-- The tokens that spell a term are read as that term. -/
theorem read_spells {k : Nat} {ts : List Token} {t : Term} (h : Spells k ts t) : ReadAs k ts t := by
  induction h with
  | literal q =>
    intro level _ rest _ depth
    exact ⟨depth, Nat.le_refl _, rfl⟩
  | name x =>
    intro level _ rest hrest depth
    refine ⟨depth, Nat.le_refl _, ?_⟩
    have hword : read (depth + 1 + 1) level (.word x :: rest) =
        extend (depth + 1) level (.name x) rest := by
      rw [read]
      rintro rest' rfl
      exact absurd rfl (hrest .opening rfl).1
    exact hword
  | @group ts t _ ih =>
    intro level _ rest _ depth
    have hinside := ih.inside (s := .closing) rfl (by decide) rest (depth + 1)
    refine ⟨depth + 1 + ts.length, by omega, ?_⟩
    have hfuel : depth + 1 + (Token.sign .opening :: (ts ++ [Token.sign .closing])).length =
        depth + 1 + 1 + ts.length + 1 := by
      simp only [List.length_cons, List.length_append, List.length_nil]
      omega
    rw [hfuel, List.cons_append, List.append_assoc, List.singleton_append, read, hinside]
    have hdepth : depth + 1 + 1 + ts.length = depth + 1 + ts.length + 1 := by omega
    rw [hdepth]
  | @call ts t f _ ih =>
    intro level _ rest _ depth
    have hinside := ih.inside (s := .closing) rfl (by decide) rest (depth + 2)
    refine ⟨depth + 2 + ts.length, by omega, ?_⟩
    have hfuel : depth + 1 +
        (Token.word f :: .sign .opening :: (ts ++ [Token.sign .closing])).length =
        depth + 2 + 1 + ts.length + 1 := by
      simp only [List.length_cons, List.length_append, List.length_nil]
      omega
    rw [hfuel, List.cons_append, List.cons_append, List.append_assoc, List.singleton_append, read,
      hinside]
    have hdepth : depth + 2 + 1 + ts.length = depth + 2 + ts.length + 1 := by omega
    rw [hdepth]
  | @call₂ ts us t u f _ _ ih ih' =>
    intro level _ rest _ depth
    have hfuel : depth + 1 + (Token.word f :: .sign .opening ::
        (ts ++ .sign .comma :: (us ++ [Token.sign .closing]))).length =
        depth + ts.length + us.length + 4 + 1 := by
      simp only [List.length_cons, List.length_append, List.length_nil]
      omega
    have hfirst := ih.inside (s := .comma) rfl (by decide) (us ++ .sign .closing :: rest)
      (depth + us.length + 3)
    have hsecond := ih'.inside (s := .closing) rfl (by decide) rest (depth + ts.length + 3)
    have hdepth₁ : depth + us.length + 3 + 1 + ts.length = depth + ts.length + us.length + 4 := by
      omega
    have hdepth₂ : depth + ts.length + 3 + 1 + us.length = depth + ts.length + us.length + 4 := by
      omega
    rw [hdepth₁] at hfirst
    rw [hdepth₂] at hsecond
    refine ⟨depth + ts.length + us.length + 3, by omega, ?_⟩
    have hlist : (Token.word f :: .sign .opening ::
        (ts ++ .sign .comma :: (us ++ [Token.sign .closing]))) ++ rest =
        .word f :: .sign .opening :: (ts ++ .sign .comma :: (us ++ .sign .closing :: rest)) := by
      simp
    rw [hfuel, hlist, read, hfirst]
    simp only [hsecond]
  | @power ts us t u _ _ ih ih' =>
    intro level hlevel rest hrest depth
    have hstops : Stops 7 (.sign .power :: (us ++ rest)) :=
      stops_sign (by decide) (by rintro b ⟨⟩; left; decide) _
    have hrest' : Stops 5 rest := hrest.of_power
    obtain ⟨d, hd, heq⟩ := ih level (by omega) _ hstops (depth + 1 + us.length)
    have hread := ih'.operand (Nat.le_refl 5) hrest' hrest' (.inr ⟨rfl, by decide⟩)
      (show us.length < d by omega)
    refine ⟨d - 1, by omega, ?_⟩
    rw [append_length_fuel, append_operator, heq]
    exact extend_takes rfl hlevel hread (by simp) (by omega)
  | @unary ts t s hs _ ih =>
    intro level hlevel rest hrest depth
    have hread := ih.operand (Nat.le_refl 5) hrest hrest (.inr ⟨rfl, by decide⟩)
      (show ts.length < depth + 1 + ts.length by omega)
    refine ⟨depth + ts.length, by omega, ?_⟩
    have hfuel : depth + 1 + (Token.sign s :: ts).length = depth + 1 + ts.length + 1 := by
      rw [List.length_cons]
      omega
    have hdepth : depth + 1 + ts.length = depth + ts.length + 1 := by omega
    rw [hfuel, List.cons_append, read, if_pos hs, hread, Option.bind_some, hdepth]
    rintro rfl
    cases hs
  | @left k ts us t u s hs hk _ _ ih ih' =>
    intro level hlevel rest hrest depth
    have hne : s ≠ .opening := by
      rintro rfl
      cases hs
    have hstops : Stops k (.sign s :: (us ++ rest)) :=
      stops_sign hne (fun b hb => .inr ⟨Option.some.inj (hb.symm.trans hs), hk⟩) _
    have hright : s.rightLevel k = k + 1 := by
      refine if_neg ?_
      rintro rfl
      cases hs
      simp at hk
    obtain ⟨d, hd, heq⟩ := ih level hlevel _ hstops (depth + 1 + us.length)
    have hread := ih'.operand (Nat.le_refl _) hrest.lift hrest (.inl (Nat.lt_succ_self k))
      (show us.length < d by omega)
    refine ⟨d - 1, by omega, ?_⟩
    rw [append_length_fuel, append_operator, heq]
    refine extend_takes hs hlevel (hright ▸ hread) ?_ (by omega)
    rintro rfl
    simp at hk
  | @comparison ts us t u s hs _ _ ih ih' =>
    intro level hlevel rest hrest depth
    have hne : s ≠ .opening := by
      rintro rfl
      cases hs
    have hstops : Stops 3 (.sign s :: (us ++ rest)) :=
      stops_sign hne (fun b hb => .inl (by rw [← Option.some.inj (hs.symm.trans hb)]; decide)) _
    have hright : s.rightLevel 2 = 3 := by
      refine if_neg ?_
      rintro rfl
      cases hs
    obtain ⟨d, hd, heq⟩ := ih level (by omega) _ hstops (depth + 1 + us.length)
    have hread := ih'.operand (Nat.le_refl 3) hrest.lift hrest (.inl (by decide))
      (show us.length < d by omega)
    refine ⟨d - 1, by omega, ?_⟩
    rw [append_length_fuel, append_operator, heq]
    exact extend_takes hs hlevel (hright ▸ hread) (fun _ => hrest) (by omega)
  | lift _ ih =>
    intro level hlevel rest hrest depth
    exact ih level (by omega) rest hrest.lift depth

/-- The term that a text is read as. -/
def termOf (text : String) : Option Term :=
  (tokensFrom [] text.toList).bind fun ts =>
    match read (ts.length + 1) 0 ts with
    | some (t, []) => some t
    | _ => none

/-- A text whose tokens spell a term is read as that term. -/
theorem termOf_spells {text : String} {ts : List Token} {t : Term} (hlex : Lexes text.toList ts)
    (hspells : Spells 0 ts t) : termOf text = some t := by
  have htokens : tokensFrom [] text.toList = some ts := by
    have h := hlex [] breaks_nil
    rw [List.append_nil] at h
    simpa [tokensFrom, finish] using h
  obtain ⟨depth, -, hread⟩ := read_spells hspells 0 (Nat.le_refl 0) [] (stops_nil 0) 0
  have hread' : read (ts.length + 1) 0 ts = some (t, []) := by
    rw [List.append_nil] at hread
    have hfuel : ts.length + 1 = 0 + 1 + ts.length := by omega
    rw [hfuel, hread]
    rfl
  rw [termOf, htokens, Option.bind_some, hread']

/-- The value of a text is that of its term. -/
theorem valueOf_term (p : Powers) (names : String → Quantity) (text : String) :
    valueOf p names text = (termOf text).bind (Term.value p names) := by
  rw [valueOf, termOf, Option.bind_assoc]
  congr 1
  funext ts
  cases read (ts.length + 1) 0 ts with
  | none => rfl
  | some r => obtain ⟨t, _ | _⟩ := r <;> rfl

/-- A text whose tokens spell a term has the value of that term. -/
theorem valueOf_spells {text : String} {ts : List Token} {t : Term} (hlex : Lexes text.toList ts)
    (hspells : Spells 0 ts t) (p : Powers) (names : String → Quantity) :
    valueOf p names text = t.value p names := by
  rw [valueOf_term, termOf_spells hlex hspells, Option.bind_some]

end FortranJulia.Julia
