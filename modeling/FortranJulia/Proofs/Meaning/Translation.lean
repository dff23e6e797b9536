import FortranJulia.Proofs.Meaning.Writing

/-!
Lowering keeps the values of expressions. The induction follows the levels of an expression: what is
written for one of a level is read by Julia at the level that answers to it. Lowering an expression
records names and changes nothing else of the state, so that what was written for its first operand
still holds when the last one has been lowered.
-/

namespace FortranJulia

set_option autoImplicit false

open Julia (Expr Lexes Spells)

/-! ## Types -/

/-- The names among some lexemes are variables that have values of their declared types. -/
def Typed (t : Table) (names : String → Quantity) (P : Lexeme → Prop) : Prop :=
  ∀ lx, P lx → Match.isName lx → t.typeOf lx.text = some (names (nameKey lx.text)).type

section Types

variable {p : Powers} {names : String → Quantity} {P : Lexeme → Prop} {t : Table} {v : Quantity}

theorem value_signed_some {s : Lexeme} {e : Expression}
    (h : (Expression.signed s e).value p names = some v) :
    ∃ a, e.value p names = some a ∧ Quantity.signed s.kind a = some v :=
  Option.bind_eq_some_iff.1 h

theorem value_negated_some {n : Nat} {e : Expression}
    (h : (Expression.negated n e).value p names = some v) :
    ∃ a, e.value p names = some a ∧ Quantity.opposites n a = some v :=
  Option.bind_eq_some_iff.1 h

theorem value_binary_some {op : BinaryOp} {l r : Expression}
    (h : (Expression.binary op l r).value p names = some v) :
    ∃ a b, l.value p names = some a ∧ r.value p names = some b ∧ op.operate p a b = some v := by
  obtain ⟨a, ha, h⟩ := Option.bind_eq_some_iff.1 h
  obtain ⟨b, hb, h⟩ := Option.bind_eq_some_iff.1 h
  exact ⟨a, b, ha, hb, h⟩

theorem type_constant {lx : Lexeme} (h : lx.quantity = some v) : lx.constantType = some v.type := by
  unfold Lexeme.quantity at h
  split at h <;> cases h
  · rename_i hkind _
    simp [Lexeme.constantType, hkind, Quantity.type]
  · rename_i hkind
    simp [Lexeme.constantType, hkind, Quantity.type]
  · rename_i hkind
    simp [Lexeme.constantType, hkind, Quantity.type]

theorem type_signed {k : Kind} {a : Quantity} (h : Quantity.signed k a = some v) :
    v.type = a.type := by
  unfold Quantity.signed at h
  split at h
  · cases a <;> cases h <;> rfl
  · cases a <;> cases h <;> rfl
  · cases h

theorem type_opposites {a : Quantity} (n : Nat) : ∀ {v : Quantity},
    Quantity.opposites (n + 1) a = some v → v.type = .logical := by
  intro v h
  rw [Quantity.opposites, Option.bind_eq_some_iff] at h
  obtain ⟨b, -, hb⟩ := h
  cases b <;> cases hb
  rfl

/-- The type of an operation is that of its value. -/
theorem type_operate {op : BinaryOp} {l r : Expression} {a b : Quantity}
    (hl : l.typeOf t = some a.type) (hr : r.typeOf t = some b.type)
    (h : op.operate p a b = some v) : (Expression.binary op l r).typeOf t = some v.type := by
  have hlarger : ∀ {whole : Int → Int → Option Int} {broken : Rat → Rat → Option Rat},
      Quantity.arithmetic whole broken a b = some v →
      TypeName.promote (l.typeOf t) (r.typeOf t) = some v.type := by
    intro whole broken harith
    rw [hl, hr]
    cases a <;> cases b <;> simp only [Quantity.arithmetic, Quantity.number?, Option.bind_some,
      Option.bind_none, Option.map_eq_some_iff, reduceCtorEq] at harith
    all_goals
      obtain ⟨_, -, rfl⟩ := harith
      rfl
  cases op with
  | concat => cases h
  | add | subtract | multiply | divide => exact hlarger h
  | power =>
    change TypeName.promote (l.typeOf t) (r.typeOf t) = some v.type
    rw [hl, hr]
    cases a <;> cases b <;> simp only [BinaryOp.operate, Quantity.operate, Quantity.power,
      Option.map_eq_some_iff, reduceCtorEq] at h
    all_goals
      obtain ⟨_, -, rfl⟩ := h
      rfl
  | eq | ne | lt | le | gt | ge =>
    simp only [BinaryOp.operate, Quantity.operate, Quantity.compare, Option.bind_eq_some_iff,
      Option.map_eq_some_iff] at h
    obtain ⟨_, -, _, -, rfl⟩ := h
    rfl
  | and | or =>
    cases a <;> cases b <;> cases h
    rfl

/-- An expression has the type of its value. -/
theorem type_value {k : Nat} {e : Expression} (h : e.Fits P k) (ht : Typed t names P) :
    ∀ v, e.value p names = some v → e.typeOf t = some v.type := by
  have hsigned : ∀ {s : Lexeme} {e : Expression},
      (∀ v, e.value p names = some v → e.typeOf t = some v.type) →
      ∀ v, (Expression.signed s e).value p names = some v →
        (Expression.signed s e).typeOf t = some v.type := by
    intro s e ih v hv
    obtain ⟨a, ha, hv⟩ := value_signed_some hv
    rw [type_signed hv]
    exact ih a ha
  have hbinary : ∀ {op : BinaryOp} {l r : Expression},
      (∀ v, l.value p names = some v → l.typeOf t = some v.type) →
      (∀ v, r.value p names = some v → r.typeOf t = some v.type) →
      ∀ {v}, (Expression.binary op l r).value p names = some v →
        (Expression.binary op l r).typeOf t = some v.type := by
    intro op l r ihl ihr v hv
    obtain ⟨a, b, ha, hb, hv⟩ := value_binary_some hv
    exact type_operate (ihl a ha) (ihr b hb) hv
  induction h with
  | constant _ => exact fun v hv => type_constant hv
  | complex | emptyCall => exact fun v hv => by cases hv
  | reference suffixes h hn =>
    intro v hv
    cases suffixes with
    | nil =>
      cases hv
      exact ht _ h hn
    | cons => cases hv
  | group _ ih => exact ih
  | power _ _ ihl ihr | relation _ _ _ ihl ihr | left _ _ _ _ ihl ihr =>
    exact fun v hv => hbinary ihl ihr hv
  | power_signed _ _ _ _ ihl ihr => exact fun v hv => hbinary ihl (hsigned ihr) hv
  | signed _ _ _ ih => exact hsigned ih
  | negated n _ ih => 
    intro v hv
    obtain ⟨a, -, ha⟩ := value_negated_some hv
    rw [type_opposites n ha]
    rfl
  | lift _ ih => exact ih

end Types

/-! ## Lexemes -/

/-- What can be read as a name is one. -/
theorem isName_proper {lx : Lexeme} (h : lx.kind ≠ .eof → lx.Proper) (hn : Match.isName lx) :
    Scan.IsName lx.text.toList := by
  simp only [Match.isName, Bool.or_eq_true, beq_iff_eq, Bool.and_eq_true, Bool.not_eq_true',
    List.contains_eq_mem, decide_eq_false_iff_not] at hn
  rcases hn with hkind | ⟨hkind, hpoint⟩
  · exact (h (by simp [hkind])).name hkind
  · exact (h (by simp [hkind])).edit hkind hpoint

theorem digits_isDigit (n : Nat) : ∀ d ∈ (Decimal.digits n).toList, Decimal.isDigit d := by
  intro d hd
  rw [Decimal.digits, String.toList_ofList] at hd
  have h := Nat.isDigit_of_mem_toDigits (by decide) (by decide) hd
  simpa [Char.isDigit, Decimal.isDigit, Char.le_def] using h

/-- The digits of a number are read as the number. -/
theorem ofDigits_digits (n : Nat) : Decimal.ofDigits (Decimal.digits n).toList = n := by
  rw [Decimal.digits, String.toList_ofList]
  exact Nat.ofDigitChars_ten_toDigits

theorem digits_ne_nil (n : Nat) : (Decimal.digits n).toList ≠ [] := by
  rw [Decimal.digits, String.toList_ofList]
  exact Nat.toDigits_ne_nil

theorem writes_constant {p : Powers} {names : String → Quantity} {lx : Lexeme} {v : Quantity}
    (hproper : lx.kind ≠ .eof → lx.Proper) (hv : lx.quantity = some v) : Writes p names 8 lx.juliaConstant v := by
  unfold Lexeme.quantity at hv
  split at hv
  · rename_i n hkind hvalue
    cases hv
    obtain ⟨-, -, hinteger⟩ := (hproper (by simp [hkind])).integer hkind
    rw [hvalue, Scan.integerValue] at hinteger
    split at hinteger
    · cases hinteger
      have htext : lx.juliaConstant = .number (Decimal.digits (Decimal.ofDigits lx.text.toList)) := by
        simp only [Lexeme.juliaConstant, hkind, Lexeme.juliaNumber, hvalue]
        rfl
      rw [htext, ← ofDigits_digits (Decimal.ofDigits lx.text.toList)]
      nth_rewrite 1 [ofDigits_digits]
      exact writes_integer (digits_ne_nil _) (digits_isDigit _)
    · split at hinteger <;> cases hinteger
  · rename_i hkind
    cases hv
    rw [Lexeme.juliaConstant, hkind]
    exact writes_truth true
  · rename_i hkind
    cases hv
    rw [Lexeme.juliaConstant, hkind]
    exact writes_truth false
  · cases hv

/-! ## Steps -/

/-- The words that are written for names stand for their values. -/
def Answers (s : LowerState) (P : Lexeme → Prop) (names values : String → Quantity) : Prop :=
  ∀ lx, P lx → Match.isName lx → values (s.variableName lx.text) = names (nameKey lx.text)

/-- A step writes an expression and does nothing else to the state than to record names. Whatever
other names are recorded later, the expression has a property. -/
def Yields (P : Lexeme → Prop) (names : String → Quantity) (s : LowerState) (m : Lower Expr)
    (W : (String → Quantity) → Expr → Prop) : Prop :=
  ∃ e more, m.run s = .ok (e, s.recorded more) ∧
    ∀ later values, Answers ((s.recorded more).recorded later) P names values → W values e

section Steps

variable {P : Lexeme → Prop} {names : String → Quantity} {s : LowerState}
  {W W₁ W₂ : (String → Quantity) → Expr → Prop}

theorem yields_pure {e : Expr} (h : ∀ values, W values e) : Yields P names s (pure e) W :=
  ⟨e, [], by rw [LowerState.recorded_nil]; rfl, fun _ values _ => h values⟩

theorem Yields.imp {m : Lower Expr} (h : Yields P names s m W₁)
    (hW : ∀ values e, W₁ values e → W values e) : Yields P names s m W := by
  obtain ⟨e, more, hrun, he⟩ := h
  exact ⟨e, more, hrun, fun later values hvalues => hW values e (he later values hvalues)⟩

theorem yields_map {m : Lower Expr} (f : Expr → Expr) (h : Yields P names s m W₁)
    (hf : ∀ values e, W₁ values e → W values (f e)) :
    Yields P names s (do return f (← m)) W := by
  obtain ⟨e, more, hrun, he⟩ := h
  refine ⟨f e, more, Lower.run_bind_ok hrun, fun later values hvalues => ?_⟩
  exact hf values e (he later values hvalues)

/-- Two steps, the second in the state that the first one leaves. -/
theorem yields_pair {m₁ m₂ : Lower Expr} {next : Expr → Expr → Lower Expr} (f : Expr → Expr → Expr)
    (h₁ : Yields P names s m₁ W₁) (h₂ : ∀ more, Yields P names (s.recorded more) m₂ W₂)
    (hnext : ∀ a b more, (next a b).run (s.recorded more) = .ok (f a b, s.recorded more))
    (hf : ∀ values a b, W₁ values a → W₂ values b → W values (f a b)) :
    Yields P names s (do let a ← m₁; let b ← m₂; next a b) W := by
  obtain ⟨a, more₁, hrun₁, ha⟩ := h₁
  obtain ⟨b, more₂, hrun₂, hb⟩ := h₂ more₁
  rw [LowerState.recorded_recorded] at hrun₂
  refine ⟨f a b, more₁ ++ more₂, ?_, fun later values hvalues => ?_⟩
  · rw [Lower.run_bind_ok hrun₁, Lower.run_bind_ok hrun₂, hnext]
  · rw [LowerState.recorded_recorded] at hvalues
    apply hf values
    · apply ha (more₂ ++ later)
      rwa [LowerState.recorded_recorded, ← List.append_assoc]
    · apply hb later
      rwa [LowerState.recorded_recorded, LowerState.recorded_recorded, ← List.append_assoc]

/-- A name is written as the word that the state says, which stands for the value of the name. -/
theorem yields_ident {lx : Lexeme} (h : P lx) (hn : Match.isName lx)
    (hproper : lx.kind ≠ .eof → lx.Proper) : Yields P names s (do return .name (← Lower.ident lx.text))
      (fun values e => ∃ w, e = .name w ∧ Julia.IsWord w.toList ∧ w ≠ "true" ∧ w ≠ "false" ∧
        values w = names (nameKey lx.text)) := by
  obtain ⟨more, hrun, hlater⟩ := Lower.ident_run s lx.text
  refine ⟨.name (s.variableName lx.text), more, Lower.run_bind_ok hrun, ?_⟩
  intro later values hvalues
  obtain ⟨hword, htrue, hfalse⟩ := Lower.variableName_word (isName_proper hproper hn) s
  refine ⟨_, rfl, hword, htrue, hfalse, ?_⟩
  rw [← hlater later]
  exact hvalues lx h hn

theorem yields_name (p : Powers) {lx : Lexeme} (h : P lx) (hn : Match.isName lx)
    (hproper : lx.kind ≠ .eof → lx.Proper) : Yields P names s (do return .name (← Lower.ident lx.text))
      (fun values e => Writes p values 8 e (names (nameKey lx.text))) := by
  refine (yields_ident h hn hproper).imp ?_
  rintro values e ⟨w, rfl, hword, htrue, hfalse, hvalue⟩
  exact writes_name hword htrue hfalse hvalue

end Steps

/-! ## Expressions -/

section Expressions

variable {p : Powers} {names : String → Quantity} {P : Lexeme → Prop}

/-- What is written for an expression of a level has a value. A primary needs no parentheses. -/
def Renders (p : Powers) (k : Nat) (e : Expression) (v : Quantity) (values : String → Quantity)
    (w : Expr) : Prop :=
  Writes p values k w v ∧ (e.isPrimary → Writes p values 8 w v)

/-- Lowering an expression writes one of the same value. -/
def Translates (p : Powers) (names : String → Quantity) (P : Lexeme → Prop) (k : Nat)
    (e : Expression) : Prop :=
  ∀ (s : LowerState) v, Typed s.collection.table names P → e.value p names = some v →
    Yields P names s (Lower.expr e) (Renders p k e v)

theorem sign_text {s : Lexeme} (hs : s.IsSign) (hproper : s.kind ≠ .eof → s.Proper) :
    ∃ (c : Char) (sign : Julia.Sign), s.text = String.singleton c ∧
      (sign = .plus ∧ c = '+' ∨ sign = .minus ∧ c = '-') ∧ Quantity.signed s.kind = sign.apply := by
  rcases hs with hkind | hkind
  · exact ⟨'+', .plus, (hproper (by simp [hkind])).plus hkind, .inl ⟨rfl, rfl⟩, by rw [hkind]; rfl⟩
  · exact ⟨'-', .minus, (hproper (by simp [hkind])).minus hkind, .inr ⟨rfl, rfl⟩, by rw [hkind]; rfl⟩

theorem exprOf_expression {n : Node} {e : Expression} (h : n.expression? = some e) :
    Lower.exprOf n = Lower.expr e := by
  rw [Lower.exprOf, Lower.expressionOf, h]
  exact pure_bind e Lower.expr

theorem expr_signed (s : Lexeme) (e : Expression) :
    Lower.expr (.signed s e) = do return .signed s.text (← Lower.expr e) :=
  rfl

theorem expr_binary {op : BinaryOp} (hop : op ≠ .power) (l r : Expression) :
    Lower.expr (.binary op l r) = do
      let left ← Lower.expr l
      let right ← Lower.expr r
      return combine op (← Lower.typeOf l) (← Lower.typeOf r) left right := by
  cases op <;> first | exact absurd rfl hop | rfl

theorem translates_signed {s : Lexeme} {e : Expression} (hs : s.IsSign)
    (hproper : s.kind ≠ .eof → s.Proper) (h : Translates p names P 6 e) : Translates p names P 5 (.signed s e) := by
  intro state v ht hv
  obtain ⟨a, ha, hv⟩ := value_signed_some hv
  obtain ⟨c, sign, htext, hsign, hsigned⟩ := sign_text hs hproper
  rw [hsigned] at hv
  rw [expr_signed, htext]
  refine yields_map _ (h state a ht ha) (fun values w hw => ⟨?_, fun hno => by cases hno⟩)
  exact writes_signed hsign hw.1 hv

theorem translates_negated {e : Expression} (n : Nat) (h : Translates p names P 3 e) :
    Translates p names P 2 (.negated (n + 1) e) := by
  intro s v ht hv
  obtain ⟨a, ha, hv⟩ := value_negated_some hv
  refine yields_map (fun w => .negated (n + 1) (if e.isPrimary then w else .paren w))
    (h s a ht ha) (fun values w hw => ⟨?_, fun hno => by cases hno⟩)
  refine writes_negated n ?_ hv
  split
  · exact hw.2 ‹_›
  · exact writes_group (hw.1.weaker (by decide))

theorem translates_power {l r : Expression} (hl : Translates p names P 8 l)
    (hr : ∀ (s : LowerState) b, Typed s.collection.table names P → r.value p names = some b →
      Yields P names s (Lower.expr r) (fun values w => WritesExponent p values w b)) :
    Translates p names P 7 (.binary .power l r) := by
  intro s v ht hv
  obtain ⟨a, b, ha, hb, hv⟩ := value_binary_some hv
  refine yields_pair (fun right left => .operation BinaryOp.power.julia left right)
    (hr s b ht hb) (fun more => hl (s.recorded more) a ht ha) (fun _ _ _ => rfl) ?_
  intro values right left hright hleft
  exact ⟨writes_power hleft.1 hright hv, fun hno => by cases hno⟩

theorem exponent_plain {r : Expression} (h : Translates p names P 7 r) (s : LowerState) (b : Quantity)
    (ht : Typed s.collection.table names P) (hb : r.value p names = some b) :
    Yields P names s (Lower.expr r) (fun values w => WritesExponent p values w b) :=
  (h s b ht hb).imp (fun _ _ hw => hw.1.exponent)

theorem exponent_signed {r : Expression} {sign : Lexeme} (hs : sign.IsSign)
    (hproper : sign.kind ≠ .eof → sign.Proper) (h : Translates p names P 7 r) (s : LowerState) (b : Quantity)
    (ht : Typed s.collection.table names P) (hb : (Expression.signed sign r).value p names = some b) :
    Yields P names s (Lower.expr (.signed sign r)) (fun values w => WritesExponent p values w b) := by
  obtain ⟨a, ha, hb⟩ := value_signed_some hb
  obtain ⟨c, sign', htext, hsign, hsigned⟩ := sign_text hs hproper
  rw [hsigned] at hb
  rw [expr_signed, htext]
  exact yields_map _ (h s a ht ha) (fun values w hw => hw.1.exponent_signed hsign hb)

/-- An operation on operands of which the types are known. -/
theorem translates_combine {op : BinaryOp} {l r : Expression} {i j k : Nat} (hop : op ≠ .power)
    (hfl : l.Fits P i) (hfr : r.Fits P j) (hl : Translates p names P i l)
    (hr : Translates p names P j r)
    (hwrites : ∀ {values : String → Quantity} {x y : Expr} {a b v : Quantity},
      Writes p values i x a → Writes p values j y b → op.operate p a b = some v →
      Writes p values k (combine op (some a.type) (some b.type) x y) v) :
    Translates p names P k (.binary op l r) := by
  intro s v ht hv
  obtain ⟨a, b, ha, hb, hv⟩ := value_binary_some hv
  rw [expr_binary hop]
  refine yields_pair (combine op (some a.type) (some b.type)) (hl s a ht ha)
    (fun more => hr (s.recorded more) b ht hb) ?_ ?_
  · intro x y more
    have ht' : Typed (s.recorded more).collection.table names P := ht
    rw [← type_value hfl ht' a ha, ← type_value hfr ht' b hb]
    rfl
  · intro values x y hx hy
    exact ⟨hwrites hx.1 hy.1 hv, fun hno => by cases hno⟩

/-- Every expression that the grammar allows is translated. -/
theorem fits_translates {k : Nat} {e : Expression} (h : e.Fits P k) (hP : ∀ lx, P lx → lx.kind ≠ .eof →
    lx.Proper) : Translates p names P k e := by
  induction h with
  | constant hlx =>
    intro s v _ hv
    exact yields_pure (fun values => ⟨writes_constant (hP _ hlx) hv,
      fun _ => writes_constant (hP _ hlx) hv⟩)
  | complex | emptyCall => exact fun s v _ hv => by cases hv
  | reference suffixes hlx hn =>
    intro s v _ hv
    cases suffixes with
    | nil =>
      cases hv
      exact (yields_name p hlx hn (hP _ hlx)).imp (fun _ _ hw => ⟨hw, fun _ => hw⟩)
    | cons => cases hv
  | group _ ih =>
    intro s v ht hv
    exact yields_map .paren (ih s v ht hv) (fun _ _ hw => ⟨writes_group hw.1, fun _ => writes_group hw.1⟩)
  | power _ _ ihl ihr => exact translates_power ihl (exponent_plain ihr)
  | power_signed hs hlx _ _ ihl ihr =>
    exact translates_power ihl (exponent_signed hs (hP _ hlx) ihr)
  | left op hop hl hr ihl ihr =>
    refine translates_combine ?_ hl hr ihl ihr (writes_combine hop)
    rintro rfl
    exact hop (by decide)
  | signed hs hlx _ ih => exact translates_signed hs (hP _ hlx) ih
  | relation hop hl hr ihl ihr =>
    refine translates_combine ?_ hl hr ihl ihr (writes_relation hop)
    rintro rfl
    cases hop
  | negated n _ ih => exact translates_negated n ih
  | lift _ ih =>
    intro s v ht hv
    exact (ih s v ht hv).imp (fun _ _ hw => ⟨hw.1.lift, hw.2⟩)

end Expressions

end FortranJulia
