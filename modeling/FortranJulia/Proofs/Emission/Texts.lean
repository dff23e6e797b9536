import FortranJulia.Proofs.Emission.Ensures

/-!
Texts of what is written. If the names of a program are words and its other tokens stand on one line,
then every expression that is written stands on one line, whatever the reading. A line of code
starts with the word for its head exactly if it opens a block, and is the word `end` exactly if it
closes one: the names of a program are kept apart from reserved words.
-/

namespace FortranJulia

set_option autoImplicit false

open Julia (Expr Code Line Binding)

/-! ## Texts -/

namespace Text

instance (s : String) : Decidable (Inline s) :=
  inferInstanceAs (Decidable ('\n' ∉ s.toList))

/-- The text consists of letters, digits and underscores. -/
def Word (s : String) : Prop :=
  ∀ c ∈ s.toList, Scan.isWordChar c

instance (s : String) : Decidable (Word s) :=
  decidable_of_iff (s.toList.all Scan.isWordChar) List.all_eq_true

variable {s t : String}

theorem inline_append : Inline (s ++ t) ↔ Inline s ∧ Inline t := by
  simp [Inline, not_or]

theorem Inline.of_subset (ht : Inline t) (h : s.toList ⊆ t.toList) : Inline s :=
  fun hmem => ht (h hmem)

theorem mem_intercalate {c : Char} {sep : List Char} {parts : List (List Char)}
    (h : c ∈ sep.intercalate parts) : c ∈ sep ∨ ∃ p ∈ parts, c ∈ p := by
  induction parts with
  | nil => cases h
  | cons p parts ih =>
    cases parts with
    | nil => simp_all [List.intercalate]
    | cons q parts =>
      rw [List.intercalate_cons_cons, List.mem_append, List.mem_append] at h
      rcases h with (h | h) | h
      · exact .inr ⟨p, by simp, h⟩
      · exact .inl h
      · rcases ih h with h | ⟨r, hr, h⟩
        · exact .inl h
        · exact .inr ⟨r, by simp [hr], h⟩

theorem inline_separated {sep : String} {texts : List String} (hsep : Inline sep)
    (h : ∀ t ∈ texts, Inline t) : Inline (Expr.separated sep texts) := by
  intro hc
  rw [Expr.separated, String.toList_intercalate] at hc
  rcases mem_intercalate hc with hc | ⟨p, hp, hc⟩
  · exact hsep hc
  · obtain ⟨t, ht, rfl⟩ := List.mem_map.1 hp
    exact h t ht hc

theorem inline_digits (n : Nat) : Inline (Decimal.digits n) := by
  intro hc
  rw [Decimal.digits, String.toList_ofList] at hc
  have hdigit := Nat.isDigit_of_mem_toDigits (by decide) (by decide) hc
  exact absurd hdigit (by decide)

theorem inline_ofInt (n : Int) : Inline (Decimal.ofInt n) := by
  cases n with
  | ofNat k => exact inline_digits k
  | negSucc k => exact inline_append.2 ⟨by decide, inline_digits (k + 1)⟩

theorem Word.inline (h : Word s) : Inline s := by
  intro hc
  exact absurd (h _ hc) (by decide)

theorem word_of_isName (h : Scan.IsName s.toList) : Word s := by
  obtain ⟨c, rest, heq, ⟨hc, -⟩, hrest⟩ := h
  intro d hd
  rw [heq] at hd
  rcases List.mem_cons.1 hd with rfl | hd
  · simp [Scan.isWordChar, hc]
  · exact hrest d hd

end Text

/-! ## Numbers -/

namespace Decimal

theorem digits_inline {n : Nat} : '\n' ∉ Nat.toDigits 10 n := by
  intro hc
  exact absurd (Nat.isDigit_of_mem_toDigits (by decide) (by decide) hc) (by decide)

theorem shortest_inline (m : Nat) (q : Int) : '\n' ∉ (shortest m q).digits := by
  unfold shortest
  simp only
  intro hc
  rw [List.mem_reverse] at hc
  have hmem := (List.dropWhile_sublist _).subset hc
  exact digits_inline (List.mem_reverse.1 hmem)

theorem exponent_inline (l : Layout) (x : Int) : '\n' ∉ l.exponent x := by
  have hsign : ¬ '\n' = if x < 0 then '-' else '+' := by split <;> decide
  simp [Layout.exponent, digits_inline, hsign]

/-- The characters of a number come from its digits, its exponent and the marks between them. -/
theorem write_inline (l : Layout) (x : Binary64) : Text.Inline (l.write x) := by
  cases x with
  | infinite => exact (by decide : Text.Inline "+Inf")
  | finite m q =>
    have hdigits := shortest_inline m q
    have htake : ∀ k, '\n' ∉ (shortest m q).digits.take k :=
      fun k hc => hdigits ((List.take_sublist k _).subset hc)
    have hdrop : ∀ k, '\n' ∉ (shortest m q).digits.drop k :=
      fun k hc => hdigits ((List.drop_sublist k _).subset hc)
    rw [Layout.write]
    split
    · decide
    · rw [Text.Inline, String.toList_ofList]
      split
      · unfold Layout.scaledForm
        split
        · simp
        · rename_i d heq
          rw [heq] at hdigits
          simpa [exponent_inline] using hdigits
        · rename_i d ds hne heq
          rw [heq] at hdigits
          simpa [exponent_inline] using hdigits
      · unfold Layout.plainForm
        split
        · simp only
          split <;> simp [htake, hdrop]
        · simp [hdigits]

end Decimal

theorem Lexeme.inline_juliaNumber {lx : Lexeme} (h : Text.Inline lx.text) :
    Text.Inline lx.juliaNumber := by
  unfold Lexeme.juliaNumber
  split
  · exact Text.inline_ofInt _
  · have hreal := Decimal.write_inline Decimal.general ‹_›
    simp only
    split
    · exact hreal
    · exact Text.inline_append.2 ⟨hreal, by decide⟩
  · exact h

theorem toLower_newline {c : Char} (h : c.toLower = '\n') : c = '\n' := by
  unfold Char.toLower at h
  split at h
  · rename_i hupper
    have hval := congrArg UInt32.toNat (congrArg Char.val h)
    have hleast := UInt32.le_iff_toNat_le.1 hupper.1
    have hmost := UInt32.le_iff_toNat_le.1 hupper.2
    rw [UInt32.toNat_add] at hval
    have hletters : 'A'.val.toNat = 65 ∧ 'Z'.val.toNat = 90 ∧ ('a'.val - 'A'.val).toNat = 32 ∧
        '\n'.val.toNat = 10 := by decide
    omega
  · exact h

/-- The digits of a constant of another radix are taken from its text. -/
theorem Lexeme.inline_radixNumber {s : String} (h : Text.Inline s) :
    Text.Inline (radixNumber s) := by
  unfold radixNumber
  split
  · exact h
  · rename_i letter rest heq
    extract_lets quoted
    split
    · rename_i digits _ hdigits
      have hsub : ∀ c ∈ digits, c ∈ s.toList := by
        intro c hc
        have hmem : c ∈ (quoted.drop 1).reverse.dropWhile (!isQuote ·) := by rw [hdigits]; simp [hc]
        have hquoted := (List.dropWhile_sublist _).subset hmem
        have hall := (List.drop_sublist 1 quoted).subset (List.mem_reverse.1 hquoted)
        rw [heq]
        exact (List.dropWhile_sublist _).subset hall
      have hds : Text.Inline (String.ofList (digits.reverse.map Char.toLower)) := by
        rw [Text.Inline, String.toList_ofList]
        intro hc
        obtain ⟨c, hc, hnewline⟩ := List.mem_map.1 hc
        rw [toLower_newline hnewline] at hc
        exact h (hsub _ (List.mem_reverse.1 hc))
      have hradix : ∀ {mark : String}, Text.Inline mark → Text.Inline (mark ++ _) :=
        fun hmark => Text.inline_append.2 ⟨hmark, hds⟩
      simp only
      split
      · exact hradix (by decide)
      · split <;> exact hradix (by decide)
    · exact h

/-! ## Expressions -/

namespace Julia.Expr

/-- The expression stands on one line. -/
def Inline (e : Expr) : Prop :=
  Text.Inline e.text

instance (e : Expr) : Decidable e.Inline :=
  inferInstanceAs (Decidable (Text.Inline e.text))

variable {e e' e'' : Expr} {es : List Expr} {s t : String}

theorem inline_texts (h : ∀ e ∈ es, e.Inline) : ∀ t ∈ texts es, Text.Inline t := by
  rw [texts_eq_map]
  exact List.forall_mem_map.2 h

/-- Expressions with a separator between them. -/
theorem inline_items (ht : Text.Inline t) (h : ∀ e ∈ es, e.Inline) :
    Text.Inline (separated t (texts es)) :=
  Text.inline_separated ht (inline_texts h)

theorem inline_paren (h : e.Inline) : (paren e).Inline := by
  simp +decide [Inline, Text.inline_append, show Text.Inline e.text from h]

theorem inline_signed (hs : Text.Inline s) (h : e.Inline) : (signed s e).Inline :=
  Text.inline_append.2 ⟨hs, h⟩

theorem inline_negated (n : Nat) (h : e.Inline) : (negated n e).Inline := by
  refine Text.inline_append.2 ⟨?_, h⟩
  simp [Text.Inline, String.toList_join]

theorem inline_operation (hs : Text.Inline s) (h : e.Inline) (h' : e'.Inline) :
    (operation s e e').Inline := by
  simp +decide [Inline, text, Text.inline_append, hs, show Text.Inline e.text from h,
    show Text.Inline e'.text from h']

theorem inline_call (hs : Text.Inline s) (h : ∀ e ∈ es, e.Inline) : (call s es).Inline := by
  have hitems := inline_items (t := ", ") (by decide) h
  simp +decide [Inline, text, Text.inline_append, hs, hitems]

theorem inline_typedCall (hs : Text.Inline s) (ht : Text.Inline t) (h : ∀ e ∈ es, e.Inline) :
    (typedCall s t es).Inline := by
  have hitems := inline_items (t := ", ") (by decide) h
  simp +decide [Inline, text, Text.inline_append, hs, ht, hitems]

theorem inline_joined (hs : Text.Inline s) (h : ∀ e ∈ es, e.Inline) : (joined s es).Inline :=
  inline_items hs h

theorem inline_index (h : e.Inline) (hes : ∀ e ∈ es, e.Inline) : (index e es).Inline := by
  have hitems := inline_items (t := ", ") (by decide) hes
  simp +decide [Inline, text, Text.inline_append, show Text.Inline e.text from h, hitems]

theorem inline_range (h : ∀ e ∈ es, e.Inline) : (range es).Inline :=
  inline_items (by decide) h

theorem inline_vector (h : ∀ e ∈ es, e.Inline) : (vector es).Inline := by
  have hitems := inline_items (t := ", ") (by decide) h
  simp +decide [Inline, text, Text.inline_append, hitems]

theorem inline_tuple (h : ∀ e ∈ es, e.Inline) : (tuple es).Inline := by
  have hitems := inline_items (t := ", ") (by decide) h
  simp +decide [Inline, text, Text.inline_append, hitems]

theorem inline_spread (h : e.Inline) : (spread e).Inline :=
  Text.inline_append.2 ⟨h, by decide⟩

theorem inline_generator (h : e.Inline) (hs : Text.Inline s) (h' : e'.Inline) :
    (generator e s e').Inline := by
  simp +decide [Inline, text, Text.inline_append, hs, show Text.Inline e.text from h,
    show Text.Inline e'.text from h']

theorem inline_flattened (hs : Text.Inline s) (h : e.Inline) (h' : e'.Inline) :
    (flattened s e e').Inline := by
  simp +decide [Inline, text, Text.inline_append, hs, show Text.Inline e.text from h,
    show Text.Inline e'.text from h']

theorem inline_conditional (h : e.Inline) (h' : e'.Inline) (h'' : e''.Inline) :
    (conditional e e' e'').Inline := by
  simp +decide [Inline, text, Text.inline_append, show Text.Inline e.text from h,
    show Text.Inline e'.text from h', show Text.Inline e''.text from h'']

end Julia.Expr

open Julia.Expr in
theorem Lexeme.inline_juliaConstant {lx : Lexeme} (h : Text.Inline lx.text) :
    lx.juliaConstant.Inline := by
  unfold Lexeme.juliaConstant
  split
  · exact Lexeme.inline_juliaNumber h
  · exact Lexeme.inline_juliaNumber h
  · exact h
  · exact Text.inline_juliaString _
  · exact Lexeme.inline_radixNumber h
  · exact Lexeme.inline_radixNumber h
  · exact Lexeme.inline_radixNumber h
  · exact (by decide : Text.Inline "true")
  · exact (by decide : Text.Inline "false")
  · exact h

theorem inline_zeroValue (type : Option TypeName) : (zeroValue type).Inline := by
  unfold zeroValue
  split <;> decide

theorem inline_convertValue (target source : Option TypeName) {e : Expr} (h : e.Inline) :
    (convertValue target source e).Inline := by
  unfold convertValue
  split
  · exact Expr.inline_typedCall (by decide) (by decide) (by simpa using h)
  · split
    · unfold floatValue
      split
      · exact Text.inline_append.2 ⟨h, by decide⟩
      · exact Expr.inline_call (by decide) (by simpa using h)
    · exact h

theorem inline_combine (op : BinaryOp) (leftType rightType : Option TypeName) {e e' : Expr}
    (h : e.Inline) (h' : e'.Inline) : (combine op leftType rightType e e').Inline := by
  have hop : Text.Inline op.julia := by cases op <;> decide
  unfold combine
  split
  · exact Expr.inline_call (by decide) (by simpa using ⟨h, h'⟩)
  · exact Expr.inline_operation hop h h'

theorem Intrinsic.inline_emit {f : Intrinsic} {x : String} (hf : lookup? x = some f)
    {args : List Expr} (h : ∀ e ∈ args, e.Inline) : (f.emit args).Inline := by
  have hall : ∀ f ∈ all, Text.Inline f.julia ∧ ∀ t, f.form = .typed t → Text.Inline t := by
    have hnames : ∀ f ∈ all, Text.Inline f.julia ∧ (f.form = .plain ∨ f.form = .typed "Int" ∨
      f.form = .comparison ∨ f.form = .difference) := by decide
    intro f hf
    refine ⟨(hnames f hf).1, fun t ht => ?_⟩
    have hform := (hnames f hf).2
    rw [ht] at hform
    simp only [reduceCtorEq, CallForm.typed.injEq, false_or, or_false] at hform
    rw [hform]
    decide
  have hfound : all.find? (·.name == Text.upper x) = some f := hf
  obtain ⟨hjulia, htype⟩ := hall f (List.mem_of_find?_eq_some hfound)
  unfold emit
  split
  · exact Expr.inline_call hjulia h
  · exact Expr.inline_typedCall hjulia (htype _ ‹_›) h
  · exact Expr.inline_paren (Expr.inline_operation hjulia (h _ (by simp)) (h _ (by simp)))
  · exact Expr.inline_paren (Expr.inline_joined hjulia h)
  · rename_i a b _
    have ha : a.Inline := h a (by simp)
    have hdifference := Expr.inline_operation (s := "-") (by decide) ha (h b (by simp))
    have hzero : (Expr.call "zero" [a]).Inline := Expr.inline_call (by decide) (by simpa using ha)
    exact Expr.inline_call hjulia (by simpa using ⟨hdifference, hzero⟩)
  · exact Expr.inline_call hjulia h

end FortranJulia
