import FortranJulia.Proofs.Scanning.Steps
import Mathlib.Algebra.Order.Ring.Nat

/-!
Formulas without blanks: names, numbers and logical constants with operators between dots. A dot
behind digits may belong to the number or to an operator, and `E` and `D` start exponents as well as
operators and names. What is behind a token decides, and within a formula that is always an operator
or the end, so that a formula is read back as the tokens that it was written with.
-/

namespace FortranJulia

set_option autoImplicit false

open Decimal (isDigit)

namespace Scan

/-! ## Numbers and words -/

def IsDigits (cs : List Char) : Prop :=
  ∀ d ∈ cs, isDigit d

instance (cs : List Char) : Decidable (IsDigits cs) :=
  decidable_of_iff (cs.all isDigit = true) List.all_eq_true

/-- A letter, a sign or none, and digits. -/
inductive IsExponent : List Char → Prop where
  | mk {e : Char} {sign ds : List Char} (letter : isExponentLetter e)
    (signs : sign = [] ∨ sign = ['+'] ∨ sign = ['-']) (nonempty : ds ≠ []) (digits : IsDigits ds) :
    IsExponent (e :: (sign ++ ds))

/-- Digits with a decimal point, an exponent or both. -/
inductive IsReal : List Char → Prop where
  | point {ds fs es : List Char} (whole : IsDigits ds) (fraction : IsDigits fs)
    (nonempty : ds ≠ [] ∨ fs ≠ []) (exponent : es = [] ∨ IsExponent es) :
    IsReal (ds ++ '.' :: (fs ++ es))
  | exponent {ds es : List Char} (whole : IsDigits ds) (nonempty : ds ≠ [])
    (exponent : IsExponent es) : IsReal (ds ++ es)

/-- The letters of the descriptors with a width. -/
def editLetters : List Char :=
  ['F', 'I', 'E', 'D', 'P', 'f', 'i', 'e', 'd', 'p']

/-- A name such as `I5` is read as an edit descriptor. -/
def wordKind (cs : List Char) : Kind :=
  if editLetters.contains (cs.headD ' ') && cs.length > 1 && cs.tail.all isDigit then .editConst
  else .ofWord (String.ofList cs)

/-! ## Formulas -/

/-- A token as it is written: its characters, and the kind and the value that they have. -/
structure Written where
  chars : List Char
  kind : Kind
  value : Option Literal

/-- A word between dots. -/
def dotted (word : List Char) : List Char :=
  '.' :: (word ++ ['.'])

inductive Operand : Written → Prop where
  | name {cs : List Char} (h : IsName cs) : Operand ⟨cs, wordKind cs, none⟩
  | digits {ds : List Char} (nonempty : ds ≠ []) (h : IsDigits ds) :
    Operand ⟨ds, .integerConst, integerValue ds⟩
  | real {cs : List Char} (h : IsReal cs) :
    Operand ⟨cs, .realConst, some (.real (Decimal.real cs))⟩
  | truth {word : List Char} {b : Bool} (letters : ∀ c ∈ word, isLetter c)
    (h : Kind.ofDotted? (String.ofList word) = some (if b then .trueConst else .falseConst)) :
    Operand ⟨dotted word, if b then .trueConst else .falseConst, some (.truth b)⟩

/-- The kinds between dots that are no operator between two operands. -/
def otherDotted : List Kind :=
  [.notOp, .trueConst, .falseConst]

inductive Operator : Written → Prop where
  | mk {word : List Char} {k : Kind} (letters : ∀ c ∈ word, isLetter c)
    (h : Kind.ofDotted? (String.ofList word) = some k) (binary : k ∉ otherDotted) :
    Operator ⟨dotted word, k, none⟩

/-- Operands with operators between them, each behind any number of negations. -/
inductive Formula : List Written → Prop where
  | operand {t : Written} (h : Operand t) : Formula [t]
  | negated {word : List Char} {ts : List Written} (letters : ∀ c ∈ word, isLetter c)
    (h : Kind.ofDotted? (String.ofList word) = some .notOp) (rest : Formula ts) :
    Formula (⟨dotted word, .notOp, none⟩ :: ts)
  | joined {t o : Written} {ts : List Written} (h : Operand t) (operator : Operator o)
    (rest : Formula ts) : Formula (t :: o :: ts)

def Written.lexeme (t : Written) (line col : Nat) : Lexeme :=
  ⟨t.kind, String.ofList t.chars, t.value, line, col⟩

/-- The lexemes of tokens that are written one behind the other. -/
def lexemesAt (line : Nat) : Nat → List Written → List Lexeme
  | _, [] => []
  | col, t :: ts => t.lexeme line col :: lexemesAt line (col + t.chars.length) ts

def charsOf (ts : List Written) : List Char :=
  ts.flatMap (·.chars)

/-- The characters cannot belong to a name, a number or a specifier in front of them. A dot can be
there if it is that of a word between dots. -/
structure Stops (depth : Nat) (rest : List Char) : Prop where
  head : ∀ c, rest.head? = some c → isWordChar c = false ∧ c ≠ '\'' ∧ c ≠ '"'
  dot : ∀ tail, rest = '.' :: tail → (dottedWord? tail).isSome
  equal : 0 < depth → ∀ after, rest.dropWhile (fun b => b == ' ' || b == '\t') = '=' :: after →
    after.head? = some '='

/-! ## Runs of characters -/

section Runs

variable {f : Char → Bool} {w rest : List Char}

theorem takeWhile_exact (h : ∀ c ∈ w, f c) (hrest : ∀ c, rest.head? = some c → f c = false) :
    (w ++ rest).takeWhile f = w := by
  rw [List.takeWhile_append_of_pos h]
  cases rest with
  | nil => simp
  | cons c cs => simp [hrest c rfl]

theorem run_exact (h : ∀ c ∈ w, f c) (hrest : ∀ c, rest.head? = some c → f c = false) :
    run f (w ++ rest) = w.length := by
  rw [run, takeWhile_exact h hrest]

theorem dropWhile_exact (h : ∀ c ∈ w, f c) (hrest : ∀ c, rest.head? = some c → f c = false) :
    (w ++ rest).dropWhile f = rest := by
  rw [← drop_run, run_exact h hrest, List.drop_left]

end Runs

namespace Stops

variable {depth : Nat} {rest : List Char}

theorem no_word (h : Stops depth rest) : ∀ c, rest.head? = some c → isWordChar c = false :=
  fun c hc => (h.head c hc).1

theorem no_digit (h : Stops depth rest) : ∀ c, rest.head? = some c → isDigit c = false := by
  intro c hc
  have hword := h.no_word c hc
  rw [isWordChar, Bool.or_eq_false_iff] at hword
  exact hword.2

theorem no_letter (h : Stops depth rest) : ∀ c, rest.head? = some c → isLetter c = false := by
  intro c hc
  have hword := h.no_word c hc
  rw [isWordChar, Bool.or_eq_false_iff] at hword
  exact hword.1

end Stops

/-- Letters that are distinguished are letters. -/
theorem isLetter_exponent {c : Char} (h : isExponentLetter c) : isLetter c := by
  simp only [isExponentLetter, Bool.or_eq_true, beq_iff_eq] at h
  rcases h with ((rfl | rfl) | rfl) | rfl <;> rfl

/-! ## Words between dots -/

section Dotted

variable {word rest : List Char} {k : Kind}

theorem dotted_ne_nil (h : Kind.ofDotted? (String.ofList word) = some k) : word ≠ [] := by
  rintro rfl
  cases h

theorem dottedWord?_dotted (hletters : ∀ c ∈ word, isLetter c)
    (h : Kind.ofDotted? (String.ofList word) = some k) :
    dottedWord? (word ++ '.' :: rest) = some (k, word.length + 1) := by
  have hpoint : ∀ c, ('.' :: rest).head? = some c → isLetter c = false := by
    rintro c ⟨⟩
    rfl
  unfold dottedWord?
  rw [takeWhile_exact hletters hpoint, dropWhile_exact hletters hpoint]
  obtain ⟨c, cs, rfl⟩ := List.exists_cons_of_ne_nil (dotted_ne_nil h)
  simp only [h, Option.map_some]

/-- A word between dots stops what stands in front of it. -/
theorem stops_dotted (depth : Nat) (hletters : ∀ c ∈ word, isLetter c)
    (h : Kind.ofDotted? (String.ofList word) = some k) : Stops depth (dotted word ++ rest) := by
  have heq : dotted word ++ rest = '.' :: (word ++ '.' :: rest) := by simp [dotted]
  rw [heq]
  refine ⟨?_, ?_, fun _ after hafter => ?_⟩
  · rintro c ⟨⟩
    decide
  · rintro tail ⟨⟩
    rw [dottedWord?_dotted hletters h]
    rfl
  · rw [List.dropWhile_cons_of_neg (by decide)] at hafter
    cases hafter

/-- The value of a word between dots. -/
def dottedValue : Kind → Option Literal
  | .trueConst => some (.truth true)
  | .falseConst => some (.truth false)
  | _ => none

theorem dot_dotted (hletters : ∀ c ∈ word, isLetter c)
    (h : Kind.ofDotted? (String.ofList word) = some k) :
    dot (word ++ '.' :: rest) = ⟨word.length + 1, some k, dottedValue k, none⟩ := by
  have hread : dottedWord? (word ++ '.' :: rest) = some (k, word.length + 1) :=
    dottedWord?_dotted hletters h
  obtain ⟨d, ds, rfl⟩ := List.exists_cons_of_ne_nil (dotted_ne_nil h)
  have hdigit : isDigit d = false := by
    by_contra hd
    rw [Bool.not_eq_false] at hd
    have hletter := hletters d List.mem_cons_self
    rw [digit_not_letter hd] at hletter
    cases hletter
  rw [List.cons_append] at hread ⊢
  simp only [dot, hdigit, hread, Bool.false_eq_true, if_false]
  cases k <;> rfl

end Dotted

/-! ## Numbers -/

section Numbers

variable {c : Char} {ds fs es rest : List Char} {depth : Nat}

theorem exponentLength_exact (hexponent : IsExponent es)
    (hrest : ∀ c, rest.head? = some c → isDigit c = false) :
    exponentLength (es ++ rest) = es.length := by
  obtain ⟨hletter, hsign, hne, hdigits⟩ := hexponent
  rename_i e sign ds
  obtain ⟨d, more, rfl⟩ := List.exists_cons_of_ne_nil hne
  have hrun : run isDigit (d :: more ++ rest) = more.length + 1 := run_exact hdigits hrest
  have hfirst : isDigit d := hdigits d List.mem_cons_self
  rcases hsign with rfl | rfl | rfl
  · rw [List.nil_append, List.cons_append, exponentLength.eq_def]
    simp only [List.cons_append] at hrun ⊢
    simp only [hletter, hfirst, hrun, if_true, List.length_cons]
    omega
  all_goals
    simp only [List.cons_append, List.nil_append] at hrun ⊢
    rw [exponentLength.eq_def]
    simp only [hletter, hrun, if_true, List.length_cons]
    simp [isDigit]
    omega

/-- What stops a number is no exponent of it. -/
theorem exponentLength_stops (h : ∀ c, rest.head? = some c → isLetter c = false) :
    exponentLength rest = 0 := by
  cases rest with
  | nil => rfl
  | cons c cs =>
    have hexponent : isExponentLetter c = false := by
      by_contra hletter
      rw [Bool.not_eq_false] at hletter
      exact absurd (isLetter_exponent hletter) (by simp [h c rfl])
    rw [exponentLength.eq_def]
    simp [hexponent]

/-- The exponent of a number, or none, in front of what stops it. -/
theorem exponentLength_tail (hexponent : es = [] ∨ IsExponent es) (h : Stops depth rest) :
    exponentLength (es ++ rest) = es.length := by
  rcases hexponent with rfl | hexponent
  · exact exponentLength_stops h.no_letter
  · exact exponentLength_exact hexponent h.no_digit

/-- An exponent starts with a letter. -/
theorem exponent_cons (h : IsExponent es) : ∃ e more, es = e :: more ∧ isExponentLetter e := by
  obtain ⟨hletter, -, -, -⟩ := h
  exact ⟨_, _, rfl, hletter⟩

/-- Behind a fraction there is no digit. -/
theorem no_digit_tail (hexponent : es = [] ∨ IsExponent es) (h : Stops depth rest) :
    ∀ c, (es ++ rest).head? = some c → isDigit c = false := by
  rcases hexponent with rfl | hexponent
  · exact h.no_digit
  · obtain ⟨e, more, rfl, hletter⟩ := exponent_cons hexponent
    rintro c ⟨⟩
    by_contra hdigit
    rw [Bool.not_eq_false] at hdigit
    exact absurd (isLetter_exponent hletter) (by simp [digit_not_letter hdigit])

theorem dottedWord?_no_letter {cs : List Char} (h : ∀ c, cs.head? = some c → isLetter c = false) :
    dottedWord? cs = none := by
  unfold dottedWord?
  cases cs with
  | nil => rfl
  | cons c cs => simp [h c rfl]

theorem dottedWord?_no_dot {e x : Char} (he : isLetter e) (hx : isLetter x = false) (hdot : x ≠ '.')
    (cs : List Char) : dottedWord? (e :: x :: cs) = none := by
  unfold dottedWord?
  simp [he, hx, hdot]

/-- A fraction with an exponent, behind its point, is no word between dots. -/
theorem dottedWord?_fraction (hfraction : IsDigits fs) (hexponent : es = [] ∨ IsExponent es)
    (h : Stops depth rest) : dottedWord? (fs ++ (es ++ rest)) = none := by
  cases fs with
  | cons f fs =>
    refine dottedWord?_no_letter ?_
    rintro c ⟨⟩
    exact digit_not_letter (hfraction _ List.mem_cons_self)
  | nil =>
    rcases hexponent with rfl | ⟨hletter, hsign, hne, hdigits⟩
    · exact dottedWord?_no_letter h.no_letter
    · -- The letter of the exponent is the whole word, and a sign or a digit is behind it.
      rename_i e sign ds
      obtain ⟨d, more, rfl⟩ := List.exists_cons_of_ne_nil hne
      have hdigit := hdigits d List.mem_cons_self
      have hpoint : d ≠ '.' := by
        rintro rfl
        exact absurd hdigit (by decide)
      have hword := isLetter_exponent hletter
      rcases hsign with rfl | rfl | rfl
      · exact dottedWord?_no_dot hword (digit_not_letter hdigit) hpoint _
      · exact dottedWord?_no_dot hword (by decide) (by decide) _
      · exact dottedWord?_no_dot hword (by decide) (by decide) _

theorem number_digits (hdigits : IsDigits ds) (h : Stops depth rest) :
    number c (ds ++ rest) = ⟨ds.length, some .integerConst, integerValue (c :: ds), none⟩ := by
  unfold number
  simp only [run_exact hdigits h.no_digit, List.drop_left, List.take_left]
  cases rest with
  | nil => rfl
  | cons next more =>
    have hletter : ∀ d, isLetter d → (next == d) = false := by
      intro d hd
      rw [beq_eq_false_iff_ne]
      rintro rfl
      exact absurd hd (by simp [h.no_letter _ rfl])
    have hexponent : isExponentLetter next = false := by
      simp [isExponentLetter, hletter 'E' rfl, hletter 'e' rfl, hletter 'D' rfl, hletter 'd' rfl]
    have hpoint : (next == '.') = true → (dottedWord? more).isSome = true := by
      intro hnext
      exact h.dot more (by rw [eq_of_beq hnext])
    simp only [hletter 'H' rfl, hletter 'h' rfl, hletter 'X' rfl, hletter 'x' rfl, hexponent,
      Bool.or_self, Bool.false_eq_true, if_false]
    split
    · rw [if_pos (hpoint (by assumption))]
      rfl
    · rfl

theorem number_point (hdigits : IsDigits ds) (hfraction : IsDigits fs)
    (hexponent : es = [] ∨ IsExponent es) (h : Stops depth rest) :
    number c (ds ++ '.' :: (fs ++ (es ++ rest))) =
      ⟨(ds ++ '.' :: (fs ++ es)).length, some .realConst,
        some (.real (Decimal.real (c :: (ds ++ '.' :: (fs ++ es))))), none⟩ := by
  have hpoint : ∀ c, ('.' :: (fs ++ (es ++ rest))).head? = some c → isDigit c = false := by
    rintro c ⟨⟩
    rfl
  have hlength : ds.length + 1 + fs.length + es.length = (ds ++ '.' :: (fs ++ es)).length := by
    simp only [List.length_append, List.length_cons]
    omega
  have hchars : ds ++ '.' :: (fs ++ (es ++ rest)) = ds ++ '.' :: (fs ++ es) ++ rest := by simp
  unfold number
  simp only [run_exact hdigits hpoint, List.drop_left, List.take_left,
    dottedWord?_fraction hfraction hexponent h, run_exact hfraction (no_digit_tail hexponent h),
    exponentLength_tail hexponent h]
  simp only [realConstant, Piece.constant, hlength, hchars, List.take_left]
  rfl

theorem number_exponent (hdigits : IsDigits ds) (hexponent : IsExponent es) (h : Stops depth rest) :
    number c (ds ++ (es ++ rest)) =
      ⟨(ds ++ es).length, some .realConst, some (.real (Decimal.real (c :: (ds ++ es)))), none⟩ := by
  have hlength : exponentLength (es ++ rest) = es.length := exponentLength_tail (.inr hexponent) h
  have htail := no_digit_tail (.inr hexponent) h
  obtain ⟨e, more, rfl, hletter⟩ := exponent_cons hexponent
  have hmark : ∀ d, isExponentLetter d = false → (e == d) = false := by
    intro d hd
    rw [beq_eq_false_iff_ne]
    rintro rfl
    exact absurd hletter (by simp [hd])
  have hchars : ds ++ (e :: more ++ rest) = ds ++ e :: more ++ rest := by simp
  unfold number
  simp only [run_exact hdigits htail, List.drop_left, List.take_left]
  simp only [List.cons_append] at hlength ⊢
  simp only [hmark 'H' rfl, hmark 'h' rfl, hmark '.' rfl, hletter, hlength, Bool.or_self,
    Bool.false_eq_true, if_false, if_true, List.length_cons]
  rw [← List.cons_append, hchars, realConstant, ← List.length_cons (a := e), ← List.length_append,
    List.take_left]
  rfl

theorem dot_fraction (hne : fs ≠ []) (hfraction : IsDigits fs) (hexponent : es = [] ∨ IsExponent es)
    (h : Stops depth rest) :
    dot (fs ++ (es ++ rest)) = ⟨(fs ++ es).length, some .realConst,
      some (.real (Decimal.real ('.' :: (fs ++ es)))), none⟩ := by
  have hrun := run_exact hfraction (no_digit_tail hexponent h)
  have hlength := exponentLength_tail hexponent h
  have hchars : fs ++ (es ++ rest) = fs ++ es ++ rest := by simp
  obtain ⟨d, more, rfl⟩ := List.exists_cons_of_ne_nil hne
  have hdigit : isDigit d := hfraction d List.mem_cons_self
  unfold dot
  simp only [List.cons_append, hdigit, if_true]
  rw [← List.cons_append, hrun, List.drop_left, hlength, hchars, realConstant,
    ← List.length_append, List.take_left]
  rfl

end Numbers

/-! ## Names -/

section Names

variable {c : Char} {cs rest : List Char} {depth : Nat}

theorem word_exact (hword : ∀ d ∈ cs, isWordChar d) (h : Stops depth rest) :
    word depth c (cs ++ rest) = ⟨cs.length, some (.ofWord (String.ofList (c :: cs))), none, none⟩ := by
  unfold word
  simp only [run_exact hword h.no_word, List.drop_left, List.take_left, drop_run]
  split
  · rename_i s hspecifier
    split at hspecifier
    · rename_i after hafter
      split at hspecifier
      · rename_i hequal
        obtain ⟨hdepth, hnext⟩ := Bool.and_eq_true_iff.1 hequal
        rw [h.equal (of_decide_eq_true hdepth) after hafter] at hnext
        cases hnext
      · cases hspecifier
    · cases hspecifier
  · rfl

/-- The word of an operator starts with a letter. -/
theorem run_digits_dotted (h : (dottedWord? cs).isSome) : run isDigit cs = 0 := by
  cases cs with
  | nil => rfl
  | cons d ds =>
    have hdigit : isDigit d = false := by
      by_contra hd
      rw [Bool.not_eq_false] at hd
      rw [dottedWord?_no_letter (by rintro _ ⟨⟩; exact digit_not_letter hd)] at h
      cases h
    simp [run, hdigit]

/-- A descriptor without a point. -/
theorem edit_plain (h : ∀ more, cs.drop (run isDigit cs) = '.' :: more → run isDigit more = 0) :
    edit depth c cs =
      if (cs.drop (run isDigit cs)).head?.any isWordChar then word depth c cs
      else .plain .editConst (run isDigit cs) := by
  unfold edit
  extract_lets n m
  have hm : m = n := by
    simp only [m]
    split
    · rename_i more hmore
      rw [h more hmore]
      rfl
    · rfl
  rw [hm]

theorem edit_digits (hdigits : IsDigits cs) (h : Stops depth rest) :
    edit depth c (cs ++ rest) = .plain .editConst cs.length := by
  have hrun : run isDigit (cs ++ rest) = cs.length := run_exact hdigits h.no_digit
  rw [edit_plain, hrun, List.drop_left, if_neg]
  · cases rest with
    | nil => simp
    | cons d ds => simp [h.no_word d rfl]
  · -- A point behind the digits is that of an operator.
    rw [hrun, List.drop_left]
    exact fun more hmore => run_digits_dotted (h.dot more hmore)

theorem edit_word (hword : ∀ d ∈ cs, isWordChar d) (hother : cs.all isDigit = false) :
    edit depth c (cs ++ rest) = word depth c (cs ++ rest) := by
  obtain ⟨d, more, hmore⟩ : ∃ d more, cs.dropWhile isDigit = d :: more := by
    refine List.exists_cons_of_ne_nil fun hnil => ?_
    rw [List.dropWhile_eq_nil_iff, ← List.all_eq_true] at hnil
    rw [hnil] at hother
    cases hother
  have hsplit : (cs ++ rest).dropWhile isDigit = d :: (more ++ rest) := by
    rw [List.dropWhile_append, hmore]
    rfl
  have hletter : isWordChar d :=
    hword d ((List.dropWhile_sublist isDigit).subset (by rw [hmore]; exact List.mem_cons_self))
  rw [edit_plain, drop_run, hsplit, if_pos]
  · exact hletter
  · rintro tail htail
    rw [drop_run, hsplit] at htail
    obtain ⟨rfl, -⟩ := List.cons.inj htail
    cases hletter

theorem wordKind_other (hc : editLetters.contains c = false) :
    wordKind (c :: cs) = .ofWord (String.ofList (c :: cs)) := by
  rw [wordKind, List.headD_cons, hc]
  exact if_neg (by simp)

theorem edit_name (hword : ∀ d ∈ cs, isWordChar d) (hc : editLetters.contains c = true)
    (h : Stops depth rest) :
    (if (cs ++ rest).head?.any isDigit then edit depth c (cs ++ rest)
      else word depth c (cs ++ rest)) = ⟨cs.length, some (wordKind (c :: cs)), none, none⟩ := by
  cases cs with
  | nil =>
    have hdigit : ([] ++ rest).head?.any isDigit = false := by
      cases rest with
      | nil => rfl
      | cons d ds => exact h.no_digit d rfl
    rw [hdigit, if_neg Bool.false_ne_true, word_exact hword h]
    simp [wordKind]
  | cons d ds =>
    by_cases hall : (d :: ds).all isDigit
    · have hdigit : (d :: ds ++ rest).head?.any isDigit :=
        List.all_eq_true.1 hall d List.mem_cons_self
      rw [if_pos hdigit, edit_digits (List.all_eq_true.1 hall) h, wordKind, List.headD_cons, hc,
        List.tail_cons, hall]
      simp [Piece.plain]
    · have hkind : wordKind (c :: d :: ds) = .ofWord (String.ofList (c :: d :: ds)) := by
        rw [wordKind, List.tail_cons, Bool.eq_false_iff.2 hall, Bool.and_false]
        exact if_neg Bool.false_ne_true
      rw [edit_word hword (Bool.eq_false_iff.2 hall), ite_self, word_exact hword h, hkind]

theorem radix_name (hword : ∀ d ∈ cs, isWordChar d) (h : Stops depth rest) (kind : Kind)
    (valid : Char → Bool) : radix kind valid depth c (cs ++ rest) = word depth c (cs ++ rest) := by
  have hquote : ∀ q, (cs ++ rest).head? = some q → (q == '\'' || q == '"') = false := by
    intro q hq
    cases cs with
    | nil => simpa using (h.head q hq).2
    | cons d ds =>
      obtain rfl : d = q := Option.some.inj hq
      have hd := hword d List.mem_cons_self
      rw [Bool.or_eq_false_iff, beq_eq_false_iff_ne, beq_eq_false_iff_ne]
      constructor <;> rintro rfl <;> exact absurd hd (by decide)
  unfold radix
  split
  · rename_i q more heq
    rw [hquote q (by rw [heq]; rfl), if_neg Bool.false_ne_true, heq]
  · rename_i heq
    rw [heq]

/-- Behind the start of its line a name is read up to what stops it. -/
theorem piece_name (hname : IsName (c :: cs)) (h : Stops depth rest) :
    piece false depth c (cs ++ rest) = ⟨cs.length, some (wordKind (c :: cs)), none, none⟩ := by
  obtain ⟨_, _, ⟨rfl, rfl⟩, ⟨hletter, hunder⟩, hword⟩ := hname
  have hother : editLetters.contains c = false →
      word depth c (cs ++ rest) = ⟨cs.length, some (wordKind (c :: cs)), none, none⟩ := by
    intro hc
    rw [word_exact hword h, wordKind_other hc]
  unfold piece
  split
  case h_7 | h_8 => exact hother rfl
  case h_25 | h_26 | h_27 | h_28 | h_29 | h_30 =>
    rw [radix_name hword h]
    exact hother rfl
  case h_31 | h_32 | h_33 | h_34 | h_35 | h_36 | h_37 | h_38 | h_39 | h_40 =>
    exact edit_name hword rfl h
  case h_41 =>
    rw [if_pos hletter]
    refine hother ?_
    simp only [editLetters, List.contains_cons, List.contains_nil, Bool.or_false,
      Bool.or_eq_false_iff, beq_eq_false_iff_ne]
    and_intros <;> assumption
  case h_21 => exact absurd rfl hunder
  all_goals exact absurd hletter (by decide)

end Names

/-! ## Tokens -/

/-- The kinds behind which the line or the depth of parentheses is another one. -/
def movingKinds : List Kind :=
  [.newline, .lparen, .lparenBar, .rparen, .barRparen]

/-- The token is what is read at its characters when the rest is behind them. -/
structure Written.Read (t : Written) (depth : Nat) (rest : List Char) : Prop where
  piece : ∃ c cs, t.chars = c :: cs ∧
    Scan.piece false depth c (cs ++ rest) = ⟨cs.length, some t.kind, t.value, none⟩
  kind : t.kind ∉ movingKinds

section Tokens

variable {t : Written} {depth : Nat} {word rest : List Char}

theorem ofDotted?_kind {k : Kind} (h : Kind.ofDotted? (String.ofList word) = some k) :
    k ∉ movingKinds := by
  unfold Kind.ofDotted? at h
  split at h <;> cases h <;> decide

theorem read_dotted {k : Kind} (hletters : ∀ c ∈ word, isLetter c)
    (h : Kind.ofDotted? (String.ofList word) = some k) :
    Written.Read ⟨dotted word, k, dottedValue k⟩ depth rest := by
  refine ⟨⟨'.', word ++ ['.'], rfl, ?_⟩, ofDotted?_kind h⟩
  rw [List.append_assoc, List.singleton_append, List.length_append, List.length_singleton]
  exact dot_dotted hletters h

theorem wordKind_kind (cs : List Char) : wordKind cs ∉ movingKinds := by
  unfold wordKind
  split
  · decide
  · unfold Kind.ofWord
    split
    · simp [movingKinds]
    · decide

theorem IsReal.read {cs : List Char} (h : IsReal cs) (hstop : Stops depth rest) :
    Written.Read ⟨cs, .realConst, some (.real (Decimal.real cs))⟩ depth rest := by
  refine ⟨?_, (by decide : Kind.realConst ∉ movingKinds)⟩
  cases h with
  | @point ds fs es hwhole hfraction hne hexponent =>
    cases ds with
    | nil =>
      have hdot := dot_fraction (hne.resolve_left (· rfl)) hfraction hexponent hstop
      exact ⟨'.', fs ++ es, rfl, by rw [List.append_assoc]; exact hdot⟩
    | cons d ds =>
      refine ⟨d, ds ++ '.' :: (fs ++ es), rfl, ?_⟩
      rw [piece_digit (hwhole d List.mem_cons_self), List.append_assoc, List.cons_append,
        List.append_assoc]
      exact number_point (fun c hc => hwhole c (List.mem_cons_of_mem d hc)) hfraction hexponent hstop
  | @exponent ds es hwhole hne hexponent =>
    obtain ⟨d, ds, rfl⟩ := List.exists_cons_of_ne_nil hne
    refine ⟨d, ds ++ es, rfl, ?_⟩
    rw [piece_digit (hwhole d List.mem_cons_self), List.append_assoc]
    exact number_exponent (fun c hc => hwhole c (List.mem_cons_of_mem d hc)) hexponent hstop

theorem Operand.read (h : Operand t) (hstop : Stops depth rest) : t.Read depth rest := by
  cases h with
  | @name cs h =>
    obtain ⟨c, more, rfl, hc⟩ := h
    exact ⟨⟨c, more, rfl, piece_name ⟨c, more, rfl, hc⟩ hstop⟩, wordKind_kind _⟩
  | @digits ds hne h =>
    obtain ⟨d, ds, rfl⟩ := List.exists_cons_of_ne_nil hne
    refine ⟨⟨d, ds, rfl, ?_⟩, (by decide : Kind.integerConst ∉ movingKinds)⟩
    rw [piece_digit (h d List.mem_cons_self)]
    exact number_digits (fun c hc => h c (List.mem_cons_of_mem d hc)) hstop
  | real h => exact h.read hstop
  | @truth word b hletters h =>
    have hread : Written.Read _ depth rest := read_dotted hletters h
    cases b <;> exact hread

theorem Operator.read {o : Written} (h : Operator o) : o.Read depth rest := by
  obtain ⟨hletters, hkind, hbinary⟩ := h
  rename_i word k
  have hvalue : dottedValue k = none := by
    cases k <;> first | rfl | exact absurd (by decide) hbinary
  rw [← hvalue]
  exact read_dotted hletters hkind

theorem Operator.stops {o : Written} (h : Operator o) : Stops depth (o.chars ++ rest) := by
  obtain ⟨hletters, hkind, -⟩ := h
  exact stops_dotted depth hletters hkind

/-- Where a token may start, one behind the start of its line is read. -/
theorem Comes.read {source : String} {front : List Char} {read : List Lexeme} {p : Place}
    (h : Comes source front read p (t.chars ++ rest)) (hcol : 1 < p.col)
    (ht : t.Read p.depth rest) :
    Comes source (front ++ t.chars) (read ++ [t.lexeme p.line p.col])
      ⟨p.line, p.col + t.chars.length, p.depth⟩ rest := by
  obtain ⟨⟨c, cs, hchars, hpiece⟩, hkind⟩ := ht
  rw [← beq_eq_false_iff_ne.2 hcol.ne'] at hpiece
  rw [hchars, List.cons_append] at h
  have hstep := h.step hpiece
  have hafter : p.after ⟨cs.length, some t.kind, t.value, none⟩ =
      ⟨p.line, p.col + t.chars.length, p.depth⟩ := by
    rw [hchars]
    revert hkind
    cases t.kind <;> intro hkind <;> first | rfl | exact absurd (by decide) hkind
  rw [hafter] at hstep
  simp only [List.take_left, List.drop_left, lexeme?, Option.map_some, Option.getD_none,
    ← hchars] at hstep
  exact hstep

end Tokens

theorem charsOf_cons (t : Written) (ts : List Written) : charsOf (t :: ts) = t.chars ++ charsOf ts :=
  List.flatMap_cons

/-- A formula is read token by token. -/
theorem Formula.comes {ts : List Written} (h : Formula ts) {source : String} {rest : List Char} :
    ∀ {front : List Char} {read : List Lexeme} {p : Place}, 1 < p.col → Stops p.depth rest →
      Comes source front read p (charsOf ts ++ rest) →
      Comes source (front ++ charsOf ts) (read ++ lexemesAt p.line p.col ts)
        ⟨p.line, p.col + (charsOf ts).length, p.depth⟩ rest := by
  induction h with
  | @operand t ht =>
    intro front read p hcol hstop hcomes
    rw [charsOf_cons, charsOf, List.flatMap_nil, List.append_nil] at hcomes ⊢
    exact hcomes.read hcol (ht.read hstop)
  | @negated word ts hletters hword _ ih =>
    intro front read p hcol hstop hcomes
    rw [charsOf_cons, List.append_assoc] at hcomes
    have hnot := hcomes.read (t := ⟨dotted word, .notOp, none⟩) hcol (read_dotted hletters hword)
    have hrest := ih (p := ⟨p.line, p.col + (dotted word).length, p.depth⟩)
      (hcol.trans_le (Nat.le_add_right _ _)) hstop hnot
    rw [List.append_assoc, List.append_assoc, ← charsOf_cons ⟨dotted word, .notOp, none⟩] at hrest
    rw [charsOf_cons, List.length_append, ← Nat.add_assoc]
    exact hrest
  | @joined t o ts ht ho _ ih =>
    intro front read p hcol hstop hcomes
    rw [charsOf_cons, charsOf_cons, List.append_assoc, List.append_assoc] at hcomes
    have hoperand := hcomes.read hcol (ht.read ho.stops)
    have hbehind : 1 < p.col + t.chars.length := hcol.trans_le (Nat.le_add_right _ _)
    have hoperator := hoperand.read hbehind ho.read
    have hrest := ih (p := ⟨p.line, p.col + t.chars.length + o.chars.length, p.depth⟩)
      (hbehind.trans_le (Nat.le_add_right _ _)) hstop hoperator
    simp only [List.append_assoc] at hrest
    rw [charsOf_cons, charsOf_cons, List.length_append, List.length_append, ← Nat.add_assoc,
      ← Nat.add_assoc]
    exact hrest

/-! ## Lines -/

/-- Nothing more stands in the line. -/
def LineEnds (rest : List Char) : Prop :=
  rest = [] ∨ ∃ more, rest = '\n' :: more

theorem LineEnds.stops {rest : List Char} (h : LineEnds rest) (depth : Nat) : Stops depth rest := by
  rcases h with rfl | ⟨more, rfl⟩
  · exact ⟨by simp, by simp, by simp⟩
  · refine ⟨?_, by simp, fun _ after hafter => ?_⟩
    · rintro c ⟨⟩
      decide
    · rw [List.dropWhile_cons_of_neg (by decide)] at hafter
      cases hafter

theorem LineEnds.lexemes {rest : List Char} (h : LineEnds rest) (p : Place) :
    ∃ last more, lexemesFrom p rest = last :: more ∧ (last.kind = .eof ∨ last.kind = .newline) := by
  rcases h with rfl | ⟨more, rfl⟩
  · exact ⟨_, [], by rw [lexemesFrom], .inl rfl⟩
  · exact ⟨_, _, by rw [lexemesFrom]; rfl, .inr rfl⟩

/-- The characters in front of a line. -/
def LinesBefore (lines : List Char) : Prop :=
  lines = [] ∨ ∃ cs, lines = cs ++ ['\n']

/-- A scan comes to the start of every line, behind the end of the one before it. -/
theorem comes_line {source : String} {lines rest : List Char} (h : LinesBefore lines)
    (hsource : source.toList = lines ++ rest) :
    ∃ read p, Comes source lines read p rest ∧ p.col = 1 ∧
      ∀ lx ∈ read.getLast?, lx.kind = .newline := by
  have hstart : Comes source [] [] .start source.toList := .start
  rcases h with rfl | ⟨cs, rfl⟩
  · rw [hsource] at hstart
    exact ⟨[], .start, hstart, rfl, by simp⟩
  · rw [hsource, List.append_assoc, List.singleton_append] at hstart
    obtain ⟨read, lx, p, hkind, hcol, hcomes⟩ := hstart.line
    refine ⟨read ++ [lx], p, hcomes, hcol, fun m hm => ?_⟩
    rw [List.getLast?_concat] at hm
    obtain rfl := Option.some.inj hm
    exact hkind

theorem integerValue_small {ds : List Char} (h : Decimal.ofDigits ds < 2 ^ 63) :
    integerValue ds = some (.int (Decimal.ofDigits ds)) := by
  unfold integerValue
  exact if_pos (Nat.le_sub_one_of_lt h)

theorem wordKind_cases (cs : List Char) :
    wordKind cs = .name ∨ wordKind cs = .editConst ∨ ∃ k, wordKind cs = .keyword k := by
  unfold wordKind
  split
  · exact .inr (.inl rfl)
  · unfold Kind.ofWord
    split
    · exact .inr (.inr ⟨_, rfl⟩)
    · exact .inl rfl

end Scan

/-! ## Main statement -/

/-- Where a scan comes to a formula without blanks that does not start its line, it reads the tokens
that the formula was written with, whatever stands behind it unless it belongs to the last one of them.
In particular a formula that follows blanks and fills the rest of its line is all that is read of the
line. Runs of digits have their values unless these need more than 63 bits, and a name is read as a
name, an edit descriptor or a keyword. -/
theorem formulas_without_blanks {ts : List Scan.Written} (h : Scan.Formula ts) :
    (∀ {source : String} {front rest : List Char} {read : List Lexeme} {p : Scan.Place},
      1 < p.col → Scan.Stops p.depth rest →
      Scan.Comes source front read p (Scan.charsOf ts ++ rest) →
      Scan.Comes source (front ++ Scan.charsOf ts) (read ++ Scan.lexemesAt p.line p.col ts)
        ⟨p.line, p.col + (Scan.charsOf ts).length, p.depth⟩ rest) ∧
    (∀ {source : String} {lines blanks rest : List Char},
      source.toList = lines ++ (blanks ++ (Scan.charsOf ts ++ rest)) →
      Scan.LinesBefore lines → blanks ≠ [] → (∀ b ∈ blanks, b = ' ' ∨ b = '\t') →
      Scan.LineEnds rest →
      ∃ read last more, scan source =
          read ++ Scan.lexemesAt (lineBehind lines) (blanks.length + 1) ts ++ last :: more ∧
        (∀ lx ∈ read.getLast?, lx.kind = .newline) ∧ (last.kind = .eof ∨ last.kind = .newline)) ∧
    (∀ ds, Decimal.ofDigits ds < 2 ^ 63 →
      Scan.integerValue ds = some (.int (Decimal.ofDigits ds))) ∧
    (∀ cs, Scan.wordKind cs = .name ∨ Scan.wordKind cs = .editConst ∨
      ∃ k, Scan.wordKind cs = .keyword k) := by
  refine ⟨fun hcol hstop hcomes => h.comes hcol hstop hcomes, ?_,
    fun _ => Scan.integerValue_small, Scan.wordKind_cases⟩
  intro source lines blanks rest hsource hlines hne hblanks hends
  obtain ⟨read, p, hcomes, hcol, hread⟩ := Scan.comes_line hlines hsource
  have hline := hcomes.behind.line
  have hblank := hcomes.indent hblanks
  have hinside : 1 < p.col + blanks.length := by
    have := List.length_pos_of_ne_nil hne
    omega
  have hformula := h.comes hinside (hends.stops _) hblank
  obtain ⟨last, more, hlast, hkind⟩ := hends.lexemes
    ⟨p.line, p.col + blanks.length + (Scan.charsOf ts).length, p.depth⟩
  refine ⟨read, last, more, ?_, hread, hkind⟩
  rw [hformula.scan_eq, hlast, hline, hcol, Nat.add_comm 1]

/-- A comparison of a number that ends with its point, one with an exponent and behind it a negation
in front of a number that starts with its point. -/
theorem formulas_without_blanks_points :
    ∃ ts, Scan.Formula ts ∧ Scan.charsOf ts = "1..EQ.1.E5.or..NOT..5.LT.E5".toList ∧
      ts.map (·.kind) = [.realConst, .eqOp, .realConst, .orOp, .notOp, .realConst, .ltOp, .editConst] ∧
      ∃ read last more, scan " 1..EQ.1.E5.or..NOT..5.LT.E5" =
        read ++ Scan.lexemesAt 1 2 ts ++ last :: more := by
  have hexponent : Scan.IsExponent ('E' :: ([] ++ ['5'])) :=
    .mk rfl (.inl rfl) (by decide) (by decide)
  have hone : Scan.IsReal (['1'] ++ '.' :: ([] ++ [])) :=
    .point (by decide) (by decide) (.inl (by decide)) (.inl rfl)
  have hlarge : Scan.IsReal (['1'] ++ '.' :: ([] ++ 'E' :: ([] ++ ['5']))) :=
    .point (by decide) (by decide) (.inl (by decide)) (.inr hexponent)
  have hhalf : Scan.IsReal ([] ++ '.' :: (['5'] ++ [])) :=
    .point (by decide) (by decide) (.inr (by decide)) (.inl rfl)
  have hname : Scan.IsName "E5".toList := ⟨'E', ['5'], rfl, by decide, List.all_eq_true.1 rfl⟩
  have heq : Scan.Operator ⟨Scan.dotted "EQ".toList, .eqOp, none⟩ :=
    .mk (List.all_eq_true.1 rfl) (by decide) (by decide)
  have hor : Scan.Operator ⟨Scan.dotted "or".toList, .orOp, none⟩ :=
    .mk (List.all_eq_true.1 rfl) (by decide) (by decide)
  have hlt : Scan.Operator ⟨Scan.dotted "LT".toList, .ltOp, none⟩ :=
    .mk (List.all_eq_true.1 rfl) (by decide) (by decide)
  have hnegated : Scan.Formula (⟨Scan.dotted "NOT".toList, .notOp, none⟩ :: _) :=
    .negated (List.all_eq_true.1 rfl) (by decide) (.joined (.real hhalf) hlt (.operand (.name hname)))
  obtain ⟨ts, hformula, hchars, hkinds⟩ : ∃ ts, Scan.Formula ts ∧
      Scan.charsOf ts = "1..EQ.1.E5.or..NOT..5.LT.E5".toList ∧ ts.map (·.kind) =
        [.realConst, .eqOp, .realConst, .orOp, .notOp, .realConst, .ltOp, .editConst] :=
    ⟨_, .joined (.real hone) heq (.joined (.real hlarge) hor hnegated), by decide, by decide⟩
  have hsource : " 1..EQ.1.E5.or..NOT..5.LT.E5".toList = [] ++ ([' '] ++ (Scan.charsOf ts ++ [])) := by
    rw [hchars]
    decide
  obtain ⟨read, last, more, hscan, -⟩ := (formulas_without_blanks hformula).2.1 hsource (.inl rfl)
    (by decide) (by simp) (.inl rfl)
  exact ⟨ts, hformula, hchars, hkinds, read, last, more, hscan⟩

end FortranJulia
