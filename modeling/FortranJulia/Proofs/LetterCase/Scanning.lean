import FortranJulia.Proofs.LetterCase.Texts
import FortranJulia.Proofs.Scanning.Spans

/-!
Scanning up to letter case. One step at characters in upper case takes as many of them and finds the
same kind and, up to the case of letters in texts, the same value. So the lexemes of a source have
the kinds and places of those of the source in upper case.
-/

namespace FortranJulia

set_option autoImplicit false

open Decimal (isDigit)

/-! ## Lexemes in upper case -/

def Literal.caps : Literal → Literal
  | .text s => .text s.toUpper
  | v => v

def Lexeme.caps (lx : Lexeme) : Lexeme :=
  { lx with text := lx.text.toUpper, value := lx.value.map Literal.caps }

@[simp] theorem Literal.caps_caps (v : Literal) : v.caps.caps = v.caps := by
  cases v <;> simp [Literal.caps]

@[simp] theorem Lexeme.caps_caps (lx : Lexeme) : lx.caps.caps = lx.caps := by
  simp [Lexeme.caps, Function.comp_def]

/-! ## Numbers -/

namespace Decimal

theorem caseless_isDigit : Caseless isDigit :=
  .of_letters (by decide)

theorem toUpper_of_isDigit {c : Char} (h : isDigit c) : c.toUpper = c :=
  toUpper_of_class (by decide) h

theorem map_toUpper_of_digits {ds : List Char} (h : ∀ d ∈ ds, isDigit d) :
    ds.map Char.toUpper = ds := by
  rw [List.map_congr_left fun d hd => toUpper_of_isDigit (h d hd), List.map_id']

theorem takeWhile_digits {ds rest : List Char} (hds : ∀ d ∈ ds, isDigit d)
    (hrest : rest.head?.any isDigit = false) :
    (ds ++ rest).takeWhile isDigit = ds ∧ (ds ++ rest).dropWhile isDigit = rest := by
  have hempty : rest.takeWhile isDigit = [] ∧ rest.dropWhile isDigit = rest := by
    cases rest with
    | nil => exact ⟨rfl, rfl⟩
    | cons c rest =>
      have hc : isDigit c = false := hrest
      simp [hc]
  rw [List.takeWhile_append_of_pos hds, List.dropWhile_append_of_pos hds, hempty.1, hempty.2,
    List.append_nil]
  exact ⟨rfl, rfl⟩

/-- The value of digits with an exponent behind them. -/
theorem real_whole {ds x : List Char} (hds : ∀ d ∈ ds, isDigit d)
    (hx : x.head?.any (fun c => isDigit c || c == '.') = false) :
    real (ds ++ x) = scaled (ofDigits ds) (exponentPart x) := by
  have hhead : x.head?.any isDigit = false := by
    cases x with
    | nil => rfl
    | cons c x => exact (Bool.or_eq_false_iff.1 hx).1
  obtain ⟨htake, hdrop⟩ := takeWhile_digits hds hhead
  unfold real
  simp only [htake, hdrop]
  split
  · exact absurd hx (by simp)
  · simp

/-- The value of digits with a point, further digits and an exponent behind them. -/
theorem real_point {ds fs x : List Char} (hds : ∀ d ∈ ds, isDigit d) (hfs : ∀ d ∈ fs, isDigit d)
    (hx : x.head?.any isDigit = false) :
    real (ds ++ '.' :: (fs ++ x)) = scaled (ofDigits (ds ++ fs)) (exponentPart x - fs.length) := by
  have hpoint : ('.' :: (fs ++ x)).head?.any isDigit = false := rfl
  obtain ⟨htake, hdrop⟩ := takeWhile_digits hds hpoint
  obtain ⟨htake', hdrop'⟩ := takeWhile_digits hfs hx
  unfold real
  simp only [htake, hdrop, htake', hdrop']

end Decimal

namespace Scan

open Decimal (caseless_isDigit toUpper_of_isDigit map_toUpper_of_digits)

theorem caseless_isLetter : Caseless isLetter :=
  .of_letters (by decide)

theorem caseless_isWordChar : Caseless isWordChar :=
  .of_letters (by decide)

theorem caseless_isExponentLetter : Caseless isExponentLetter :=
  .of_letters (by decide)

section Runs

variable {p : Char → Bool}

theorem run_toUpper (hp : Caseless p) (cs : List Char) : run p (cs.map Char.toUpper) = run p cs := by
  simp [run, hp.takeWhile]

theorem take_toUpper (n : Nat) (cs : List Char) :
    (cs.map Char.toUpper).take n = (cs.take n).map Char.toUpper :=
  (List.map_take ..).symm

theorem drop_toUpper (n : Nat) (cs : List Char) :
    (cs.map Char.toUpper).drop n = (cs.drop n).map Char.toUpper :=
  (List.map_drop ..).symm

end Runs

/-- The number of digits of a run in upper case is not changed, and neither are the digits. -/
theorem digits_toUpper (cs : List Char) :
    (cs.map Char.toUpper).take (run isDigit cs) = cs.take (run isDigit cs) := by
  rw [take_toUpper, map_toUpper_of_digits fun d hd => mem_take_run hd]

/-! ## Exponents -/

theorem exponentLength_toUpper (cs : List Char) :
    exponentLength (cs.map Char.toUpper) = exponentLength cs := by
  cases cs with
  | nil => rfl
  | cons e cs =>
    cases cs with
    | nil => simp [exponentLength]
    | cons s ds =>
      have hrun := run_toUpper caseless_isDigit (s :: ds)
      have hplus : (s.toUpper == '+') = (s == '+') := Caseless.beq rfl s
      have hminus : (s.toUpper == '-') = (s == '-') := Caseless.beq rfl s
      simp only [List.map_cons] at hrun ⊢
      simp only [exponentLength, caseless_isExponentLetter e, caseless_isDigit s, hplus, hminus,
        run_toUpper caseless_isDigit, hrun]

/-- The characters of an exponent. Behind its letter there are no letters. -/
theorem exponent_cases (cs : List Char) :
    cs.take (exponentLength cs) = [] ∨
      ∃ e ds, cs.take (exponentLength cs) = e :: ds ∧ isExponentLetter e ∧
        ds.map Char.toUpper = ds := by
  cases cs with
  | nil => exact .inl rfl
  | cons e cs =>
    by_cases he : isExponentLetter e
    · cases cs with
      | nil => exact .inl (by simp [exponentLength])
      | cons s ds =>
        by_cases hs : isDigit s
        · refine .inr ⟨e, (s :: ds).take (run isDigit (s :: ds)), ?_, he, ?_⟩
          · simp [exponentLength, he, hs, Nat.add_comm 1]
          · exact map_toUpper_of_digits fun d hd => mem_take_run hd
        · by_cases hsign : (s == '+' || s == '-') && decide (run isDigit ds > 0)
          · refine .inr ⟨e, s :: ds.take (run isDigit ds), ?_, he, ?_⟩
            · simp [exponentLength, he, hs, hsign, Nat.add_comm 2]
            · have hdigits : (ds.take (run isDigit ds)).map Char.toUpper = ds.take (run isDigit ds) :=
                map_toUpper_of_digits fun d hd => mem_take_run hd
              have hs' : s.toUpper = s := by
                have hor : s = '+' ∨ s = '-' := by simpa using (Bool.and_eq_true_iff.1 hsign).1
                rcases hor with rfl | rfl <;> rfl
              rw [List.map_cons, hs', hdigits]
          · exact .inl (by simp [exponentLength, he, hs, hsign])
    · exact .inl (by simp [exponentLength, he])

theorem exponent_toUpper (cs : List Char) :
    Decimal.exponentPart ((cs.take (exponentLength cs)).map Char.toUpper) =
      Decimal.exponentPart (cs.take (exponentLength cs)) := by
  rcases exponent_cases cs with h | ⟨e, ds, h, -, hds⟩
  · rw [h]
    rfl
  · rw [h, List.map_cons, hds]
    unfold Decimal.exponentPart
    cases ds with
    | nil => rfl
    | cons d ds =>
      by_cases hminus : d = '-'
      · subst hminus; rfl
      · by_cases hplus : d = '+'
        · subst hplus; rfl
        · simp [hminus, hplus]

/-- No digit and no point starts an exponent. -/
theorem exponent_head (cs : List Char) :
    (cs.take (exponentLength cs)).head?.any (fun c => isDigit c || c == '.') = false := by
  rcases exponent_cases cs with h | ⟨e, ds, h, he, -⟩
  · rw [h]
    rfl
  · rw [h]
    simp only [isExponentLetter, Bool.or_eq_true, beq_iff_eq, or_assoc] at he
    rcases he with rfl | rfl | rfl | rfl <;> rfl

/-! ## Pieces -/

/-- A piece with its texts in upper case. -/
def Piece.caps (q : Piece) : Piece :=
  { q with value := q.value.map Literal.caps, text := q.text.map String.toUpper }

@[simp] theorem Piece.caps_plain (k : Kind) (n : Nat) : (Piece.plain k n).caps = .plain k n :=
  rfl

theorem comment_toUpper (c : Char) (cs : List Char) :
    (comment c.toUpper (cs.map Char.toUpper)).caps = (comment c cs).caps := by
  have hline : Caseless (· != '\n') := (Caseless.beq rfl).not
  have htrail : Caseless (· == '\r') := Caseless.beq rfl
  simp only [comment, hline.takeWhile, ← List.map_cons, htrail.dropTrailing, List.length_map,
    Piece.caps, Option.map_some, ofList_toUpper, map_toUpper_map]

theorem quotedText_toUpper {quote : Char} (hq : Caseless (· == quote)) (hq' : quote.toUpper = quote)
    (cs : List Char) :
    quotedText quote (cs.map Char.toUpper) =
      ((quotedText quote cs).1.map Char.toUpper, (quotedText quote cs).2) := by
  have hnewline : Caseless (· == '\n') := Caseless.beq rfl
  fun_induction quotedText quote cs with
  | case1 => rfl
  | case2 c hc d ds hd value n heq ih =>
    simp [quotedText, hq c, hq d, hc, hd, ih, heq, hq']
  | case3 c hc d ds hd => simp [quotedText, hq c, hq d, hc, hd]
  | case4 c hc => simp [quotedText, hq c, hc]
  | case5 c cs hc hn =>
    rw [List.map_cons]
    unfold quotedText
    simp [hq c, hc, hnewline c, hn]
  | case6 c cs hc hn value n heq ih =>
    rw [List.map_cons]
    unfold quotedText
    simp [hq c, hc, hnewline c, hn, ih, heq]

/-- Julia writes some characters with letters of its own, which are the same for both cases. -/
theorem juliaChar_toUpper (c : Char) :
    (Text.juliaChar c.toUpper).map Char.toUpper = (Text.juliaChar c).map Char.toUpper :=
  Caseless.of_letters (f := fun c => (Text.juliaChar c).map Char.toUpper) (by decide) c

theorem juliaString_toUpper (s : String) :
    (Text.juliaString s.toUpper).toUpper = (Text.juliaString s).toUpper := by
  apply toUpper_eq_of_toList
  simp [Text.juliaString, List.map_flatMap, List.flatMap_map, juliaChar_toUpper]

theorem charConstant_toUpper {quote : Char} (hq : Caseless (· == quote))
    (hq' : quote.toUpper = quote) (cs : List Char) :
    (charConstant quote (cs.map Char.toUpper)).caps = (charConstant quote cs).caps := by
  have hstring := juliaString_toUpper (String.ofList (quotedText quote cs).1)
  rw [ofList_toUpper] at hstring
  simp only [charConstant, quotedText_toUpper hq hq', Piece.caps, Option.map_some, Literal.caps,
    ofList_toUpper, map_toUpper_map, hstring]

theorem ofDotted?_toUpper (s : String) : Kind.ofDotted? s.toUpper = Kind.ofDotted? s := by
  rw [Kind.ofDotted?, upper_toUpper, Kind.ofDotted?]

theorem ofWord_toUpper (s : String) : Kind.ofWord s.toUpper = Kind.ofWord s := by
  rw [Kind.ofWord, Keyword.ofWord?, upper_toUpper, Kind.ofWord, Keyword.ofWord?]

theorem specifier_toUpper (s : String) : Specifier.ofWord? s.toUpper = Specifier.ofWord? s := by
  rw [Specifier.ofWord?, upper_toUpper, Specifier.ofWord?]

theorem dottedWord?_toUpper (cs : List Char) :
    dottedWord? (cs.map Char.toUpper) = dottedWord? cs := by
  unfold dottedWord?
  simp only [caseless_isLetter.takeWhile, caseless_isLetter.dropWhile]
  cases cs.takeWhile isLetter with
  | nil => rfl
  | cons w ws =>
    cases cs.dropWhile isLetter with
    | nil => rfl
    | cons d ds =>
      by_cases hd : d = '.'
      · subst hd
        have hword := ofDotted?_toUpper (String.ofList (w :: ws))
        rw [ofList_toUpper] at hword
        change (Kind.ofDotted? _).map _ = (Kind.ofDotted? _).map _
        rw [hword]
        simp
      · have hd' : d.toUpper ≠ '.' := toUpper_ne rfl hd
        simp [hd, hd']

/-- A real constant of digits and an exponent. -/
theorem realConstant_whole {c : Char} (hc : isDigit c) (cs : List Char) :
    realConstant c (cs.map Char.toUpper)
        (run isDigit cs + exponentLength (cs.drop (run isDigit cs))) =
      realConstant c cs (run isDigit cs + exponentLength (cs.drop (run isDigit cs))) := by
  have hds : ∀ d ∈ c :: cs.take (run isDigit cs), isDigit d := by
    intro d hd
    rcases List.mem_cons.1 hd with rfl | hd
    · exact hc
    · exact mem_take_run hd
  have hhead := exponent_head (cs.drop (run isDigit cs))
  have hhead' := exponent_head ((cs.drop (run isDigit cs)).map Char.toUpper)
  rw [exponentLength_toUpper, take_toUpper] at hhead'
  rw [realConstant, realConstant, take_toUpper, List.take_add, List.map_append, map_toUpper_of_digits
    (List.forall_mem_cons.1 hds).2, ← List.cons_append, ← List.cons_append,
    Decimal.real_whole hds hhead, Decimal.real_whole hds hhead', exponent_toUpper]

/-- The length of a fraction with its exponent. -/
def fractionLength (cs : List Char) : Nat :=
  run isDigit cs + exponentLength (cs.drop (run isDigit cs))

theorem fractionLength_toUpper (cs : List Char) :
    fractionLength (cs.map Char.toUpper) = fractionLength cs := by
  rw [fractionLength, run_toUpper caseless_isDigit, drop_toUpper, exponentLength_toUpper,
    fractionLength]

theorem real_fraction {ds : List Char} (hds : ∀ d ∈ ds, isDigit d) (cs : List Char) :
    Decimal.real (ds ++ '.' :: (cs.map Char.toUpper).take (fractionLength cs)) =
      Decimal.real (ds ++ '.' :: cs.take (fractionLength cs)) := by
  have hany : ∀ x : List Char, x.head?.any (fun c => isDigit c || c == '.') = false →
      x.head?.any isDigit = false := by
    intro x hx
    cases x with
    | nil => rfl
    | cons c x => exact (Bool.or_eq_false_iff.1 hx).1
  have hfs : ∀ d ∈ cs.take (run isDigit cs), isDigit d := fun d hd => mem_take_run hd
  have hhead := exponent_head (cs.drop (run isDigit cs))
  have hhead' := exponent_head ((cs.drop (run isDigit cs)).map Char.toUpper)
  rw [exponentLength_toUpper, take_toUpper] at hhead'
  rw [fractionLength, take_toUpper, List.take_add, List.map_append, map_toUpper_of_digits hfs,
    Decimal.real_point hds hfs (hany _ hhead), Decimal.real_point hds hfs (hany _ hhead'),
    exponent_toUpper]

theorem dot_toUpper (cs : List Char) : dot (cs.map Char.toUpper) = dot cs := by
  cases cs with
  | nil => rfl
  | cons d ds =>
    have hreal := @real_fraction [] (by simp) (d :: ds)
    have hlength := fractionLength_toUpper (d :: ds)
    have hword := dottedWord?_toUpper (d :: ds)
    simp only [fractionLength, List.nil_append, List.map_cons] at hreal hlength hword
    simp only [List.map_cons, dot, caseless_isDigit d, hword, hlength]
    split
    · simp only [realConstant, hreal]
    · rfl

theorem hollerith_toUpper (count n : Nat) (cs : List Char) :
    (hollerith count n (cs.map Char.toUpper)).caps = (hollerith count n cs).caps := by
  have hline : Caseless (· != '\n') := (Caseless.beq rfl).not
  simp only [hollerith, drop_toUpper, take_toUpper, hline.takeWhile, List.length_map,
    Piece.constant, Piece.caps, Option.map_some, Literal.caps, ofList_toUpper, map_toUpper_map]

theorem realConstant_point {c : Char} {cs rest : List Char}
    (hds : ∀ d ∈ c :: cs.take (run isDigit cs), isDigit d)
    (hdrop : cs.drop (run isDigit cs) = '.' :: rest) :
    realConstant c (cs.map Char.toUpper) (run isDigit cs + 1 + fractionLength rest) =
      realConstant c cs (run isDigit cs + 1 + fractionLength rest) := by
  have htake : cs.take (run isDigit cs + 1 + fractionLength rest) =
      cs.take (run isDigit cs) ++ '.' :: rest.take (fractionLength rest) := by
    rw [Nat.add_assoc, List.take_add, hdrop, Nat.add_comm 1, List.take_succ_cons]
  have hreal := real_fraction hds rest
  rw [take_toUpper] at hreal
  rw [realConstant, realConstant, take_toUpper, htake, List.map_append,
    map_toUpper_of_digits (List.forall_mem_cons.1 hds).2]
  exact congrArg _ (congrArg _ (congrArg _ hreal))

theorem number_toUpper {c : Char} (hc : isDigit c) (cs : List Char) :
    (number c (cs.map Char.toUpper)).caps = (number c cs).caps := by
  have hds : ∀ d ∈ c :: cs.take (run isDigit cs), isDigit d := by
    intro d hd
    rcases List.mem_cons.1 hd with rfl | hd
    · exact hc
    · exact mem_take_run hd
  have hwhole := realConstant_whole hc cs
  unfold number
  simp only [run_toUpper caseless_isDigit, digits_toUpper, drop_toUpper]
  cases hdrop : cs.drop (run isDigit cs) with
  | nil => rfl
  | cons next rest =>
    have hholl : (next.toUpper == 'H' || next.toUpper == 'h') = (next == 'H' || next == 'h') :=
      Caseless.of_letters (f := fun c => c == 'H' || c == 'h') (by decide) next
    have hpoint : (next.toUpper == '.') = (next == '.') := Caseless.beq rfl next
    have hblank : (next.toUpper == 'X' || next.toUpper == 'x') = (next == 'X' || next == 'x') :=
      Caseless.of_letters (f := fun c => c == 'X' || c == 'x') (by decide) next
    have hlength := exponentLength_toUpper (next :: rest)
    simp only [List.map_cons] at hlength ⊢
    simp only [hholl, hpoint, caseless_isExponentLetter next, hblank, dottedWord?_toUpper, hlength,
      run_toUpper caseless_isDigit, drop_toUpper, exponentLength_toUpper, caseless_isWordChar.head]
    rw [hdrop] at hwhole
    split
    · exact hollerith_toUpper _ _ cs
    · split
      · split
        · rfl
        · rename_i hnext _
          rw [beq_iff_eq.1 hnext] at hdrop
          have hfraction := realConstant_point hds hdrop
          simp only [fractionLength, ← Nat.add_assoc] at hfraction
          rw [hfraction]
      · split
        · split
          · rfl
          · rw [hwhole]
        · rfl

theorem head_toUpper {d : Char} (hd : d.isAlpha = false) (cs : List Char) :
    ((cs.map Char.toUpper).head? == some d) = (cs.head? == some d) := by
  cases cs with
  | nil => rfl
  | cons c cs => exact Caseless.beq hd c

theorem word_toUpper (depth : Nat) (c : Char) (cs : List Char) :
    word depth c.toUpper (cs.map Char.toUpper) = word depth c cs := by
  have hblank : Caseless fun b => b == ' ' || b == '\t' := .of_letters (by decide)
  have htext : String.ofList (c.toUpper :: (cs.take (run isWordChar cs)).map Char.toUpper) =
      (String.ofList (c :: cs.take (run isWordChar cs))).toUpper := by
    rw [ofList_toUpper, List.map_cons]
  unfold word
  simp only [run_toUpper caseless_isWordChar, take_toUpper, drop_toUpper, run_toUpper hblank, htext,
    ofWord_toUpper, specifier_toUpper]
  cases List.drop _ (cs.drop (run isWordChar cs)) with
  | nil => rfl
  | cons d after =>
    by_cases hd : d = '='
    · subst hd
      have hafter := head_toUpper (d := '=') rfl after
      simp only [List.map_cons, bne, show '='.toUpper = '=' from rfl, hafter]
    · have hd' : d.toUpper ≠ '=' := toUpper_ne rfl hd
      simp [hd, hd']

theorem radix_toUpper (kind : Kind) {valid : Char → Bool} (hvalid : Caseless valid) (depth : Nat)
    (c : Char) (cs : List Char) :
    radix kind valid depth c.toUpper (cs.map Char.toUpper) = radix kind valid depth c cs := by
  cases cs with
  | nil => exact word_toUpper depth c []
  | cons q rest =>
    have hword := word_toUpper depth c (q :: rest)
    have hquote : (q.toUpper == '\'' || q.toUpper == '"') = (q == '\'' || q == '"') :=
      Caseless.of_letters (f := fun c => c == '\'' || c == '"') (by decide) q
    simp only [List.map_cons] at hword
    simp only [List.map_cons, radix, hquote, hword]
    split
    · rename_i hq
      have hq : q = '\'' ∨ q = '"' := by simpa using hq
      have hhead : (((rest.drop (run valid rest)).map Char.toUpper).head? == some q.toUpper) =
          ((rest.drop (run valid rest)).head? == some q) := by
        rcases hq with rfl | rfl <;> exact head_toUpper rfl _
      simp only [run_toUpper hvalid, drop_toUpper, hhead]
    · rfl

theorem edit_toUpper (depth : Nat) (c : Char) (cs : List Char) :
    edit depth c.toUpper (cs.map Char.toUpper) = edit depth c cs := by
  unfold edit
  simp only [run_toUpper caseless_isDigit, drop_toUpper, caseless_isWordChar.head, word_toUpper]
  cases cs.drop (run isDigit cs) with
  | nil => rfl
  | cons d ds =>
    by_cases hd : d = '.'
    · subst hd
      simp only [List.map_cons, show '.'.toUpper = '.' from rfl, run_toUpper caseless_isDigit]
    · have hd' : d.toUpper ≠ '.' := toUpper_ne rfl hd
      simp [hd, hd']

/-! ## One step -/

/-- The characters that are looked at one by one, by what is done with them. -/
def markChars : List Char :=
  [' ', '\t', '\r', '\x0c', '\n', '+', '-', ')', ',', '=', '/', '$', '%', '_']

def pairChars : List Char := ['*', '(', '|', ':']

def quoteChars : List Char := ['\'', '"']

def commentChars : List Char := ['C', 'c']

def radixChars : List Char := ['B', 'b', 'O', 'o', 'Z', 'z']

def editChars : List Char := ['F', 'I', 'E', 'D', 'P', 'f', 'i', 'e', 'd', 'p']

def specialChars : List Char :=
  markChars ++ (pairChars ++ (quoteChars ++ ('!' :: '.' :: (commentChars ++ (radixChars ++ editChars)))))

/-- A step at both cases of a character finds the same. -/
def Alike (c : Char) : Prop :=
  ∀ lineStart depth cs, (piece lineStart depth c.toUpper (cs.map Char.toUpper)).caps =
    (piece lineStart depth c cs).caps

theorem alike_mark {c : Char} (q : Piece) (hc : c.toUpper = c)
    (h : ∀ lineStart depth cs, piece lineStart depth c cs = q) : Alike c := by
  intro lineStart depth cs
  rw [hc, h, h]

theorem alike_marks {c : Char} (hc : c ∈ markChars) : Alike c := by
  simp only [markChars, List.mem_cons, List.not_mem_nil, or_false] at hc
  rcases hc with rfl | rfl | rfl | rfl | rfl | rfl | rfl | rfl | rfl | rfl | rfl | rfl | rfl | rfl
  case inl | inr.inl | inr.inr.inl | inr.inr.inr.inl => exact alike_mark .skip rfl fun _ _ _ => rfl
  · exact alike_mark (.plain .newline 0) rfl fun _ _ _ => rfl
  · exact alike_mark (.plain .plus 0) rfl fun _ _ _ => rfl
  · exact alike_mark (.plain .minus 0) rfl fun _ _ _ => rfl
  · exact alike_mark (.plain .rparen 0) rfl fun _ _ _ => rfl
  · exact alike_mark (.plain .comma 0) rfl fun _ _ _ => rfl
  · exact alike_mark (.plain .equal 0) rfl fun _ _ _ => rfl
  · exact alike_mark (.plain .slash 0) rfl fun _ _ _ => rfl
  · exact alike_mark (.plain .dollar 0) rfl fun _ _ _ => rfl
  · exact alike_mark (.plain .percent 0) rfl fun _ _ _ => rfl
  · exact alike_mark (.plain .underscore 0) rfl fun _ _ _ => rfl

theorem alike_pairs {c : Char} (hc : c ∈ pairChars) : Alike c := by
  intro lineStart depth cs
  have hstar := head_toUpper (d := '*') rfl cs
  have hbar := head_toUpper (d := '|') rfl cs
  have hparen := head_toUpper (d := ')') rfl cs
  have hcolon := head_toUpper (d := ':') rfl cs
  simp only [pairChars, List.mem_cons, List.not_mem_nil, or_false] at hc
  rcases hc with rfl | rfl | rfl | rfl
  · change Piece.caps (if lineStart then comment '*' _ else _) =
      Piece.caps (if lineStart then comment '*' cs else _)
    rw [hstar]
    split
    · exact comment_toUpper '*' cs
    · rfl
  · change Piece.caps (if _ then _ else _) = Piece.caps (if _ then _ else _)
    rw [hbar]
  · change Piece.caps (if _ then _ else _) = Piece.caps (if _ then _ else _)
    rw [hparen]
  · change Piece.caps (if _ then _ else _) = Piece.caps (if _ then _ else _)
    rw [hcolon]

theorem alike_quotes {c : Char} (hc : c ∈ quoteChars) : Alike c := by
  intro lineStart depth cs
  simp only [quoteChars, List.mem_cons, List.not_mem_nil, or_false] at hc
  rcases hc with rfl | rfl
  · exact charConstant_toUpper (Caseless.beq rfl) rfl cs
  · exact charConstant_toUpper (Caseless.beq rfl) rfl cs

theorem alike_comments {c : Char} (hc : c ∈ commentChars) : Alike c := by
  intro lineStart depth cs
  have hboth : ∀ d : Char, Piece.caps (if lineStart then comment d.toUpper (cs.map Char.toUpper)
      else word depth d.toUpper (cs.map Char.toUpper)) =
        Piece.caps (if lineStart then comment d cs else word depth d cs) := by
    intro d
    split
    · exact comment_toUpper d cs
    · rw [word_toUpper]
  simp only [commentChars, List.mem_cons, List.not_mem_nil, or_false] at hc
  rcases hc with rfl | rfl
  · exact hboth 'C'
  · exact hboth 'c'

theorem alike_radix {c : Char} (hc : c ∈ radixChars) : Alike c := by
  intro lineStart depth cs
  have hradix : ∀ (kind : Kind) (valid : Char → Bool) (d : Char), Caseless valid →
      (radix kind valid depth d.toUpper (cs.map Char.toUpper)).caps =
        (radix kind valid depth d cs).caps :=
    fun kind valid d hvalid => congrArg _ (radix_toUpper kind hvalid depth d cs)
  simp only [radixChars, List.mem_cons, List.not_mem_nil, or_false] at hc
  rcases hc with rfl | rfl | rfl | rfl | rfl | rfl
  · exact hradix _ _ 'B' (.of_letters (by decide))
  · exact hradix _ _ 'b' (.of_letters (by decide))
  · exact hradix _ _ 'O' (.of_letters (by decide))
  · exact hradix _ _ 'o' (.of_letters (by decide))
  · exact hradix _ _ 'Z' (.of_letters (by decide))
  · exact hradix _ _ 'z' (.of_letters (by decide))

theorem alike_edits {c : Char} (hc : c ∈ editChars) : Alike c := by
  intro lineStart depth cs
  have hedit : ∀ d : Char, Piece.caps (if (cs.map Char.toUpper).head?.any isDigit then
      edit depth d.toUpper (cs.map Char.toUpper) else word depth d.toUpper (cs.map Char.toUpper)) =
        Piece.caps (if cs.head?.any isDigit then edit depth d cs else word depth d cs) := by
    intro d
    rw [caseless_isDigit.head, edit_toUpper, word_toUpper]
  simp only [editChars, List.mem_cons, List.not_mem_nil, or_false] at hc
  rcases hc with rfl | rfl | rfl | rfl | rfl | rfl | rfl | rfl | rfl | rfl <;> exact hedit _

theorem piece_other {c : Char} (hc : c ∉ specialChars) (lineStart : Bool) (depth : Nat)
    (cs : List Char) :
    piece lineStart depth c cs =
      if isLetter c then word depth c cs else if isDigit c then number c cs else .skip := by
  unfold piece
  split
  case h_41 => rfl
  all_goals exact absurd hc (by decide)

theorem piece_letter {c : Char} (hc : c ∉ specialChars) (hletter : isLetter c) (lineStart : Bool)
    (depth : Nat) (cs : List Char) : piece lineStart depth c cs = word depth c cs := by
  rw [piece_other hc, if_pos hletter]

/-- One step up to letter case. -/
theorem piece_toUpper (lineStart : Bool) (depth : Nat) (c : Char) (cs : List Char) :
    (piece lineStart depth c.toUpper (cs.map Char.toUpper)).caps =
      (piece lineStart depth c cs).caps := by
  by_cases hc : c ∈ specialChars
  · simp only [specialChars, List.mem_append, List.mem_cons] at hc
    rcases hc with hc | hc | hc | rfl | rfl | hc | hc | hc
    · exact alike_marks hc lineStart depth cs
    · exact alike_pairs hc lineStart depth cs
    · exact alike_quotes hc lineStart depth cs
    · exact comment_toUpper '!' cs
    · exact congrArg Piece.caps (dot_toUpper cs)
    · exact alike_comments hc lineStart depth cs
    · exact alike_radix hc lineStart depth cs
    · exact alike_edits hc lineStart depth cs
  · rcases toUpper_or_lower c with hupper | ⟨l, rfl⟩
    · rw [hupper, piece_other hc, piece_other hc]
      split
      · have hword := word_toUpper depth c cs
        rw [hupper] at hword
        rw [hword]
      · split
        · rename_i hdigit
          exact number_toUpper hdigit cs
        · rfl
    · have hletters : ∀ l : Letter, l.lower ∉ specialChars →
          l.lower.toUpper ∉ specialChars ∧ isLetter l.lower ∧ isLetter l.lower.toUpper := by decide
      obtain ⟨hc', hletter, hletter'⟩ := hletters l hc
      rw [piece_letter hc hletter, piece_letter hc' hletter', word_toUpper]

/-! ## The whole source -/

theorem lexeme?_toUpper {p : Place} {q q' : Piece} (h : q'.caps = q.caps) (c : Char)
    (cs : List Char) :
    (lexeme? p q' c.toUpper (cs.map Char.toUpper)).map Lexeme.caps =
      (lexeme? p q c cs).map Lexeme.caps := by
  obtain ⟨extra, kind, value, text⟩ := q
  obtain ⟨extra', kind', value', text'⟩ := q'
  obtain ⟨rfl, rfl, hvalue, htext⟩ : extra' = extra ∧ kind' = kind ∧
      value'.map Literal.caps = value.map Literal.caps ∧
        text'.map String.toUpper = text.map String.toUpper := by simpa [Piece.caps] using h
  cases kind' with
  | none => rfl
  | some k =>
    have hread : (text'.getD (String.ofList (c.toUpper :: (cs.take extra').map Char.toUpper))).toUpper =
        (text.getD (String.ofList (c :: cs.take extra'))).toUpper := by
      cases text' with
      | none =>
        rw [Option.map_none, eq_comm, Option.map_eq_none_iff] at htext
        rw [htext]
        apply toUpper_eq_of_toList
        simp [caseless_toUpper c, caseless_toUpper.comp]
      | some t' =>
        obtain ⟨t, rfl, ht⟩ := Option.map_eq_some_iff.1 htext.symm
        exact ht.symm
    simp only [lexeme?, Option.map_some, Lexeme.caps, take_toUpper, hread, hvalue]

theorem Piece.extra_congr {q q' : Piece} (h : q'.caps = q.caps) : q'.extra = q.extra := by
  change q'.caps.extra = q.caps.extra
  rw [h]

theorem Place.after_congr (p : Place) {q q' : Piece} (h : q'.caps = q.caps) :
    p.after q' = p.after q := by
  have hkind : q'.kind = q.kind := by
    change q'.caps.kind = q.caps.kind
    rw [h]
  rw [Place.after, hkind, Piece.extra_congr h, Place.after]

theorem lexemesFrom_toUpper (p : Place) (cs : List Char) :
    (lexemesFrom p (cs.map Char.toUpper)).map Lexeme.caps = (lexemesFrom p cs).map Lexeme.caps := by
  fun_induction lexemesFrom p cs with
  | case1 p => rw [List.map_nil, lexemesFrom]
  | case2 p c cs q rest lx hlx ih =>
    have hq := piece_toUpper (p.col == 1) p.depth c cs
    have hlexeme := lexeme?_toUpper (p := p) hq c cs
    rw [hlx] at hlexeme
    obtain ⟨lx', hlx', hcaps⟩ := Option.map_eq_some_iff.1 hlexeme
    rw [List.map_cons, lexemesFrom]
    simp only [hlx', List.map_cons, hcaps, p.after_congr hq, Piece.extra_congr hq, drop_toUpper]
    exact congrArg _ ih
  | case3 p c cs q rest hlx ih =>
    have hq := piece_toUpper (p.col == 1) p.depth c cs
    have hlexeme := lexeme?_toUpper (p := p) hq c cs
    rw [hlx] at hlexeme
    rw [List.map_cons, lexemesFrom]
    simp only [Option.map_eq_none_iff.1 hlexeme, p.after_congr hq, Piece.extra_congr hq,
      drop_toUpper]
    exact ih

end Scan

/-- Sources that differ in the case of letters only have the same lexemes up to case. -/
theorem scan_congr {a b : String} (h : a.toUpper = b.toUpper) :
    (scan a).map Lexeme.caps = (scan b).map Lexeme.caps := by
  rw [scan, ← Scan.lexemesFrom_toUpper, ← toList_toUpper, h, toList_toUpper,
    Scan.lexemesFrom_toUpper, scan]

theorem programName_caps (tokens : List Lexeme) :
    programName (tokens.map Lexeme.caps) = (programName tokens).toUpper :=
  programName_map (f := Lexeme.caps) (g := String.toUpper) (fun _ => rfl) (fun _ => rfl)
    (toUpper_eq_empty.2 rfl) tokens

end FortranJulia
