import FortranJulia.Token.Scan
import Mathlib.Data.List.TakeWhile

/-!
What a scan is made of: the lexemes of pieces in the order of the source, and the end of the source
behind them and nowhere else. `Lexeme.Proper` is what the kind of such a lexeme says of its text and
value.
-/

namespace FortranJulia

set_option autoImplicit false

/-- A letter with letters, digits and underscores behind it. -/
def Scan.IsName (cs : List Char) : Prop :=
  ∃ c rest, cs = c :: rest ∧ (isLetter c ∧ c ≠ '_') ∧ ∀ d ∈ rest, isWordChar d

/-- What holds of every lexeme before the end of a source. -/
structure Lexeme.Proper (lx : Lexeme) : Prop where
  not_end : lx.kind ≠ .eof
  /-- A comment has its marker. -/
  comment : lx.kind = .comment → lx.text.toList ≠ []
  name : lx.kind = .name → Scan.IsName lx.text.toList
  /-- A descriptor without a point can stand for a name. -/
  edit : lx.kind = .editConst → '.' ∉ lx.text.toList → Scan.IsName lx.text.toList
  integer : lx.kind = .integerConst →
    lx.text.toList ≠ [] ∧ (∀ d ∈ lx.text.toList, Decimal.isDigit d) ∧
      lx.value = Scan.integerValue lx.text.toList
  plus : lx.kind = .plus → lx.text = "+"
  minus : lx.kind = .minus → lx.text = "-"

namespace Scan

/-! ## Pieces -/

/-- The lexemes that a piece at the characters `c :: cs` makes are proper. -/
def Piece.Proper (c : Char) (cs : List Char) (q : Piece) : Prop :=
  ∀ p lx, lexeme? p q c cs = some lx → lx.Proper

/-- The kinds that say something of the text or the value. -/
def tellingKinds : List Kind :=
  [.eof, .comment, .name, .editConst, .integerConst, .plus, .minus]

theorem Piece.proper_of_kind {q : Piece} {k : Kind} (hq : q.kind = some k)
    (hk : tellingKinds.contains k = false) (c : Char) (cs : List Char) : q.Proper c cs := by
  intro p lx hlx
  simp only [lexeme?, hq, Option.map_some, Option.some.injEq] at hlx
  subst hlx
  constructor <;> rintro rfl <;> simp [tellingKinds] at hk

theorem Piece.proper_skip (c : Char) (cs : List Char) : Piece.skip.Proper c cs := by
  intro p lx hlx
  simp [lexeme?, Piece.skip] at hlx

/-- A character that is not trailing keeps a list from becoming empty. -/
theorem dropTrailing_ne_nil {f : Char → Bool} {c : Char} (hc : f c = false) (cs : List Char) :
    Text.dropTrailing f (c :: cs) ≠ [] := by
  intro h
  rw [Text.dropTrailing, List.reverse_eq_nil_iff, List.dropWhile_eq_nil_iff] at h
  have hmem := h c (by simp)
  rw [hc] at hmem
  cases hmem

theorem comment_proper {c : Char} (hc : c ≠ '\r') (cs : List Char) :
    (comment c cs).Proper c cs := by
  intro p lx hlx
  simp only [lexeme?, comment, Option.map_some, Option.some.injEq] at hlx
  subst hlx
  refine ⟨by simp, fun _ => ?_, by simp, by simp, by simp, by simp, by simp⟩
  simp only [Option.getD_some, String.toList_ofList]
  exact dropTrailing_ne_nil (by simpa using hc) _

theorem take_run (f : Char → Bool) (cs : List Char) : cs.take (run f cs) = cs.takeWhile f := by
  induction cs with
  | nil => rfl
  | cons c cs ih =>
    by_cases hc : f c
    · simpa [run, hc] using ih
    · simp [run, hc]

theorem mem_take_run {f : Char → Bool} {cs : List Char} {d : Char}
    (h : d ∈ cs.take (run f cs)) : f d := by
  rw [take_run] at h
  exact (List.all_eq_true.1 List.all_takeWhile) d h

theorem word_proper (depth : Nat) {c : Char} (hc : isLetter c ∧ c ≠ '_') (cs : List Char) :
    (word depth c cs).Proper c cs := by
  unfold word
  simp only
  split
  · exact Piece.proper_of_kind rfl rfl c cs
  · cases hkind : Kind.ofWord (String.ofList (c :: cs.take (run isWordChar cs))) with
    | name =>
      intro p lx hlx
      simp only [lexeme?, Piece.plain, Option.map_some, Option.some.injEq] at hlx
      subst hlx
      refine ⟨by simp, by simp, fun _ => ?_, by simp, by simp, by simp, by simp⟩
      simp only [Option.getD_none, String.toList_ofList]
      exact ⟨c, _, rfl, hc, fun d hd => mem_take_run hd⟩
    | keyword k => exact Piece.proper_of_kind rfl rfl c cs
    | _ =>
      exfalso
      unfold Kind.ofWord at hkind
      split at hkind <;> cases hkind

theorem radix_proper {kind : Kind} (hk : tellingKinds.contains kind = false)
    (valid : Char → Bool) (depth : Nat) {c : Char} (hc : isLetter c ∧ c ≠ '_') (cs : List Char) :
    (radix kind valid depth c cs).Proper c cs := by
  unfold radix
  split
  · split
    · exact Piece.proper_of_kind rfl hk c _
    · exact word_proper depth hc _
  · exact word_proper depth hc _

/-- A descriptor has its digits, and a point if it has more than these. -/
theorem edit_cases (depth : Nat) (c : Char) (cs : List Char) :
    edit depth c cs = word depth c cs ∨ ∃ m, edit depth c cs = .plain .editConst m ∧
      (m = run Decimal.isDigit cs ∨ '.' ∈ cs.take m) := by
  unfold edit
  extract_lets n m
  split
  · exact .inl rfl
  · refine .inr ⟨m, rfl, ?_⟩
    simp only [m]
    split
    · rename_i rest hdrop
      split
      · refine .inr (List.mem_of_getElem? (i := n) ?_)
        have hget : cs[n]? = some '.' := by
          rw [← List.head?_drop, hdrop]
          rfl
        rw [List.getElem?_take_of_lt (by rw [Nat.add_assoc]; exact Nat.lt_add_of_pos_right (by omega)), hget]
      · exact .inl rfl
    · exact .inl rfl

/-- Digits, and a point with digits where some follow it. -/
theorem edit_proper (depth : Nat) {c : Char} (hc : isLetter c ∧ c ≠ '_') (cs : List Char) :
    (edit depth c cs).Proper c cs := by
  have hdigits : ∀ d ∈ cs.take (run Decimal.isDigit cs), isWordChar d := by
    intro d hd
    simp [isWordChar, mem_take_run hd]
  have hplain : ∀ m, ('.' ∉ c :: cs.take m → ∀ d ∈ cs.take m, isWordChar d) →
      (Piece.plain .editConst m).Proper c cs := by
    intro m hm p lx hlx
    simp only [lexeme?, Piece.plain, Option.map_some, Option.some.injEq] at hlx
    subst hlx
    refine ⟨by simp, by simp, by simp, fun _ hpoint => ?_, by simp, by simp, by simp⟩
    simp only [Option.getD_none, String.toList_ofList] at hpoint ⊢
    exact ⟨c, _, rfl, hc, hm hpoint⟩
  rcases edit_cases depth c cs with hword | ⟨m, hedit, hm⟩
  · rw [hword]
    exact word_proper depth hc cs
  · rw [hedit]
    refine hplain m fun hpoint => ?_
    rcases hm with rfl | hm
    · exact hdigits
    · exact absurd (List.mem_cons_of_mem c hm) hpoint

theorem dottedWord?_plain {cs : List Char} {k : Kind} {n : Nat}
    (h : dottedWord? cs = some (k, n)) : tellingKinds.contains k = false := by
  have hofDotted : ∀ word k, Kind.ofDotted? word = some k → tellingKinds.contains k = false := by
    intro word k hk
    unfold Kind.ofDotted? at hk
    split at hk <;> cases hk <;> rfl
  unfold dottedWord? at h
  simp only at h
  split at h
  · obtain ⟨k', hk', heq⟩ := Option.map_eq_some_iff.1 h
    cases heq
    exact hofDotted _ _ hk'
  · cases h

theorem dot_proper (c : Char) (cs : List Char) : (dot cs).Proper c cs := by
  unfold dot
  split
  · split
    · exact Piece.proper_of_kind rfl rfl c _
    · split
      · exact Piece.proper_of_kind rfl rfl c _
      · exact Piece.proper_of_kind rfl rfl c _
      · rename_i h
        exact Piece.proper_of_kind rfl (dottedWord?_plain h) c _
      · exact Piece.proper_of_kind rfl rfl c _
  · exact Piece.proper_of_kind rfl rfl c _

theorem number_proper {c : Char} (hc : Decimal.isDigit c) (cs : List Char) :
    (number c cs).Proper c cs := by
  have hinteger : (Piece.constant .integerConst (run Decimal.isDigit cs)
      (integerValue (c :: cs.take (run Decimal.isDigit cs)))).Proper c cs := by
    intro p lx hlx
    simp only [lexeme?, Piece.constant, Option.map_some, Option.some.injEq] at hlx
    subst hlx
    refine ⟨by simp, by simp, by simp, by simp, fun _ => ?_, by simp, by simp⟩
    simp only [Option.getD_none, String.toList_ofList]
    refine ⟨by simp, ?_, trivial⟩
    intro d hd
    rcases List.mem_cons.1 hd with rfl | hd
    · exact hc
    · exact mem_take_run hd
  unfold number
  extract_lets n integer
  split
  · split
    · exact Piece.proper_of_kind rfl rfl c cs
    · split
      · split
        · exact hinteger
        · exact Piece.proper_of_kind rfl rfl c cs
      · split
        · split
          · exact hinteger
          · exact Piece.proper_of_kind rfl rfl c cs
        · split
          · split
            · exact hinteger
            · exact Piece.proper_of_kind rfl rfl c cs
          · exact hinteger
  · exact hinteger

theorem plus_proper (cs : List Char) : (Piece.plain .plus 0).Proper '+' cs := by
  intro p lx hlx
  simp only [lexeme?, Piece.plain, Option.map_some, Option.some.injEq] at hlx
  subst hlx
  exact ⟨by simp, by simp, by simp, by simp, by simp, fun _ => rfl, by simp⟩

theorem minus_proper (cs : List Char) : (Piece.plain .minus 0).Proper '-' cs := by
  intro p lx hlx
  simp only [lexeme?, Piece.plain, Option.map_some, Option.some.injEq] at hlx
  subst hlx
  exact ⟨by simp, by simp, by simp, by simp, by simp, by simp, fun _ => rfl⟩

/-- Every piece makes proper lexemes. -/
theorem piece_proper (lineStart : Bool) (depth : Nat) (c : Char) (cs : List Char) :
    (piece lineStart depth c cs).Proper c cs := by
  by_cases hunder : c = '_'
  · subst hunder
    exact Piece.proper_of_kind rfl rfl _ cs
  unfold piece
  split
  case h_1 | h_2 | h_3 | h_4 => exact Piece.proper_skip _ cs
  case h_6 => exact comment_proper (by decide) cs
  case h_7 | h_8 =>
    split
    · exact comment_proper (by decide) cs
    · exact word_proper depth (by decide) cs
  case h_9 =>
    split
    · exact comment_proper (by decide) cs
    · split <;> exact Piece.proper_of_kind rfl rfl _ cs
  case h_10 => exact plus_proper cs
  case h_11 => exact minus_proper cs
  case h_12 | h_17 => split <;> exact Piece.proper_of_kind rfl rfl _ cs
  case h_14 =>
    split
    · exact Piece.proper_of_kind rfl rfl _ cs
    · exact Piece.proper_skip _ cs
  case h_24 => exact dot_proper _ cs
  case h_25 | h_26 | h_27 | h_28 | h_29 | h_30 => exact radix_proper rfl _ depth (by decide) cs
  case h_31 | h_32 | h_33 | h_34 | h_35 | h_36 | h_37 | h_38 | h_39 | h_40 =>
    split
    · exact edit_proper depth (by decide) cs
    · exact word_proper depth (by decide) cs
  case h_41 =>
    split
    · rename_i hletter
      exact word_proper depth ⟨hletter, hunder⟩ cs
    · split
      · rename_i hdigit
        exact number_proper hdigit cs
      · exact Piece.proper_skip c cs
  all_goals exact Piece.proper_of_kind rfl rfl _ cs

/-! ## Scans -/

/-- A scan is a list of proper lexemes with the end of the source behind them. -/
theorem lexemesFrom_shape (p : Place) (cs : List Char) :
    ∃ body line col, lexemesFrom p cs = body ++ [Lexeme.endOfSource line col] ∧
      ∀ lx ∈ body, lx.Proper := by
  fun_induction lexemesFrom p cs with
  | case1 p => exact ⟨[], p.line, p.col, rfl, by simp⟩
  | case2 p c cs q rest lx hlx ih =>
    obtain ⟨body, line, col, heq, hbody⟩ := ih
    refine ⟨lx :: body, line, col, by rw [List.cons_append, ← heq], ?_⟩
    intro m hm
    rcases List.mem_cons.1 hm with rfl | hm
    · exact piece_proper _ _ c cs p m hlx
    · exact hbody m hm
  | case3 p c cs q rest hlx ih => exact ih

/-! ## Bounded scans -/

/-- The lexemes of at most so many pieces. -/
def lexemesWithin : Nat → Place → List Char → List Lexeme
  | 0, p, _ => [.endOfSource p.line p.col]
  | _ + 1, p, [] => [.endOfSource p.line p.col]
  | n + 1, p, c :: cs =>
    let q := piece (p.col == 1) p.depth c cs
    let rest := lexemesWithin n (p.after q) (cs.drop q.extra)
    match lexeme? p q c cs with
    | some lx => lx :: rest
    | none => rest

/-- A bound of one piece for each character is no bound. -/
theorem lexemesWithin_eq (n : Nat) : ∀ (p : Place) (cs : List Char), cs.length ≤ n →
    lexemesWithin n p cs = lexemesFrom p cs := by
  induction n with
  | zero =>
    intro p cs h
    obtain rfl := List.length_eq_zero_iff.1 (Nat.le_zero.1 h)
    rw [lexemesWithin, lexemesFrom]
  | succ n ih =>
    intro p cs h
    cases cs with
    | nil => rw [lexemesWithin, lexemesFrom]
    | cons c cs =>
      have hrest := ih (p.after (piece (p.col == 1) p.depth c cs))
        (cs.drop (piece (p.col == 1) p.depth c cs).extra)
        (by rw [List.length_cons] at h; rw [List.length_drop]; omega)
      rw [lexemesWithin, lexemesFrom]
      cases lexeme? p (piece (p.col == 1) p.depth c cs) c cs with
      | none => exact hrest
      | some lx => exact congrArg (lx :: ·) hrest

end Scan

/-- The scan of the text with some characters. -/
theorem scan_within (cs : List Char) :
    scan (String.ofList cs) = Scan.lexemesWithin cs.length .start cs := by
  rw [scan, String.toList_ofList, Scan.lexemesWithin_eq _ _ _ (Nat.le_refl _)]

theorem scan_shape (source : String) :
    ∃ body line col, scan source = body ++ [Lexeme.endOfSource line col] ∧ ∀ lx ∈ body, lx.Proper :=
  Scan.lexemesFrom_shape .start source.toList

theorem scan_proper {source : String} {lx : Lexeme} (h : lx ∈ scan source) (hlx : lx.kind ≠ .eof) :
    lx.Proper := by
  obtain ⟨body, line, col, heq, hbody⟩ := scan_shape source
  rw [heq, List.mem_append, List.mem_singleton] at h
  rcases h with h | rfl
  · exact hbody lx h
  · exact absurd rfl hlx

/-- Only the last lexeme of a scan is the end of the source. -/
theorem scan_eof_last {source : String} {i : Nat} {lx : Lexeme}
    (h : (scan source)[i]? = some lx) (hlx : lx.kind = .eof) : i + 1 = (scan source).length := by
  obtain ⟨body, line, col, heq, hbody⟩ := scan_shape source
  rw [heq] at h ⊢
  by_cases hi : i < body.length
  · rw [List.getElem?_append_left hi] at h
    exact absurd hlx (hbody lx (List.mem_of_getElem? h)).not_end
  · have hlt := (List.getElem?_eq_some_iff.1 h).1
    simp only [List.length_append, List.length_singleton] at hlt ⊢
    omega

/-! ## Program names -/

/-- The name of a program is changed with the texts of its lexemes. -/
theorem programName_map {f : Lexeme → Lexeme} {g : String → String}
    (hkind : ∀ lx, (f lx).kind = lx.kind) (htext : ∀ lx, (f lx).text = g lx.text) (hempty : g "" = "")
    (lexemes : List Lexeme) : programName (lexemes.map f) = g (programName lexemes) := by
  fun_induction programName lexemes with
  | case1 a b rest h => simp [programName, hkind, htext, h]
  | case2 a b rest h ih => simpa [programName, hkind, h] using ih
  | case3 lexemes h =>
    cases lexemes with
    | nil => exact hempty.symm
    | cons a rest =>
      cases rest with
      | nil => exact hempty.symm
      | cons b rest => exact absurd rfl (h a b rest)

end FortranJulia
