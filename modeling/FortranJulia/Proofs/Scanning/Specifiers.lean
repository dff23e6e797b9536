import FortranJulia.Proofs.Scanning.Steps

/-!
The specifiers of input and output statements. A word that names one is read together with the `=`
behind it exactly inside parentheses, and the parentheses that count are the tokens in front of the
word, on whatever line they stand.
-/

namespace FortranJulia

set_option autoImplicit false

open Decimal (isDigit)

/-- The kinds of words. -/
def Kind.isWord : Kind → Bool
  | .name | .keyword _ | .specifier _ => true
  | _ => false

namespace Scan

/-- The blanks that may stand between a specifier and its `=`. -/
def isGap (c : Char) : Bool :=
  c == ' ' || c == '\t'

/-- The text of a specifier: its word, blanks and `=`. -/
inductive SpecifierText (s : Specifier) : List Char → Prop where
  | mk {word blanks : List Char} (spells : Text.upper (String.ofList word) = s.spelling)
    (blank : ∀ b ∈ blanks, b = ' ' ∨ b = '\t') : SpecifierText s (word ++ blanks ++ ['='])

/-- No `=` that could be that of a specifier comes next, but it may be the first of two. -/
def NoSpecifier (rest : List Char) : Prop :=
  ∀ after, rest.dropWhile isGap = '=' :: after → after.head? = some '='

/-! ## Pieces -/

section Pieces

variable {lineStart : Bool} {depth : Nat} {c : Char} {cs : List Char} {k : Kind}

theorem dottedWord?_kind {n : Nat} (h : dottedWord? cs = some (k, n)) : k.isWord = false := by
  have hofDotted : ∀ word k, Kind.ofDotted? word = some k → k.isWord = false := by
    intro word k hk
    unfold Kind.ofDotted? at hk
    split at hk <;> cases hk <;> rfl
  unfold dottedWord? at h
  extract_lets word at h
  split at h
  · obtain ⟨k', hk', heq⟩ := Option.map_eq_some_iff.1 h
    cases heq
    exact hofDotted _ _ hk'
  · cases h

theorem dot_kind (h : (dot cs).kind = some k) : k.isWord = false := by
  unfold dot at h
  split at h
  · split at h
    · cases h
      rfl
    · split at h
      · cases h
        rfl
      · cases h
        rfl
      · rename_i hword
        cases h
        exact dottedWord?_kind hword
      · cases h
        rfl
  · cases h
    rfl

theorem number_kind (h : (number c cs).kind = some k) : k.isWord = false := by
  unfold number at h
  extract_lets n integer at h
  have hinteger : integer.kind = some k → k.isWord = false := by
    intro hkind
    cases hkind
    rfl
  repeat' split at h
  all_goals first | exact hinteger h | (cases h; rfl)

theorem edit_kind (h : (edit depth c cs).kind = some k) (hk : k.isWord) :
    edit depth c cs = word depth c cs := by
  unfold edit at h ⊢
  extract_lets at h ⊢
  split at h
  · rename_i hword
    rw [if_pos hword]
  · cases h
    cases hk

theorem radix_kind {kind : Kind} {valid : Char → Bool} (hkind : kind.isWord = false)
    (h : (radix kind valid depth c cs).kind = some k) (hk : k.isWord) :
    radix kind valid depth c cs = word depth c cs := by
  unfold radix at h ⊢
  split at h
  · split at h
    · cases h
      rw [hkind] at hk
      cases hk
    · rename_i hquote
      rw [if_neg hquote]
  · rfl

/-- Words are read as words. -/
theorem piece_word (h : (piece lineStart depth c cs).kind = some k) (hk : k.isWord) :
    piece lineStart depth c cs = word depth c cs := by
  unfold piece at h ⊢
  split at h
  case h_1 | h_2 | h_3 | h_4 => cases h
  case h_7 | h_8 =>
    split at h
    · cases h
      cases hk
    · rename_i hstart
      rw [if_neg hstart]
  case h_9 =>
    repeat' split at h
    all_goals cases h; cases hk
  case h_12 | h_14 | h_17 => split at h <;> cases h <;> cases hk
  case h_24 =>
    rw [dot_kind h] at hk
    cases hk
  case h_25 | h_26 | h_27 | h_28 | h_29 | h_30 => exact radix_kind rfl h hk
  case h_31 | h_32 | h_33 | h_34 | h_35 | h_36 | h_37 | h_38 | h_39 | h_40 =>
    split at h
    · rename_i hdigit
      rw [if_pos hdigit]
      exact edit_kind h hk
    · rename_i hdigit
      rw [if_neg hdigit]
  case h_41 =>
    split at h
    · rename_i hletter
      simp only [hletter, if_true]
    · split at h
      · rw [number_kind h] at hk
        cases hk
      · cases h
  all_goals cases h; cases hk

/-- The word at the characters `c :: cs`. -/
def wordText (c : Char) (cs : List Char) : String :=
  String.ofList (c :: cs.take (run isWordChar cs))

/-- A word is a specifier with what is behind it up to the `=`, or it has no such `=`. -/
theorem word_cases (depth : Nat) (c : Char) (cs : List Char) :
    (∃ s after, 0 < depth ∧ Specifier.ofWord? (wordText c cs) = some s ∧
      (cs.drop (run isWordChar cs)).dropWhile isGap = '=' :: after ∧
      word depth c cs = .plain (.specifier s)
        (run isWordChar cs + run isGap (cs.drop (run isWordChar cs)) + 1)) ∨
    (word depth c cs = .plain (.ofWord (wordText c cs)) (run isWordChar cs) ∧
      (0 < depth → (Specifier.ofWord? (wordText c cs)).isSome →
        NoSpecifier (cs.drop (run isWordChar cs)))) := by
  have hgap : ∀ rest : List Char, rest.drop (run isGap rest) = rest.dropWhile isGap := drop_run isGap
  unfold word
  extract_lets n text rest blanks specifier?
  cases hspecifier : specifier? with
  | some s =>
    refine .inl ⟨s, ?_⟩
    simp only [specifier?] at hspecifier
    split at hspecifier
    · rename_i after hafter
      split at hspecifier
      · rename_i hequal
        refine ⟨after, of_decide_eq_true (Bool.and_eq_true_iff.1 hequal).1, hspecifier, ?_, rfl⟩
        rw [← hgap]
        exact hafter
      · cases hspecifier
    · cases hspecifier
  | none =>
    refine .inr ⟨rfl, fun hdepth hword after hafter => ?_⟩
    rw [← hgap] at hafter
    change rest.drop blanks = '=' :: after at hafter
    simp only [specifier?, hafter] at hspecifier
    by_contra hnext
    rw [if_pos (by simpa [hdepth] using hnext)] at hspecifier
    rw [show Specifier.ofWord? (wordText c cs) = none from hspecifier] at hword
    cases hword

end Pieces

theorem ofWord?_spelling {w : String} {s : Specifier} (h : Specifier.ofWord? w = some s) :
    Text.upper w = s.spelling := by
  have hfound := List.find?_some h
  exact (eq_of_beq hfound).symm

/-- A word that is read alone is no specifier. -/
theorem ofWord_kind {w : String} {s : Specifier} : Kind.ofWord w ≠ .specifier s := by
  unfold Kind.ofWord
  split <;> rintro ⟨⟩

/-! ## Lexemes -/

section Lexemes

variable {source : String} {front cs : List Char} {read : List Lexeme} {p : Place} {c : Char}
  {lx : Lexeme}

/-- A run of characters and the one behind it. -/
theorem take_run_succ {f : Char → Bool} {d : Char} {rest after : List Char}
    (h : rest.dropWhile f = d :: after) : rest.take (run f rest + 1) = rest.takeWhile f ++ [d] := by
  rw [List.take_add, take_run, drop_run, h]
  rfl

/-- The lexeme of a specifier is read inside parentheses, up to the `=`. -/
theorem specifier_lexeme {s : Specifier} (hs : lx.kind = .specifier s)
    (h : lexeme? p (word p.depth c cs) c cs = some lx) :
    0 < p.depth ∧ SpecifierText s lx.text.toList := by
  rcases word_cases p.depth c cs with ⟨s', after, hdepth, hword, hequal, hpiece⟩ | ⟨hpiece, -⟩
  · rw [hpiece] at h
    obtain rfl := Option.some.inj h
    obtain rfl := Kind.specifier.inj hs
    refine ⟨hdepth, ?_⟩
    have htext : c :: cs.take (run isWordChar cs + run isGap (cs.drop (run isWordChar cs)) + 1) =
        c :: cs.take (run isWordChar cs) ++ (cs.drop (run isWordChar cs)).takeWhile isGap ++
          ['='] := by
      rw [Nat.add_assoc, List.take_add, take_run_succ hequal, List.append_assoc, List.cons_append]
    simp only [Piece.plain, Option.getD_none, String.toList_ofList, htext]
    refine .mk (ofWord?_spelling hword) fun b hb => ?_
    have hgap := List.all_eq_true.1 List.all_takeWhile b hb
    simpa [isGap] using hgap
  · rw [hpiece] at h
    obtain rfl := Option.some.inj h
    dsimp only at hs
    exact absurd hs ofWord_kind

/-- Behind the lexeme of a name or keyword that spells a specifier there is no `=` for it. -/
theorem word_lexeme (hcomes : Comes source front read p (c :: cs))
    (htakes : (word p.depth c cs).Takes c cs) (hkind : lx.kind = .name ∨ lx.kind.isKeyword)
    (h : lexeme? p (word p.depth c cs) c cs = some lx) (hproper : lx.Proper) (hdepth : 0 < p.depth)
    (hword : (Specifier.ofWord? lx.text).isSome) :
    ∃ a : Span, lx.ReadFrom source.toList a ∧ NoSpecifier (source.toList.drop a.stop) := by
  rcases word_cases p.depth c cs with ⟨s, after, -, -, -, hpiece⟩ | ⟨hpiece, hequal⟩
  · rw [hpiece] at h
    obtain rfl := Option.some.inj h
    rcases hkind with hkind | hkind <;> cases hkind
  · have hread := htakes.readFrom hcomes.behind h hproper
    rw [← hcomes.source_eq] at hread
    refine ⟨_, hread, ?_⟩
    have hdrop : source.toList.drop (front.length + ((word p.depth c cs).extra + 1)) =
        cs.drop (run isWordChar cs) := by
      rw [hcomes.source_eq, List.drop_length_add_append, hpiece]
      rfl
    rw [hdrop]
    refine hequal hdepth ?_
    rw [hpiece] at h
    obtain rfl := Option.some.inj h
    exact hword

end Lexemes

end Scan

/-! ## Main statement -/

/-- Let the depth of a lexeme be the number of parentheses that the lexemes in front of it leave open.
A specifier has a positive depth, and its text is the word that names it, blanks and one `=`. Behind a
name or a keyword of positive depth that spells a specifier in any letter case, and behind blanks, there
is no `=`, or there are two of them. -/
theorem specifiers_inside_parentheses {source : String} {i : Nat} {lx : Lexeme}
    (h : (scan source)[i]? = some lx) :
    (∀ s, lx.kind = .specifier s →
      0 < Scan.depthBehind 0 ((scan source).take i) ∧ Scan.SpecifierText s lx.text.toList) ∧
    (lx.kind = .name ∨ lx.kind.isKeyword → 0 < Scan.depthBehind 0 ((scan source).take i) →
      (Specifier.ofWord? lx.text).isSome →
      ∃ a : Span, lx.ReadFrom source.toList a ∧ Scan.NoSpecifier (source.toList.drop a.stop)) := by
  obtain ⟨hi, rfl⟩ := List.getElem?_eq_some_iff.1 h
  have hscan : scan source = (scan source).take i ++ (scan source)[i] :: (scan source).drop (i + 1) := by
    rw [← List.drop_eq_getElem_cons hi, List.take_append_drop]
  -- A lexeme that is a word is what `word` reads where the scan comes to.
  have hread : (scan source)[i].kind.isWord →
      ∃ front p c cs, Scan.Comes source front ((scan source).take i) p (c :: cs) ∧
        (Scan.word p.depth c cs).Takes c cs ∧
        Scan.lexeme? p (Scan.word p.depth c cs) c cs = some (scan source)[i] := by
    intro hword
    have hnot : (scan source)[i].kind ≠ .eof := by
      intro heof
      rw [heof] at hword
      cases hword
    obtain ⟨front, p, c, cs, hcomes, hlexeme⟩ := Scan.Comes.of_scan hnot hscan
    obtain ⟨k, hk, heq⟩ := Option.map_eq_some_iff.1 hlexeme
    have hkind : k.isWord := by
      rw [← heq] at hword
      exact hword
    have htakes := Scan.piece_takes (p.col == 1) p.depth c cs
    rw [Scan.piece_word hk hkind] at hlexeme htakes
    exact ⟨front, p, c, cs, hcomes, htakes, hlexeme⟩
  refine ⟨fun s hs => ?_, fun hkind hdepth hspells => ?_⟩
  · obtain ⟨front, p, c, cs, hcomes, -, hlexeme⟩ := hread (by rw [hs]; rfl)
    rw [← hcomes.depth_eq]
    exact Scan.specifier_lexeme hs hlexeme
  · have hword : (scan source)[i].kind.isWord := by
      revert hkind
      cases (scan source)[i].kind <;> simp [Kind.isWord, Kind.isKeyword]
    have hproper : (scan source)[i].Proper := by
      refine scan_proper (List.getElem_mem hi) fun heof => ?_
      rw [heof] at hword
      cases hword
    obtain ⟨front, p, c, cs, hcomes, htakes, hlexeme⟩ := hread hword
    rw [← hcomes.depth_eq] at hdepth
    exact Scan.word_lexeme hcomes htakes hkind hlexeme hproper hdepth hspells

/-- In a write statement with a comparison behind a word that names a specifier. -/
theorem specifiers_inside_parentheses_write :
    (scan " WRITE(UNIT =IOUT,FMT==5)")[2]? = some ⟨.specifier .UNIT, "UNIT =", none, 1, 8⟩ ∧
      (0 < Scan.depthBehind 0 ((scan " WRITE(UNIT =IOUT,FMT==5)").take 2) ∧
        Scan.SpecifierText .UNIT "UNIT =".toList) ∧
      (scan " WRITE(UNIT =IOUT,FMT==5)")[5]? = some ⟨.name, "FMT", none, 1, 19⟩ ∧
      ∃ a : Span, Lexeme.ReadFrom " WRITE(UNIT =IOUT,FMT==5)".toList a ⟨.name, "FMT", none, 1, 19⟩ ∧
        Scan.NoSpecifier (" WRITE(UNIT =IOUT,FMT==5)".toList.drop a.stop) := by
  have hunit : (scan " WRITE(UNIT =IOUT,FMT==5)")[2]? =
      some ⟨.specifier .UNIT, "UNIT =", none, 1, 8⟩ := by
    rw [scan_within]
    decide +kernel
  have hformat : (scan " WRITE(UNIT =IOUT,FMT==5)")[5]? = some ⟨.name, "FMT", none, 1, 19⟩ := by
    rw [scan_within]
    decide +kernel
  have hdepth : 0 < Scan.depthBehind 0 ((scan " WRITE(UNIT =IOUT,FMT==5)").take 5) := by
    rw [scan_within]
    decide +kernel
  exact ⟨hunit, (specifiers_inside_parentheses hunit).1 .UNIT rfl, hformat,
    (specifiers_inside_parentheses hformat).2 (.inl rfl) hdepth (by decide)⟩

end FortranJulia
