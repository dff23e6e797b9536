import FortranJulia.Proofs.Scanning.Spans

/-!
Scanning line by line. No token looks beyond the end of its line or takes it, so a piece is the same
whatever follows a line end behind its characters, and the depth of parentheses is all that a scan
carries over to the next line. Where that is zero, the tokens of what stands behind the line end are
those of a source of its own, further down.
-/

namespace FortranJulia

set_option autoImplicit false

open Decimal (isDigit)

/-! ## Tokens further down -/

/-- The lexeme so many lines further down. -/
def Lexeme.down (n : Nat) (lx : Lexeme) : Lexeme :=
  { lx with line := lx.line + n }

/-- The line end at the place of another lexeme. -/
def Lexeme.lineEnd (lx : Lexeme) : Lexeme :=
  ⟨.newline, "\n", none, lx.line, lx.col⟩

namespace Scan

/-- The depth of parentheses behind some lexemes. -/
def depthBehind (depth : Nat) (lexemes : List Lexeme) : Nat :=
  lexemes.foldl (fun d lx => depthAfter d lx.kind) depth

/-! ## Looking ahead -/

section Ahead

variable {f : Char → Bool} (cs rest : List Char)

theorem takeWhile_line (hf : f '\n' = false) :
    (cs ++ '\n' :: rest).takeWhile f = cs.takeWhile f := by
  induction cs with
  | nil => simp [hf]
  | cons c cs ih => rw [List.cons_append, List.takeWhile_cons, List.takeWhile_cons, ih]

theorem dropWhile_line (hf : f '\n' = false) :
    (cs ++ '\n' :: rest).dropWhile f = cs.dropWhile f ++ '\n' :: rest := by
  induction cs with
  | nil => simp [hf]
  | cons c cs ih =>
    rw [List.cons_append, List.dropWhile_cons, List.dropWhile_cons, ih]
    split <;> rfl

theorem run_line (hf : f '\n' = false) : run f (cs ++ '\n' :: rest) = run f cs := by
  rw [run, takeWhile_line cs rest hf, run]

theorem run_le (f : Char → Bool) : run f cs ≤ cs.length :=
  (List.takeWhile_sublist f).length_le

theorem drop_line {n : Nat} (h : n ≤ cs.length) :
    (cs ++ '\n' :: rest).drop n = cs.drop n ++ '\n' :: rest :=
  List.drop_append_of_le_length h

theorem take_line {n : Nat} (h : n ≤ cs.length) : (cs ++ '\n' :: rest).take n = cs.take n :=
  List.take_append_of_le_length h

theorem head_line {d : Char} (hd : d ≠ '\n') :
    ((cs ++ '\n' :: rest).head? == some d) = (cs.head? == some d) := by
  cases cs with
  | nil => simpa using hd.symm
  | cons c cs => rfl

theorem head_any_line (hf : f '\n' = false) :
    (cs ++ '\n' :: rest).head?.any f = cs.head?.any f := by
  cases cs with
  | nil => exact hf
  | cons c cs => rfl

end Ahead

/-! ## Pieces -/

section Pieces

variable (c : Char) (cs rest : List Char)

theorem comment_line : comment c (cs ++ '\n' :: rest) = comment c cs := by
  rw [comment, takeWhile_line cs rest rfl, comment]

theorem quotedText_line {q : Char} (hq : q ≠ '\n') :
    quotedText q (cs ++ '\n' :: rest) = quotedText q cs := by
  fun_induction quotedText q cs with
  | case1 =>
    rw [List.nil_append, quotedText.eq_def]
    simp [hq.symm]
  | case2 c hc d ds hd value n hread ih => simp [quotedText, hc, hd, ih, hread]
  | case3 c hc d ds hd => simp [quotedText, hc, hd]
  | case4 c hc => simp [quotedText, hc, hq.symm]
  | case5 c cs hc hnewline =>
    rw [List.cons_append, quotedText.eq_def]
    simp [hc, hnewline]
  | case6 c cs hc hnewline value n hread ih =>
    rw [List.cons_append, quotedText.eq_def]
    simp [hc, hnewline, ih, hread]

theorem charConstant_line {q : Char} (hq : q ≠ '\n') :
    charConstant q (cs ++ '\n' :: rest) = charConstant q cs := by
  rw [charConstant, quotedText_line cs rest hq, charConstant]

theorem dottedWord?_line : dottedWord? (cs ++ '\n' :: rest) = dottedWord? cs := by
  unfold dottedWord?
  rw [takeWhile_line cs rest rfl, dropWhile_line cs rest rfl]
  cases cs.takeWhile isLetter with
  | nil => rfl
  | cons d ds =>
    cases cs.dropWhile isLetter with
    | nil => rfl
    | cons e es =>
      by_cases he : e = '.'
      · subst he
        rfl
      · simp [he]

theorem exponentLength_line : exponentLength (cs ++ '\n' :: rest) = exponentLength cs := by
  cases cs with
  | nil => rfl
  | cons e cs =>
    cases cs with
    | nil => rfl
    | cons s ds =>
      have hdigits := run_line (s :: ds) rest (f := isDigit) rfl
      have hmore := run_line ds rest (f := isDigit) rfl
      rw [List.cons_append] at hdigits
      simp only [List.cons_append, exponentLength, hdigits, hmore]

/-- The characters of a real constant lie in the line. -/
theorem realConstant_line {n : Nat} (h : n ≤ cs.length) :
    realConstant c (cs ++ '\n' :: rest) n = realConstant c cs n := by
  rw [realConstant, take_line cs rest h, realConstant]

theorem dot_line : dot (cs ++ '\n' :: rest) = dot cs := by
  cases cs with
  | nil => rfl
  | cons d cs =>
    have hle := run_le (d :: cs) isDigit
    have hinside : run isDigit (d :: cs) + exponentLength ((d :: cs).drop (run isDigit (d :: cs))) ≤
        (d :: cs).length := by
      have hexponent := (inline_exponent ((d :: cs).drop (run isDigit (d :: cs)))).1
      rw [List.length_drop] at hexponent
      omega
    show (if isDigit d then
        let n := run isDigit ((d :: cs) ++ '\n' :: rest)
        realConstant '.' ((d :: cs) ++ '\n' :: rest)
          (n + exponentLength (((d :: cs) ++ '\n' :: rest).drop n))
      else _) = _
    rw [run_line (d :: cs) rest rfl]
    dsimp only
    rw [drop_line _ rest hle, exponentLength_line, realConstant_line _ _ _ hinside,
      dottedWord?_line (d :: cs) rest]
    rfl

theorem hollerith_line (count : Nat) {n : Nat} (h : n + 1 ≤ cs.length) :
    hollerith count n (cs ++ '\n' :: rest) = hollerith count n cs := by
  have hpayload : ∀ (length : Nat) (cs : List Char),
      ((cs ++ '\n' :: rest).take length).takeWhile (· != '\n') =
        (cs.take length).takeWhile (· != '\n') := by
    intro length cs
    rw [List.take_append]
    cases length - cs.length with
    | zero => rw [List.take_zero, List.append_nil]
    | succ m => exact takeWhile_line _ _ rfl
  rw [hollerith, drop_line cs rest h, hpayload, hollerith]

theorem number_line : number c (cs ++ '\n' :: rest) = number c cs := by
  have hle := run_le cs isDigit
  have htake := take_line cs rest hle
  have hdrop := drop_line cs rest hle
  unfold number
  rw [run_line cs rest rfl]
  dsimp only
  rw [htake, hdrop]
  cases htail : cs.drop (run isDigit cs) with
  | nil => rfl
  | cons next more =>
    have hnext : run isDigit cs + 1 + more.length ≤ cs.length := by
      have hlen := congrArg List.length htail
      rw [List.length_drop, List.length_cons] at hlen
      omega
    have hexponent := exponentLength_line (next :: more) rest
    have hshort := (inline_exponent (next :: more)).1
    have hfraction := (inline_exponent (more.drop (run isDigit more))).1
    have hrun := run_le more isDigit
    rw [List.length_drop] at hfraction
    rw [List.length_cons] at hshort
    rw [List.cons_append] at hexponent
    simp only [List.cons_append]
    rw [hollerith_line cs rest _ (by omega), dottedWord?_line, run_line more rest rfl,
      drop_line more rest hrun, exponentLength_line, head_any_line more rest rfl, hexponent,
      realConstant_line c cs rest (by omega)]
    cases he : exponentLength (next :: more) with
    | zero => rfl
    | succ e => simp only [realConstant_line c cs rest (show run isDigit cs + (e + 1) ≤ cs.length by omega)]

theorem word_line (depth : Nat) : word depth c (cs ++ '\n' :: rest) = word depth c cs := by
  have hle := run_le cs isWordChar
  have htake := take_line cs rest hle
  have hdrop := drop_line cs rest hle
  unfold word
  rw [run_line cs rest rfl]
  dsimp only
  rw [htake, hdrop]
  generalize cs.drop (run isWordChar cs) = more
  rw [run_line more rest rfl, drop_line more rest (run_le more _)]
  cases more.drop (run (fun b => b == ' ' || b == '\t') more) with
  | nil => rfl
  | cons d after =>
    by_cases hd : d = '='
    · subst hd
      have hhead := head_line after rest (d := '=') (by decide)
      simp only [List.cons_append, bne, hhead]
    · simp [hd]

theorem radix_line (kind : Kind) {valid : Char → Bool} (hvalid : valid '\n' = false) (depth : Nat) :
    radix kind valid depth c (cs ++ '\n' :: rest) = radix kind valid depth c cs := by
  have hword := word_line c cs rest depth
  cases cs with
  | nil => exact hword
  | cons q more =>
    unfold radix
    rw [List.cons_append] at hword ⊢
    dsimp only
    rw [hword, run_line more rest hvalid, drop_line more rest (run_le more valid)]
    by_cases hq : q = '\n'
    · subst hq
      rfl
    · rw [head_line _ rest hq]

theorem edit_line (depth : Nat) : edit depth c (cs ++ '\n' :: rest) = edit depth c cs := by
  have hle := run_le cs isDigit
  have hdrop := drop_line cs rest hle
  have hhead : ∀ m ≤ cs.length, ((cs ++ '\n' :: rest).drop m).head?.any isWordChar =
      (cs.drop m).head?.any isWordChar := by
    intro m hm
    rw [drop_line cs rest hm]
    exact head_any_line _ rest rfl
  unfold edit
  rw [run_line cs rest rfl]
  dsimp only
  rw [hdrop, word_line]
  cases htail : cs.drop (run isDigit cs) with
  | nil =>
    show (if ((cs ++ '\n' :: rest).drop (run isDigit cs)).head?.any isWordChar then word depth c cs
      else .plain .editConst (run isDigit cs)) = _
    rw [hhead _ hle]
  | cons d more =>
    have hinside : run isDigit cs + 1 + run isDigit more ≤ cs.length := by
      have hlen := congrArg List.length htail
      have hmore := run_le more isDigit
      rw [List.length_drop, List.length_cons] at hlen
      omega
    by_cases hd : d = '.'
    · subst hd
      simp only [List.cons_append, run_line more rest (f := isDigit) rfl]
      split <;> rw [hhead _ (by assumption)]
    · have hsame := hhead _ hle
      simp only [List.head?_drop] at hsame
      simp [hd, hsame]

end Pieces

/-- The piece at the front of a line does not depend on what follows the line. -/
theorem piece_line (lineStart : Bool) (depth : Nat) (c : Char) (cs rest : List Char) :
    piece lineStart depth c (cs ++ '\n' :: rest) = piece lineStart depth c cs := by
  have hhead : ∀ d, d ≠ '\n' → _ := fun d hd => head_line cs rest (d := d) hd
  unfold piece
  split
  case h_6 => exact comment_line _ cs rest
  case h_7 | h_8 => rw [comment_line, word_line]
  case h_9 => rw [comment_line, hhead '*' (by decide)]
  case h_12 => rw [hhead '|' (by decide)]
  case h_14 => rw [hhead ')' (by decide)]
  case h_17 => rw [hhead ':' (by decide)]
  case h_22 | h_23 => exact charConstant_line cs rest (by decide)
  case h_24 => exact dot_line cs rest
  case h_25 | h_26 | h_27 | h_28 | h_29 | h_30 => exact radix_line _ cs rest _ rfl depth
  case h_31 | h_32 | h_33 | h_34 | h_35 | h_36 | h_37 | h_38 | h_39 | h_40 =>
    rw [head_any_line cs rest (f := isDigit) rfl, edit_line, word_line]
  case h_41 =>
    rw [word_line, number_line]
  all_goals rfl

/-! ## Scans -/

theorem lexeme?_line (p : Place) {q : Piece} (c : Char) {cs : List Char} (h : q.extra ≤ cs.length)
    (rest : List Char) : lexeme? p q c (cs ++ '\n' :: rest) = lexeme? p q c cs := by
  rw [lexeme?, take_line cs rest h, lexeme?]

/-- The first piece of a line, and what is scanned behind it. -/
theorem lexemesFrom_piece (p : Place) (c : Char) (cs rest : List Char) :
    let q := piece (p.col == 1) p.depth c cs
    lexemesFrom p (c :: (cs ++ '\n' :: rest)) =
      (lexeme? p q c cs).toList ++ lexemesFrom (p.after q) (cs.drop q.extra ++ '\n' :: rest) := by
  intro q
  have hinside : q.extra ≤ cs.length := (piece_takes _ _ c cs).inside
  rw [lexemesFrom, piece_line, lexeme?_line p c hinside, drop_line cs rest hinside]
  cases lexeme? p q c cs <;> rfl

theorem depth_after (p : Place) (q : Piece) (c : Char) (cs : List Char) (body : List Lexeme) :
    depthBehind (p.after q).depth body = depthBehind p.depth ((lexeme? p q c cs).toList ++ body) := by
  unfold lexeme? Place.after
  cases hk : q.kind with
  | none => rfl
  | some k => cases k <;> rfl

/-- Behind a line end the scan goes on at the start of the next line; only the depth of parentheses is
carried over. -/
theorem lexemesFrom_line (p : Place) (cs : List Char) :
    ∃ body line col, lexemesFrom p cs = body ++ [Lexeme.endOfSource line col] ∧
      ∀ rest, lexemesFrom p (cs ++ '\n' :: rest) =
        body ++ (Lexeme.endOfSource line col).lineEnd ::
          lexemesFrom ⟨line + 1, 1, depthBehind p.depth body⟩ rest := by
  fun_induction lexemesFrom p cs with
  | case1 p =>
    refine ⟨[], p.line, p.col, rfl, fun rest => ?_⟩
    rw [List.nil_append, lexemesFrom]
    rfl
  | case2 p c cs q rest lx hlx ih =>
    obtain ⟨body, line, col, heq, hline⟩ := ih
    refine ⟨lx :: body, line, col, by rw [List.cons_append, ← heq], fun more => ?_⟩
    have hdepth := depth_after p q c cs body
    rw [hlx] at hdepth
    rw [List.cons_append, lexemesFrom_piece, hlx, hline, hdepth]
    rfl
  | case3 p c cs q rest hlx ih =>
    obtain ⟨body, line, col, heq, hline⟩ := ih
    refine ⟨body, line, col, heq, fun more => ?_⟩
    have hdepth := depth_after p q c cs body
    rw [hlx] at hdepth
    rw [List.cons_append, lexemesFrom_piece, hlx, hline, hdepth]
    rfl

/-- The place so many lines further down. -/
def Place.down (n : Nat) (p : Place) : Place :=
  { p with line := p.line + n }

theorem after_down (n : Nat) (p : Place) (q : Piece) : (p.down n).after q = (p.after q).down n := by
  unfold Place.after
  split
  · exact congrArg (fun line => (⟨line, 1, p.depth⟩ : Place)) (Nat.add_right_comm _ _ _)
  · rfl
  · rfl

/-- A scan that starts further down gives the same lexemes further down. -/
theorem lexemesFrom_down (n : Nat) (p : Place) (cs : List Char) :
    lexemesFrom (p.down n) cs = (lexemesFrom p cs).map (.down n) := by
  have hlexeme : ∀ (p : Place) (q : Piece) (c : Char) (cs : List Char),
      lexeme? (p.down n) q c cs = (lexeme? p q c cs).map (.down n) := by
    intro p q c cs
    rw [lexeme?, lexeme?, Option.map_map]
    rfl
  fun_induction lexemesFrom p cs with
  | case1 p =>
    rw [lexemesFrom]
    rfl
  | case2 p c cs q rest lx hlx ih =>
    rw [lexemesFrom, hlexeme, after_down]
    simp only [Place.down] at ih ⊢
    rw [hlx, ih]
    rfl
  | case3 p c cs q rest hlx ih =>
    rw [lexemesFrom, hlexeme, after_down]
    simp only [Place.down] at ih ⊢
    rw [hlx, ih]
    rfl

end Scan

/-! ## Program names -/

theorem programName_cons {lx : Lexeme} (h : lx.kind ≠ .keyword .PROGRAM) (lexemes : List Lexeme) :
    programName (lx :: lexemes) = programName lexemes := by
  cases lexemes with
  | nil => rfl
  | cons b rest => rw [programName, if_neg (by simp [h])]

theorem programName_down (n : Nat) (lexemes : List Lexeme) :
    programName (lexemes.map (.down n)) = programName lexemes :=
  programName_map (f := .down n) (g := id) (fun _ => rfl) (fun _ => rfl) rfl lexemes

/-- The name of a program in front of a line end, or else the one behind it. -/
theorem programName_line {body rest : List Lexeme} (hbody : ∀ lx ∈ body, lx.Proper) (lx : Lexeme)
    (line col : Nat) :
    programName (body ++ lx.lineEnd :: rest) =
      if programName (body ++ [Lexeme.endOfSource line col]) = "" then programName rest
      else programName (body ++ [Lexeme.endOfSource line col]) := by
  have hend : programName (lx.lineEnd :: rest) = programName rest :=
    programName_cons (by simp [Lexeme.lineEnd]) rest
  induction body with
  | nil => exact hend
  | cons a body ih =>
    have hrest := ih fun b hb => hbody b (by simp [hb])
    cases body with
    | nil =>
      have hnone : programName [a, .endOfSource line col] = "" := by
        rw [programName, if_neg (by simp [Lexeme.endOfSource])]
        rfl
      have hskip : programName (a :: lx.lineEnd :: rest) = programName (lx.lineEnd :: rest) := by
        rw [programName, if_neg (by simp [Lexeme.lineEnd])]
      rw [List.singleton_append, List.singleton_append, hskip, hend, if_pos hnone]
    | cons b body =>
      simp only [List.cons_append] at hrest ⊢
      rw [programName, programName]
      split
      · rename_i hname
        have hkind : b.kind = .name := (by simpa using hname : _ ∧ _).2
        have hne : b.text ≠ "" := by
          intro hempty
          obtain ⟨c, cs, htext, -⟩ := (hbody b (by simp)).name hkind
          rw [hempty] at htext
          cases htext
        rw [if_neg hne]
      · exact hrest

/-! ## Main statement -/

/-- Where a scan leaves no parenthesis open, the lexemes of its source, a line end and a second source
are those of the first one, a line end in the place of the end of the source, and those of the second
one below it; the program has the name in the first source or else that in the second one. -/
theorem scan_by_lines {s : String} (h : Scan.depthBehind 0 (scan s) = 0) (t : String) :
    ∃ body eof, scan s = body ++ [eof] ∧ eof.kind = .eof ∧
      scan (s ++ "\n" ++ t) = body ++ eof.lineEnd :: (scan t).map (.down eof.line) ∧
      programName (scan (s ++ "\n" ++ t)) =
        if programName (scan s) = "" then programName (scan t) else programName (scan s) := by
  obtain ⟨body, line, col, heq, hline⟩ := Scan.lexemesFrom_line .start s.toList
  have hbody : ∀ lx ∈ body, lx.Proper := by
    obtain ⟨body', line', col', heq', hproper⟩ := scan_shape s
    obtain ⟨rfl, -⟩ := List.append_inj' (heq.symm.trans heq') rfl
    exact hproper
  have hdepth : Scan.depthBehind 0 body = 0 := by
    rw [scan, heq, Scan.depthBehind, List.foldl_append] at h
    exact h
  have hsecond : Scan.lexemesFrom ⟨line + 1, 1, Scan.depthBehind 0 body⟩ t.toList =
      (scan t).map (.down line) := by
    rw [hdepth, scan, ← Scan.lexemesFrom_down, Scan.Place.down, Nat.add_comm]
    rfl
  have hscan : scan (s ++ "\n" ++ t) =
      body ++ (Lexeme.endOfSource line col).lineEnd :: (scan t).map (.down line) := by
    have hsource : (s ++ "\n" ++ t).toList = s.toList ++ '\n' :: t.toList := by simp
    rw [scan, hsource, hline, ← hsecond]
    rfl
  refine ⟨body, .endOfSource line col, heq, rfl, hscan, ?_⟩
  rw [hscan, programName_line hbody _ line col, ← heq, programName_down]
  rfl

/-- A line with a call in front of a line with a program name. -/
theorem scan_by_lines_call :
    Scan.depthBehind 0 (scan " CALL S(A)") = 0 ∧
      scan (" CALL S(A)" ++ "\n" ++ "PROGRAM P") =
        [⟨.keyword .CALL, "CALL", none, 1, 2⟩, ⟨.name, "S", none, 1, 7⟩, ⟨.lparen, "(", none, 1, 8⟩,
          ⟨.name, "A", none, 1, 9⟩, ⟨.rparen, ")", none, 1, 10⟩, ⟨.newline, "\n", none, 1, 11⟩,
          ⟨.keyword .PROGRAM, "PROGRAM", none, 2, 1⟩, ⟨.name, "P", none, 2, 9⟩, .endOfSource 2 10] ∧
      programName (scan (" CALL S(A)" ++ "\n" ++ "PROGRAM P")) = "P" := by
  have hfirst : scan " CALL S(A)" =
      [⟨.keyword .CALL, "CALL", none, 1, 2⟩, ⟨.name, "S", none, 1, 7⟩, ⟨.lparen, "(", none, 1, 8⟩,
        ⟨.name, "A", none, 1, 9⟩, ⟨.rparen, ")", none, 1, 10⟩] ++ [.endOfSource 1 11] := by
    rw [scan_within]
    decide +kernel
  have hsecond : scan "PROGRAM P" =
      [⟨.keyword .PROGRAM, "PROGRAM", none, 1, 1⟩, ⟨.name, "P", none, 1, 9⟩, .endOfSource 1 10] := by
    rw [scan_within]
    decide +kernel
  have hdepth : Scan.depthBehind 0 (scan " CALL S(A)") = 0 := by rw [hfirst]; rfl
  obtain ⟨body, eof, hbody, -, hscan, hname⟩ := scan_by_lines hdepth "PROGRAM P"
  obtain ⟨rfl, heof⟩ := List.append_inj' (hbody.symm.trans hfirst) rfl
  obtain rfl := List.singleton_inj.1 heof
  refine ⟨hdepth, ?_, ?_⟩
  · rw [hscan, hsecond]
    rfl
  · rw [hname, hfirst, hsecond]
    rfl

end FortranJulia
