import FortranJulia.Proofs.Scanning.Lexemes

/-!
Character constants, from the source to the program. In the source a text stands between quotes and
the quote itself is written twice; wherever a token may start, such a constant is read as one lexeme
with the text as its value, up to its closing quote. In the program the text is a Julia string
literal. A literal is read back by its escapes, and that of a text gives the text: no two texts are
written the same way, and none holds a quote or a dollar that would end it or start an interpolation.
-/

namespace FortranJulia

set_option autoImplicit false

/-! ## Julia string literals -/

namespace Julia

/-- The character that an escape stands for. -/
def escape? : Char → Option Char
  | '"' => some '"'
  | '\\' => some '\\'
  | '$' => some '$'
  | 'n' => some '\n'
  | 't' => some '\t'
  | _ => none

/-- What stands between the quotes of a literal, after the opening one. A dollar would start an
interpolation. -/
def literalBody? : List Char → Option (List Char)
  | [] => none
  | ['"'] => some []
  | '\\' :: c :: cs => (escape? c).bind fun d => (literalBody? cs).map (d :: ·)
  | c :: cs => if c == '"' || c == '\\' || c == '$' then none else (literalBody? cs).map (c :: ·)

/-- The text of a string literal. -/
def stringValue? (literal : String) : Option String :=
  match literal.toList with
  | '"' :: cs => (literalBody? cs).map String.ofList
  | _ => none

theorem literalBody?_escape {c d : Char} (h : escape? c = some d) (cs : List Char) :
    literalBody? ('\\' :: c :: cs) = (literalBody? cs).map (d :: ·) := by
  rw [literalBody?, h]
  rfl

theorem literalBody?_plain {c : Char} (h : (c == '"' || c == '\\' || c == '$') = false)
    (cs : List Char) : literalBody? (c :: cs) = (literalBody? cs).map (c :: ·) := by
  simp only [Bool.or_eq_false_iff, beq_eq_false_iff_ne] at h
  rw [literalBody?]
  · simp [h]
  · rintro rfl
    exact absurd rfl h.1.1
  · rintro _ _ rfl
    exact absurd rfl h.1.2

end Julia

namespace Text

/-- A character is written as itself or as an escape that stands for it. -/
theorem juliaChar_cases (c : Char) :
    (∃ d, juliaChar c = ['\\', d] ∧ Julia.escape? d = some c) ∨
      (juliaChar c = [c] ∧ (c == '"' || c == '\\' || c == '$') = false) := by
  unfold juliaChar
  split
  · rename_i hmark
    simp only [Bool.or_eq_true, beq_iff_eq] at hmark
    left
    rcases hmark with (rfl | rfl) | rfl <;> exact ⟨_, rfl, rfl⟩
  · rename_i hmark
    split
    · rename_i hline
      obtain rfl := eq_of_beq hline
      exact .inl ⟨'n', rfl, rfl⟩
    · split
      · rename_i htab
        obtain rfl := eq_of_beq htab
        exact .inl ⟨'t', rfl, rfl⟩
      · exact .inr ⟨rfl, by simpa using hmark⟩

theorem literalBody?_juliaChars (cs : List Char) :
    Julia.literalBody? (cs.flatMap juliaChar ++ ['"']) = some cs := by
  induction cs with
  | nil => rfl
  | cons c cs ih =>
    rw [List.flatMap_cons, List.append_assoc]
    rcases juliaChar_cases c with ⟨d, hchar, hescape⟩ | ⟨hchar, hplain⟩
    · rw [hchar, List.cons_append, List.cons_append, List.nil_append,
        Julia.literalBody?_escape hescape, ih, Option.map_some]
    · rw [hchar, List.cons_append, List.nil_append, Julia.literalBody?_plain hplain, ih,
        Option.map_some]

/-- The literal of a text is read back as the text. -/
theorem stringValue?_juliaString (s : String) : Julia.stringValue? (juliaString s) = some s := by
  rw [Julia.stringValue?, juliaString, String.toList_ofList, List.cons_append]
  simp only
  rw [literalBody?_juliaChars, Option.map_some, String.ofList_toList]

end Text

/-! ## Constants in a source -/

namespace Scan

/-- A text with every quote in it written twice. -/
def doubled (q : Char) (value : List Char) : List Char :=
  value.flatMap fun c => if c = q then [q, q] else [c]

/-- The scan of a source has read some characters and the lexemes in them, and a token may start at
the place where the other characters begin. -/
inductive Comes (source : String) : List Char → List Lexeme → Place → List Char → Prop where
  | start : Comes source [] [] .start source.toList
  | step {front cs : List Char} {c : Char} {read : List Lexeme} {p : Place} {q : Piece}
    (h : Comes source front read p (c :: cs)) (piece_eq : piece (p.col == 1) p.depth c cs = q) :
    Comes source (front ++ c :: cs.take q.extra) (read ++ (lexeme? p q c cs).toList) (p.after q)
      (cs.drop q.extra)

namespace Comes

variable {source : String} {front rest : List Char} {read : List Lexeme} {p : Place}

/-- What has been read stands before what has not. -/
theorem source_eq (h : Comes source front read p rest) : source.toList = front ++ rest := by
  induction h with
  | start => rfl
  | step _ _ ih => rw [ih, List.append_assoc, List.cons_append, List.take_append_drop]

/-- The lexemes that have been read are the first ones of the source, and the others are read from
there on. -/
theorem scan_eq (h : Comes source front read p rest) : scan source = read ++ lexemesFrom p rest := by
  induction h with
  | start => rfl
  | @step front cs c read p q _ hq ih =>
    rw [ih, lexemesFrom, hq, List.append_assoc]
    cases lexeme? p q c cs <;> rfl

end Comes

theorem quotedText_close {q : Char} {rest : List Char} (hrest : rest.head? ≠ some q) :
    quotedText q (q :: rest) = ([], 1) := by
  rw [quotedText.eq_def]
  cases rest with
  | nil => simp
  | cons d ds =>
    have hd : d ≠ q := fun heq => hrest (by rw [heq]; rfl)
    simp [hd]

theorem quotedText_pair (q : Char) (cs : List Char) :
    quotedText q (q :: q :: cs) = (q :: (quotedText q cs).1, (quotedText q cs).2 + 2) := by
  rw [quotedText.eq_def]
  simp

theorem quotedText_other {q c : Char} (hq : c ≠ q) (hc : c ≠ '\n') (cs : List Char) :
    quotedText q (c :: cs) = (c :: (quotedText q cs).1, (quotedText q cs).2 + 1) := by
  rw [quotedText.eq_def]
  simp [hq, hc]

/-- Behind its opening quote a constant is read up to the closing one. -/
theorem quotedText_doubled {q : Char} {rest : List Char} (hrest : rest.head? ≠ some q)
    {value : List Char} (h : '\n' ∉ value) :
    quotedText q (doubled q value ++ q :: rest) = (value, (doubled q value).length + 1) := by
  induction value with
  | nil => exact quotedText_close hrest
  | cons c cs ih =>
    rw [List.mem_cons, not_or] at h
    obtain ⟨hc, hcs⟩ := h
    have hrec := ih hcs
    rw [doubled, List.flatMap_cons, ← doubled, List.append_assoc, List.length_append]
    by_cases hq : c = q
    · rw [if_pos hq, hq, List.cons_append, List.cons_append, List.nil_append, quotedText_pair, hrec,
        List.length_cons, List.length_cons, List.length_nil]
      congr 1
      omega
    · rw [if_neg hq, List.cons_append, List.nil_append, quotedText_other hq (Ne.symm hc), hrec,
        List.length_cons, List.length_nil]
      congr 1
      omega

/-- What starts with a constant is the constant, up to its closing quote. -/
theorem piece_doubled {q : Char} (hq : q = '\'' ∨ q = '"') {value rest : List Char}
    (hvalue : '\n' ∉ value) (hrest : rest.head? ≠ some q) (lineStart : Bool) (depth : Nat) :
    piece lineStart depth q (doubled q value ++ q :: rest) =
      ⟨(doubled q value).length + 1, some .charConst, some (.text (String.ofList value)),
        some (Text.juliaString (String.ofList value))⟩ := by
  have hpiece : piece lineStart depth q (doubled q value ++ q :: rest) =
      charConstant q (doubled q value ++ q :: rest) := by
    rcases hq with rfl | rfl <;> rfl
  rw [hpiece, charConstant, quotedText_doubled hrest hvalue]

/-- Where a token may start, a constant is read as one lexeme, and the next token may start behind its
closing quote. -/
theorem Comes.constant {source : String} {q : Char} {front value rest : List Char}
    {read : List Lexeme} {p : Place} (hq : q = '\'' ∨ q = '"') (hvalue : '\n' ∉ value)
    (hrest : rest.head? ≠ some q)
    (h : Comes source front read p (q :: (doubled q value ++ q :: rest))) :
    Comes source (front ++ q :: (doubled q value ++ [q]))
      (read ++ [⟨.charConst, Text.juliaString (String.ofList value),
        some (.text (String.ofList value)), p.line, p.col⟩])
      ⟨p.line, p.col + ((doubled q value).length + 1) + 1, p.depth⟩ rest := by
  have hstep := h.step (piece_doubled hq hvalue hrest _ _)
  simp only [List.take_length_add_append, List.drop_length_add_append] at hstep
  exact hstep

end Scan

/-! ## Main statement -/

end FortranJulia
