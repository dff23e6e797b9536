import FortranJulia.Proofs.Scanning.Lexemes
import Mathlib.Data.List.Forall2

/-!
Where the lexemes of a scan stand in the source. Each is read from a span of characters, and says in
which line and column the span starts. The spans follow one another, a line end is a span of its own,
and what lies between the spans are blanks and characters that nothing starts with.
-/

namespace FortranJulia

set_option autoImplicit false

open Decimal (isDigit)

/-! ## Places -/

/-- Characters of a source, from an index up to the one behind the last. -/
structure Span where
  start : Nat
  stop : Nat

namespace Span

def Holds (a : Span) (i : Nat) : Prop :=
  a.start ≤ i ∧ i < a.stop

def chars (a : Span) (cs : List Char) : List Char :=
  (cs.drop a.start).take (a.stop - a.start)

end Span

/-- The line behind some characters, counted from one. -/
def lineBehind (cs : List Char) : Nat :=
  cs.count '\n' + 1

/-- The column behind some characters: their number since the last line end, plus one. -/
def columnBehind (cs : List Char) : Nat :=
  (cs.reverse.takeWhile (· != '\n')).length + 1

theorem lineBehind_inline {pre w : List Char} (h : '\n' ∉ w) :
    lineBehind (pre ++ w) = lineBehind pre := by
  rw [lineBehind, List.count_append, List.count_eq_zero_of_not_mem h]
  rfl

theorem columnBehind_inline {pre w : List Char} (h : '\n' ∉ w) :
    columnBehind (pre ++ w) = columnBehind pre + w.length := by
  have hall : ∀ c ∈ w.reverse, (c != '\n') = true := by
    intro c hc
    rw [bne_iff_ne]
    rintro rfl
    exact h (List.mem_reverse.1 hc)
  rw [columnBehind, columnBehind, List.reverse_append, List.takeWhile_append_of_pos hall,
    List.length_append, List.length_reverse]
  omega

theorem lineBehind_newline (pre : List Char) : lineBehind (pre ++ ['\n']) = lineBehind pre + 1 := by
  simp [lineBehind]

theorem columnBehind_newline (pre : List Char) : columnBehind (pre ++ ['\n']) = 1 := by
  simp [columnBehind]

/-! ## Lexemes and spans -/

/-- A character constant with its quotes, the value that it stands for, and the character behind it.
A quote in the value is written twice. Without a closing quote the constant ends with its line. -/
def Quotes (text value : List Char) (next : Option Char) : Prop :=
  ∃ q, (q = '\'' ∨ q = '"') ∧
    ((text = q :: (value.flatMap fun c => if c = q then [q, q] else [c]) ++ [q] ∧ next ≠ some q) ∨
      (text = q :: (value.flatMap fun c => if c = q then [q, q] else [c]) ∧
        (next = none ∨ next = some '\n')))

/-- The lexeme is what a span of a source reads. -/
structure Lexeme.ReadFrom (source : List Char) (a : Span) (lx : Lexeme) : Prop where
  not_end : lx.kind ≠ .eof
  nonempty : a.start < a.stop
  inside : a.stop ≤ source.length
  line : lx.line = lineBehind (source.take a.start)
  col : lx.col = columnBehind (source.take a.start)
  text : lx.kind ≠ .charConst → lx.kind ≠ .comment → lx.text.toList = a.chars source
  comment : lx.kind = .comment →
    lx.text.toList = Text.dropTrailing (· == '\r') (a.chars source)
  constant : lx.kind = .charConst → ∃ value : List Char,
    lx.value = some (.text (String.ofList value)) ∧
      lx.text = Text.juliaString (String.ofList value) ∧
      Quotes (a.chars source) value source[a.stop]?
  newline : if lx.kind = .newline then a.chars source = ['\n'] else '\n' ∉ a.chars source

/-- The marks that a token starts with. -/
def Scan.marks : List Char :=
  ['!', '*', '+', '-', '(', ')', ',', '=', ':', '/', '$', '%', '.']

/-- May a character be passed over that stands before `next`? -/
def Scan.Passed (c : Char) (next : Option Char) : Prop :=
  c ∈ [' ', '\t', '\r', '\x0c'] ∨ (c = '|' ∧ next ≠ some ')') ∨
    (isLetter c = false ∧ isDigit c = false ∧ c ∉ ['\'', '"', '|', '\n'] ∧ c ∉ marks)

/-- The lexemes are read from the spans, which follow one another from an index of the source on, and
every character that lies in none of them is passed over. -/
structure Covers (source : List Char) (first : Nat) (spans : List Span) (lexemes : List Lexeme) :
    Prop where
  read : List.Forall₂ (Lexeme.ReadFrom source) spans lexemes
  ordered : spans.Pairwise fun a b => a.stop ≤ b.start
  behind : ∀ a ∈ spans, first ≤ a.start
  passed : ∀ i c, first ≤ i → source[i]? = some c →
    (∃ a ∈ spans, a.Holds i) ∨ Scan.Passed c source[i + 1]?

namespace Scan

/-! ## Characters of one line -/

/-- The list has so many characters, and none of them ends a line. -/
def Inline (n : Nat) (cs : List Char) : Prop :=
  n ≤ cs.length ∧ '\n' ∉ cs.take n

theorem inline_zero (cs : List Char) : Inline 0 cs :=
  ⟨Nat.zero_le _, by simp⟩

theorem inline_one {c : Char} {cs : List Char} (hc : c ≠ '\n') : Inline 1 (c :: cs) :=
  ⟨Nat.succ_le_succ (Nat.zero_le _), by simpa using hc.symm⟩

theorem Inline.add {n m : Nat} {cs : List Char} (h : Inline n cs) (h' : Inline m (cs.drop n)) :
    Inline (n + m) cs := by
  have hlen := h'.1
  rw [List.length_drop] at hlen
  refine ⟨?_, ?_⟩
  · have := h.1
    omega
  · rw [List.take_add, List.mem_append]
    exact not_or.2 ⟨h.2, h'.2⟩

/-- One character and some more. -/
theorem Inline.cons {n : Nat} {c : Char} {cs : List Char} (hc : c ≠ '\n') (h : Inline n cs) :
    Inline (1 + n) (c :: cs) :=
  (inline_one hc).add h

theorem inline_run {f : Char → Bool} (hf : f '\n' = false) (cs : List Char) :
    Inline (run f cs) cs := by
  refine ⟨(List.takeWhile_sublist f).length_le, fun hmem => ?_⟩
  have hnewline := mem_take_run hmem
  rw [hf] at hnewline
  cases hnewline

theorem head_drop_eq {cs : List Char} {n : Nat} {d : Char} {rest : List Char}
    (h : cs.drop n = d :: rest) : cs.drop (n + 1) = rest := by
  rw [← List.drop_drop, h]
  rfl

/-- Some characters, one that ends no line, and some more. -/
theorem Inline.append {n m : Nat} {d : Char} {cs rest : List Char} (h : Inline n cs)
    (hdrop : cs.drop n = d :: rest) (hd : d ≠ '\n') (h' : Inline m rest) :
    Inline (n + 1 + m) cs := by
  have hrest : Inline (1 + m) (cs.drop n) := hdrop ▸ Inline.cons hd h'
  rw [Nat.add_assoc]
  exact h.add hrest

/-! ## Pieces -/

/-- What a piece at the characters `c :: cs` takes, and what it says of them. -/
structure Piece.Takes (c : Char) (cs : List Char) (q : Piece) : Prop where
  inside : q.extra ≤ cs.length
  passed : q.kind = none → q.extra = 0 ∧ Passed c cs.head?
  newline : if q.kind = some .newline then c = '\n' ∧ q.extra = 0
    else '\n' ∉ c :: cs.take q.extra
  text : q.kind ≠ some .charConst → q.kind ≠ some .comment → q.text = none
  comment : q.kind = some .comment →
    q.text = some (String.ofList (Text.dropTrailing (· == '\r') (c :: cs.take q.extra)))
  constant : q.kind = some .charConst → ∃ value : List Char,
    q.value = some (.text (String.ofList value)) ∧
      q.text = some (Text.juliaString (String.ofList value)) ∧
      Quotes (c :: cs.take q.extra) value cs[q.extra]?

/-- The kinds of pieces that are told apart from others. -/
def specialKinds : List Kind :=
  [.newline, .charConst, .comment]

/-- A piece whose text is what its characters read. -/
theorem Piece.takes_plain {c : Char} {cs : List Char} {n : Nat} {k : Kind} {value : Option Literal}
    (hk : specialKinds.contains k = false) (hc : c ≠ '\n') (h : Inline n cs) :
    Piece.Takes c cs ⟨n, some k, value, none⟩ := by
  have hnewline : k ≠ .newline := by rintro rfl; cases hk
  have hconst : k ≠ .charConst := by rintro rfl; cases hk
  have hcomment : k ≠ .comment := by rintro rfl; cases hk
  refine ⟨h.1, by simp, ?_, by simp, by simp [hcomment], by simp [hconst]⟩
  simpa [hnewline] using ⟨hc.symm, h.2⟩

theorem Piece.takes_skip {c : Char} {cs : List Char} (hc : c ≠ '\n') (h : Passed c cs.head?) :
    Piece.skip.Takes c cs :=
  ⟨Nat.zero_le _, fun _ => ⟨rfl, h⟩, by simpa [Piece.skip] using hc.symm, by simp [Piece.skip],
    by simp [Piece.skip], by simp [Piece.skip]⟩

theorem takes_newline (cs : List Char) : (Piece.plain .newline 0).Takes '\n' cs :=
  ⟨Nat.zero_le _, by simp [Piece.plain], by simp [Piece.plain], by simp [Piece.plain],
    by simp [Piece.plain], by simp [Piece.plain]⟩

theorem takes_comment {c : Char} (hc : c ≠ '\n') (cs : List Char) : (comment c cs).Takes c cs := by
  have hline : Inline (run (· != '\n') cs) cs := inline_run rfl cs
  have htaken : cs.take (cs.takeWhile (· != '\n')).length = cs.takeWhile (· != '\n') := take_run _ cs
  refine ⟨hline.1, by simp [comment], ?_, by simp [comment], fun _ => ?_, by simp [comment]⟩
  · simpa [comment] using ⟨hc.symm, hline.2⟩
  · simp only [comment, htaken]

/-- What is read of a character constant, and where it ends. -/
theorem quotedText_reads {q : Char} (hq : q ≠ '\n') (cs : List Char) :
    let value := (quotedText q cs).1
    let n := (quotedText q cs).2
    Inline n cs ∧
      ((cs.take n = (value.flatMap fun c => if c = q then [q, q] else [c]) ++ [q] ∧ cs[n]? ≠ some q) ∨
        (cs.take n = (value.flatMap fun c => if c = q then [q, q] else [c]) ∧
          (cs[n]? = none ∨ cs[n]? = some '\n'))) := by
  fun_induction quotedText q cs with
  | case1 => exact ⟨inline_zero _, .inr (by simp)⟩
  | case2 c hc d ds hd value n hrest ih =>
    obtain rfl := eq_of_beq hc
    obtain rfl := eq_of_beq hd
    rw [hrest] at ih
    refine ⟨?_, ?_⟩
    · have htwo : Inline (1 + (1 + n)) (d :: d :: ds) := .cons hq (.cons hq ih.1)
      rwa [show n + 2 = 1 + (1 + n) by omega]
    · simpa using ih.2
  | case3 c hc d ds hd =>
    obtain rfl := eq_of_beq hc
    exact ⟨inline_one hq, .inl (by simpa using hd)⟩
  | case4 c hc =>
    obtain rfl := eq_of_beq hc
    exact ⟨inline_one hq, .inl (by simp)⟩
  | case5 c cs hc hnewline =>
    obtain rfl := eq_of_beq hnewline
    exact ⟨inline_zero _, .inr (by simp)⟩
  | case6 c cs hc hnewline value n hrest ih =>
    rw [hrest] at ih
    have hne : c ≠ q := by simpa using hc
    refine ⟨?_, ?_⟩
    · rw [Nat.add_comm]
      exact .cons (by simpa using hnewline) ih.1
    · simpa [hne] using ih.2

theorem takes_charConstant {q : Char} (hq : q = '\'' ∨ q = '"') (cs : List Char) :
    (charConstant q cs).Takes q cs := by
  have hne : q ≠ '\n' := by rcases hq with rfl | rfl <;> decide
  obtain ⟨hline, hreads⟩ := quotedText_reads hne cs
  refine ⟨hline.1, by simp [charConstant], ?_, by simp [charConstant], by simp [charConstant],
    fun _ => ⟨(quotedText q cs).1, rfl, rfl, q, hq, ?_⟩⟩
  · simpa [charConstant] using ⟨hne.symm, hline.2⟩
  · show (q :: cs.take (quotedText q cs).2 = _ ∧ _) ∨ (q :: cs.take (quotedText q cs).2 = _ ∧ _)
    rcases hreads with ⟨htext, hnext⟩ | ⟨htext, hnext⟩
    · exact .inl ⟨by rw [htext]; rfl, hnext⟩
    · exact .inr ⟨by rw [htext], hnext⟩

/-! ## Words and numbers -/

theorem takes_word (depth : Nat) {c : Char} (hc : c ≠ '\n') (cs : List Char) :
    (word depth c cs).Takes c cs := by
  have hword : Inline (run isWordChar cs) cs := inline_run rfl cs
  have hplain : ∀ text, specialKinds.contains (Kind.ofWord text) = false := by
    intro text
    unfold Kind.ofWord
    split <;> rfl
  unfold word
  extract_lets n text rest blanks specifier?
  cases hspecifier : specifier? with
  | none => exact Piece.takes_plain (hplain text) hc hword
  | some s =>
    refine Piece.takes_plain rfl hc ?_
    have hblanks : Inline blanks rest := inline_run rfl rest
    have hequal : ∃ tail, rest.drop blanks = '=' :: tail := by
      simp only [specifier?] at hspecifier
      split at hspecifier
      · rename_i tail hdrop
        exact ⟨tail, hdrop⟩
      · cases hspecifier
    obtain ⟨tail, hdrop⟩ := hequal
    have hall : Inline (blanks + 1 + 0) rest := hblanks.append hdrop (by decide) (inline_zero tail)
    exact hword.add hall

theorem takes_radix {kind : Kind} (hk : specialKinds.contains kind = false) {valid : Char → Bool}
    (hvalid : valid '\n' = false) (depth : Nat) {c : Char} (hc : c ≠ '\n') (cs : List Char) :
    (radix kind valid depth c cs).Takes c cs := by
  unfold radix
  split
  · rename_i q rest
    split
    · rename_i hq
      have hquote : q ≠ '\n' := by
        rintro rfl
        exact absurd hq (by decide)
      have hdigits : Inline (run valid rest) rest := inline_run hvalid rest
      refine Piece.takes_plain hk hc ?_
      split
      · rename_i hclosing
        obtain ⟨tail, hdrop⟩ := List.head?_eq_some_iff.1 (eq_of_beq hclosing)
        have hall : Inline (1 + (run valid rest + 1 + 0)) (q :: rest) :=
          .cons hquote (hdigits.append hdrop hquote (inline_zero tail))
        rwa [show run valid rest + 2 = 1 + (run valid rest + 1 + 0) by omega]
      · rw [Nat.add_comm]
        exact .cons hquote hdigits
    · exact takes_word depth hc _
  · exact takes_word depth hc _

theorem takes_edit (depth : Nat) {c : Char} (hc : c ≠ '\n') (cs : List Char) :
    (edit depth c cs).Takes c cs := by
  have hdigits : Inline (run isDigit cs) cs := inline_run rfl cs
  unfold edit
  extract_lets n m
  split
  · exact takes_word depth hc cs
  · refine Piece.takes_plain rfl hc ?_
    simp only [m]
    split
    · rename_i rest hdrop
      split
      · exact hdigits.append hdrop (by decide) (inline_run rfl rest)
      · exact hdigits
    · exact hdigits

theorem inline_exponent (cs : List Char) : Inline (exponentLength cs) cs := by
  unfold exponentLength
  split
  · rename_i e cs
    split
    · rename_i he
      have hletter : e ≠ '\n' := by
        rintro rfl
        exact absurd he (by decide)
      split
      · rename_i s ds
        split
        · exact .cons hletter (inline_run rfl _)
        · split
          · rename_i hsign
            have hs : s ≠ '\n' := by
              rintro rfl
              exact absurd (Bool.and_eq_true_iff.1 hsign).1 (by decide)
            have hall : Inline (1 + (1 + run isDigit ds)) (e :: s :: ds) :=
              .cons hletter (.cons hs (inline_run rfl ds))
            rwa [← Nat.add_assoc] at hall
          · exact inline_zero _
      · exact inline_zero _
    · exact inline_zero _
  · exact inline_zero _

theorem drop_run (f : Char → Bool) (cs : List Char) : cs.drop (run f cs) = cs.dropWhile f := by
  have happend : cs.takeWhile f ++ cs.drop (run f cs) = cs.takeWhile f ++ cs.dropWhile f := by
    rw [← take_run, List.take_append_drop, take_run, List.takeWhile_append_dropWhile]
  exact List.append_cancel_left happend

theorem dottedWord?_reads {cs : List Char} {k : Kind} {n : Nat} (h : dottedWord? cs = some (k, n)) :
    Inline n cs ∧ specialKinds.contains k = false := by
  have hkinds : ∀ word k, Kind.ofDotted? word = some k → specialKinds.contains k = false := by
    intro word k hk
    unfold Kind.ofDotted? at hk
    split at hk <;> cases hk <;> rfl
  unfold dottedWord? at h
  extract_lets word at h
  split at h
  · rename_i rest hword hrest
    obtain ⟨k', hk', heq⟩ := Option.map_eq_some_iff.1 h
    obtain ⟨rfl, rfl⟩ := Prod.mk.inj heq
    have hdrop : cs.drop (run isLetter cs) = '.' :: rest := (drop_run _ _).trans hrest
    exact ⟨(inline_run rfl cs).append hdrop (by decide) (inline_zero rest), hkinds _ _ hk'⟩
  · cases h

theorem takes_dot (cs : List Char) : (dot cs).Takes '.' cs := by
  have hpoint : '.' ≠ '\n' := by decide
  unfold dot
  split
  · rename_i d ds
    split
    · exact Piece.takes_plain rfl hpoint ((inline_run rfl _).add (inline_exponent _))
    · split
      · rename_i n h
        exact Piece.takes_plain rfl hpoint (dottedWord?_reads h).1
      · rename_i n h
        exact Piece.takes_plain rfl hpoint (dottedWord?_reads h).1
      · rename_i k n _ _ h
        exact Piece.takes_plain (dottedWord?_reads h).2 hpoint (dottedWord?_reads h).1
      · exact Piece.takes_plain rfl hpoint (inline_zero _)
  · exact Piece.takes_plain rfl hpoint (inline_zero _)

/-- The characters of a Hollerith constant are on its line, also where the count goes beyond it. -/
theorem inline_payload (length : Nat) (cs : List Char) :
    Inline ((cs.take length).takeWhile (· != '\n')).length cs := by
  have htaken : Inline (run (· != '\n') (cs.take length)) (cs.take length) := inline_run rfl _
  have hlen : run (· != '\n') (cs.take length) ≤ length :=
    htaken.1.trans (List.length_take_le _ _)
  refine ⟨htaken.1.trans (List.length_take_le' _ _), ?_⟩
  have hmem := htaken.2
  rw [List.take_take, Nat.min_eq_left hlen] at hmem
  exact hmem

theorem takes_number {c : Char} (hc : c ≠ '\n') (cs : List Char) : (number c cs).Takes c cs := by
  have hdigits : Inline (run isDigit cs) cs := inline_run rfl cs
  have hinteger : ∀ value, (Piece.constant .integerConst (run isDigit cs) value).Takes c cs :=
    fun _ => Piece.takes_plain rfl hc hdigits
  unfold number
  extract_lets n integer
  split
  · rename_i next rest hdrop
    have hrest : cs.drop (n + 1) = rest := head_drop_eq hdrop
    have hnext : ∀ f : Char → Bool, f '\n' = false → f next → Inline (n + 1) cs :=
      fun f hnewline hf =>
        hdigits.append hdrop (by rintro rfl; rw [hnewline] at hf; cases hf) (inline_zero rest)
    split
    · rename_i hletter
      have hcount : Inline (n + 1) cs := hnext (fun d => d == 'H' || d == 'h') rfl hletter
      exact Piece.takes_plain rfl hc (hcount.add (inline_payload _ _))
    · split
      · rename_i hpoint
        split
        · exact hinteger _
        · refine Piece.takes_plain rfl hc ?_
          have hfraction : Inline (run isDigit rest + exponentLength (rest.drop (run isDigit rest)))
              rest := (inline_run rfl rest).add (inline_exponent _)
          rw [← hrest] at hfraction
          have hall := (hnext (· == '.') rfl hpoint).add hfraction
          rwa [← Nat.add_assoc, hrest] at hall
      · split
        · split
          · exact hinteger _
          · rename_i e he
            refine Piece.takes_plain rfl hc (hdigits.add ?_)
            rw [hdrop]
            exact inline_exponent _
        · split
          · rename_i hx
            split
            · exact hinteger _
            · exact Piece.takes_plain rfl hc (hnext (fun d => d == 'X' || d == 'x') rfl hx)
          · exact hinteger _
  · exact hinteger _

theorem takes_pair {c d : Char} {cs : List Char} {k : Kind} (hk : specialKinds.contains k = false)
    (hc : c ≠ '\n') (hd : d ≠ '\n') (h : (cs.head? == some d) = true) :
    (Piece.plain k 1).Takes c cs := by
  obtain ⟨rest, rfl⟩ := List.head?_eq_some_iff.1 (eq_of_beq h)
  exact Piece.takes_plain hk hc (inline_one hd)

theorem piece_takes (lineStart : Bool) (depth : Nat) (c : Char) (cs : List Char) :
    (piece lineStart depth c cs).Takes c cs := by
  unfold piece
  split
  case h_1 | h_2 | h_3 | h_4 => exact Piece.takes_skip (by decide) (.inl (by decide))
  case h_5 => exact takes_newline cs
  case h_6 => exact takes_comment (by decide) cs
  case h_7 | h_8 =>
    split
    · exact takes_comment (by decide) cs
    · exact takes_word depth (by decide) cs
  case h_9 =>
    split
    · exact takes_comment (by decide) cs
    · split
      · rename_i h
        exact takes_pair rfl (by decide) (by decide) h
      · exact Piece.takes_plain rfl (by decide) (inline_zero cs)
  case h_12 | h_17 =>
    split
    · rename_i h
      exact takes_pair rfl (by decide) (by decide) h
    · exact Piece.takes_plain rfl (by decide) (inline_zero cs)
  case h_14 =>
    split
    · rename_i h
      exact takes_pair rfl (by decide) (by decide) h
    · rename_i h
      exact Piece.takes_skip (by decide) (.inr (.inl ⟨rfl, by simpa using h⟩))
  case h_22 => exact takes_charConstant (.inl rfl) cs
  case h_23 => exact takes_charConstant (.inr rfl) cs
  case h_24 => exact takes_dot cs
  case h_25 | h_26 | h_27 | h_28 | h_29 | h_30 => exact takes_radix rfl rfl depth (by decide) cs
  case h_31 | h_32 | h_33 | h_34 | h_35 | h_36 | h_37 | h_38 | h_39 | h_40 =>
    split
    · exact takes_edit depth (by decide) cs
    · exact takes_word depth (by decide) cs
  case h_41 =>
    have hc : c ≠ '\n' := by assumption
    split
    · exact takes_word depth hc cs
    · split
      · exact takes_number hc cs
      · rename_i hletter hdigit
        refine Piece.takes_skip hc (.inr (.inr ⟨by simpa using hletter, by simpa using hdigit, ?_, ?_⟩))
        · simp_all
        · simp_all [marks]
  all_goals exact Piece.takes_plain rfl (by decide) (inline_zero cs)

/-! ## Scans -/

/-- The place behind some characters of a source. -/
structure Place.Behind (p : Place) (pre : List Char) : Prop where
  line : p.line = lineBehind pre
  col : p.col = columnBehind pre

theorem Piece.Takes.parts {c : Char} {cs : List Char} {q : Piece} (hq : q.Takes c cs)
    (pre : List Char) :
    (pre ++ c :: cs.take q.extra) ++ cs.drop q.extra = pre ++ c :: cs ∧
      (pre ++ c :: cs.take q.extra).length = pre.length + (q.extra + 1) := by
  refine ⟨?_, ?_⟩
  · rw [List.append_assoc, List.cons_append, List.take_append_drop]
  · rw [List.length_append, List.length_cons, List.length_take_of_le hq.inside]

theorem Piece.Takes.behind {p : Place} {pre : List Char} {c : Char} {cs : List Char} {q : Piece}
    (hp : p.Behind pre) (hq : q.Takes c cs) : (p.after q).Behind (pre ++ c :: cs.take q.extra) := by
  have hlen : (c :: cs.take q.extra).length = q.extra + 1 := by
    rw [List.length_cons, List.length_take_of_le hq.inside]
  by_cases hk : q.kind = some .newline
  · have hnewline := hq.newline
    rw [if_pos hk] at hnewline
    obtain ⟨rfl, hextra⟩ := hnewline
    refine ⟨?_, ?_⟩
    · simp only [Place.after, hk, hextra, List.take_zero]
      rw [lineBehind_newline, hp.line]
    · simp only [Place.after, hk, hextra, List.take_zero]
      rw [columnBehind_newline]
  · have hinline := hq.newline
    rw [if_neg hk] at hinline
    have hafter : (p.after q).line = p.line ∧ (p.after q).col = p.col + (q.extra + 1) := by
      unfold Place.after
      split
      · contradiction
      · exact ⟨rfl, rfl⟩
      · exact ⟨rfl, rfl⟩
    refine ⟨?_, ?_⟩
    · rw [hafter.1, lineBehind_inline hinline, hp.line]
    · rw [hafter.2, columnBehind_inline hinline, hp.col, hlen]

theorem Piece.Takes.readFrom {p : Place} {pre : List Char} {c : Char} {cs : List Char} {q : Piece}
    {lx : Lexeme} (hp : p.Behind pre) (hq : q.Takes c cs) (hlx : lexeme? p q c cs = some lx)
    (hproper : lx.Proper) :
    lx.ReadFrom (pre ++ c :: cs) ⟨pre.length, pre.length + (q.extra + 1)⟩ := by
  obtain ⟨k, hk, rfl⟩ := Option.map_eq_some_iff.1 hlx
  have htake : (pre ++ c :: cs).take pre.length = pre := List.take_left
  have hchars : (Span.mk pre.length (pre.length + (q.extra + 1))).chars (pre ++ c :: cs) =
      c :: cs.take q.extra := by
    rw [Span.chars, List.drop_left, Nat.add_sub_cancel_left, List.take_succ_cons]
  have hnext : (pre ++ c :: cs)[pre.length + (q.extra + 1)]? = cs[q.extra]? := by
    rw [List.getElem?_append_right (Nat.le_add_right _ _), Nat.add_sub_cancel_left]
    rfl
  have hinside : q.extra ≤ cs.length := hq.inside
  have hnewline := hq.newline
  refine ⟨hproper.not_end, by simp, by simp; omega, ?_, ?_, ?_, ?_, ?_, ?_⟩
  · simpa only [htake] using hp.line
  · simpa only [htake] using hp.col
  · intro hconst hcomment
    have htext := hq.text (by simpa [hk] using hconst) (by simpa [hk] using hcomment)
    rw [hchars]
    simp [htext]
  · rintro (rfl : k = _)
    rw [hchars]
    simp [hq.comment hk]
  · rintro (rfl : k = _)
    obtain ⟨value, hvalue, htext, hquotes⟩ := hq.constant hk
    refine ⟨value, hvalue, by simp [htext], ?_⟩
    rw [hchars, hnext]
    exact hquotes
  · rw [hk] at hnewline
    rw [hchars]
    simp only [Option.some.injEq] at hnewline
    split
    · rename_i h
      rw [if_pos h] at hnewline
      simp [hnewline.1, hnewline.2]
    · rename_i h
      rwa [if_neg h] at hnewline

/-- A piece before the part of a source that is covered. -/
theorem Piece.Takes.covers {pre : List Char} {c : Char} {cs : List Char} {q : Piece}
    (hq : q.Takes c cs) {own spans : List Span} {lexemes new : List Lexeme}
    (hown : List.Forall₂ (Lexeme.ReadFrom (pre ++ c :: cs)) own new)
    (hspan : own = if q.kind = none then [] else [⟨pre.length, pre.length + (q.extra + 1)⟩])
    (h : Covers (pre ++ c :: cs) (pre.length + (q.extra + 1)) spans lexemes) :
    Covers (pre ++ c :: cs) pre.length (own ++ spans) (new ++ lexemes) := by
  have hstops : ∀ a ∈ own, a.start = pre.length ∧ a.stop = pre.length + (q.extra + 1) := by
    intro a ha
    rw [hspan] at ha
    split at ha
    · cases ha
    · obtain rfl := List.mem_singleton.1 ha
      exact ⟨rfl, rfl⟩
  refine ⟨List.rel_append hown h.read, ?_, ?_, ?_⟩
  · refine List.pairwise_append.2 ⟨?_, h.ordered, fun a ha b hb => ?_⟩
    · rw [hspan]
      split <;> simp
    · rw [(hstops a ha).2]
      exact h.behind b hb
  · intro a ha
    rcases List.mem_append.1 ha with ha | ha
    · exact (hstops a ha).1.ge
    · have := h.behind a ha
      omega
  · intro i d hi hd
    by_cases hlater : pre.length + (q.extra + 1) ≤ i
    · rcases h.passed i d hlater hd with ⟨a, ha, hholds⟩ | hpassed
      · exact .inl ⟨a, List.mem_append_right _ ha, hholds⟩
      · exact .inr hpassed
    · by_cases hskip : q.kind = none
      · -- A piece that makes no lexeme is one character.
        obtain ⟨hextra, hpassed⟩ := hq.passed hskip
        have hi' : i = pre.length := by omega
        subst hi'
        have hget : (pre ++ c :: cs)[pre.length]? = some c := by simp
        have hnext : (pre ++ c :: cs)[pre.length + 1]? = cs.head? := by
          rw [List.getElem?_append_right (Nat.le_add_right _ _), Nat.add_sub_cancel_left,
            List.head?_eq_getElem?]
          rfl
        rw [hget] at hd
        obtain rfl := Option.some.inj hd
        rw [hnext]
        exact .inr hpassed
      · refine .inl ⟨⟨pre.length, pre.length + (q.extra + 1)⟩, List.mem_append_left _ ?_, hi, ?_⟩
        · rw [hspan, if_neg hskip]
          exact List.mem_singleton_self _
        · exact Nat.lt_of_not_le hlater

theorem lexemesFrom_covers (p : Place) (cs : List Char) : ∀ pre : List Char, p.Behind pre →
    ∃ spans lexemes, lexemesFrom p cs =
        lexemes ++ [Lexeme.endOfSource (lineBehind (pre ++ cs)) (columnBehind (pre ++ cs))] ∧
      Covers (pre ++ cs) pre.length spans lexemes := by
  fun_induction lexemesFrom p cs with
  | case1 p =>
    intro pre hp
    refine ⟨[], [], ?_, ?_⟩
    · rw [List.append_nil, hp.line, hp.col]
      rfl
    · refine ⟨.nil, .nil, by simp, fun i c hi hc => ?_⟩
      have hlt := (List.getElem?_eq_some_iff.1 hc).1
      rw [List.append_nil] at hlt
      omega
  | case2 p c cs q rest lx hlx ih =>
    intro pre hp
    have hq : q.Takes c cs := piece_takes _ _ c cs
    have hproper : lx.Proper := piece_proper _ _ c cs p lx hlx
    obtain ⟨hsource, hlen⟩ := hq.parts pre
    obtain ⟨spans, lexemes, heq, hcovers⟩ := ih _ (hq.behind hp)
    rw [hsource] at heq hcovers
    rw [hlen] at hcovers
    have hread := hq.readFrom hp hlx hproper
    have hkind : q.kind ≠ none := by
      intro hnone
      simp [lexeme?, hnone] at hlx
    have hall := hq.covers (.cons hread .nil) (if_neg hkind).symm hcovers
    exact ⟨_, lx :: lexemes, by rw [List.cons_append, ← heq], hall⟩
  | case3 p c cs q rest hlx ih =>
    intro pre hp
    have hq : q.Takes c cs := piece_takes _ _ c cs
    obtain ⟨hsource, hlen⟩ := hq.parts pre
    obtain ⟨spans, lexemes, heq, hcovers⟩ := ih _ (hq.behind hp)
    rw [hsource] at heq hcovers
    rw [hlen] at hcovers
    have hkind : q.kind = none := Option.map_eq_none_iff.1 hlx
    exact ⟨_, lexemes, heq, hq.covers .nil (if_pos hkind).symm hcovers⟩

end Scan

/-- A scan loses nothing and knows where it is: the lexemes before the end of the source are read
from spans that follow one another, the characters outside them start no token, and the end of the
source stands behind the last character. -/
theorem scan_covers (source : String) :
    ∃ spans lexemes, scan source = lexemes ++
        [.endOfSource (lineBehind source.toList) (columnBehind source.toList)] ∧
      Covers source.toList 0 spans lexemes := by
  have hstart : Scan.Place.start.Behind [] := ⟨rfl, rfl⟩
  exact Scan.lexemesFrom_covers .start source.toList [] hstart

end FortranJulia
