import FortranJulia.Proofs.Scanning.Spelling
import FortranJulia.Tree.Text

/-!
Tokens that are read again. The source of a tree writes its tokens one behind the other and leaves out most
blanks between them. A token of an expression is read again at its place if what stands behind it, after a
blank or without one, does not carry it on, so that a scan of such a source finds the same tokens.
-/

namespace FortranJulia

set_option autoImplicit false

open Decimal (isDigit)

/-- The lexeme without its place. -/
def Lexeme.unplaced (lx : Lexeme) : Lexeme :=
  { lx with line := 0, col := 0 }

/-- May a token of one kind stand right in front of one of another kind in an expression? A name such as `I5`
and a number that starts with its point would be a descriptor, and two stars or colons one token. -/
def Kind.meets (a b : Kind) : Bool :=
  !(a == .name && b == .realConst) && !(a == .star && (b == .star || b == .starStar)) &&
    !(a == .colon && b == .colon)

/-! ## What is written -/

/-- What is written between tokens of two kinds. -/
def Kind.gap (before next : Kind) : List Char :=
  if Kind.spaced before next then [' '] else []

/-- What is written behind a token of a kind. -/
def spelledBehind : Kind → List Lexeme → List Char
  | _, [] => []
  | k, lx :: w => k.gap lx.kind ++ (lx.text.toList ++ spelledBehind lx.kind w)

theorem spelled_cons {a : Lexeme} {w : List Lexeme}
    (h : ∀ lx ∈ a :: w, lx.text ≠ "" ∧ lx.kind.endsStatement = false) :
    (sourceOf (a :: w)).toList = a.text.toList ++ spelledBehind a.kind w := by
  unfold sourceOf spelled
  extract_lets step
  -- Behind what has been written the others are written one by one.
  have hbehind : ∀ (w : List Lexeme) (written : String) (k : Kind), written ≠ "" →
      (∀ lx ∈ w, lx.text ≠ "" ∧ lx.kind.endsStatement = false) →
      ((w.map fun lx => (lx.kind, lx.text)).foldl step (written, some k)).1.toList =
        written.toList ++ spelledBehind k w := by
    intro w
    induction w with
    | nil => simp [spelledBehind]
    | cons b w ih =>
      intro written k hwritten hw
      obtain ⟨htext, hends⟩ := hw b List.mem_cons_self
      have hstep : step (written, some k) (b.kind, b.text) =
          (written ++ String.ofList (k.gap b.kind) ++ b.text, some b.kind) := by
        simp only [step, hends, Kind.gap, Bool.false_eq_true, if_false, bne_iff_ne, ne_eq, hwritten,
          not_false_eq_true, Bool.and_eq_true, true_and]
        split <;> rfl
      have hnonempty : written ++ String.ofList (k.gap b.kind) ++ b.text ≠ "" := by
        simp [String.append_eq_empty_iff, htext]
      rw [List.map_cons, List.foldl_cons, hstep,
        ih _ _ hnonempty fun lx hlx => hw lx (List.mem_cons_of_mem b hlx)]
      simp [spelledBehind]
  obtain ⟨htext, hends⟩ := h a List.mem_cons_self
  have hstep : step ("", none) (a.kind, a.text) = (a.text, some a.kind) := by
    simp [step, hends]
  rw [List.map_cons, List.foldl_cons, hstep,
    hbehind w a.text a.kind htext fun lx hlx => h lx (List.mem_cons_of_mem a hlx)]

/-! ## Tokens -/

/-- The characters of a constant that are not written as they are in a Julia string. -/
def escapedChars : List Char :=
  ['"', '\\', '$', '\t']

/-- A token of an expression is written as its kind is, or it is a character constant in which no character
is escaped. -/
inductive Lexeme.Spelt (atEnd : Prop) (lx : Lexeme) : Prop where
  | token (h : Scan.Spelt atEnd ⟨lx.text.toList, lx.kind, lx.value⟩)
  | constant {value : List Char} (kind : lx.kind = .charConst)
    (reads : lx.value = some (.text (String.ofList value)))
    (text : lx.text = Text.juliaString (String.ofList value)) (inline : '\n' ∉ value)
    (plain : ∀ c ∈ value, c ∉ escapedChars)

theorem Lexeme.Spelt.mono {P Q : Prop} {lx : Lexeme} (h : lx.Spelt P) (hPQ : P → Q) : lx.Spelt Q := by
  cases h with
  | token h => exact .token (h.mono hPQ)
  | constant kind reads text inline plain => exact .constant kind reads text inline plain

namespace Scan

theorem exprMarks_head {k : Kind} {d : Char} {ds : List Char} (h : (k, d :: ds) ∈ exprMarks) :
    d ∈ ['(', ')', ',', ':', '+', '-', '*', '/'] := by
  simp only [exprMarks, List.mem_cons, Prod.mk.injEq, List.cons.injEq, List.not_mem_nil, or_false] at h
  rcases h with ⟨-, rfl, -⟩ | ⟨-, rfl, -⟩ | ⟨-, rfl, -⟩ | ⟨-, rfl, -⟩ | ⟨-, rfl, -⟩ | ⟨-, rfl, -⟩ |
    ⟨-, rfl, -⟩ | ⟨-, rfl, -⟩ | ⟨-, rfl, -⟩ <;> decide

/-- How a token starts: a word, a number or a text in front of which a blank can be needed, or a mark. -/
inductive Starts (k : Kind) : List Char → Prop where
  | word {d : Char} {ds : List Char} (kind : k.isWordLike ∨ k.isDotted)
    (head : isWordChar d ∨ d = '.' ∨ d = '"') : Starts k (d :: ds)
  | mark {d : Char} {ds : List Char} (h : (k, d :: ds) ∈ exprMarks) : Starts k (d :: ds)

theorem wordKind_isWordLike (cs : List Char) : (wordKind cs).isWordLike := by
  unfold wordKind
  split
  · decide
  · unfold Kind.ofWord
    split
    · simp [Kind.isWordLike, Kind.isKeyword]
    · decide

theorem ofDotted?_isDotted {w : String} {k : Kind} (h : Kind.ofDotted? w = some k) : k.isDotted := by
  unfold Kind.ofDotted? at h
  split at h <;> cases h <;> decide

theorem isWordChar_digit {c : Char} (h : isDigit c) : isWordChar c := by
  simp [isWordChar, h]

theorem IsReal.starts {cs : List Char} (h : IsReal cs) : Starts .realConst cs := by
  have hkind : Kind.realConst.isWordLike ∨ Kind.realConst.isDotted := .inl (by decide)
  cases h with
  | @point ds fs es hwhole =>
    cases ds with
    | nil => exact .word hkind (.inr (.inl rfl))
    | cons d ds => exact .word hkind (.inl (isWordChar_digit (hwhole d List.mem_cons_self)))
  | @exponent ds es hwhole hne =>
    obtain ⟨d, ds, rfl⟩ := List.exists_cons_of_ne_nil hne
    exact .word hkind (.inl (isWordChar_digit (hwhole d List.mem_cons_self)))

theorem Spelt.starts {P : Prop} {t : Written} (h : Spelt P t) : Starts t.kind t.chars := by
  cases h with
  | operand h =>
    cases h with
    | name h =>
      obtain ⟨c, cs, rfl, hc, -⟩ := h
      exact .word (.inl (wordKind_isWordLike _)) (.inl (by simp [isWordChar, hc.1]))
    | digits hne h =>
      obtain ⟨d, ds, rfl⟩ := List.exists_cons_of_ne_nil hne
      exact .word (.inl rfl) (.inl (isWordChar_digit (h d List.mem_cons_self)))
    | real h => exact h.starts
    | truth letters h => exact .word (.inr (ofDotted?_isDotted h)) (.inr (.inl rfl))
  | dotted letters h => exact .word (.inr (ofDotted?_isDotted h)) (.inr (.inl rfl))
  | @mark k cs h =>
    cases cs with
    | nil => exact absurd h (by simp [exprMarks])
    | cons d ds => exact .mark h
  | radix h =>
    cases h with
    | binary hc | octal hc | hex hc => rcases hc with rfl | rfl <;> exact .word (.inl rfl) (.inl rfl)
  | hollerith hne digits =>
    obtain ⟨d, ds, rfl⟩ := List.exists_cons_of_ne_nil hne
    exact .word (.inl rfl) (.inl (isWordChar_digit (digits d List.mem_cons_self)))

theorem spelt_starts {P : Prop} {lx : Lexeme} (h : lx.Spelt P) : Starts lx.kind lx.text.toList := by
  cases h with
  | token h => exact h.starts
  | constant kind reads text =>
    rw [kind, text, Text.juliaString, String.toList_ofList]
    exact .word (.inl (by decide)) (.inr (.inr rfl))

/-! ## What stands behind a token -/

theorem spaced_word {k next : Kind} (hk : k.isWordLike) (hnext : next.isWordLike ∨ next.isDotted) :
    Kind.spaced k next := by
  have hnot : ∀ other : Kind, other.isWordLike = false → (k != other) := by
    intro other hother
    rw [bne_iff_ne]
    rintro rfl
    rw [hk] at hother
    cases hother
  unfold Kind.spaced
  rcases hnext with hnext | hnext
  · simp [hk, hnext]
  · have hparen : next != .rparen := by
      rw [bne_iff_ne]
      rintro rfl
      cases hnext
    simp [hnext, hnot .notOp rfl, hnot .lparen rfl, hparen]

theorem starts_head {k : Kind} {d : Char} {ds : List Char} (h : Starts k (d :: ds)) :
    d ∉ [' ', '\t', '=', '|', '\n'] := by
  cases h with
  | word kind head =>
    rcases head with head | rfl | rfl
    · intro hmem
      simp only [List.mem_cons, List.not_mem_nil, or_false] at hmem
      rcases hmem with rfl | rfl | rfl | rfl | rfl <;> cases head
    · decide
    · decide
  | mark h =>
    have hmark := exprMarks_head h
    simp only [List.mem_cons, List.not_mem_nil, or_false] at hmark
    rcases hmark with rfl | rfl | rfl | rfl | rfl | rfl | rfl | rfl <;> decide

section Behind

variable {k : Kind} {b : Lexeme} {w : List Lexeme}

/-- The words, numbers and texts of an expression are stopped by what is written behind them. -/
theorem spelledBehind_stops (hk : k.isWordLike) (hw : ∀ b ∈ w.head?, Starts b.kind b.text.toList)
    (depth : Nat) : Stops depth (spelledBehind k w) := by
  cases w with
  | nil => exact LineEnds.stops (.inl rfl) depth
  | cons b w =>
    have hb := hw b rfl
    rw [spelledBehind]
    generalize b.text.toList = text at hb
    obtain ⟨d, ds, rfl⟩ : ∃ d ds, text = d :: ds := by cases hb <;> exact ⟨_, _, rfl⟩
    have hdrop : (d :: ds ++ spelledBehind b.kind w).dropWhile (fun c => c == ' ' || c == '\t') =
        d :: ds ++ spelledBehind b.kind w := by
      have hhead := starts_head hb
      simp only [List.mem_cons, not_or] at hhead
      rw [List.cons_append, List.dropWhile_cons_of_neg (by simp [hhead.1, hhead.2.1])]
    have hequal : '=' ≠ d := by
      have hhead := starts_head hb
      simp only [List.mem_cons, not_or] at hhead
      exact Ne.symm hhead.2.2.1
    unfold Kind.gap
    split
    · refine ⟨?_, by simp, fun _ after hafter => ?_⟩
      · rintro c ⟨⟩
        decide
      · rw [List.singleton_append, List.dropWhile_cons_of_pos (by decide), hdrop] at hafter
        exact absurd (List.cons.inj hafter).1.symm hequal
    · rename_i hspaced
      -- Without a blank there is a mark.
      cases hb with
      | word kind => exact absurd (spaced_word hk kind) hspaced
      | mark h =>
        have hmark := exprMarks_head h
        refine ⟨?_, ?_, fun _ after hafter => ?_⟩
        · rintro c ⟨⟩
          simp only [List.mem_cons, List.not_mem_nil, or_false] at hmark
          rcases hmark with rfl | rfl | rfl | rfl | rfl | rfl | rfl | rfl <;> decide
        · rintro tail htail
          obtain ⟨rfl, -⟩ := List.cons.inj htail
          exact absurd hmark (by decide)
        · rw [List.nil_append, hdrop] at hafter
          exact absurd (List.cons.inj hafter).1.symm hequal

/-- The marks that are longer with certain characters behind them do not have these behind them. -/
def Apart (k : Kind) (rest : List Char) : Prop :=
  ∀ d ∈ rest.head?, d ≠ '|' ∧ (k = .star → d ≠ '*') ∧ (k = .colon → d ≠ ':')

theorem spelledBehind_apart (hw : ∀ b ∈ w.head?, Starts b.kind b.text.toList)
    (hmeets : ∀ b ∈ w.head?, k.meets b.kind) : Apart k (spelledBehind k w) := by
  intro c hc
  cases w with
  | nil => cases hc
  | cons b w =>
    have hb := hw b rfl
    have hkb := hmeets b rfl
    rw [spelledBehind] at hc
    generalize b.text.toList = text at hb hc
    unfold Kind.gap at hc
    split at hc
    · cases hc
      exact ⟨by decide, fun _ => by decide, fun _ => by decide⟩
    · obtain ⟨d, ds, rfl⟩ : ∃ d ds, text = d :: ds := by cases hb <;> exact ⟨_, _, rfl⟩
      obtain rfl : d = c := Option.some.inj hc
      have hhead := starts_head hb
      simp only [List.mem_cons, not_or] at hhead
      refine ⟨hhead.2.2.2.1, ?_, ?_⟩
      all_goals
        rintro rfl rfl
        cases hb with
        | word kind head => revert head; decide
        | mark h =>
          simp only [exprMarks] at h
          simp_all [Kind.meets]

end Behind

/-! ## Reading -/

section Reading

variable {depth : Nat} {c q : Char} {k : Kind} {valid : Char → Bool} {ds close payload rest : List Char}

theorem piece_mark {cs : List Char} (h : (k, cs) ∈ exprMarks) (hrest : Apart k rest) :
    ∃ c more, cs = c :: more ∧ piece false depth c (more ++ rest) = .plain k more.length := by
  have hhead : ∀ d : Char, (∀ c ∈ rest.head?, c ≠ d) → (rest.head? == some d) = false := by
    intro d hd
    cases hr : rest.head? with
    | none => rfl
    | some c => simpa using hd c hr
  simp only [exprMarks, List.mem_cons, Prod.mk.injEq, List.not_mem_nil, or_false] at h
  rcases h with ⟨rfl, rfl⟩ | ⟨rfl, rfl⟩ | ⟨rfl, rfl⟩ | ⟨rfl, rfl⟩ | ⟨rfl, rfl⟩ | ⟨rfl, rfl⟩ | ⟨rfl, rfl⟩ |
    ⟨rfl, rfl⟩ | ⟨rfl, rfl⟩
  case inl =>
    have hbar := hhead '|' fun c hc => (hrest c hc).1
    exact ⟨_, _, rfl, by simp [piece, hbar]⟩
  case inr.inr.inr.inl =>
    have hcolon := hhead ':' fun c hc => (hrest c hc).2.2 rfl
    exact ⟨_, _, rfl, by simp [piece, hcolon]⟩
  case inr.inr.inr.inr.inr.inr.inl =>
    have hstar := hhead '*' fun c hc => (hrest c hc).2.1 rfl
    exact ⟨_, _, rfl, by simp [piece, hstar]⟩
  all_goals exact ⟨_, _, rfl, rfl⟩

theorem Radix.word (h : Radix c k valid) {d : Char} (hd : valid d) : isWordChar d := by
  have hseven : ∀ {a : Char}, a ≤ '7' → a ≤ '9' := fun h => Char.le_trans h (by decide)
  cases h with
  | binary =>
    simp only [isBinaryDigit, Bool.or_eq_true, beq_iff_eq] at hd
    rcases hd with rfl | rfl <;> rfl
  | octal =>
    simp only [isOctalDigit, Bool.and_eq_true, decide_eq_true_eq] at hd
    exact isWordChar_digit (by simp [isDigit, hd.1, hseven hd.2])
  | hex =>
    have hz : ∀ {a : Char}, a ≤ 'f' → a ≤ 'z' := fun h => Char.le_trans h (by decide)
    have hZ : ∀ {a : Char}, a ≤ 'F' → a ≤ 'Z' := fun h => Char.le_trans h (by decide)
    simp only [isHexDigit, Bool.or_eq_true, Bool.and_eq_true, decide_eq_true_eq] at hd
    rcases hd with (hd | hd) | hd
    · exact isWordChar_digit hd
    · simp [isWordChar, isLetter, hd.1, hz hd.2]
    · simp [isWordChar, isLetter, hd.1, hZ hd.2]

theorem piece_radix (h : Radix c k valid) (quote : q = '\'' ∨ q = '"') (digits : ∀ d ∈ ds, valid d)
    (closed : close = [] ∨ close = [q]) (hstop : Stops depth rest) :
    piece false depth c (q :: (ds ++ close) ++ rest) = .plain k (q :: (ds ++ close)).length := by
  have hradix : piece false depth c (q :: (ds ++ (close ++ rest))) =
      radix k valid depth c (q :: (ds ++ (close ++ rest))) := by
    cases h with
    | binary hc | octal hc | hex hc => rcases hc with rfl | rfl <;> rfl
  have hquote : (q == '\'' || q == '"') = true := by simpa using quote
  have hbehind : ∀ d ∈ (close ++ rest).head?, valid d = false := by
    intro d hd
    have hword : isWordChar d = false := by
      rcases closed with rfl | rfl
      · exact hstop.no_word d hd
      · obtain rfl : q = d := Option.some.inj hd
        rcases quote with rfl | rfl <;> decide
    by_contra hvalid
    rw [h.word (by simpa using hvalid)] at hword
    cases hword
  rw [List.cons_append, List.append_assoc, hradix]
  simp only [radix, hquote, if_true, run_exact digits hbehind, List.drop_left]
  rcases closed with rfl | rfl
  · have hopen : (rest.head? == some q) = false := by
      cases hr : rest.head? with
      | none => rfl
      | some d =>
        have hd := (hstop.head d hr).2
        rcases quote with rfl | rfl <;> simp [hd]
    simp [hopen]
  · simp

theorem piece_hollerith {h : Char} (nonempty : ds ≠ []) (digits : IsDigits ds)
    (letter : h = 'H' ∨ h = 'h') (inline : '\n' ∉ payload)
    (full : payload.length = hollerithCount ds ∨ payload.length ≤ hollerithCount ds ∧ rest = []) :
    ∃ c more, ds ++ h :: payload = c :: more ∧ piece false depth c (more ++ rest) =
      .constant .hollerithConst more.length (some (.text (String.ofList payload))) := by
  obtain ⟨d, ds, rfl⟩ := List.exists_cons_of_ne_nil nonempty
  refine ⟨d, ds ++ h :: payload, rfl, ?_⟩
  have hletter : (h == 'H' || h == 'h') = true := by simpa using letter
  have hrun : run isDigit (ds ++ h :: (payload ++ rest)) = ds.length :=
    run_exact (fun c hc => digits c (List.mem_cons_of_mem d hc)) fun c hc => by
      obtain rfl : h = c := Option.some.inj hc
      rcases letter with rfl | rfl <;> rfl
  -- The text is all that the count asks for, or all that is left.
  have htake : (payload ++ rest).take (hollerithCount (d :: ds)) = payload := by
    rcases full with hfull | ⟨hshort, rfl⟩
    · rw [← hfull, List.take_left]
    · rw [List.append_nil, List.take_of_length_le hshort]
  have hinline : payload.takeWhile (· != '\n') = payload :=
    List.takeWhile_eq_self_iff.2 fun c hc => by
      rw [bne_iff_ne]
      rintro rfl
      exact inline hc
  rw [piece_digit (digits d List.mem_cons_self), List.append_assoc, List.cons_append]
  simp only [number, hrun, List.drop_left, List.take_left, hletter, if_true, hollerith_eq]
  have hdrop : (ds ++ h :: (payload ++ rest)).drop (ds.length + 1) = payload ++ rest := by
    rw [← List.drop_drop, List.drop_left, List.drop_one, List.tail_cons]
  rw [hdrop, htake, hinline, List.length_append, List.length_cons, Nat.add_assoc, Nat.add_comm 1]

/-- A token is read again at its characters, if what stands behind it stops it. -/
theorem Spelt.piece {t : Written} (h : Spelt (rest = []) t) (hstop : t.kind.isWordLike → Stops depth rest)
    (hapart : Apart t.kind rest) : ∃ c cs, t.chars = c :: cs ∧
      Scan.piece false depth c (cs ++ rest) = ⟨cs.length, some t.kind, t.value, none⟩ := by
  cases h with
  | operand h =>
    cases h with
    | name h => exact ((Operand.name h).read (hstop (wordKind_isWordLike _))).piece
    | digits hne h => exact ((Operand.digits hne h).read (hstop rfl)).piece
    | real h => exact (h.read (hstop rfl)).piece
    | @truth word b letters h =>
      have hread : Written.Read _ depth rest := read_dotted letters h
      cases b <;> exact hread.piece
  | dotted letters h => exact (read_dotted letters h).piece
  | mark h => exact piece_mark h hapart
  | @radix c q k valid ds close h quote digits closed =>
    have hword : k.isWordLike := by cases h <;> rfl
    exact ⟨c, _, rfl, piece_radix h quote digits closed (hstop hword)⟩
  | hollerith nonempty digits letter inline full => exact piece_hollerith nonempty digits letter inline full

end Reading

/-- The characters of the Julia string of a text in which nothing is escaped. -/
theorem juliaString_plain {value : List Char} (inline : '\n' ∉ value)
    (plain : ∀ c ∈ value, c ∉ escapedChars) :
    (Text.juliaString (String.ofList value)).toList = '"' :: (doubled '"' value ++ ['"']) := by
  have hchars : value.flatMap Text.juliaChar = doubled '"' value := by
    refine List.flatMap_congr fun c hc => ?_
    have hplain := plain c hc
    simp only [escapedChars, List.mem_cons, List.not_mem_nil, or_false, not_or] at hplain
    have hline : c ≠ '\n' := by
      rintro rfl
      exact inline hc
    simp [Text.juliaChar, hplain, hline]
  rw [Text.juliaString, String.toList_ofList, String.toList_ofList, hchars, List.cons_append]

theorem spelt_reads {lx : Lexeme} {depth : Nat} {rest : List Char} (h : lx.Spelt (rest = []))
    (hstop : lx.kind.isWordLike → Stops depth rest) (hapart : Apart lx.kind rest) :
    ∃ c cs text, lx.text.toList = c :: cs ∧ text.getD lx.text = lx.text ∧
      piece false depth c (cs ++ rest) = ⟨cs.length, some lx.kind, lx.value, text⟩ := by
  cases h with
  | token h =>
    obtain ⟨c, cs, hchars, hpiece⟩ := h.piece hstop hapart
    exact ⟨c, cs, none, hchars, rfl, hpiece⟩
  | @constant value kind reads text inline plain =>
    have hclose : rest.head? ≠ some '"' := fun hhead => ((hstop (by rw [kind]; rfl)).head '"' hhead).2.2 rfl
    have hpiece := piece_doubled (.inr rfl) inline hclose false depth
    refine ⟨'"', doubled '"' value ++ ['"'], some lx.text, ?_, rfl, ?_⟩
    · rw [text]
      exact juliaString_plain inline plain
    · rw [List.append_assoc, List.singleton_append, hpiece, kind, reads, text, List.length_append]
      rfl

/-! ## Scans -/

/-- Tokens of an expression that stand one behind the other. -/
inductive Readable : List Lexeme → Prop where
  | nil : Readable []
  | cons {a : Lexeme} {w : List Lexeme} (spelt : a.Spelt (w = []))
    (meets : ∀ b ∈ w.head?, a.kind.meets b.kind) (rest : Readable w) : Readable (a :: w)

theorem Readable.starts {w : List Lexeme} (h : Readable w) :
    ∀ b ∈ w.head?, Starts b.kind b.text.toList := by
  rintro b hb
  cases h with
  | nil => cases hb
  | cons spelt =>
    cases hb
    exact spelt_starts spelt

theorem starts_inside {k : Kind} {cs : List Char} (h : Starts k cs) : k.endsStatement = false := by
  rw [Bool.eq_false_iff]
  intro hends
  simp only [Kind.endsStatement, Bool.or_eq_true, beq_iff_eq] at hends
  rcases hends with (rfl | rfl) | rfl <;> cases h with
  | word kind => revert kind; decide
  | mark h => simp [exprMarks] at h

theorem Readable.texts {w : List Lexeme} (h : Readable w) :
    ∀ lx ∈ w, lx.text ≠ "" ∧ lx.kind.endsStatement = false := by
  induction h with
  | nil => simp
  | cons spelt _ _ ih =>
    intro lx hlx
    rcases List.mem_cons.1 hlx with rfl | hlx
    · have hstarts := spelt_starts spelt
      refine ⟨fun hempty => ?_, starts_inside hstarts⟩
      rw [hempty] at hstarts
      cases hstarts
    · exact ih lx hlx

section Scans

variable {p : Place} {a : Lexeme} {w : List Lexeme}

theorem lexemesFrom_blank (p : Place) (cs : List Char) :
    lexemesFrom p (' ' :: cs) = lexemesFrom ⟨p.line, p.col + 1, p.depth⟩ cs := by
  rw [lexemesFrom]
  rfl

/-- A token and what is written behind it. -/
theorem lexemesFrom_token (h : Readable (a :: w)) (hcol : 1 < p.col) : ∃ b p', 1 < p'.col ∧
    b.unplaced = a.unplaced ∧
    lexemesFrom p (a.text.toList ++ spelledBehind a.kind w) =
      b :: lexemesFrom p' (spelledBehind a.kind w) := by
  obtain - | ⟨hspelt, hmeets, hw⟩ := h
  have hrest : w = [] → spelledBehind a.kind w = [] := by
    rintro rfl
    rfl
  obtain ⟨c, cs, text, hchars, htext, hpiece⟩ := spelt_reads (hspelt.mono hrest)
    (fun hword => spelledBehind_stops hword hw.starts p.depth) (spelledBehind_apart hw.starts hmeets)
  have hline : (p.col == 1) = false := by simp; omega
  have hinside : a.text = String.ofList (c :: cs) := by rw [← hchars, String.ofList_toList]
  rw [hchars, List.cons_append, lexemesFrom, hline, hpiece]
  simp only [lexeme?, Option.map_some, List.take_left, List.drop_left, ← hinside, htext]
  refine ⟨⟨a.kind, a.text, a.value, p.line, p.col⟩, _, ?_, rfl, rfl⟩
  have hkind : a.kind ≠ .newline := by
    intro hnewline
    have hinside := starts_inside (spelt_starts hspelt)
    rw [hnewline] at hinside
    cases hinside
  simp only [Place.after]
  exact Nat.lt_succ_of_lt (Nat.lt_add_right _ hcol)

theorem lexemesFrom_spelled (h : Readable (a :: w)) (hcol : 1 < p.col) : ∃ read line col,
    lexemesFrom p (a.text.toList ++ spelledBehind a.kind w) = read ++ [.endOfSource line col] ∧
      read.map Lexeme.unplaced = (a :: w).map Lexeme.unplaced := by
  induction w generalizing a p with
  | nil =>
    obtain ⟨b, p', -, hb, hscan⟩ := lexemesFrom_token h hcol
    rw [hscan, spelledBehind, lexemesFrom]
    exact ⟨[b], p'.line, p'.col, rfl, by simp [hb]⟩
  | cons next w ih =>
    obtain ⟨b, p', hcol', hb, hscan⟩ := lexemesFrom_token h hcol
    obtain - | ⟨-, -, hw⟩ := h
    -- Behind the blank, if there is one, the next token is read.
    have hnext : ∃ p'', 1 < p''.col ∧ lexemesFrom p' (spelledBehind a.kind (next :: w)) =
        lexemesFrom p'' (next.text.toList ++ spelledBehind next.kind w) := by
      rw [spelledBehind, Kind.gap]
      split
      · exact ⟨_, Nat.lt_succ_of_lt hcol', lexemesFrom_blank p' _⟩
      · exact ⟨p', hcol', rfl⟩
    obtain ⟨p'', hcol'', hscan'⟩ := hnext
    obtain ⟨read, line, col, hread, hsame⟩ := ih hw hcol''
    refine ⟨b :: read, line, col, ?_, ?_⟩
    · rw [hscan, hscan', hread, List.cons_append]
    · rw [List.map_cons, hb, hsame, ← List.map_cons]

end Scans

end Scan

/-- A blank and the source of tokens that can stand one behind the other are scanned as these. -/
theorem scan_sourceOf {w : List Lexeme} (h : Scan.Readable w) (hne : w ≠ []) : ∃ read line col,
    scan (" " ++ sourceOf w) = read ++ [.endOfSource line col] ∧
      read.map Lexeme.unplaced = w.map Lexeme.unplaced := by
  obtain ⟨a, w, rfl⟩ := List.exists_cons_of_ne_nil hne
  have hstart : scan (" " ++ sourceOf (a :: w)) = Scan.lexemesFrom ⟨1, 2, 0⟩ (sourceOf (a :: w)).toList := by
    rw [scan, String.toList_append]
    exact Scan.lexemesFrom_blank _ _
  rw [hstart, spelled_cons h.texts]
  exact Scan.lexemesFrom_spelled h (by decide)

end FortranJulia
