import FortranJulia.Proofs.Scanning.Operands
import FortranJulia.Proofs.Scanning.Specifiers

/-!
How the tokens of expressions are written. Every kind has its characters: a mark, a word between dots, digits
with a point or an exponent, a count with the text behind it, digits of another radix between quotes, a name.
A token that a scan has found is written as its kind is, so that the same characters give the same token
again wherever the next character does not carry it on.
-/

namespace FortranJulia

set_option autoImplicit false

open Decimal (isDigit)

namespace Scan

/-! ## Spellings -/

/-- The punctuation of expressions. -/
def exprMarks : List (Kind × List Char) :=
  [(.lparen, ['(']), (.rparen, [')']), (.comma, [',']), (.colon, [':']), (.plus, ['+']), (.minus, ['-']),
   (.star, ['*']), (.starStar, ['*', '*']), (.slash, ['/'])]

/-- A letter stands for a kind of constants with digits of another radix. -/
inductive Radix : Char → Kind → (Char → Bool) → Prop where
  | binary {c : Char} (h : c = 'B' ∨ c = 'b') : Radix c .binaryConst isBinaryDigit
  | octal {c : Char} (h : c = 'O' ∨ c = 'o') : Radix c .octalConst isOctalDigit
  | hex {c : Char} (h : c = 'Z' ∨ c = 'z') : Radix c .hexConst isHexDigit

/-- The number of characters that a Hollerith constant asks for. -/
def hollerithCount (ds : List Char) : Nat :=
  if Decimal.ofDigits ds ≤ Decimal.maxInt then Decimal.ofDigits ds else 0

/-- The tokens of expressions as they are written, except character constants. Nothing more stands in the
line behind a Hollerith constant that has fewer characters than it asks for. -/
inductive Spelt (atEnd : Prop) : Written → Prop where
  | operand {t : Written} (h : Operand t) : Spelt atEnd t
  | dotted {word : List Char} {k : Kind} (letters : ∀ c ∈ word, isLetter c)
    (h : Kind.ofDotted? (String.ofList word) = some k) : Spelt atEnd ⟨dotted word, k, dottedValue k⟩
  | mark {k : Kind} {cs : List Char} (h : (k, cs) ∈ exprMarks) : Spelt atEnd ⟨cs, k, none⟩
  /-- Digits between quotes, of which the closing one may be missing. -/
  | radix {c q : Char} {k : Kind} {valid : Char → Bool} {ds close : List Char} (h : Radix c k valid)
    (quote : q = '\'' ∨ q = '"') (digits : ∀ d ∈ ds, valid d) (closed : close = [] ∨ close = [q]) :
    Spelt atEnd ⟨c :: q :: (ds ++ close), k, none⟩
  | hollerith {h : Char} {ds payload : List Char} (nonempty : ds ≠ []) (digits : IsDigits ds)
    (letter : h = 'H' ∨ h = 'h') (inline : '\n' ∉ payload)
    (full : payload.length = hollerithCount ds ∨ payload.length ≤ hollerithCount ds ∧ atEnd) :
    Spelt atEnd ⟨ds ++ h :: payload, .hollerithConst, some (.text (String.ofList payload))⟩

/-- The kinds of tokens of expressions that are neither words nor texts. -/
def speltKinds : List Kind :=
  [.integerConst, .realConst, .hollerithConst, .binaryConst, .octalConst, .hexConst, .trueConst, .falseConst,
   .lparen, .rparen, .comma, .colon, .plus, .minus, .star, .starStar, .slash, .eqOp, .neOp, .ltOp, .leOp,
   .gtOp, .geOp, .andOp, .orOp, .notOp]

/-! ## Pieces -/

section Pieces

variable {depth : Nat} {c : Char} {cs : List Char} {k : Kind}

/-- What a piece takes is written as its kind is. -/
def Piece.Spells (c : Char) (cs : List Char) (q : Piece) : Prop :=
  ∀ k, q.kind = some k → (k ∈ speltKinds ∨ k = .editConst ∧ '.' ∉ cs.take q.extra) →
    q.text = none ∧ Spelt (LineEnds (cs.drop q.extra)) ⟨c :: cs.take q.extra, k, q.value⟩

theorem Piece.spells_of_kind {q : Piece} (hq : q.kind = some k) (hk : k ∉ .editConst :: speltKinds) :
    q.Spells c cs := by
  intro k' hk' hor
  obtain rfl : k = k' := Option.some.inj (hq.symm.trans hk')
  rw [List.mem_cons, not_or] at hk
  exact absurd hor (by simp [hk.1, hk.2])

theorem Piece.spells_skip : Piece.skip.Spells c cs := nofun

theorem Piece.spells_mark {n : Nat} (h : (k, c :: cs.take n) ∈ exprMarks) :
    (Piece.plain k n).Spells c cs := by
  rintro k' ⟨⟩ -
  exact ⟨rfl, .mark h⟩

theorem word_spells : (word depth c cs).Spells c cs := by
  rcases word_cases depth c cs with ⟨s, after, -, -, -, hword⟩ | ⟨hword, -⟩
  · rw [hword]
    exact Piece.spells_of_kind rfl (by simp [speltKinds])
  · rw [hword]
    refine Piece.spells_of_kind (k := .ofWord _) rfl ?_
    unfold Kind.ofWord
    split <;> simp [speltKinds]

/-- An exponent, or none. -/
theorem exponentLength_takes (cs : List Char) :
    cs.take (exponentLength cs) = [] ∨ IsExponent (cs.take (exponentLength cs)) := by
  have hdigits : ∀ ds : List Char, IsDigits (ds.take (run isDigit ds)) := fun ds d hd => mem_take_run hd
  match cs with
  | [] => exact .inl rfl
  | [e] => exact .inl (by simp [exponentLength])
  | e :: s :: ds =>
    rw [exponentLength.eq_def]
    simp only
    split
    · rename_i hletter
      split
      · rename_i hdigit
        have hne : (s :: ds).take (run isDigit (s :: ds)) ≠ [] := by simp [run, hdigit]
        have hexponent : IsExponent (e :: ([] ++ (s :: ds).take (run isDigit (s :: ds)))) :=
          .mk hletter (.inl rfl) hne (hdigits _)
        rw [Nat.add_comm, List.take_succ_cons]
        exact .inr hexponent
      · split
        · rename_i hsign
          simp only [Bool.and_eq_true, Bool.or_eq_true, beq_iff_eq, decide_eq_true_eq] at hsign
          have hne : ds.take (run isDigit ds) ≠ [] := by
            cases ds with
            | nil => exact absurd hsign.2 (Nat.lt_irrefl 0)
            | cons d ds =>
              obtain ⟨n, hn⟩ := Nat.exists_eq_add_of_lt hsign.2
              rw [hn, Nat.zero_add]
              simp
          have hexponent : IsExponent (e :: ([s] ++ ds.take (run isDigit ds))) :=
            .mk hletter (.inr (hsign.1.imp (congrArg (List.cons · [])) (congrArg (List.cons · [])))) hne
              (hdigits ds)
          rw [Nat.add_comm, List.take_succ_cons, List.take_succ_cons]
          exact .inr hexponent
        · exact .inl rfl
    · exact .inl rfl

theorem realConstant_spells {extra : Nat} (h : IsReal (c :: cs.take extra)) :
    (realConstant c cs extra).Spells c cs := by
  rintro k ⟨⟩ -
  exact ⟨rfl, .operand (.real h)⟩

theorem dottedWord?_takes {n : Nat} (h : dottedWord? cs = some (k, n)) :
    ∃ word, (∀ c ∈ word, isLetter c) ∧ Kind.ofDotted? (String.ofList word) = some k ∧
      cs.take n = word ++ ['.'] := by
  unfold dottedWord? at h
  extract_lets word at h
  split at h
  · rename_i rest hword hrest
    obtain ⟨k', hk', heq⟩ := Option.map_eq_some_iff.1 h
    obtain ⟨rfl, rfl⟩ := Prod.mk.inj heq
    refine ⟨word, fun c hc => List.all_eq_true.1 List.all_takeWhile c hc, hk', ?_⟩
    have hsplit : cs = word ++ '.' :: rest := by
      rw [← hrest]
      exact (List.takeWhile_append_dropWhile).symm
    conv_lhs => rw [hsplit]
    rw [List.take_length_add_append]
    rfl
  · cases h

theorem dotted_spells {n : Nat} (h : dottedWord? cs = some (k, n)) :
    Piece.Spells '.' cs ⟨n, some k, dottedValue k, none⟩ := by
  rintro k' ⟨⟩ -
  obtain ⟨word, hletters, hk, htake⟩ := dottedWord?_takes h
  refine ⟨rfl, ?_⟩
  rw [htake]
  exact .dotted hletters hk

theorem dot_spells (cs : List Char) : (dot cs).Spells '.' cs := by
  have hpoint : (Piece.plain .dot 0).Spells '.' cs := Piece.spells_of_kind rfl (by decide)
  unfold dot
  split
  · rename_i d ds
    split
    · rename_i hdigit
      have hne : (d :: ds).take (run isDigit (d :: ds)) ≠ [] := by simp [run, hdigit]
      refine realConstant_spells ?_
      rw [List.take_add]
      exact @IsReal.point [] _ _ (by simp [IsDigits]) (fun d hd => mem_take_run hd) (.inr hne)
        (exponentLength_takes _)
    · split
      · rename_i h
        exact dotted_spells h
      · rename_i h
        exact dotted_spells h
      · rename_i k' n htrue hfalse h
        have hvalue : dottedValue k' = none := by
          cases k' <;> first | rfl | exact absurd rfl htrue | exact absurd rfl hfalse
        have hspells := dotted_spells h
        rw [hvalue] at hspells
        exact hspells
      · exact hpoint
  · exact hpoint

/-- The text of a Hollerith constant is as long as it asks for, or the line ends behind it. -/
theorem payload_takes (length : Nat) (cs : List Char) :
    let payload := (cs.take length).takeWhile (· != '\n')
    cs.take payload.length = payload ∧ '\n' ∉ payload ∧
      (payload.length = length ∨ payload.length ≤ length ∧ LineEnds (cs.drop payload.length)) := by
  induction cs generalizing length with
  | nil => exact ⟨by simp, by simp, .inr ⟨by simp, .inl (by simp)⟩⟩
  | cons d ds ih =>
    cases length with
    | zero => exact ⟨by simp, by simp, .inl (by simp)⟩
    | succ length =>
      obtain ⟨htake, hline, hfull⟩ := ih length
      by_cases hd : d = '\n'
      · subst hd
        exact ⟨by simp, by simp, .inr ⟨by simp, .inr ⟨ds, by simp⟩⟩⟩
      · have hpayload : ((d :: ds).take (length + 1)).takeWhile (· != '\n') =
            d :: (ds.take length).takeWhile (· != '\n') := by simp [hd]
        intro payload
        rw [show payload = d :: _ from hpayload]
        simp only [List.length_cons, List.take_succ_cons, List.drop_succ_cons, htake, List.mem_cons, not_or,
          Nat.add_right_cancel_iff, Nat.add_le_add_iff_right, true_and]
        exact ⟨⟨Ne.symm hd, hline⟩, hfull⟩

theorem hollerith_eq (ds cs : List Char) (n : Nat) :
    hollerith (Decimal.ofDigits ds) n cs =
      let payload := ((cs.drop (n + 1)).take (hollerithCount ds)).takeWhile (· != '\n')
      .constant .hollerithConst (n + 1 + payload.length) (some (.text (String.ofList payload))) :=
  rfl

theorem hollerith_spells {n : Nat} {h : Char} {rest : List Char} (hne : c :: cs.take n ≠ [])
    (hdigits : IsDigits (c :: cs.take n)) (hdrop : cs.drop n = h :: rest) (hletter : h = 'H' ∨ h = 'h') :
    (hollerith (Decimal.ofDigits (c :: cs.take n)) n cs).Spells c cs := by
  have hrest : cs.drop (n + 1) = rest := by rw [← List.drop_drop, hdrop, List.drop_one, List.tail_cons]
  obtain ⟨htake, hline, hfull⟩ := payload_takes (hollerithCount (c :: cs.take n)) rest
  rw [hollerith_eq, hrest]
  generalize (rest.take (hollerithCount (c :: cs.take n))).takeWhile (· != '\n') = payload at *
  rintro k ⟨⟩ -
  refine ⟨rfl, ?_⟩
  have htext : cs.take (n + 1 + payload.length) = cs.take n ++ h :: payload := by
    rw [Nat.add_assoc, List.take_add, hdrop, Nat.add_comm 1, List.take_succ_cons, htake]
  have hbehind : cs.drop (n + 1 + payload.length) = rest.drop payload.length := by
    rw [← List.drop_drop, hrest]
  show Spelt (LineEnds (cs.drop (n + 1 + payload.length))) ⟨c :: cs.take (n + 1 + payload.length), _, _⟩
  rw [htext, hbehind]
  exact .hollerith hne hdigits hletter hline hfull

theorem number_spells (hc : isDigit c) : (number c cs).Spells c cs := by
  have hdigits : IsDigits (c :: cs.take (run isDigit cs)) := by
    intro d hd
    rcases List.mem_cons.1 hd with rfl | hd
    · exact hc
    · exact mem_take_run hd
  have hne : c :: cs.take (run isDigit cs) ≠ [] := List.cons_ne_nil _ _
  unfold number
  extract_lets n integer
  have hinteger : integer.Spells c cs := by
    rintro k ⟨⟩ -
    exact ⟨rfl, .operand (.digits hne hdigits)⟩
  split
  · rename_i next rest hdrop
    have hbehind : ∀ m, cs.take (n + 1 + m) = cs.take n ++ next :: rest.take m := by
      intro m
      rw [Nat.add_assoc, List.take_add, hdrop, Nat.add_comm 1, List.take_succ_cons]
    split
    · rename_i hletter
      simp only [Bool.or_eq_true, beq_iff_eq] at hletter
      exact hollerith_spells hne hdigits hdrop hletter
    · split
      · rename_i hpoint
        obtain rfl := eq_of_beq hpoint
        split
        · exact hinteger
        · refine realConstant_spells ?_
          rw [Nat.add_assoc, hbehind, List.take_add, ← List.cons_append]
          exact .point hdigits (fun d hd => mem_take_run hd) (.inl hne) (exponentLength_takes _)
      · split
        · split
          · exact hinteger
          · rename_i e hlength
            refine realConstant_spells ?_
            rw [List.take_add, ← List.cons_append, hdrop]
            have hexponent := exponentLength_takes (next :: rest)
            refine .exponent hdigits hne (hexponent.resolve_left fun hnil => ?_)
            obtain ⟨m, hm⟩ := Nat.exists_eq_succ_of_ne_zero hlength
            rw [hm] at hnil
            cases hnil
        · split
          · split
            · exact hinteger
            · exact Piece.spells_of_kind rfl (by decide)
          · exact hinteger
  · exact hinteger

theorem radix_spells {valid : Char → Bool} (h : Radix c k valid) (depth : Nat) (cs : List Char) :
    (radix k valid depth c cs).Spells c cs := by
  unfold radix
  split
  · rename_i q rest
    split
    · rename_i hquote
      simp only [Bool.or_eq_true, beq_iff_eq] at hquote
      extract_lets n
      have hdigits : ∀ d ∈ rest.take n, valid d := fun d hd => mem_take_run hd
      split
      · rename_i hclose
        rintro k' ⟨⟩ -
        refine ⟨rfl, ?_⟩
        have hlast : rest.take (n + 1) = rest.take n ++ [q] := by
          rw [List.take_add_one, ← List.head?_drop, eq_of_beq hclose]
          rfl
        show Spelt _ ⟨c :: q :: rest.take (n + 1), k, none⟩
        rw [hlast]
        exact .radix h hquote hdigits (.inr rfl)
      · rintro k' ⟨⟩ -
        have hopen : Spelt (LineEnds (rest.drop n)) ⟨c :: q :: (rest.take n ++ []), k, none⟩ :=
          .radix h hquote hdigits (.inl rfl)
        rw [List.append_nil] at hopen
        exact ⟨rfl, hopen⟩
    · exact word_spells
  · exact word_spells

theorem edit_spells (depth : Nat) (hc : editLetters.contains c) (hletter : isLetter c ∧ c ≠ '_')
    (hcs : cs.head?.any isDigit) : (edit depth c cs).Spells c cs := by
  rcases edit_cases depth c cs with hword | ⟨m, hedit, hm⟩
  · rw [hword]
    exact word_spells
  · rw [hedit]
    rintro k ⟨⟩ hor
    have hpoint : '.' ∉ cs.take m := (hor.resolve_left (by decide)).2
    obtain rfl := hm.resolve_right hpoint
    refine ⟨rfl, ?_⟩
    have hdigits : ∀ d ∈ cs.take (run isDigit cs), isDigit d := fun d hd => mem_take_run hd
    have hne : cs.take (run isDigit cs) ≠ [] := by
      cases cs with
      | nil => cases hcs
      | cons d ds =>
        have hd : isDigit d := hcs
        simp [run, hd]
    have hkind : wordKind (c :: cs.take (run isDigit cs)) = .editConst := by
      rw [wordKind, if_pos]
      simp only [List.headD_cons, hc, List.tail_cons, List.all_eq_true.2 hdigits, Bool.and_true, Bool.true_and,
        decide_eq_true_eq]
      exact Nat.succ_lt_succ (List.length_pos_of_ne_nil hne)
    have hname : IsName (c :: cs.take (run isDigit cs)) :=
      ⟨c, _, rfl, hletter, fun d hd => by simp [isWordChar, hdigits d hd]⟩
    have hspelt := Operand.name hname
    rw [hkind] at hspelt
    exact .operand hspelt

theorem piece_spells (lineStart : Bool) (depth : Nat) (c : Char) (cs : List Char) :
    (piece lineStart depth c cs).Spells c cs := by
  unfold piece
  split
  case h_1 | h_2 | h_3 | h_4 => exact Piece.spells_skip
  case h_6 => exact Piece.spells_of_kind rfl (by decide)
  case h_7 | h_8 =>
    split
    · exact Piece.spells_of_kind rfl (by decide)
    · exact word_spells
  case h_9 =>
    split
    · exact Piece.spells_of_kind rfl (by decide)
    · split
      · rename_i hstar
        obtain ⟨cs, rfl⟩ : ∃ ds, cs = '*' :: ds := by
          cases cs <;> simp_all
        exact Piece.spells_mark (by simp [exprMarks])
      · exact Piece.spells_mark (by simp [exprMarks])
  case h_10 | h_11 | h_13 | h_15 | h_18 => exact Piece.spells_mark (by simp [exprMarks])
  case h_12 | h_17 =>
    split
    · exact Piece.spells_of_kind rfl (by decide)
    · exact Piece.spells_mark (by simp [exprMarks])
  case h_14 =>
    split
    · exact Piece.spells_of_kind rfl (by decide)
    · exact Piece.spells_skip
  case h_24 => exact dot_spells cs
  case h_25 | h_26 => exact radix_spells (.binary (by decide)) depth cs
  case h_27 | h_28 => exact radix_spells (.octal (by decide)) depth cs
  case h_29 | h_30 => exact radix_spells (.hex (by decide)) depth cs
  case h_31 | h_32 | h_33 | h_34 | h_35 | h_36 | h_37 | h_38 | h_39 | h_40 =>
    split
    · rename_i hdigit
      exact edit_spells depth (by decide) (by decide) hdigit
    · exact word_spells
  case h_41 =>
    split
    · exact word_spells
    · split
      · rename_i hdigit
        exact number_spells hdigit
      · exact Piece.spells_skip
  all_goals exact Piece.spells_of_kind rfl (by decide)

/-- Digits behind one of their letters are read as a descriptor. -/
theorem piece_edit (hc : editLetters.contains c) (hcs : cs.head?.any isDigit) (lineStart : Bool) :
    piece lineStart depth c cs = edit depth c cs := by
  unfold piece
  split
  case h_31 | h_32 | h_33 | h_34 | h_35 | h_36 | h_37 | h_38 | h_39 | h_40 => exact if_pos hcs
  case h_41 =>
    simp only [editLetters, List.contains_cons, List.contains_nil, Bool.or_false, Bool.or_eq_true,
      beq_iff_eq] at hc
    simp_all
  all_goals exact absurd hc (by decide)

/-- Digits are characters of words, so that a word of digits is one of digits only. -/
theorem takeWhile_digits {cs : List Char} (h : ∀ d ∈ cs.takeWhile isWordChar, isDigit d) :
    cs.takeWhile isDigit = cs.takeWhile isWordChar := by
  induction cs with
  | nil => rfl
  | cons d ds ih =>
    by_cases hd : isWordChar d
    · rw [List.takeWhile_cons_of_pos hd] at h ⊢
      rw [List.takeWhile_cons_of_pos (h d List.mem_cons_self), ih fun e he => h e (List.mem_cons_of_mem d he)]
    · have hdigit : ¬isDigit d := fun hdigit => hd (by simp [isWordChar, hdigit])
      rw [List.takeWhile_cons_of_neg hd, List.takeWhile_cons_of_neg hdigit]

/-- A name is a word, and no specifier with an `=` behind it. -/
theorem piece_plain_name {lineStart : Bool} (h : (piece lineStart depth c cs).kind = some .name) :
    piece lineStart depth c cs = .plain .name (run isWordChar cs) ∧ Kind.ofWord (wordText c cs) = .name := by
  have hpiece := piece_word h rfl
  rw [hpiece] at h ⊢
  rcases word_cases depth c cs with ⟨s, after, -, -, -, hword⟩ | ⟨hword, -⟩
  · rw [hword] at h
    cases h
  · rw [hword] at h ⊢
    have hkind : Kind.ofWord (wordText c cs) = .name := Option.some.inj h
    exact ⟨by rw [hkind], hkind⟩

/-- A name that would be a descriptor if it stood alone has a number with a point behind it. -/
theorem name_alone {lineStart : Bool} (h : (piece lineStart depth c cs).kind = some .name) :
    wordKind (c :: cs.take (run isWordChar cs)) = .name ∨
      ∃ d more, cs.drop (run isWordChar cs) = '.' :: d :: more ∧ isDigit d := by
  have hword := (piece_plain_name h).2
  unfold wordKind
  split
  case isFalse => exact .inl hword
  rename_i hedit
  simp only [List.headD_cons, List.tail_cons, List.length_cons, Bool.and_eq_true, decide_eq_true_eq,
    List.all_eq_true, take_run] at hedit
  obtain ⟨⟨hc, hlength⟩, hdigits⟩ := hedit
  have hsame : cs.takeWhile isDigit = cs.takeWhile isWordChar := takeWhile_digits hdigits
  have hrun : run isDigit cs = run isWordChar cs := congrArg List.length hsame
  have hcs : cs.head?.any isDigit := by
    cases cs with
    | nil => exact absurd hlength (by simp)
    | cons d ds =>
      by_cases hd : isDigit d
      · exact hd
      · rw [← hsame, List.takeWhile_cons_of_neg hd] at hlength
        exact absurd hlength (by simp)
  rw [piece_edit hc hcs] at h
  by_cases hpoint : ∀ more, cs.drop (run isDigit cs) = '.' :: more → run isDigit more = 0
  · -- Without such a number the descriptor is what is read.
    have hnext : (cs.drop (run isDigit cs)).head?.any isWordChar = false := by
      rw [hrun, drop_run]
      have hhead := List.head?_dropWhile_not isWordChar cs
      cases hrest : (cs.dropWhile isWordChar).head? with
      | none => rfl
      | some d =>
        rw [hrest] at hhead
        exact hhead
    rw [edit_plain hpoint, hnext, if_neg Bool.false_ne_true] at h
    cases h
  · simp only [not_forall] at hpoint
    obtain ⟨more, hmore, hmoves⟩ := hpoint
    rw [← hrun, hmore]
    cases more with
    | nil => exact absurd rfl hmoves
    | cons d ds =>
      by_cases hd : isDigit d
      · exact .inr ⟨d, ds, rfl, hd⟩
      · exact absurd (by simp [run, hd]) hmoves

end Pieces

/-! ## Scans -/

/-- What starts with a point and a digit is a number. -/
theorem lexemesFrom_point (p : Place) {d : Char} (hd : isDigit d) (more : List Char) :
    ∃ lx rest, lexemesFrom p ('.' :: d :: more) = lx :: rest ∧ lx.kind = .realConst := by
  have hpiece : piece (p.col == 1) p.depth '.' (d :: more) =
      realConstant '.' (d :: more) (run isDigit (d :: more) +
        exponentLength ((d :: more).drop (run isDigit (d :: more)))) := if_pos hd
  rw [lexemesFrom, hpiece]
  exact ⟨_, _, rfl, rfl⟩

theorem Spelt.mono {P Q : Prop} {t : Written} (h : Spelt P t) (hPQ : P → Q) : Spelt Q t := by
  cases h with
  | operand h => exact .operand h
  | dotted letters h => exact .dotted letters h
  | mark h => exact .mark h
  | radix h quote digits closed => exact .radix h quote digits closed
  | hollerith nonempty digits letter inline full =>
    exact .hollerith nonempty digits letter inline (full.imp_right (And.imp_right hPQ))

end Scan

/-- A token of an expression is written as its kind is, if no number with a point stands behind it. A Hollerith
constant that is short has the end of the line behind it. -/
theorem scan_spelt {source : String} {front rest : List Lexeme} {lx : Lexeme}
    (h : scan source = front ++ lx :: rest)
    (hlx : lx.kind ∈ Scan.speltKinds ∨ lx.kind = .name ∨ lx.kind = .editConst ∧ '.' ∉ lx.text.toList)
    (hnext : lx.kind = .name → ∀ next ∈ rest.head?, next.kind ≠ .realConst) :
    Scan.Spelt (∃ next ∈ rest.head?, next.kind = .eof ∨ next.kind = .newline)
      ⟨lx.text.toList, lx.kind, lx.value⟩ := by
  have hnot : lx.kind ≠ .eof := by
    intro heof
    simp [heof, Scan.speltKinds] at hlx
  have hproper := scan_proper (h ▸ List.mem_append_right _ List.mem_cons_self) hnot
  obtain ⟨before, p, c, cs, hcomes, hlexeme⟩ := Scan.Comes.of_scan hnot h
  -- The rest of the source is what the others are read from.
  have hrest : Scan.lexemesFrom (p.after (Scan.piece (p.col == 1) p.depth c cs))
      (cs.drop (Scan.piece (p.col == 1) p.depth c cs).extra) = rest := by
    have hscan := (hcomes.step rfl).scan_eq
    rw [hlexeme, h, Option.toList_some, ← List.append_cons] at hscan
    exact (List.cons.inj (List.append_cancel_left hscan)).2.symm
  have htakes := Scan.piece_takes (p.col == 1) p.depth c cs
  have hspells := Scan.piece_spells (p.col == 1) p.depth c cs
  obtain ⟨k, hk, rfl⟩ := Option.map_eq_some_iff.1 hlexeme
  have hends : Scan.LineEnds (cs.drop (Scan.piece (p.col == 1) p.depth c cs).extra) →
      ∃ next ∈ rest.head?, next.kind = .eof ∨ next.kind = .newline := by
    intro hline
    obtain ⟨last, more, hlast, hkind⟩ := hline.lexemes (p.after (Scan.piece (p.col == 1) p.depth c cs))
    rw [← hrest, hlast]
    exact ⟨last, rfl, hkind⟩
  generalize hpiece : Scan.piece (p.col == 1) p.depth c cs = q at *
  by_cases hname : k = .name
  · subst hname
    rw [← hpiece] at hk
    obtain rfl := hpiece.symm.trans (Scan.piece_plain_name hk).1
    have hisName := hproper.name rfl
    simp only [Scan.Piece.plain, Option.getD_none, String.toList_ofList] at hisName ⊢
    rcases Scan.name_alone hk with hkind | ⟨d, more, hpoint, hd⟩
    · have hoperand := Scan.Operand.name hisName
      rw [hkind] at hoperand
      exact .operand hoperand
    · obtain ⟨next, others, hlexemes, hreal⟩ := Scan.lexemesFrom_point _ hd more
      simp only [Scan.Piece.plain, hpoint] at hrest
      rw [← hrest, hlexemes] at hnext
      exact absurd hreal (hnext rfl next rfl)
  · have hor : k ∈ Scan.speltKinds ∨ k = .editConst ∧ '.' ∉ cs.take q.extra := by
      refine hlx.imp_right fun hword => ?_
      obtain ⟨rfl, hpoint⟩ := hword.resolve_left hname
      have htext := htakes.text (by simp [hk]) (by simp [hk])
      simp only [htext, Option.getD_none, String.toList_ofList, List.mem_cons, not_or] at hpoint
      exact ⟨rfl, hpoint.2⟩
    obtain ⟨htext, hspelt⟩ := hspells k hk hor
    simp only [htext, Option.getD_none, String.toList_ofList]
    exact hspelt.mono hends

end FortranJulia
