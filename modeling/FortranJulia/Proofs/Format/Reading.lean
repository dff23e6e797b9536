import FortranJulia.Format.Read
import FortranJulia.Proofs.Format.Writing

/-!
Formats that are written out are read as themselves, and what is read has its parentheses in
balance. Of a cursor only the position counts here: the failures noted on the way choose between
error messages, and never between success and failure.
-/

namespace FortranJulia.Format

set_option autoImplicit false

/-! ## Positions -/

namespace Cursor

variable (c b : Cursor) (e : Failure)

@[simp]
theorem step_pos : c.step.pos = c.pos + 1 := rfl

@[simp]
theorem accept_pos : (c.accept b).pos = b.pos := by
  unfold accept
  split <;> rfl

@[simp]
theorem note_pos : (c.note e).pos = c.pos := by
  unfold note
  split <;> rfl

/-- A branch that got no more than one token ahead is not final. -/
theorem stop_near (h : b.pos ≤ c.pos + 1) : ∃ d, c.stop e b = (false, d) ∧ d.pos = c.pos := by
  simp only [stop, gt_iff_lt, Nat.not_lt.2 h, if_false]
  refine ⟨_, rfl, ?_⟩
  split
  · rfl
  · split <;> rfl

/-- A branch that is not final leaves the position. -/
theorem stop_pos {d : Cursor} (h : c.stop e b = (false, d)) : d.pos = c.pos := by
  by_cases hnear : b.pos ≤ c.pos + 1
  · obtain ⟨d', hstop, hpos⟩ := stop_near c b e hnear
    rw [hstop] at h
    cases h
    exact hpos
  · simp only [stop, gt_iff_lt, Nat.lt_of_not_le hnear, if_true] at h
    cases h

end Cursor

/-! ## Counts -/

theorem foldl_digits_mono (cs : List Char) (n : Nat) :
    n ≤ cs.foldl (fun n c => 10 * n + (c.toNat - '0'.toNat)) n := by
  induction cs generalizing n with
  | nil => exact Nat.le_refl n
  | cons c cs ih =>
    have hstep : n ≤ 10 * n + (c.toNat - '0'.toNat) := by omega
    exact Nat.le_trans hstep (ih _)

/-- Decimal digits are added up to the number they write. -/
theorem addDigits_decimal {cs : List Char} (hcs : ∀ c ∈ cs, Decimal.isDigit c) :
    ∀ n, cs.foldl (fun n c => 10 * n + (c.toNat - '0'.toNat)) n ≤ Decimal.maxInt →
      addDigits 10 n cs = .ok (cs.foldl (fun n c => 10 * n + (c.toNat - '0'.toNat)) n) := by
  induction cs with
  | nil =>
    intro n hn
    exact if_neg (Nat.not_lt.2 hn)
  | cons c cs ih =>
    intro n hn
    have hdigit : c.toNat - '0'.toNat < 10 := by
      have hc := hcs c List.mem_cons_self
      simp only [Decimal.isDigit, Bool.and_eq_true, decide_eq_true_eq, Char.le_def,
        UInt32.le_iff_toNat_le] at hc
      have hle : c.toNat ≤ '9'.toNat := hc.2
      have hnine : '9'.toNat - '0'.toNat = 9 := rfl
      omega
    rw [List.foldl_cons] at hn ⊢
    have hrange : 10 * n + (c.toNat - '0'.toNat) ≤ Decimal.maxInt :=
      Nat.le_trans (foldl_digits_mono cs _) hn
    have hsixtyfour : Decimal.maxInt < Nat.pow 2 64 := by decide
    rw [addDigits, if_neg (by omega), if_neg (by omega), Nat.mul_comm n 10]
    exact ih (fun d hd => hcs d (List.mem_cons_of_mem c hd)) _ hn

/-- No number but zero starts with a zero. -/
theorem digits_head (n : Nat) (hn : 0 < n) : (Nat.toDigits 10 n).head? ≠ some '0' := by
  induction n using Nat.strongRecOn with
  | _ n ih =>
    by_cases hten : n < 10
    · rw [Nat.toDigits_of_lt_base hten]
      have hdigits : ∀ m < 10, 0 < m → m.digitChar ≠ '0' := by decide
      exact fun h => hdigits n hten hn (Option.some.inj h)
    · rw [Nat.toDigits_of_base_le (by decide) (Nat.not_lt.1 hten),
        List.head?_append_of_ne_nil _ Nat.toDigits_ne_nil]
      exact ih (n / 10) (by omega) (by omega)

/-- A count of repetitions is read as itself. -/
theorem count_digits {n : Nat} (hn : 0 < n) (hmax : n ≤ Decimal.maxInt) :
    count (Decimal.digits n) = .ok n := by
  have hdecimal : addDigits 10 0 (Decimal.digits n).toList = .ok n := by
    have hvalue := ofDigits_digits n
    rw [Decimal.ofDigits] at hvalue
    rw [addDigits_decimal (digits_isDigit n) 0 (by rw [hvalue]; exact hmax), hvalue]
  have hzero : (Decimal.digits n).toList.head? ≠ some '0' := by
    rw [Decimal.digits, String.toList_ofList]
    exact digits_head n hn
  unfold count
  split
  · rename_i d ds heq
    rw [heq] at hzero
    exact absurd rfl hzero
  · exact hdecimal

/-! ## Written formats are read back -/

section Written

variable {tokens : Array Token}

/-- Tokens of these kinds and texts are the last ones from a position on. -/
def At (tokens : Array Token) (pos : Nat) (cores : List (TokenKind × String)) : Prop :=
  (tokens.toList.drop pos).map Token.core = cores

theorem At.append {front rest : List (TokenKind × String)} {pos : Nat}
    (h : At tokens pos (front ++ rest)) : At tokens (pos + front.length) rest := by
  rw [At, ← List.drop_drop, List.map_drop, h, List.drop_left]

theorem At.tail {x : TokenKind × String} {rest : List (TokenKind × String)} {pos : Nat}
    (h : At tokens pos (x :: rest)) : At tokens (pos + 1) rest :=
  @At.append tokens [x] rest pos h

theorem At.head {kind : TokenKind} {text : String} {rest : List (TokenKind × String)} {pos : Nat}
    (h : At tokens pos ((kind, text) :: rest)) :
    ∃ place, tokens[pos]? = some ⟨kind, text, place⟩ := by
  have hhead := congrArg List.head? h
  rw [List.head?_map, List.head?_drop, List.head?_cons, Array.getElem?_toList] at hhead
  obtain ⟨t, ht, hcore⟩ := Option.map_eq_some_iff.1 hhead
  refine ⟨t.place, ?_⟩
  rw [ht]
  cases hcore
  rfl

theorem At.end {pos : Nat} (h : At tokens pos []) : tokens[pos]? = none := by
  have hhead := congrArg List.head? h
  rw [List.head?_map, List.head?_drop, List.head?_nil, Array.getElem?_toList] at hhead
  exact Option.map_eq_none_iff.1 hhead

/-- What reads nothing and what may follow written items: the end or a closing parenthesis. -/
def Closes (rest : List (TokenKind × String)) : Prop :=
  rest = [] ∨ ∃ more, rest = (.mark ')', ")") :: more

/-- Nothing more is read at the end or at a closing parenthesis. -/
theorem readItems_close {rest : List (TokenKind × String)} (hrest : Closes rest) (bound : Nat)
    (c : Cursor) (h : At tokens c.pos rest) :
    ∃ d, readItems tokens bound c = (.matched [], d) ∧ d.pos = c.pos := by
  cases bound with
  | zero => exact ⟨c, rfl, rfl⟩
  | succ bound =>
    obtain ⟨e, b, hitem, hpos⟩ : ∃ e b,
        readItem tokens (readItems tokens bound) c = (.failed e, b) ∧ b.pos = c.pos := by
      have hnone : (tokens[c.pos]?).bind simpleItem? = none ∧
          readField tokens (readItems tokens bound) c =
            (.failed (c.failure (some "FormatFieldBody")),
              c.note (c.failure (some "FormatFieldBody"))) := by
        rcases hrest with rfl | ⟨more, rfl⟩
        · simp [readField, readBody, h.end]
        · obtain ⟨place, hplace⟩ := h.head
          simp [readField, readBody, hplace, simpleItem?]
      obtain ⟨d, hstop, hd⟩ := c.stop_near (c.note (c.failure (some "FormatFieldBody")))
        (c.failure (some "FormatFieldBody")) (by simp)
      rw [readItem, hnone.1, hnone.2]
      simp only [hstop, Bool.false_eq_true, if_false]
      exact ⟨_, _, rfl, by simp [hd]⟩
    obtain ⟨d, hstop, hd⟩ := (c.note e).stop_near b e (by simp [hpos])
    rw [readItems, hitem]
    simp only [hstop, Bool.false_eq_true, if_false]
    exact ⟨_, rfl, by rw [hd, Cursor.note_pos]⟩

/-- A count in front of what is repeated is put on it. -/
theorem readItem_counted {items : Cursor → Reading (List Item) × Cursor} {n length : Nat} {i : Item}
    (hn : n ≤ Decimal.maxInt) (hbare : repeated 0 i = i) {kind : TokenKind} {text : String}
    {rest : List (TokenKind × String)} (hkind : kind ≠ .number)
    (hsimple : ∀ place, simpleItem? ⟨kind, text, place⟩ = none) {c : Cursor}
    (h : At tokens c.pos (countToken n ++ (kind, text) :: rest))
    (hbody : ∀ b : Cursor, At tokens b.pos ((kind, text) :: rest) →
      ∃ d, readBody tokens items b = some (.matched i, d) ∧ d.pos = b.pos + length) :
    ∃ d, readItem tokens items c = (.matched (repeated n i), d) ∧
      d.pos = c.pos + (countToken n).length + length := by
  obtain ⟨d, hfield, hpos⟩ : ∃ d, readField tokens items c = (.matched (repeated n i), d) ∧
      d.pos = c.pos + (countToken n).length + length := by
    by_cases hzero : n = 0
    · subst hzero
      obtain ⟨place, hplace⟩ := At.head h
      obtain ⟨d, hread, hpos⟩ := hbody c h
      refine ⟨d, ?_, hpos⟩
      cases kind with
      | number => exact absurd rfl hkind
      | _ => simp [readField, hplace, hread, hbare]
    · rw [countToken, if_neg hzero] at h ⊢
      obtain ⟨place, hplace⟩ := At.head h
      obtain ⟨d, hread, hpos⟩ := hbody c.step h.tail
      refine ⟨d, ?_, hpos⟩
      simp [readField, hplace, hread, count_digits (Nat.pos_of_ne_zero hzero) hn]
  have hfirst : (tokens[c.pos]?).bind simpleItem? = none := by
    unfold countToken at h
    split at h
    · obtain ⟨place, hplace⟩ := At.head h
      rw [hplace]
      exact hsimple place
    · obtain ⟨place, hplace⟩ := At.head h
      rw [hplace]
      rfl
  refine ⟨c.accept d, ?_, by rw [Cursor.accept_pos, hpos]⟩
  rw [readItem, hfirst, hfield]

theorem readItem_simple {items : Cursor → Reading (List Item) × Cursor} {i : Item}
    {kind : TokenKind} {text : String} {rest : List (TokenKind × String)} {c : Cursor}
    (h : At tokens c.pos ((kind, text) :: rest))
    (hsimple : ∀ place, simpleItem? ⟨kind, text, place⟩ = some i) :
    ∃ d, readItem tokens items c = (.matched i, d) ∧ d.pos = c.pos + 1 := by
  obtain ⟨place, hplace⟩ := h.head
  refine ⟨c.step, ?_, rfl⟩
  rw [readItem, hplace, Option.bind_some, hsimple]

/-- Items are read one after the other if each one is read. -/
theorem readItems_of_items {rest : List (TokenKind × String)} (hrest : Closes rest) :
    ∀ {is : List Item}, (∀ i ∈ is, ∀ bound c rest, At tokens c.pos (i.tokens ++ rest) →
      i.tokens.length ≤ bound + 1 → ∃ d,
        readItem tokens (readItems tokens bound) c = (.matched i, d) ∧
          d.pos = c.pos + i.tokens.length) →
    ∀ bound (c : Cursor), At tokens c.pos (itemTokens is ++ rest) → (itemTokens is).length ≤ bound →
      ∃ d, readItems tokens bound c = (.matched is, d) ∧ d.pos = c.pos + (itemTokens is).length
  | [], _, bound, c, h, _ => readItems_close hrest bound c h
  | i :: is, hitems, bound, c, h, hbound => by
    have hpos := tokens_length_pos i
    rw [itemTokens, List.append_assoc] at h
    rw [itemTokens, List.length_append] at hbound ⊢
    obtain ⟨bound, rfl⟩ : ∃ m, bound = m + 1 := ⟨bound - 1, by omega⟩
    obtain ⟨b, hitem, hb⟩ := hitems i List.mem_cons_self bound c _ h (by omega)
    have hnext : At tokens (c.accept b).pos (itemTokens is ++ rest) := by
      rw [Cursor.accept_pos, hb]
      exact h.append
    obtain ⟨d, hread, hd⟩ := readItems_of_items hrest
      (fun j hj => hitems j (List.mem_cons_of_mem i hj)) bound (c.accept b) hnext (by omega)
    refine ⟨d, ?_, ?_⟩
    · rw [readItems, hitem]
      simp only [hread]
    · rw [hd, Cursor.accept_pos, hb, Nat.add_assoc]

/-- An item is read from its tokens. -/
theorem readItem_tokens {i : Item} (h : i.Proper) :
    ∀ bound c rest, At tokens c.pos (i.tokens ++ rest) → i.tokens.length ≤ bound + 1 →
      ∃ d, readItem tokens (readItems tokens bound) c = (.matched i, d) ∧
        d.pos = c.pos + i.tokens.length := by
  induction h with
  | comma => exact fun _ _ _ hat _ => readItem_simple hat fun _ => rfl
  | colon => exact fun _ _ _ hat _ => readItem_simple hat fun _ => rfl
  | dollar => exact fun _ _ _ hat _ => readItem_simple hat fun _ => rfl
  | slash => exact fun _ _ _ hat _ => readItem_simple hat fun _ => rfl
  | text s => exact fun _ _ _ hat _ => readItem_simple hat fun _ => rfl
  | @edit n d count matched =>
    intro bound c rest hat _
    rw [Item.tokens, List.append_assoc] at hat
    obtain ⟨b, hread, hb⟩ := @readItem_counted tokens (readItems tokens bound) n 1 (.edit 0 d) count
      rfl .descriptor d rest (by decide) (fun _ => rfl) c hat (fun b hb => by
        obtain ⟨place, hplace⟩ := hb.head
        exact ⟨b.step, by simp [readBody, hplace], rfl⟩)
    exact ⟨b, hread, by simp [hb, Item.tokens, Nat.add_assoc]⟩
  | @group n is count filled items ih =>
    intro bound c rest hat hbound
    simp only [Item.tokens, List.append_assoc, List.cons_append, List.nil_append] at hat
    simp only [Item.tokens, List.length_append, List.length_cons, List.length_nil] at hbound
    obtain ⟨b, hread, hb⟩ := @readItem_counted tokens (readItems tokens bound) n
      ((itemTokens is).length + 2) (.group 0 is) count rfl (.mark '(') "(" _ (by decide)
      (fun _ => rfl) c hat (fun b hb => by
        obtain ⟨place, hplace⟩ := hb.head
        obtain ⟨d, hitems, hd⟩ := readItems_of_items (.inr ⟨rest, rfl⟩) ih bound b.step hb.tail
          (by omega)
        have hclose : At tokens d.pos ((.mark ')', ")") :: rest) := by
          rw [hd]
          exact hb.tail.append
        obtain ⟨place', hplace'⟩ := hclose.head
        refine ⟨b.accept d.step, by simp [readBody, hplace, hitems, hplace'], ?_⟩
        rw [Cursor.accept_pos, Cursor.step_pos, hd, Cursor.step_pos]
        omega)
    refine ⟨b, hread, ?_⟩
    simp only [hb, Item.tokens, List.length_append, List.length_cons, List.length_nil]
    omega

/-- Written items are read as themselves. -/
theorem read_writtenItems {gap : List Char} (hgap : IsGap gap) {is : List Item}
    (h : ∀ i ∈ is, i.Proper) : read (String.ofList (writtenItems gap is)) = .ok is := by
  obtain ⟨tokens, last, hcut, htokens⟩ := cut_written hgap h
  have hat : At tokens.toArray ({} : Cursor).pos (itemTokens is ++ []) := by
    rw [List.append_nil]
    exact htokens
  have hsize : (itemTokens is).length = tokens.toArray.size := by
    rw [← htokens, List.length_map, List.size_toArray]
  obtain ⟨d, hread, hd⟩ := readItems_of_items (.inl rfl) (fun i hi => readItem_tokens (h i hi))
    (tokens.toArray.size + 2) {} hat (by omega)
  have hend : ¬d.pos < tokens.toArray.size := by
    have hstart : ({} : Cursor).pos = 0 := rfl
    omega
  simp only [read, hcut, hread, hend, if_false]

end Written

/-! ## Parentheses -/

/-- The characters outside quotes; nothing if the last quote stays open. -/
def outside : Bool → List Char → Option (List Char)
  | false, [] => some []
  | true, [] => none
  | quoted, c :: cs =>
    if c = '\'' then outside (!quoted) cs
    else if quoted then outside quoted cs
    else (outside quoted cs).map (c :: ·)

/-- How many parentheses are open in the end, where so many are at first; nothing if one is closed
that is not open. -/
def depth : Nat → List Char → Option Nat
  | n, [] => some n
  | n, c :: cs =>
    if c = '(' then depth (n + 1) cs
    else if c = ')' then if n = 0 then none else depth (n - 1) cs
    else depth n cs

/-- Quotes are closed, and outside of them every parenthesis has its match. -/
def Balanced (spec : String) : Prop :=
  (outside false spec.toList).bind (depth 0) = some 0

instance (spec : String) : Decidable (Balanced spec) := by
  unfold Balanced
  infer_instance

theorem depth_append_plain {front : List Char} (h : ∀ c ∈ front, c ≠ '(' ∧ c ≠ ')') (n : Nat)
    (rest : List Char) : depth n (front ++ rest) = depth n rest := by
  induction front with
  | nil => rfl
  | cons c cs ih =>
    obtain ⟨⟨hopen, hclose⟩, hcs⟩ := List.forall_mem_cons.1 h
    rw [List.cons_append, depth, if_neg hopen, if_neg hclose, ih hcs]

theorem outside_append_plain {front : List Char} (h : '\'' ∉ front) (rest : List Char) :
    outside false (front ++ rest) = (outside false rest).map (front ++ ·) := by
  induction front with
  | nil => simp
  | cons c cs ih =>
    have hc : c ≠ '\'' := fun hc => h (by rw [hc]; exact List.mem_cons_self)
    rw [List.cons_append, outside, if_neg hc, if_neg Bool.false_ne_true,
      ih (fun hcs => h (List.mem_cons_of_mem c hcs)), Option.map_map]
    rfl

/-- What is left behind a constant is outside quotes. -/
theorem outside_constant (fallback : Option Nat) (taken : Nat) (cs : List Char) :
    ∀ n, Token.constantLength fallback taken cs = some n → fallback = some n ∨
      ∃ k, n = taken + k ∧ outside true cs = outside false (cs.drop k) := by
  induction fallback, taken, cs using Token.constantLength.induct with
  | case1 fallback taken => exact fun n h => .inl h
  | case2 fallback taken cs ih =>
    intro n h
    refine .inr ?_
    obtain hfallback | ⟨k, rfl, hk⟩ := ih n h
    · exact ⟨1, (Option.some.inj hfallback).symm, rfl⟩
    · exact ⟨k + 2, by omega, hk⟩
  | case3 fallback taken cs hcs =>
    intro n h
    rw [Token.constantLength] at h
    · exact .inr ⟨1, (Option.some.inj h).symm, rfl⟩
    · exact hcs
  | case4 fallback taken c cs hcs hc ih =>
    intro n h
    have hstep : Token.constantLength fallback taken (c :: cs) =
        Token.constantLength fallback (taken + 1) cs := by
      rw [Token.constantLength]
      · exact hcs
      · exact hc
    rw [hstep] at h
    obtain hfallback | ⟨k, rfl, hk⟩ := ih n h
    · exact .inl hfallback
    · refine .inr ⟨k + 1, by omega, ?_⟩
      rw [outside, if_neg hc, if_pos rfl, hk, List.drop_succ_cons]

section Parentheses

open Token

/-- The mark a token is. -/
def TokenKind.mark? : TokenKind → Option Char
  | .mark m => some m
  | _ => none

def Token.mark? (t : Token) : Option Char := t.kind.mark?

/-- Neither a quote nor a parenthesis. -/
def Plain (c : Char) : Prop := c ≠ '\'' ∧ c ≠ '(' ∧ c ≠ ')'

theorem letter_plain {c : Char} (h : (letterOf? c).isSome) : Plain c := by
  refine ⟨?_, ?_, ?_⟩ <;> rintro rfl <;> cases h

theorem digit_plain {c : Char} (h : Decimal.isDigit c) : Plain c := by
  refine ⟨?_, ?_, ?_⟩ <;> rintro rfl <;> cases h

theorem fraction_plain {fraction : List Char} (h : IsFraction fraction) :
    ∀ c ∈ fraction, Plain c := by
  rcases h with rfl | ⟨ds, x, rfl, -, hds, hx⟩
  · exact fun c hc => absurd hc List.not_mem_nil
  · refine List.forall_mem_cons.2 ⟨⟨by decide, by decide, by decide⟩, fun c hc => ?_⟩
    rcases List.mem_append.1 hc with hc | hc
    · exact digit_plain (hds c hc)
    · rcases hx with rfl | ⟨e, es, rfl, he, -, hes⟩
      · exact absurd hc List.not_mem_nil
      · rcases List.mem_cons.1 hc with rfl | hc
        · exact letter_plain (by rw [he]; rfl)
        · exact digit_plain (hes c hc)

theorem descriptor_plain {cs : List Char} (h : 0 < descriptorLength cs) :
    ∀ c ∈ cs.take (descriptorLength cs), Plain c := by
  have hmem : cs.drop (descriptorLength cs) ∈ descriptorRule.ends cs := by
    have hfirst := first?_descriptorRule cs
    rw [if_neg (Nat.ne_of_gt h)] at hfirst
    exact List.mem_of_head? hfirst
  obtain ⟨letters, ds, fraction, hletters, hds, hfraction, hcs⟩ := of_mem_ends_descriptor hmem
  have hfront : cs.take (descriptorLength cs) = letters ++ (ds ++ fraction) := by
    have hall : cs.take (descriptorLength cs) ++ cs.drop (descriptorLength cs) =
        letters ++ (ds ++ fraction) ++ cs.drop (descriptorLength cs) := by
      rw [List.take_append_drop]
      simpa using hcs
    exact List.append_cancel_right hall
  rw [hfront]
  intro c hc
  rcases List.mem_append.1 hc with hc | hc
  · rcases hletters with ⟨a, rfl, ha⟩ | ⟨a, b, x, y, rfl, ha, hb, -⟩
    · rw [List.mem_singleton.1 hc]
      exact letter_plain ha
    · rcases List.mem_cons.1 hc with rfl | hc
      · exact letter_plain (by rw [ha]; rfl)
      · rw [List.mem_singleton.1 hc]
        exact letter_plain (by rw [hb]; rfl)
  · rcases List.mem_append.1 hc with hc | hc
    · exact digit_plain (hds c hc)
    · exact fraction_plain hfraction c hc

/-- What is cut off is a constant, a mark or plain. -/
theorem first?_cases {c : Char} {cs : List Char} {kind : Option TokenKind} {n : Nat}
    (h : first? (c :: cs) = some (kind, n)) :
    (kind = some .constant ∧ outside false (c :: cs) = outside false (cs.drop (n - 1))) ∨
      (kind = some (.mark c) ∧ n = 1 ∧ c ≠ '\'') ∨
      kind.bind TokenKind.mark? = none ∧ 0 < n ∧ ∀ d ∈ (c :: cs).take n, Plain d := by
  rw [first?] at h
  split at h
  · rename_i k hconstant
    cases h
    split at hconstant
    · rename_i hc
      rw [beq_iff_eq] at hc
      obtain hnone | ⟨j, rfl, hj⟩ := outside_constant none 1 cs _ hconstant
      · cases hnone
      · refine .inl ⟨rfl, ?_⟩
        rw [outside, if_pos hc, Bool.not_false, hj, Nat.add_sub_cancel_left]
    · cases hconstant
  · split at h
    · rename_i hd
      cases h
      exact .inr (.inr ⟨rfl, hd, descriptor_plain hd⟩)
    · split at h
      · rename_i hc
        cases h
        refine .inr (.inr ⟨rfl, by simp [digitCount, hc], fun d hd => digit_plain ?_⟩)
        rw [digitCount, ← List.prefix_iff_eq_take.1 (List.takeWhile_prefix _)] at hd
        exact List.mem_takeWhile_imp hd
      · split at h
        · rename_i hm
          cases h
          refine .inr (.inl ⟨rfl, rfl, ?_⟩)
          rintro rfl
          cases hm
        · split at h
          · rename_i hc
            cases h
            refine .inr (.inr ⟨rfl, by simp [hc], fun d hd => ?_⟩)
            rw [← List.prefix_iff_eq_take.1 (List.takeWhile_prefix _)] at hd
            have hgap := List.mem_takeWhile_imp hd
            refine ⟨?_, ?_, ?_⟩ <;> rintro rfl <;> cases hgap
          · cases h

theorem depth_append_congr (front : List Char) {a b : List Char}
    (h : ∀ n, depth n a = depth n b) : ∀ n, depth n (front ++ a) = depth n (front ++ b) := by
  induction front with
  | nil => exact h
  | cons c cs ih =>
    intro n
    simp only [List.cons_append, depth, ih]

/-- A step of the cutting takes no parentheses outside quotes but the mark it finds. -/
theorem outside_first {c : Char} {cs text : List Char} {kind : Option TokenKind} {k : Nat}
    (h : first? (c :: cs) = some (kind, k)) (hrest : outside false (cs.drop (k - 1)) = some text) :
    ∃ all, outside false (c :: cs) = some all ∧
      ∀ n, depth n all = depth n ((kind.bind TokenKind.mark?).toList ++ text) := by
  rcases first?_cases h with ⟨rfl, hconstant⟩ | ⟨rfl, rfl, hquote⟩ | ⟨hmark, hk, hplain⟩
  · exact ⟨text, by rw [hconstant, hrest], fun _ => rfl⟩
  · refine ⟨c :: text, ?_, fun _ => rfl⟩
    rw [outside, if_neg hquote, if_neg Bool.false_ne_true]
    exact congrArg (Option.map (c :: ·)) hrest
  · have hall : (c :: cs).take k ++ cs.drop (k - 1) = c :: cs := by
      obtain ⟨k, rfl⟩ : ∃ j, k = j + 1 := ⟨k - 1, by omega⟩
      rw [List.take_succ_cons, Nat.add_sub_cancel, List.cons_append, List.take_append_drop]
    refine ⟨(c :: cs).take k ++ text, ?_, fun n => ?_⟩
    · rw [← hall, outside_append_plain (fun hq => (hplain _ hq).1 rfl), hrest, hall]
      rfl
    · rw [depth_append_plain (fun d hd => (hplain d hd).2), hmark]
      rfl

/-- The parentheses outside quotes are those among the tokens. -/
theorem outside_cut {p : Nat × Nat} {cs : List Char} :
    ∀ {ts : List Token} {last : Nat × Nat}, cutFrom p cs = .ok (ts, last) →
      ∃ text, outside false cs = some text ∧
        ∀ n, depth n text = depth n (ts.filterMap Token.mark?) := by
  fun_induction cutFrom p cs with
  | case1 p =>
    intro ts last h
    cases h
    exact ⟨[], rfl, fun _ => rfl⟩
  | case2 => exact fun h => nomatch h
  | case3 => exact fun h => nomatch h
  | case4 p c cs n taken rest last' hrest k hfirst =>
    rename_i ih
    intro ts last h
    cases h
    obtain ⟨text, htext, hdepth⟩ := ih hrest
    obtain ⟨all, hall, hfront⟩ := outside_first hfirst htext
    refine ⟨all, hall, fun n => ?_⟩
    rw [hfront, depth_append_congr _ hdepth]
    cases k <;> rfl
  | case5 p c cs n taken rest last' hrest hfirst =>
    rename_i ih
    intro ts last h
    cases h
    obtain ⟨text, htext, hdepth⟩ := ih hrest
    obtain ⟨all, hall, hfront⟩ := outside_first hfirst htext
    exact ⟨all, hall, fun n => by rw [hfront, ← hdepth]; rfl⟩

variable {tokens : Array Token}

/-- From one position on as many parentheses are open as from another. -/
def Passes (tokens : Array Token) (a b : Nat) : Prop :=
  ∀ n, depth n ((tokens.toList.drop a).filterMap Token.mark?) =
    depth n ((tokens.toList.drop b).filterMap Token.mark?)

theorem Passes.refl (a : Nat) : Passes tokens a a := fun _ => rfl

theorem Passes.trans {a b c : Nat} (h : Passes tokens a b) (h' : Passes tokens b c) :
    Passes tokens a c :=
  fun n => (h n).trans (h' n)

/-- A token that is no parenthesis is passed. -/
theorem Passes.token {a : Nat} {t : Token} (h : tokens[a]? = some t)
    (hmark : ∀ m, t.kind = .mark m → m ≠ '(' ∧ m ≠ ')') : Passes tokens a (a + 1) := by
  intro n
  rw [← Array.getElem?_toList] at h
  obtain ⟨ha, rfl⟩ := List.getElem?_eq_some_iff.1 h
  rw [List.drop_eq_getElem_cons ha, List.filterMap_cons]
  split
  · rfl
  · rename_i m hm
    have hkind : (tokens.toList[a]).kind = .mark m := by
      unfold Token.mark? TokenKind.mark? at hm
      split at hm
      · cases hm
        assumption
      · cases hm
    obtain ⟨hopen, hclose⟩ := hmark m hkind
    rw [depth, if_neg hopen, if_neg hclose]

/-- What opens is closed again. -/
theorem Passes.group {a b : Nat} {t u : Token} (ht : tokens[a]? = some t)
    (hopen : t.kind = .mark '(') (h : Passes tokens (a + 1) b) (hu : tokens[b]? = some u)
    (hclose : u.kind = .mark ')') :
    Passes tokens a (b + 1) := by
  intro n
  rw [← Array.getElem?_toList] at ht hu
  obtain ⟨ha, rfl⟩ := List.getElem?_eq_some_iff.1 ht
  obtain ⟨hb, rfl⟩ := List.getElem?_eq_some_iff.1 hu
  have hinner := h (n + 1)
  rw [List.drop_eq_getElem_cons hb] at hinner
  rw [List.drop_eq_getElem_cons ha]
  simp only [List.filterMap_cons, Token.mark?, hopen, hclose, TokenKind.mark?] at hinner ⊢
  rw [depth, if_pos rfl, hinner, depth, if_neg (by decide), if_pos rfl, if_neg (Nat.succ_ne_zero n),
    Nat.add_sub_cancel]

section Readers

variable {items : Cursor → Reading (List Item) × Cursor} {c d : Cursor} {i : Item}
  (hitems : ∀ c is d, items c = (.matched is, d) → Passes tokens c.pos d.pos)

include hitems

theorem readBody_passes (h : readBody tokens items c = some (.matched i, d)) :
    Passes tokens c.pos d.pos := by
  unfold readBody at h
  split at h
  · rename_i text place hopen
    dsimp only at h
    split at h
    · rename_i is b hread
      split at h
      · rename_i hclose
        obtain ⟨u, hu, hkind⟩ := (Option.any_eq_true _ _).1 hclose
        cases h
        rw [Cursor.accept_pos]
        exact .group hopen rfl (hitems _ _ _ hread) hu (eq_of_beq hkind)
      · cases h
    · cases h
    · cases h
  · rename_i text place hdescriptor
    cases h
    exact .token hdescriptor nofun
  · cases h

theorem readField_passes (h : readField tokens items c = (.matched i, d)) :
    Passes tokens c.pos d.pos := by
  unfold readField at h
  extract_lets digits? c' at h
  have hcount : Passes tokens c.pos c'.pos := by
    dsimp only [c', digits?]
    split
    · rename_i hdigits
      split at hdigits
      · rename_i hnumber
        exact .token hnumber nofun
      · cases hdigits
    · exact .refl _
  clear_value c' digits?
  split at h
  · cases h
  · cases h
  · cases h
  · rename_i j b hbody
    have hall : Passes tokens c.pos b.pos := hcount.trans (readBody_passes hitems hbody)
    split at h
    · cases h
      exact hall
    · split at h
      · cases h
        exact hall
      · cases h

theorem readItem_passes (h : readItem tokens items c = (.matched i, d)) :
    Passes tokens c.pos d.pos := by
  unfold readItem at h
  split at h
  · rename_i j hsimple
    cases h
    obtain ⟨t, ht, hitem⟩ := Option.bind_eq_some_iff.1 hsimple
    refine .token ht fun m hm => ?_
    rw [simpleItem?, hm] at hitem
    refine ⟨?_, ?_⟩ <;> rintro rfl <;> cases hitem
  · split at h
    · rename_i j b hfield
      cases h
      rw [Cursor.accept_pos]
      exact readField_passes hitems hfield
    · cases h
    · cases h

end Readers

/-- Every item that is read closes what it opens. -/
theorem readItems_passes (bound : Nat) : ∀ c is d,
    readItems tokens bound c = (.matched is, d) → Passes tokens c.pos d.pos := by
  induction bound with
  | zero =>
    intro c is d h
    cases h
    exact .refl _
  | succ bound ih =>
    intro c is d h
    rw [readItems] at h
    split at h
    · rename_i i b hitem
      have hfirst := readItem_passes ih hitem
      split at h
      · rename_i is d' hrest
        cases h
        have hmore := ih _ _ _ hrest
        rw [Cursor.accept_pos] at hmore
        exact hfirst.trans hmore
      · rename_i hno
        exact absurd h (hno is d)
    · rename_i e b hitem
      rcases hstop : (c.note e).stop e b with ⟨final, d'⟩
      simp only [hstop] at h
      cases final with
      | true => cases h
      | false =>
        cases h
        rw [(c.note e).stop_pos b e hstop, Cursor.note_pos]
        exact .refl _
    · cases h

/-- What is read has its quotes closed and its parentheses in balance. -/
theorem balanced_of_read {spec : String} {items : List Item} (h : read spec = .ok items) :
    Balanced spec := by
  unfold read at h
  split at h
  · cases h
  · rename_i tokens last hcut
    dsimp only at h
    split at h
    · cases h
    · cases h
    · rename_i is c hread
      split at h
      · split at h
        · split at h <;> cases h
        · cases h
      · rename_i hend
        obtain ⟨text, htext, hdepth⟩ := outside_cut hcut
        have hpasses := readItems_passes _ _ _ _ hread 0
        have hnone : tokens.toArray.toList.drop c.pos = [] :=
          List.drop_eq_nil_of_le (Nat.le_of_not_lt hend)
        rw [hnone] at hpasses
        rw [Balanced, htext, Option.bind_some, hdepth]
        exact hpasses

end Parentheses

/-! ## Reading inverts writing -/

/-- Tokens are found by the rules in their order, a format that is written out is read as itself,
and a text whose quotes stay open or whose parentheses outside quotes do not match is refused. -/
theorem read_inverts_writing :
    (∀ cs, Token.first? cs = Token.byRules? cs) ∧
      (∀ gap items, IsGap gap → (∀ i ∈ items, i.Proper) →
        read (String.ofList (writtenItems gap items)) = .ok items) ∧
      ∀ spec, ¬Balanced spec → ∃ e, read spec = .error e := by
  refine ⟨Token.first?_eq_byRules?, fun gap items hgap h => read_writtenItems hgap h,
    fun spec hspec => ?_⟩
  cases hread : read spec with
  | error e => exact ⟨e, rfl⟩
  | ok items => exact absurd (balanced_of_read hread) hspec

theorem read_inverts_writing_nested :
    read "'it''s 5(%' , 2(3I5 / (E12.4E3 10tl2)) F" =
        .ok [.text "'it''s 5(%'", .comma,
          .group 2 [.edit 3 "I5", .slash, .group 0 [.edit 0 "E12.4E3", .edit 10 "tl2"]],
          .edit 0 "F"] ∧
      ∃ e, read "2('(' I5" = .error e := by
  have hmatches : ∀ d ∈ ["I5", "E12.4E3", "tl2", "F"], Token.descriptorRule.Matches d.toList := by
    unfold Regex.Matches
    decide
  have hinner : ∀ i ∈ [Item.edit 0 "E12.4E3", .edit 10 "tl2"], i.Proper := by
    simp only [List.forall_mem_cons, List.not_mem_nil]
    exact ⟨.edit (by decide) (hmatches _ (by decide)), .edit (by decide) (hmatches _ (by decide)),
      nofun⟩
  have hgroup : ∀ i ∈ [Item.edit 3 "I5", .slash, .group 0 [.edit 0 "E12.4E3", .edit 10 "tl2"]],
      i.Proper := by
    simp only [List.forall_mem_cons, List.not_mem_nil]
    exact ⟨.edit (by decide) (hmatches _ (by decide)), .slash,
      .group (by decide) (List.cons_ne_nil _ _) hinner, nofun⟩
  have hall : ∀ i ∈ [Item.text (Text.fortranConstant "it's 5(%"), .comma,
      .group 2 [.edit 3 "I5", .slash, .group 0 [.edit 0 "E12.4E3", .edit 10 "tl2"]],
      .edit 0 "F"], i.Proper := by
    simp only [List.forall_mem_cons, List.not_mem_nil]
    exact ⟨.text _, .comma, .group (by decide) (List.cons_ne_nil _ _) hgroup,
      .edit (by decide) (hmatches _ (by decide)), nofun⟩
  have htext : String.ofList (writtenItems [' ']
      [Item.text (Text.fortranConstant "it's 5(%"), .comma,
      .group 2 [.edit 3 "I5", .slash, .group 0 [.edit 0 "E12.4E3", .edit 10 "tl2"]],
      .edit 0 "F"]) = "'it''s 5(%' , 2(3I5 / (E12.4E3 10tl2)) F" := by
    decide +kernel
  have hconstant : Text.fortranConstant "it's 5(%" = "'it''s 5(%'" := by decide
  have hread := read_inverts_writing.2.1 [' '] _
    ⟨List.cons_ne_nil _ _, List.forall_mem_singleton.2 rfl⟩ hall
  rw [htext, hconstant] at hread
  exact ⟨hread, read_inverts_writing.2.2 _ (by decide)⟩

end FortranJulia.Format
