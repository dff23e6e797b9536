import FortranJulia.Proofs.Format.Rules
import FortranJulia.Proofs.LetterCase.Scanning
import FortranJulia.Proofs.Meaning.Translation
import FortranJulia.Proofs.Scanning.Constants

/-!
Formats written out: the items in order with blanks between them, a count of repetitions in decimal
in front of what it repeats, and a group in parentheses. What is written is cut into the tokens of
the items again, whatever follows in parentheses or behind a blank.
-/

namespace FortranJulia.Format

set_option autoImplicit false

open Decimal (isDigit)

/-! ## Written items -/

/-- A count of repetitions; zero stands for none and is not written. -/
def countText (n : Nat) : List Char :=
  if n = 0 then [] else (Decimal.digits n).toList

mutual

/-- An item as it is written, with `gap` between the items of a group. -/
def Item.written (gap : List Char) : Item → List Char
  | .comma => [',']
  | .colon => [':']
  | .dollar => ['$']
  | .slash => ['/']
  | .text s => s.toList
  | .edit n d => countText n ++ d.toList
  | .group n is => countText n ++ '(' :: (writtenItems gap is ++ [')'])

/-- Items as they are written, with `gap` between any two. -/
def writtenItems (gap : List Char) : List Item → List Char
  | [] => []
  | i :: is => i.written gap ++ ((if is.isEmpty then [] else gap) ++ writtenItems gap is)

end

/-- The items that can be written: texts are character constants, descriptors match their rule,
groups are not empty and counts have 64 bits. -/
inductive Item.Proper : Item → Prop where
  | comma : Proper .comma
  | colon : Proper .colon
  | dollar : Proper .dollar
  | slash : Proper .slash
  | text (s : String) : Proper (.text (Text.fortranConstant s))
  | edit {n : Nat} {d : String} (count : n ≤ Decimal.maxInt)
    (matched : Token.descriptorRule.Matches d.toList) : Proper (.edit n d)
  | group {n : Nat} {is : List Item} (count : n ≤ Decimal.maxInt) (filled : is ≠ [])
    (items : ∀ i ∈ is, Proper i) : Proper (.group n is)

/-- Blanks between two items. -/
def IsGap (gap : List Char) : Prop := gap ≠ [] ∧ ∀ c ∈ gap, c = ' '

/-! ## The tokens of items -/

def Token.core (t : Token) : TokenKind × String := (t.kind, t.text)

def countToken (n : Nat) : List (TokenKind × String) :=
  if n = 0 then [] else [(.number, Decimal.digits n)]

mutual

def Item.tokens : Item → List (TokenKind × String)
  | .comma => [(.mark ',', ",")]
  | .colon => [(.mark ':', ":")]
  | .dollar => [(.mark '$', "$")]
  | .slash => [(.mark '/', "/")]
  | .text s => [(.constant, s)]
  | .edit n d => countToken n ++ [(.descriptor, d)]
  | .group n is => countToken n ++ (.mark '(', "(") :: (itemTokens is ++ [(.mark ')', ")")])

def itemTokens : List Item → List (TokenKind × String)
  | [] => []
  | i :: is => i.tokens ++ itemTokens is

end

namespace Token

/-! ## Cutting -/

/-- Characters that are cut into tokens of these kinds and texts where others follow. -/
def CutInto (front : List Char) (ts : List (TokenKind × String)) (rest : List Char) : Prop :=
  ∀ p, ∃ p' new, new.map Token.core = ts ∧
    cutFrom p (front ++ rest) = (cutFrom p' rest).map fun r => (new ++ r.1, r.2)

theorem CutInto.nil (rest : List Char) : CutInto [] [] rest := by
  intro p
  refine ⟨p, [], rfl, ?_⟩
  rw [List.nil_append]
  cases cutFrom p rest <;> rfl

theorem CutInto.append {a b rest : List Char} {ts us : List (TokenKind × String)}
    (ha : CutInto a ts (b ++ rest)) (hb : CutInto b us rest) :
    CutInto (a ++ b) (ts ++ us) rest := by
  intro p
  obtain ⟨p', new, hnew, hcut⟩ := ha p
  obtain ⟨p'', more, hmore, hcut'⟩ := hb p'
  refine ⟨p'', new ++ more, by rw [List.map_append, hnew, hmore], ?_⟩
  rw [List.append_assoc, hcut, hcut']
  cases cutFrom p'' rest with
  | error e => rfl
  | ok r => simp [Except.map]

/-- A step of the cutting takes what is found at the front. -/
theorem cutFrom_step {front rest : List Char} {kind : Option TokenKind} (hne : front ≠ [])
    (h : first? (front ++ rest) = some (kind, front.length)) (p : Nat × Nat) :
    cutFrom p (front ++ rest) = (cutFrom (advance p front) rest).map fun r =>
      ((kind.map fun k => ⟨k, String.ofList front, p⟩).toList ++ r.1, r.2) := by
  obtain ⟨c, cs, rfl⟩ := List.exists_cons_of_ne_nil hne
  have htake : (c :: (cs ++ rest)).take (c :: cs).length = c :: cs := List.take_left
  have hdrop : (cs ++ rest).drop ((c :: cs).length - 1) = rest := List.drop_left
  rw [List.cons_append] at h ⊢
  rw [cutFrom, h]
  simp only [htake, hdrop]
  cases cutFrom (advance p (c :: cs)) rest <;> cases kind <;> rfl

theorem CutInto.token {front rest : List Char} {k : TokenKind} (hne : front ≠ [])
    (h : first? (front ++ rest) = some (some k, front.length)) :
    CutInto front [(k, String.ofList front)] rest :=
  fun p => ⟨_, [⟨k, String.ofList front, p⟩], rfl, cutFrom_step hne h p⟩

theorem CutInto.gap {front rest : List Char} (hne : front ≠ [])
    (h : first? (front ++ rest) = some (none, front.length)) : CutInto front [] rest :=
  fun p => ⟨_, [], rfl, cutFrom_step hne h p⟩

/-! ## What is found at the front -/

/-- What may follow an item: nothing, a blank or a closing parenthesis. -/
def Apart (rest : List Char) : Prop := ∀ c, rest.head? = some c → c = ' ' ∨ c = ')'

theorem descriptorLength_of_letterless {c : Char} (h : letterOf? c = none) (cs : List Char) :
    descriptorLength (c :: cs) = 0 := by
  simp [descriptorLength, letterCount, h]

theorem cut_mark {m : Char} (hm : isMark m) (rest : List Char) :
    CutInto [m] [(.mark m, String.ofList [m])] rest := by
  refine CutInto.token (List.cons_ne_nil _ _) ?_
  simp only [isMark, Bool.or_eq_true, beq_iff_eq] at hm
  have hletter : letterOf? m = none := by
    rcases hm with ((((rfl | rfl) | rfl) | rfl) | rfl) | rfl <;> rfl
  rw [List.singleton_append, first?, descriptorLength_of_letterless hletter]
  rcases hm with ((((rfl | rfl) | rfl) | rfl) | rfl) | rfl <;> rfl

theorem cut_gap {gap rest : List Char} (hgap : IsGap gap)
    (hrest : ∀ c, rest.head? = some c → isGap c = false) : CutInto gap [] rest := by
  obtain ⟨hne, hblank⟩ := hgap
  refine CutInto.gap hne ?_
  have htake : (gap ++ rest).takeWhile isGap = gap := by
    rw [List.takeWhile_append_of_pos (fun c hc => by rw [hblank c hc]; rfl)]
    cases rest with
    | nil => simp
    | cons c cs => simp [hrest c rfl]
  obtain ⟨c, cs, rfl⟩ := List.exists_cons_of_ne_nil hne
  obtain rfl := hblank c List.mem_cons_self
  rw [List.cons_append] at htake ⊢
  rw [first?, descriptorLength_of_letterless rfl, htake]
  rfl

/-- A constant ends at its closing quote. -/
theorem constantLength_doubled {rest : List Char} (hrest : rest.head? ≠ some '\'')
    (fallback : Option Nat) (taken : Nat) (value : List Char) :
    constantLength fallback taken (Scan.doubled '\'' value ++ '\'' :: rest) =
      some (taken + (Scan.doubled '\'' value).length + 1) := by
  induction value generalizing fallback taken with
  | nil =>
    cases rest with
    | nil => rfl
    | cons c cs =>
      have hc : c ≠ '\'' := fun h => hrest (by rw [h]; rfl)
      rw [Scan.doubled, List.flatMap_nil, List.nil_append, constantLength]
      · rfl
      · rintro cs' h
        exact hc (List.cons.inj h).1
  | cons c cs ih =>
    rw [Scan.doubled, List.flatMap_cons, ← Scan.doubled, List.append_assoc, List.length_append]
    by_cases hc : c = '\''
    · rw [if_pos hc, List.cons_append, List.cons_append, List.nil_append, constantLength, ih]
      congr 1
      simp only [List.length_cons, List.length_nil]
      omega
    · rw [if_neg hc, List.cons_append, List.nil_append, constantLength, ih]
      · congr 1
        simp only [List.length_cons, List.length_nil]
        omega
      · exact fun _ h _ => hc h
      · exact hc

theorem toList_fortranConstant (s : String) :
    (Text.fortranConstant s).toList = '\'' :: (Scan.doubled '\'' s.toList ++ ['\'']) := by
  rw [Text.fortranConstant, String.toList_ofList]
  simp only [Scan.doubled, beq_iff_eq, List.cons_append]

theorem cut_constant (s : String) {rest : List Char} (hrest : Apart rest) :
    CutInto (Text.fortranConstant s).toList [(.constant, Text.fortranConstant s)] rest := by
  have hquote : rest.head? ≠ some '\'' := by
    intro h
    rcases hrest _ h with h | h <;> cases h
  have h := @CutInto.token (Text.fortranConstant s).toList rest .constant
    (by simp [toList_fortranConstant]) (by
      rw [toList_fortranConstant, List.cons_append, List.append_assoc, List.singleton_append,
        first?]
      simp only [beq_self_eq_true, if_true, constantLength_doubled hquote]
      simp only [List.length_cons, List.length_append, List.length_nil]
      congr 3
      omega)
  rwa [String.ofList_toList] at h

theorem letterOf?_digit {c : Char} (h : isDigit c) : letterOf? c = none := by
  have hdigits : ∀ n < 58, 48 ≤ n → letterOf? (Char.ofNat n) = none := by decide
  simp only [isDigit, Bool.and_eq_true, decide_eq_true_eq, Char.le_def,
    UInt32.le_iff_toNat_le] at h
  have hnone := hdigits c.toNat (Nat.lt_succ_of_le h.2) h.1
  rwa [Char.ofNat_toNat] at hnone

theorem cut_digits (n : Nat) {rest : List Char} (hrest : rest.head?.any isDigit = false) :
    CutInto (Decimal.digits n).toList [(.number, Decimal.digits n)] rest := by
  have hdigits := digits_isDigit n
  have hcount : digitCount ((Decimal.digits n).toList ++ rest) =
      (Decimal.digits n).toList.length := by
    rw [digitCount, (Decimal.takeWhile_digits hdigits hrest).1]
  have h := @CutInto.token _ rest .number (digits_ne_nil n) (by
    obtain ⟨c, cs, hcs⟩ := List.exists_cons_of_ne_nil (digits_ne_nil n)
    rw [hcs] at hdigits hcount ⊢
    have hc := hdigits c List.mem_cons_self
    have hquote : (c == '\'') = false := by
      rw [beq_eq_false_iff_ne]
      rintro rfl
      cases hc
    rw [List.cons_append] at hcount ⊢
    rw [first?, descriptorLength_of_letterless (letterOf?_digit hc), hcount]
    simp [hquote, hc])
  rwa [String.ofList_toList] at h

/-! ## Descriptors -/

/-- What is no part of a number. -/
theorem digitCount_append {ds rest : List Char} (hds : ∀ d ∈ ds, isDigit d)
    (hrest : rest.head?.any isDigit = false) : digitCount (ds ++ rest) = ds.length := by
  rw [digitCount, (Decimal.takeWhile_digits hds hrest).1]

theorem letterCount_append {letters rest : List Char} (hletters : IsLetters letters)
    (hrest : rest.head?.bind letterOf? = none) :
    letterCount (letters ++ rest) = letters.length := by
  rcases hletters with ⟨c, rfl, hc⟩ | ⟨c, d, a, b, rfl, hc, hd, hpair⟩
  · obtain ⟨a, ha⟩ := Option.isSome_iff_exists.1 hc
    simp [letterCount, ha, hrest]
  · simp [letterCount, hc, hd, hpair]

theorem Apart.digit {rest : List Char} (h : Apart rest) : rest.head?.any isDigit = false := by
  cases rest with
  | nil => rfl
  | cons c cs => rcases h c rfl with rfl | rfl <;> rfl

theorem Apart.letter {rest : List Char} (h : Apart rest) : rest.head?.bind letterOf? = none := by
  cases rest with
  | nil => rfl
  | cons c cs => rcases h c rfl with rfl | rfl <;> rfl

theorem fractionLength_append {fraction rest : List Char} (hfraction : IsFraction fraction)
    (hrest : Apart rest) : fractionLength (fraction ++ rest) = fraction.length := by
  rcases hfraction with rfl | ⟨ds, x, rfl, hne, hds, hx⟩
  · cases rest with
    | nil => rfl
    | cons c cs => rcases hrest c rfl with rfl | rfl <;> rfl
  · have hlength : ds.length ≠ 0 := fun h => hne (List.length_eq_zero_iff.1 h)
    have hexponent : (x ++ rest).head?.any isDigit = false := by
      rcases hx with rfl | ⟨e, es, rfl, he, hes, hdigits⟩
      · exact hrest.digit
      · cases hc : isDigit e with
        | false => exact hc
        | true => rw [letterOf?_digit hc] at he; cases he
    rw [List.cons_append, List.append_assoc, fractionLength, digitCount_append hds hexponent,
      List.drop_left]
    simp only [beq_iff_eq, hlength, if_false]
    rcases hx with rfl | ⟨e, es, rfl, he, hes, hdigits⟩
    · cases rest with
      | nil => simp
      | cons c cs => rcases hrest c rfl with rfl | rfl <;> simp
    · have hletter : (e == 'E' || e == 'e') = true := by
        rw [← letterOf?_exponent, he]
        rfl
      have hwidth : es.length ≠ 0 := fun h => hes (List.length_eq_zero_iff.1 h)
      rw [List.cons_append]
      simp only [hletter, digitCount_append hdigits hrest.digit, Nat.pos_of_ne_zero hwidth,
        List.length_cons, List.length_append, Bool.true_and, decide_true, if_true]
      omega

theorem cut_descriptor {d : String} (h : descriptorRule.Matches d.toList) {rest : List Char}
    (hrest : Apart rest) : CutInto d.toList [(.descriptor, d)] rest := by
  obtain ⟨letters, ds, fraction, hletters, hds, hfraction, hd⟩ := of_mem_ends_descriptor h
  rw [List.append_nil] at hd
  -- What follows the letters is no letter, and what follows the width is no digit.
  have hpoint : (fraction ++ rest).head?.any isDigit = false := by
    rcases hfraction with rfl | ⟨ds, x, rfl, -⟩
    · exact hrest.digit
    · rfl
  have hnumber : (ds ++ (fraction ++ rest)).head?.bind letterOf? = none := by
    cases ds with
    | nil =>
      rcases hfraction with rfl | ⟨ds, x, rfl, -⟩
      · exact hrest.letter
      · rfl
    | cons c cs => exact letterOf?_digit (hds c List.mem_cons_self)
  have hfirst : letters ≠ [] := by
    rcases hletters with ⟨c, rfl, -⟩ | ⟨c, d, a, b, rfl, -⟩ <;> exact List.cons_ne_nil _ _
  have hcount : letters.length ≠ 0 := fun h => hfirst (List.length_eq_zero_iff.1 h)
  have hlength : descriptorLength (d.toList ++ rest) = d.toList.length := by
    rw [hd, List.append_assoc, List.append_assoc, descriptorLength,
      letterCount_append hletters hnumber]
    split
    · exact absurd ‹_› hcount
    · simp only [List.drop_left, digitCount_append hds hpoint, ← List.drop_drop,
        fractionLength_append hfraction hrest, List.length_append]
      omega
  have htoken := @CutInto.token d.toList rest .descriptor
    (by rw [hd]; exact List.append_ne_nil_of_left_ne_nil hfirst _) (by
      obtain ⟨c, cs, hcs⟩ := List.exists_cons_of_ne_nil hfirst
      have hquote : (c == '\'') = false := by
        rw [beq_eq_false_iff_ne]
        rintro rfl
        rcases hletters with ⟨c, rfl, hc⟩ | ⟨c, d, a, b, rfl, hc, -⟩
        · cases hcs
          cases hc
        · cases hcs
          cases hc
      have hpos : 0 < d.toList.length := by
        rw [hd, List.length_append]
        omega
      have hcons : d.toList ++ rest = c :: (cs ++ (ds ++ fraction) ++ rest) := by
        rw [hd, hcs]
        rfl
      rw [hcons] at hlength ⊢
      rw [first?]
      simp only [hquote, Bool.false_eq_true, if_false, gt_iff_lt, hlength, hpos, if_true])
  rwa [String.ofList_toList] at htoken

end Token

/-! ## Formats -/

theorem tokens_length_pos (i : Item) : 0 < i.tokens.length := by
  cases i <;> simp [Item.tokens]

section Cuts

open Token

variable {gap : List Char}

theorem cut_count {n : Nat} {rest : List Char} (hrest : rest.head?.any isDigit = false) :
    CutInto (countText n) (countToken n) rest := by
  unfold countText countToken
  split
  · exact .nil rest
  · exact cut_digits n hrest

/-- What follows a count of an item that is repeated starts with a letter. -/
theorem descriptor_head {d : String} (h : descriptorRule.Matches d.toList) (rest : List Char) :
    ∃ c, (d.toList ++ rest).head? = some c ∧ (letterOf? c).isSome := by
  obtain ⟨letters, ds, fraction, hletters, -, -, hd⟩ := of_mem_ends_descriptor h
  rw [hd]
  rcases hletters with ⟨c, rfl, hc⟩ | ⟨c, d, a, b, rfl, hc, -⟩
  · exact ⟨c, rfl, hc⟩
  · exact ⟨c, rfl, by rw [hc]; rfl⟩

theorem countText_append_head (n : Nat) {rest : List Char} {c : Char} (h : rest.head? = some c) :
    ∃ d, (countText n ++ rest).head? = some d ∧ (isDigit d ∨ d = c) := by
  unfold countText
  split
  · exact ⟨c, h, .inr rfl⟩
  · obtain ⟨d, ds, hds⟩ := List.exists_cons_of_ne_nil (digits_ne_nil n)
    rw [hds]
    exact ⟨d, rfl, .inl (digits_isDigit n d (by rw [hds]; exact List.mem_cons_self))⟩

/-- No item starts with a blank. -/
theorem written_head {i : Item} (h : i.Proper) (rest : List Char) :
    ∃ c, (i.written gap ++ rest).head? = some c ∧ isGap c = false := by
  have hcounted : ∀ {n : Nat} {cs : List Char} {c : Char}, cs.head? = some c → isGap c = false →
      ∃ d, (countText n ++ cs).head? = some d ∧ isGap d = false := by
    intro n cs c hc hgap
    obtain ⟨d, hd, hdigit | rfl⟩ := countText_append_head n hc
    · refine ⟨d, hd, ?_⟩
      cases hgap : isGap d with
      | false => rfl
      | true =>
        simp only [isGap, Bool.or_eq_true, beq_iff_eq] at hgap
        rcases hgap with rfl | rfl <;> cases hdigit
    · exact ⟨d, hd, hgap⟩
  cases h with
  | comma => exact ⟨',', rfl, rfl⟩
  | colon => exact ⟨':', rfl, rfl⟩
  | dollar => exact ⟨'$', rfl, rfl⟩
  | slash => exact ⟨'/', rfl, rfl⟩
  | text s => exact ⟨'\'', by rw [Item.written, toList_fortranConstant]; rfl, rfl⟩
  | edit count matched =>
    obtain ⟨c, hc, hletter⟩ := descriptor_head matched rest
    rw [Item.written, List.append_assoc]
    refine hcounted hc ?_
    cases hgap : isGap c with
    | false => rfl
    | true =>
      simp only [isGap, Bool.or_eq_true, beq_iff_eq] at hgap
      rcases hgap with rfl | rfl <;> cases hletter
  | group count filled items =>
    rw [Item.written, List.append_assoc]
    exact hcounted rfl rfl

theorem writtenItems_head {is : List Item} (hne : is ≠ []) (h : ∀ i ∈ is, i.Proper)
    (rest : List Char) :
    ∃ c, (writtenItems gap is ++ rest).head? = some c ∧ isGap c = false := by
  obtain ⟨i, is, rfl⟩ := List.exists_cons_of_ne_nil hne
  rw [writtenItems, List.append_assoc]
  exact written_head (h i List.mem_cons_self) _

/-- Items are cut into their tokens if each one is. -/
theorem cut_items (hgap : IsGap gap) : ∀ {is : List Item}, (∀ i ∈ is, i.Proper) →
    (∀ i ∈ is, ∀ rest, Apart rest → CutInto (i.written gap) i.tokens rest) →
    ∀ rest, Apart rest → CutInto (writtenItems gap is) (itemTokens is) rest
  | [], _, _, rest, _ => .nil rest
  | [i], _, hcut, rest, hrest => by
    simpa [writtenItems, itemTokens] using hcut i List.mem_cons_self rest hrest
  | i :: j :: js, hproper, hcut, rest, hrest => by
    have hrests := cut_items hgap (fun k hk => hproper k (List.mem_cons_of_mem i hk))
      (fun k hk => hcut k (List.mem_cons_of_mem i hk)) rest hrest
    have hblank : CutInto gap [] (writtenItems gap (j :: js) ++ rest) := by
      refine cut_gap hgap fun c hc => ?_
      obtain ⟨d, hd, hdgap⟩ := @writtenItems_head gap _ (List.cons_ne_nil j js)
        (fun k hk => hproper k (List.mem_cons_of_mem i hk)) rest
      rw [hd] at hc
      rwa [← Option.some.inj hc]
    have hapart : Apart (gap ++ writtenItems gap (j :: js) ++ rest) := by
      intro c hc
      obtain ⟨g, gs, rfl⟩ := List.exists_cons_of_ne_nil hgap.1
      obtain rfl : g = c := Option.some.inj hc
      exact .inl (hgap.2 g List.mem_cons_self)
    have hall := CutInto.append (hcut i List.mem_cons_self _ hapart) (CutInto.append hblank hrests)
    exact hall

/-- An item is cut into its tokens. -/
theorem cut_item (hgap : IsGap gap) {i : Item} (h : i.Proper) :
    ∀ rest, Apart rest → CutInto (i.written gap) i.tokens rest := by
  induction h with
  | comma => exact fun rest _ => cut_mark rfl rest
  | colon => exact fun rest _ => cut_mark rfl rest
  | dollar => exact fun rest _ => cut_mark rfl rest
  | slash => exact fun rest _ => cut_mark rfl rest
  | text s => exact fun rest hrest => cut_constant s hrest
  | @edit n d count matched =>
    intro rest hrest
    have hdigit : (d.toList ++ rest).head?.any isDigit = false := by
      obtain ⟨c, hc, hletter⟩ := descriptor_head matched rest
      rw [hc, Option.any_some]
      cases hd : isDigit c with
      | false => rfl
      | true => rw [letterOf?_digit hd] at hletter; cases hletter
    exact .append (cut_count hdigit) (cut_descriptor matched hrest)
  | @group n is count filled items ih =>
    intro rest hrest
    have hclose : CutInto [')'] [(.mark ')', ")")] rest := cut_mark rfl rest
    have hitems := cut_items hgap items ih ([')'] ++ rest)
      (fun c hc => .inr (Option.some.inj hc).symm)
    have hopen : CutInto ['('] [(.mark '(', "(")] (writtenItems gap is ++ [')'] ++ rest) :=
      cut_mark rfl _
    exact .append (cut_count rfl) (.append hopen (.append hitems hclose))

/-- Items in a row are cut into their tokens. -/
theorem cut_written (hgap : IsGap gap) {is : List Item} (h : ∀ i ∈ is, i.Proper) :
    ∃ tokens last, cut (String.ofList (writtenItems gap is)) = .ok (tokens, last) ∧
      tokens.map Token.core = itemTokens is := by
  obtain ⟨p, new, hnew, hcut⟩ := cut_items hgap h (fun i hi => cut_item hgap (h i hi)) []
    (fun _ hc => nomatch hc) (1, 1)
  refine ⟨new, p, ?_, hnew⟩
  rw [List.append_nil] at hcut
  rw [cut, String.toList_ofList, hcut, cutFrom]
  simp [Except.map]

end Cuts

end FortranJulia.Format
