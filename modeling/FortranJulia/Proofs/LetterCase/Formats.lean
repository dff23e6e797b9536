import FortranJulia.Format.Printf
import FortranJulia.Format.Read
import FortranJulia.Proofs.LetterCase.Scanning

/-!
Formats up to letter case. A specification in upper case has the tokens of the specification and is
read the same way, and the strings that the two print differ in the case of letters only.
-/

namespace FortranJulia

set_option autoImplicit false

namespace Format

/-! ## Formats in upper case -/

def Token.caps (t : Token) : Token :=
  { t with text := t.text.toUpper }

def ReadError.caps : ReadError → ReadError
  | .invalidText p rest => .invalidText p rest.toUpper
  | .unexpected p token expected => .unexpected p token.toUpper expected
  | .badCount digits r => .badCount digits.toUpper r

mutual

def Item.caps : Item → Item
  | .text s => .text s.toUpper
  | .edit n d => .edit n d.toUpper
  | .group n is => .group n (Item.capsAll is)
  | i => i

def Item.capsAll : List Item → List Item
  | [] => []
  | i :: is => i.caps :: Item.capsAll is

end

/-- The reading of other values in the same way. -/
def Reading.map {α β : Type} (f : α → β) : Reading α → Reading β
  | .matched v => .matched (f v)
  | .failed e => .failed e
  | .refused e => .refused e.caps

/-! ## Tokens -/

namespace Token

open Decimal (caseless_isDigit)

theorem caseless_letterOf? : Caseless letterOf? :=
  .of_letters (by decide)

theorem caseless_isMark : Caseless isMark :=
  .of_letters (by decide)

theorem caseless_isGap : Caseless isGap :=
  .of_letters (by decide)

@[simp] theorem digitCount_toUpper (cs : List Char) :
    digitCount (cs.map Char.toUpper) = digitCount cs := by
  rw [digitCount, caseless_isDigit.takeWhile, List.length_map, digitCount]

theorem constantLength_toUpper (fallback : Option Nat) (taken : Nat) (cs : List Char) :
    constantLength fallback taken (cs.map Char.toUpper) = constantLength fallback taken cs := by
  fun_induction constantLength fallback taken cs with
  | case1 => rfl
  | case2 fallback taken cs ih => exact ih
  | case3 fallback taken cs h =>
    cases cs with
    | nil => rfl
    | cons c cs =>
      have hc : c ≠ '\'' := by
        rintro rfl
        exact h cs rfl
      simp [constantLength, toUpper_ne rfl hc]
  | case4 fallback taken c cs h h' ih =>
    simpa [constantLength, toUpper_ne rfl h'] using ih

theorem letterCount_toUpper (cs : List Char) :
    letterCount (cs.map Char.toUpper) = letterCount cs := by
  cases cs with
  | nil => rfl
  | cons c cs =>
    have hnext : (cs.map Char.toUpper).head?.bind letterOf? = cs.head?.bind letterOf? := by
      cases cs with
      | nil => rfl
      | cons d ds => exact caseless_letterOf? d
    simp only [List.map_cons, letterCount, caseless_letterOf? c, hnext]

theorem fractionLength_toUpper (cs : List Char) :
    fractionLength (cs.map Char.toUpper) = fractionLength cs := by
  cases cs with
  | nil => rfl
  | cons c cs =>
    by_cases hc : c = '.'
    · subst hc
      have hletter : Caseless fun e => e == 'E' || e == 'e' := .of_letters (by decide)
      simp only [List.map_cons, show '.'.toUpper = '.' from rfl, fractionLength, digitCount_toUpper,
        ← List.map_drop]
      split
      · rfl
      · cases cs.drop (digitCount cs) with
        | nil => rfl
        | cons e ds => simp only [List.map_cons, hletter e, digitCount_toUpper]
    · simp [fractionLength, hc, toUpper_ne rfl hc]

@[simp] theorem descriptorLength_toUpper (cs : List Char) :
    descriptorLength (cs.map Char.toUpper) = descriptorLength cs := by
  rw [descriptorLength, letterCount_toUpper, descriptorLength]
  split
  · rfl
  · simp only [← List.map_drop, digitCount_toUpper, fractionLength_toUpper]

theorem advance_toUpper (p : Nat × Nat) (cs : List Char) :
    advance p (cs.map Char.toUpper) = advance p cs := by
  have hline : Caseless (· == '\n') := Caseless.beq rfl
  rw [advance, List.foldl_map, advance]
  congr 1
  funext p c
  simp only [hline c]

theorem first?_toUpper (cs : List Char) : first? (cs.map Char.toUpper) = first? cs := by
  cases cs with
  | nil => rfl
  | cons c cs =>
    have hquote : (c.toUpper == '\'') = (c == '\'') := Caseless.beq rfl c
    have hdescriptor := descriptorLength_toUpper (c :: cs)
    have hdigits := digitCount_toUpper (c :: cs)
    have hgaps : ((c :: cs).map Char.toUpper).takeWhile isGap =
        ((c :: cs).takeWhile isGap).map Char.toUpper := caseless_isGap.takeWhile _
    have hmark : isMark c → c.toUpper = c := toUpper_of_class (by decide)
    simp only [List.map_cons] at hdescriptor hdigits hgaps ⊢
    simp only [first?, hquote, constantLength_toUpper, hdescriptor, hdigits, caseless_isDigit c,
      caseless_isMark c, caseless_isGap c, hgaps, List.length_map]
    by_cases h : isMark c
    · rw [hmark h]
    · simp only [h]
      rfl

/-- The tokens of characters in upper case. -/
theorem cutFrom_toUpper (p : Nat × Nat) (cs : List Char) :
    cutFrom p (cs.map Char.toUpper) =
      ((cutFrom p cs).mapError ReadError.caps).map fun r => (r.1.map caps, r.2) := by
  fun_induction cutFrom p cs with
  | case1 p => rw [List.map_nil, cutFrom]; rfl
  | case2 p c cs h =>
    have hfirst := first?_toUpper (c :: cs)
    rw [List.map_cons, h] at hfirst
    rw [List.map_cons, cutFrom, hfirst]
    simp only [Except.mapError, Except.map, ReadError.caps, ofList_toUpper, List.map_cons]
  | case3 p c cs kind n h taken e hrest ih =>
    have hfirst := first?_toUpper (c :: cs)
    have hadvance := advance_toUpper p ((c :: cs).take n)
    rw [List.map_take, List.map_cons] at hadvance
    rw [List.map_cons, h] at hfirst
    rw [hrest] at ih
    rw [List.map_cons, cutFrom, hfirst]
    simp only [hadvance, ← List.map_drop]
    rw [ih]
    rfl
  | case4 p c cs n taken rest last hrest k h ih =>
    have hfirst := first?_toUpper (c :: cs)
    have hadvance := advance_toUpper p ((c :: cs).take n)
    rw [List.map_take, List.map_cons] at hadvance
    rw [List.map_cons, h] at hfirst
    rw [hrest] at ih
    rw [List.map_cons, cutFrom, hfirst]
    simp only [hadvance, ← List.map_drop]
    rw [ih, ← List.map_cons, ← List.map_take, ← ofList_toUpper]
    rfl
  | case5 p c cs n taken rest last hrest h ih =>
    have hfirst := first?_toUpper (c :: cs)
    have hadvance := advance_toUpper p ((c :: cs).take n)
    rw [List.map_take, List.map_cons] at hadvance
    rw [List.map_cons, h] at hfirst
    rw [hrest] at ih
    rw [List.map_cons, cutFrom, hfirst]
    simp only [hadvance, ← List.map_drop]
    rw [ih]
    rfl

end Token

/-! ## Reading -/

section Reading

variable (tokens : Array Token)

@[simp] theorem repeated_caps (n : Nat) (i : Item) : repeated n i.caps = (repeated n i).caps := by
  cases i <;> simp [repeated, Item.caps]

theorem capsAll_eq_map (is : List Item) : Item.capsAll is = is.map Item.caps := by
  induction is with
  | nil => rfl
  | cons i is ih => rw [Item.capsAll, ih, List.map_cons]

/-- A letter is no digit of any base up to ten, whatever its case. -/
theorem addDigits_toUpper {base : Nat} (hbase : base ≤ 10) (n : Nat) (cs : List Char) :
    addDigits base n (cs.map Char.toUpper) = addDigits base n cs := by
  induction cs generalizing n with
  | nil => rfl
  | cons c cs ih =>
    rw [List.map_cons, addDigits, addDigits]
    rcases toUpper_or_lower c with hc | ⟨l, rfl⟩
    · simp only [hc, ih]
    · have hletters : ∀ l : Letter, 10 ≤ l.lower.toUpper.toNat - '0'.toNat ∧
          10 ≤ l.lower.toNat - '0'.toNat := by decide
      obtain ⟨hupper, hlower⟩ := hletters l
      rw [if_pos (Nat.le_trans hbase hupper), if_pos (Nat.le_trans hbase hlower)]

theorem count_toUpper (digits : String) : count digits.toUpper = count digits := by
  rw [count, toList_toUpper, count]
  rcases digits.toList with _ | ⟨c, cs⟩
  · rfl
  · by_cases hc : c = '0'
    · subst hc
      cases cs with
      | nil => rfl
      | cons d ds => exact addDigits_toUpper (by decide) 0 (d :: ds)
    · have hten := addDigits_toUpper (Nat.le_refl 10) 0 (c :: cs)
      simpa [hc, toUpper_ne rfl hc] using hten

/-- The second reads what the first reads, in upper case. -/
def Reads {α : Type} (upper : α → α) (f g : Cursor → Reading α × Cursor) : Prop :=
  ∀ c, g c = ((f c).1.map upper, (f c).2)

variable {tokens} {f g : Cursor → Reading (List Item) × Cursor}

theorem readBody_caps (h : Reads (List.map Item.caps) f g) (c : Cursor) :
    readBody (tokens.map Token.caps) g c =
      (readBody tokens f c).map fun r => (r.1.map Item.caps, r.2) := by
  have hmark : ∀ i : Nat, ((tokens.map Token.caps)[i]?).any (fun t => t.kind == .mark ')') =
      (tokens[i]?).any (fun t => t.kind == .mark ')') := by
    intro i
    rw [Array.getElem?_map]
    cases tokens[i]? <;> rfl
  unfold readBody
  rw [Array.getElem?_map]
  cases tokens[c.pos]? with
  | none => rfl
  | some t =>
    obtain ⟨kind, text, place⟩ := t
    cases kind with
    | mark m =>
      by_cases hm : m = '('
      · subst hm
        simp only [Option.map_some, Token.caps, h c.step]
        rcases f c.step with ⟨is | e | e, b⟩
        · simp only [Reading.map, hmark]
          split <;> simp [Item.caps, capsAll_eq_map]
        · rfl
        · rfl
      · simp [Token.caps, hm]
    | _ => rfl

theorem readField_caps (h : Reads (List.map Item.caps) f g) :
    Reads Item.caps (readField tokens f) (readField (tokens.map Token.caps) g) := by
  intro c
  unfold readField
  rw [Array.getElem?_map]
  rcases tokens[c.pos]? with _ | ⟨kind, text, place⟩
  · simp only [Option.map_none, readBody_caps h, Option.isSome_none, Bool.false_eq_true, if_false]
    rcases readBody tokens f c with _ | ⟨i | e | e, b⟩ <;> rfl
  · cases kind with
    | number =>
      simp only [Option.map_some, Token.caps, readBody_caps h, Option.isSome_some, if_true]
      rcases readBody tokens f c.step with _ | ⟨i | e | e, b⟩
      · rfl
      · simp only [Option.map_some, Reading.map, count_toUpper]
        cases count text with
        | ok n => simp only [repeated_caps]
        | error r => rfl
      · rfl
      · rfl
    | _ =>
      simp only [Option.map_some, Token.caps, readBody_caps h, Option.isSome_none,
        Bool.false_eq_true, if_false]
      rcases readBody tokens f c with _ | ⟨i | e | e, b⟩ <;> rfl

theorem simpleItem?_caps (t : Token) : simpleItem? t.caps = (simpleItem? t).map Item.caps := by
  obtain ⟨kind, text, place⟩ := t
  simp only [simpleItem?, Token.caps]
  split <;> simp [Item.caps]

theorem readItem_caps (h : Reads (List.map Item.caps) f g) :
    Reads Item.caps (readItem tokens f) (readItem (tokens.map Token.caps) g) := by
  intro c
  have hsimple : ((tokens.map Token.caps)[c.pos]?).bind simpleItem? =
      ((tokens[c.pos]?).bind simpleItem?).map Item.caps := by
    rw [Array.getElem?_map]
    cases tokens[c.pos]? with
    | none => rfl
    | some t => exact simpleItem?_caps t
  rw [readItem, hsimple, readItem]
  cases (tokens[c.pos]?).bind simpleItem? with
  | some i => rfl
  | none =>
    simp only [Option.map_none, readField_caps h c]
    rcases readField tokens f c with ⟨i | e | e, b⟩ <;> rfl

theorem readItems_caps (bound : Nat) :
    Reads (List.map Item.caps) (readItems tokens bound) (readItems (tokens.map Token.caps) bound) := by
  induction bound with
  | zero => exact fun c => rfl
  | succ bound ih =>
    intro c
    rw [readItems, readItem_caps ih c, readItems]
    rcases readItem tokens (readItems tokens bound) c with ⟨i | e | e, b⟩
    · simp only [Reading.map, ih (c.accept b)]
      rcases readItems tokens bound (c.accept b) with ⟨is | e | e, d⟩ <;> rfl
    · simp only [Reading.map]
      split <;> rfl
    · rfl

theorem error_caps (e : Failure) (last : Nat × Nat) :
    e.error (tokens.map Token.caps) last = (e.error tokens last).caps := by
  rw [Failure.error, Array.getElem?_map, Failure.error]
  cases tokens[e.index]? with
  | some t => rfl
  | none =>
    have heof : "<EOF>".toUpper = "<EOF>" := toUpper_of_chars (by decide)
    simp only [Option.map_none, ReadError.caps, heof]

end Reading

/-- A specification in upper case is read the same way, or refused for the same reason. -/
theorem read_toUpper (spec : String) :
    read spec.toUpper = ((read spec).mapError ReadError.caps).map (List.map Item.caps) := by
  rw [read, Token.cut, toList_toUpper, Token.cutFrom_toUpper, read, Token.cut]
  cases Token.cutFrom (1, 1) spec.toList with
  | error e => rfl
  | ok r =>
    obtain ⟨tokens, last⟩ := r
    simp only [Except.mapError, Except.map, ← List.map_toArray, Array.size_map, readItems_caps _ _]
    rcases readItems tokens.toArray (tokens.toArray.size + 2) {} with ⟨is | e | e, c⟩
    · simp only [Reading.map]
      split
      · split
        · split <;> simp only [error_caps]
        · simp only [error_caps]
      · rfl
    · simp only [Reading.map, error_caps]
    · rfl

/-! ## Messages -/

theorem escapeChar_toUpper (c : Char) :
    (Text.escapeChar c.toUpper).map Char.toUpper = (Text.escapeChar c).map Char.toUpper :=
  Caseless.of_letters (f := fun c => (Text.escapeChar c).map Char.toUpper) (by decide +kernel) c

theorem quoted_toUpper (s : String) : (Text.quoted s.toUpper).toUpper = (Text.quoted s).toUpper := by
  apply toUpper_eq_of_toList
  simp [Text.quoted, List.map_flatMap, List.flatMap_map, escapeChar_toUpper]

theorem excerpt_toUpper (s : String) :
    ReadError.excerpt s.toUpper = (ReadError.excerpt s).toUpper := by
  have hlength : s.toUpper.length = s.length := by
    rw [← String.length_toList, toList_toUpper, List.length_map, String.length_toList]
  have hdots : "...".toUpper = "..." := toUpper_of_chars (by decide)
  unfold ReadError.excerpt
  rw [hlength, toList_toUpper, ← List.map_take]
  split
  · rw [append_toUpper, ofList_toUpper, hdots]
  · rfl

/-- The message about a specification in upper case reads the same in upper case. -/
theorem message_toUpper (spec : String) (e : ReadError) :
    (e.caps.message spec.toUpper).toUpper = (e.message spec).toUpper := by
  have hreason : e.caps.reason.toUpper = e.reason.toUpper := by
    cases e with
    | invalidText p rest =>
      have hquoted := quoted_toUpper (ReadError.excerpt rest)
      rw [← excerpt_toUpper rest] at hquoted
      dsimp only [ReadError.caps, ReadError.reason]
      rw [append_toUpper, hquoted, ← append_toUpper]
    | unexpected p token expected =>
      dsimp only [ReadError.caps, ReadError.reason]
      rw [append_toUpper, append_toUpper _ (Text.quoted _), quoted_toUpper token, ← append_toUpper,
        ← append_toUpper]
    | badCount digits r =>
      dsimp only [ReadError.caps, ReadError.reason]
      rw [append_toUpper, append_toUpper, append_toUpper _ (Text.quoted _), quoted_toUpper digits,
        ← append_toUpper, ← append_toUpper, ← append_toUpper]
  rw [ReadError.message, ReadError.message, append_toUpper, hreason]
  simp only [append_toUpper, toUpper_toUpper]

/-! ## Printing -/

theorem undoubleQuotes_toUpper (cs : List Char) :
    Text.undoubleQuotes (cs.map Char.toUpper) = (Text.undoubleQuotes cs).map Char.toUpper := by
  fun_induction Text.undoubleQuotes cs with
  | case1 cs ih => simpa [Text.undoubleQuotes] using ih
  | case2 c cs h ih =>
    by_cases hc : c = '\''
    · subst hc
      cases cs with
      | nil => rfl
      | cons d ds =>
        have hd : d ≠ '\'' := by
          rintro rfl
          exact h ds rfl rfl
        simpa [Text.undoubleQuotes, toUpper_ne rfl hd] using ih
    · simpa [Text.undoubleQuotes, toUpper_ne rfl hc] using ih
  | case3 => rfl

theorem fortranText_toUpper (s : String) : Text.fortranText s.toUpper = (Text.fortranText s).toUpper := by
  rw [Text.fortranText, toList_toUpper, ← List.map_drop, ← List.map_dropLast, undoubleQuotes_toUpper,
    Text.fortranText, ofList_toUpper]

theorem plainText_toUpper (s : String) : plainText s.toUpper = (plainText s).toUpper := by
  have hchar : ∀ c : Char, (if c.toUpper == '%' then ['%', '%'] else [c.toUpper]) =
      (if c == '%' then ['%', '%'] else [c]).map Char.toUpper := by
    intro c
    have hmark : (c.toUpper == '%') = (c == '%') := Caseless.beq rfl c
    rw [hmark]
    split <;> rfl
  rw [plainText, toList_toUpper, flatMap_toUpper hchar, plainText, ofList_toUpper]

theorem printEdit_toUpper (n : Nat) (d : String) : printEdit n d.toUpper = printEdit n d := by
  rw [printEdit, Descriptor.ofText, upper_toUpper, printEdit, Descriptor.ofText]

/-- What is printed differs in the case of letters only. -/
structure Printed.Alike (a b : Printed) : Prop where
  text : a.text.toUpper = b.text.toUpper
  values : a.values = b.values
  error : a.error = b.error

namespace Printed.Alike

variable {a a' b b' : Printed}

theorem refl (a : Printed) : Printed.Alike a a := ⟨rfl, rfl, rfl⟩

theorem andThen (h : Printed.Alike a b) (h' : Printed.Alike a' b') :
    Printed.Alike (a.andThen a') (b.andThen b') := by
  rw [Printed.andThen, h.error, Printed.andThen]
  cases b.error with
  | some e => exact ⟨h.text, rfl, rfl⟩
  | none => exact ⟨by simp [h.text, h'.text], congrArg₂ _ h.values h'.values, h'.error⟩

theorem times (h : Printed.Alike a b) (n : Nat) : Printed.Alike (a.times n) (b.times n) := by
  have hempty : (a.text == "") = (b.text == "") := by
    rw [← toUpper_beq_empty, h.text, toUpper_beq_empty]
  rw [Printed.times, h.error, h.values, hempty, Printed.times]
  cases b.error with
  | some e => exact ⟨h.text, rfl, rfl⟩
  | none =>
    refine ⟨?_, rfl, rfl⟩
    dsimp only
    split
    · rfl
    · rw [join_toUpper, List.map_replicate, h.text, join_toUpper, List.map_replicate]

end Printed.Alike

mutual

theorem printItem_caps : ∀ i : Item, Printed.Alike (printItem i.caps) (printItem i)
  | .text s => by
    rw [Item.caps, printItem, printItem]
    exact ⟨by simp only [fortranText_toUpper, plainText_toUpper, toUpper_toUpper], rfl, rfl⟩
  | .edit n d => by
    rw [Item.caps, printItem, printItem, printEdit_toUpper]
    exact .refl _
  | .group n is => by
    rw [Item.caps, printItem, printItem]
    exact (printItems_caps is).times _
  | .comma | .colon | .dollar | .slash => by
    rw [Item.caps]
    · exact .refl _
    all_goals simp

theorem printItems_caps : ∀ is : List Item, Printed.Alike (printItems (Item.capsAll is)) (printItems is)
  | [] => .refl _
  | i :: is => by
    rw [Item.capsAll, printItems, printItems]
    exact (printItem_caps i).andThen (printItems_caps is)

end

end Format

end FortranJulia
