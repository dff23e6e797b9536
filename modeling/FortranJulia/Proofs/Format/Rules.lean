import FortranJulia.Format.Token
import FortranJulia.Proofs.Scanning.Spans

/-!
The tokens of a format specification as rules. A rule is a regular expression that is tried where a
token may start; of all its matches there the preferred one counts, in which an alternative goes
before the ones behind it and another repetition before none. `Token.first?` finds what the first of
the five rules finds that matches at all.
-/

namespace FortranJulia.Format

set_option autoImplicit false

open Decimal (isDigit)

/-! ## Regular expressions -/

inductive Regex where
  | empty
  | char (p : Char → Bool)
  | both (a b : Regex)
  | either (a b : Regex)
  | star (a : Regex)

namespace Regex

/-- What is left after some steps, at most so many, in order of preference: more steps first. -/
def steps (step : List Char → List (List Char)) : Nat → List Char → List (List Char)
  | 0, cs => [cs]
  | n + 1, cs => (step cs).flatMap (steps step n) ++ [cs]

/-- What is left behind a match at the front of some characters, in order of preference. A
repetition takes a character each time. -/
def ends : Regex → List Char → List (List Char)
  | .empty, cs => [cs]
  | .char _, [] => []
  | .char p, c :: cs => if p c then [cs] else []
  | .both a b, cs => (a.ends cs).flatMap b.ends
  | .either a b, cs => a.ends cs ++ b.ends cs
  | .star a, cs => steps a.ends cs.length cs

def optional (a : Regex) : Regex := .either a .empty

def plus (a : Regex) : Regex := .both a (.star a)

/-- What is left behind the preferred match. -/
def first? (r : Regex) (cs : List Char) : Option (List Char) := (r.ends cs).head?

/-- The length of the preferred match. -/
def length? (r : Regex) (cs : List Char) : Option Nat :=
  (r.first? cs).map fun rest => cs.length - rest.length

/-- Does it match all of the characters? -/
def Matches (r : Regex) (cs : List Char) : Prop := [] ∈ r.ends cs

/-! ### Preferred matches -/

-- The lemmas below share the equations of `ends`.
attribute [local simp] steps ends

theorem first?_char (p : Char → Bool) (c : Char) (cs : List Char) :
    (Regex.char p).first? (c :: cs) = if p c then some cs else none := by
  rw [first?, ends]
  split <;> rfl

theorem first?_ne_none {r : Regex} {cs : List Char} (h : r.first? cs ≠ none) : r.ends cs ≠ [] :=
  fun hnil => h (by rw [first?, hnil]; rfl)

theorem first?_optional (a : Regex) (cs : List Char) :
    a.optional.first? cs = (a.first? cs).or (some cs) := by
  rw [first?, optional, ends, ends, List.head?_append, first?]
  rfl

theorem first?_either (a b : Regex) (cs : List Char) :
    (Regex.either a b).first? cs = (a.first? cs).or (b.first? cs) := by
  rw [first?, ends, List.head?_append, first?, first?]

theorem first?_both_char (p : Char → Bool) (b : Regex) (c : Char) (cs : List Char) :
    (Regex.both (.char p) b).first? (c :: cs) = if p c then b.first? cs else none := by
  rw [first?, ends, ends]
  split
  · rw [List.flatMap_cons, List.flatMap_nil, List.append_nil, first?]
  · rfl

/-- The second part decides nothing about the first if it always matches. -/
theorem first?_both {a b : Regex} (hb : ∀ cs, b.ends cs ≠ []) (cs : List Char) :
    (Regex.both a b).first? cs = (a.first? cs).bind b.first? := by
  rw [first?, ends, first?]
  cases a.ends cs with
  | nil => rfl
  | cons r rs =>
    rw [List.flatMap_cons, List.head?_append, List.head?_cons, Option.bind_some, first?]
    obtain ⟨e, es, he⟩ := List.exists_cons_of_ne_nil (hb r)
    rw [he]
    rfl

theorem ends_optional_ne_nil (a : Regex) (cs : List Char) : a.optional.ends cs ≠ [] := by
  rw [optional, ends, ends]
  exact List.append_ne_nil_of_right_ne_nil _ (List.cons_ne_nil _ _)

theorem steps_ne_nil (step : List Char → List (List Char)) (n : Nat) (cs : List Char) :
    steps step n cs ≠ [] := by
  cases n with
  | zero => exact List.cons_ne_nil _ _
  | succ n => exact List.append_ne_nil_of_right_ne_nil _ (List.cons_ne_nil _ _)

theorem ends_star_ne_nil (a : Regex) (cs : List Char) : a.star.ends cs ≠ [] :=
  steps_ne_nil _ _ _

/-- A repeated character is preferred as often as it stands there. -/
theorem head?_steps_char (p : Char → Bool) :
    ∀ (n : Nat) (cs : List Char), cs.length ≤ n →
      (steps (Regex.char p).ends n cs).head? = some (cs.dropWhile p)
  | 0, cs, h => by
    rw [List.eq_nil_of_length_eq_zero (Nat.le_zero.1 h)]
    rfl
  | n + 1, [], _ => rfl
  | n + 1, c :: cs, h => by
    have hrest := head?_steps_char p n cs (Nat.le_of_succ_le_succ h)
    rw [steps, ends]
    cases hc : p c with
    | false => simp [hc]
    | true =>
      rw [if_pos rfl, List.flatMap_cons, List.flatMap_nil, List.append_nil, List.head?_append,
        hrest]
      simp [hc]

theorem first?_star_char (p : Char → Bool) (cs : List Char) :
    (Regex.char p).star.first? cs = some (cs.dropWhile p) :=
  head?_steps_char p cs.length cs (Nat.le_refl _)

theorem first?_plus_char (p : Char → Bool) (cs : List Char) :
    (Regex.char p).plus.first? cs =
      if cs.takeWhile p = [] then none else some (cs.dropWhile p) := by
  rw [plus, first?_both (ends_star_ne_nil _)]
  cases cs with
  | nil => rfl
  | cons c cs =>
    rw [first?_char]
    cases hc : p c with
    | false => simp [hc]
    | true => simp [hc, first?_star_char]

/-! ### All matches -/

theorem mem_ends_both {a b : Regex} {cs rest : List Char} :
    rest ∈ (Regex.both a b).ends cs ↔ ∃ mid ∈ a.ends cs, rest ∈ b.ends mid :=
  List.mem_flatMap

theorem mem_ends_either {a b : Regex} {cs rest : List Char} :
    rest ∈ (Regex.either a b).ends cs ↔ rest ∈ a.ends cs ∨ rest ∈ b.ends cs :=
  List.mem_append

theorem mem_ends_optional {a : Regex} {cs rest : List Char} :
    rest ∈ a.optional.ends cs ↔ rest ∈ a.ends cs ∨ rest = cs := by
  rw [optional, mem_ends_either, ends, List.mem_singleton]

theorem mem_ends_char {p : Char → Bool} {cs rest : List Char} :
    rest ∈ (Regex.char p).ends cs ↔ ∃ c, p c ∧ cs = c :: rest := by
  cases cs with
  | nil => simp [ends]
  | cons d cs =>
    rw [ends]
    constructor
    · intro h
      split at h
      · rename_i hd
        exact ⟨d, hd, by rw [List.mem_singleton.1 h]⟩
      · cases h
    · rintro ⟨c, hc, h⟩
      obtain ⟨rfl, rfl⟩ := List.cons.inj h
      rw [if_pos hc]
      exact List.mem_singleton_self _

theorem of_mem_steps_char {p : Char → Bool} : ∀ {n : Nat} {cs rest : List Char},
    rest ∈ steps (Regex.char p).ends n cs → ∃ ds, (∀ d ∈ ds, p d) ∧ cs = ds ++ rest
  | 0, cs, rest, h => ⟨[], fun _ hd => absurd hd List.not_mem_nil, (List.mem_singleton.1 h).symm⟩
  | n + 1, cs, rest, h => by
    rcases List.mem_append.1 h with hmore | hnone
    · obtain ⟨mid, hmid, hrest⟩ := List.mem_flatMap.1 hmore
      obtain ⟨c, hc, rfl⟩ := mem_ends_char.1 hmid
      obtain ⟨ds, hds, rfl⟩ := of_mem_steps_char hrest
      exact ⟨c :: ds, List.forall_mem_cons.2 ⟨hc, hds⟩, rfl⟩
    · exact ⟨[], fun _ hd => absurd hd List.not_mem_nil, (List.mem_singleton.1 hnone).symm⟩

/-- A match of a repeated character. -/
theorem of_mem_ends_star_char {p : Char → Bool} {cs rest : List Char}
    (h : rest ∈ (Regex.char p).star.ends cs) : ∃ ds, (∀ d ∈ ds, p d) ∧ cs = ds ++ rest :=
  of_mem_steps_char h

theorem of_mem_ends_plus_char {p : Char → Bool} {cs rest : List Char}
    (h : rest ∈ (Regex.char p).plus.ends cs) :
    ∃ ds, ds ≠ [] ∧ (∀ d ∈ ds, p d) ∧ cs = ds ++ rest := by
  obtain ⟨mid, hmid, hrest⟩ := mem_ends_both.1 h
  obtain ⟨c, hc, rfl⟩ := mem_ends_char.1 hmid
  obtain ⟨ds, hds, rfl⟩ := of_mem_ends_star_char hrest
  exact ⟨c :: ds, List.cons_ne_nil _ _, List.forall_mem_cons.2 ⟨hc, hds⟩, rfl⟩

end Regex

/-! ## The rules -/

namespace Token

/-- One character. -/
def mark (m : Char) : Regex := .char (· == m)

/-- A letter in any case. -/
def letter (a : Char) : Regex := .char (letterOf? · == some a)

/-- What may be repeated in a constant: `[^']|''`. -/
def constantPart : Regex := .either (.char (· != '\'')) (.both (mark '\'') (mark '\''))

/-- A character constant: `'(?:[^']|'')*'`. -/
def constantRule : Regex :=
  .both (mark '\'') (.both (.star constantPart) (mark '\''))

/-- The letters of a descriptor: `TL|TR|BN|BZ|SP|SS|EN|ES|[A-Z]`, in any case. -/
def lettersRule : Regex :=
  pairs.foldr (fun p r => .either (.both (letter p.1) (letter p.2)) r)
    (.char fun c => (letterOf? c).isSome)

/-- A fraction: `\.[0-9]+(?:E[0-9]+)?`, in any case. -/
def fractionRule : Regex :=
  .both (mark '.') (.both (Regex.char isDigit).plus
    (Regex.both (letter 'E') (Regex.char isDigit).plus).optional)

/-- An edit descriptor: its letters, `[0-9]*` and an optional fraction. -/
def descriptorRule : Regex :=
  .both lettersRule (.both (.star (.char isDigit)) fractionRule.optional)

/-- The rules in order. The kind of a mark is the mark itself; blanks have no kind. -/
def rules : List (Regex × (Char → Option TokenKind)) :=
  [(constantRule, fun _ => some .constant), (descriptorRule, fun _ => some .descriptor),
    ((Regex.char isDigit).plus, fun _ => some .number), (.char isMark, fun c => some (.mark c)),
    ((Regex.char isGap).plus, fun _ => none)]

/-- The kind and length of what the first rule that matches finds. -/
def byRules? : List Char → Option (Option TokenKind × Nat)
  | [] => none
  | c :: cs =>
    rules.findSome? fun rule => (rule.1.length? (c :: cs)).map fun n => (rule.2 c, n)

/-! ### Constants -/

/-- A constant behind its opening quote, with at most so many parts. -/
def constantEnds (n : Nat) (cs : List Char) : List (List Char) :=
  (Regex.steps constantPart.ends n cs).flatMap (mark '\'').ends

theorem constantEnds_nil (n : Nat) : constantEnds n [] = [] := by
  cases n <;> rfl

theorem constantEnds_pair (n : Nat) (cs : List Char) :
    constantEnds (n + 1) ('\'' :: '\'' :: cs) = constantEnds n cs ++ ['\'' :: cs] := by
  simp [constantEnds, Regex.steps, constantPart, mark, Regex.ends]

theorem constantEnds_close (n : Nat) {cs : List Char} (h : cs.head? ≠ some '\'') :
    constantEnds (n + 1) ('\'' :: cs) = [cs] := by
  cases cs with
  | nil => simp [constantEnds, Regex.steps, constantPart, mark, Regex.ends]
  | cons d ds =>
    have hd : d ≠ '\'' := fun heq => h (by rw [heq]; rfl)
    simp [constantEnds, Regex.steps, constantPart, mark, Regex.ends, hd]

theorem constantEnds_other (n : Nat) {c : Char} (hc : c ≠ '\'') (cs : List Char) :
    constantEnds (n + 1) (c :: cs) = constantEnds n cs := by
  simp [constantEnds, Regex.steps, constantPart, mark, Regex.ends, hc]

/-- The length of a constant is that of the preferred match, and the fallback counts if there is
none. -/
theorem constantLength_eq (fallback : Option Nat) (taken : Nat) (cs : List Char) :
    ∀ n, cs.length ≤ n → constantLength fallback taken cs =
      ((constantEnds n cs).head?.map fun rest => taken + (cs.length - rest.length)).or fallback ∧
        ∀ rest ∈ constantEnds n cs, rest.length ≤ cs.length := by
  induction fallback, taken, cs using constantLength.induct with
  | case1 fallback taken =>
    intro n _
    rw [constantEnds_nil]
    exact ⟨rfl, fun _ h => absurd h List.not_mem_nil⟩
  | case2 fallback taken cs ih =>
    intro n hn
    obtain ⟨n, rfl⟩ : ∃ m, n = m + 1 := ⟨n - 1, by simp at hn; omega⟩
    obtain ⟨hlength, hle⟩ := ih n (by simp at hn; omega)
    rw [constantEnds_pair, constantLength, hlength]
    refine ⟨?_, fun rest hrest => ?_⟩
    · cases hends : constantEnds n cs with
      | nil => simp
      | cons rest rests =>
        have hrest := hle rest (by rw [hends]; exact List.mem_cons_self)
        simp only [List.head?_cons, Option.map_some, Option.or_some, List.cons_append,
          List.length_cons, Option.getD_some]
        congr 1
        omega
    · rcases List.mem_append.1 hrest with hrest | hrest
      · have := hle rest hrest
        simp only [List.length_cons]
        omega
      · simp [List.mem_singleton.1 hrest]
  | case3 fallback taken cs h =>
    intro n hn
    obtain ⟨n, rfl⟩ : ∃ m, n = m + 1 := ⟨n - 1, by simp at hn; omega⟩
    have hhead : cs.head? ≠ some '\'' := by
      cases cs with
      | nil => simp
      | cons d ds => exact fun heq => h ds (by rw [Option.some.inj heq])
    rw [constantEnds_close n hhead, constantLength]
    · simp
    · exact h
  | case4 fallback taken c cs h hc ih =>
    intro n hn
    obtain ⟨n, rfl⟩ : ∃ m, n = m + 1 := ⟨n - 1, by simp at hn; omega⟩
    obtain ⟨hlength, hle⟩ := ih n (by simp at hn; omega)
    have hstep :
        constantLength fallback taken (c :: cs) = constantLength fallback (taken + 1) cs := by
      rw [constantLength]
      · exact h
      · exact hc
    rw [constantEnds_other n hc, hstep, hlength]
    refine ⟨?_, fun rest hrest => Nat.le_succ_of_le (hle rest hrest)⟩
    cases hends : constantEnds n cs with
    | nil => rfl
    | cons rest rests =>
      have hrest := hle rest (by rw [hends]; exact List.mem_cons_self)
      simp only [List.head?_cons, Option.map_some, List.length_cons]
      congr 2
      omega

theorem first?_constantRule (cs : List Char) :
    (constantRule.first? ('\'' :: cs)).map (fun rest => cs.length + 1 - rest.length) =
      constantLength none 1 cs := by
  have hrule : constantRule.first? ('\'' :: cs) = (constantEnds cs.length cs).head? := by
    simp [Regex.first?, constantRule, mark, Regex.ends, constantEnds]
  obtain ⟨hlength, hle⟩ := constantLength_eq none 1 cs cs.length (Nat.le_refl _)
  rw [hrule, hlength, Option.or_none]
  cases hends : constantEnds cs.length cs with
  | nil => rfl
  | cons rest rests =>
    have hrest := hle rest (by rw [hends]; exact List.mem_cons_self)
    simp only [List.head?_cons, Option.map_some]
    congr 1
    omega

/-! ### Descriptors -/

theorem digitCount_eq_zero {cs : List Char} : digitCount cs = 0 ↔ cs.takeWhile isDigit = [] :=
  List.length_eq_zero_iff

theorem first?_digits (cs : List Char) :
    (Regex.char isDigit).plus.first? cs =
      if digitCount cs = 0 then none else some (cs.drop (digitCount cs)) := by
  have hdrop : cs.drop (digitCount cs) = cs.dropWhile isDigit := Scan.drop_run isDigit cs
  rw [Regex.first?_plus_char, hdrop]
  simp only [digitCount_eq_zero]

/-- Two letters are a descriptor's if they are a pair, else the first one is. -/
theorem first?_pairs (ps : List (Char × Char)) (last : Regex) (c : Char) (cs : List Char) :
    (ps.foldr (fun p r => .either (.both (letter p.1) (letter p.2)) r) last).first? (c :: cs) =
      (if ps.any fun p => letterOf? c == some p.1 && (cs.head?.bind letterOf?) == some p.2 then
        some (cs.drop 1) else none).or (last.first? (c :: cs)) := by
  induction ps with
  | nil => rfl
  | cons p ps ih =>
    have hpair : (Regex.both (letter p.1) (letter p.2)).first? (c :: cs) =
        if letterOf? c == some p.1 && (cs.head?.bind letterOf?) == some p.2 then some (cs.drop 1)
        else none := by
      rw [letter, Regex.first?_both_char]
      cases cs with
      | nil => simp [letter, Regex.first?, Regex.ends]
      | cons d ds =>
        rw [letter, Regex.first?_char]
        cases letterOf? c == some p.1 <;> simp
    rw [List.foldr_cons, Regex.first?_either, hpair, ih, List.any_cons]
    cases letterOf? c == some p.1 && (cs.head?.bind letterOf?) == some p.2 with
    | false => rw [Bool.false_or]; rfl
    | true => rfl

theorem first?_lettersRule (cs : List Char) :
    lettersRule.first? cs =
      if letterCount cs = 0 then none else some (cs.drop (letterCount cs)) := by
  cases cs with
  | nil => rfl
  | cons c cs =>
    rw [lettersRule, first?_pairs, Regex.first?_char, letterCount]
    cases letterOf? c with
    | none => simp
    | some a =>
      cases cs.head?.bind letterOf? with
      | none => simp
      | some b =>
        have hpair : (pairs.any fun p => some a == some p.1 && some b == some p.2) =
            pairs.contains (a, b) := by
          rw [List.contains_eq_any_beq]
          rfl
        simp only [hpair]
        cases pairs.contains (a, b) <;> simp

/-- The letter of an exponent has no other forms than the two of its case. -/
theorem letterOf?_exponent (c : Char) : (letterOf? c == some 'E') = (c == 'E' || c == 'e') := by
  have hlower : ∀ n < 123, 97 ≤ n →
      (some (Char.ofNat n).toUpper == some 'E') = (Char.ofNat n == 'E' || Char.ofNat n == 'e') := by
    decide
  have hother : ∀ a : Char, ¬('A' ≤ c ∧ c ≤ 'Z') → ¬('a' ≤ c ∧ c ≤ 'z') →
      a ∈ ['S', 'K'] → (some a == some 'E') = (c == 'E' || c == 'e') := by
    intro a hupper hlower ha
    have hE : c ≠ 'E' := by rintro rfl; exact hupper (by decide)
    have he : c ≠ 'e' := by rintro rfl; exact hlower (by decide)
    rcases List.mem_cons.1 ha with rfl | ha
    · simp [hE, he]
    · obtain rfl := List.mem_singleton.1 ha
      simp [hE, he]
  unfold letterOf?
  split
  · rename_i hupper
    have he : c ≠ 'e' := by rintro rfl; exact absurd hupper (by decide)
    simp [he]
  · rename_i hupper
    split
    · rename_i hrange
      simp only [Bool.and_eq_true, decide_eq_true_eq, Char.le_def, UInt32.le_iff_toNat_le] at hrange
      have h := hlower c.toNat (Nat.lt_succ_of_le hrange.2) hrange.1
      rwa [Char.ofNat_toNat] at h
    · rename_i hrange
      simp only [Bool.and_eq_true, decide_eq_true_eq] at hupper hrange
      split
      · exact hother 'S' hupper hrange (by decide)
      · split
        · exact hother 'K' hupper hrange (by decide)
        · have hE : c ≠ 'E' := by rintro rfl; exact hupper (by decide)
          have he : c ≠ 'e' := by rintro rfl; exact hrange (by decide)
          simp [hE, he]

theorem first?_fraction (cs : List Char) :
    fractionRule.optional.first? cs = some (cs.drop (fractionLength cs)) := by
  rw [Regex.first?_optional]
  cases cs with
  | nil => rfl
  | cons c cs =>
    rw [fractionRule, mark, Regex.first?_both_char]
    by_cases hc : c = '.'
    · subst hc
      rw [Regex.first?_both (Regex.ends_optional_ne_nil _), first?_digits, fractionLength]
      by_cases hn : digitCount cs = 0
      · simp [hn]
      · simp only [beq_self_eq_true, if_true, hn, if_false, Option.bind_some, beq_iff_eq,
          Regex.first?_optional]
        cases hrest : cs.drop (digitCount cs) with
        | nil => simp [Regex.first?, Regex.ends, letter, hrest]
        | cons e ds =>
          rw [letter, Regex.first?_both_char, letterOf?_exponent, first?_digits]
          by_cases he : (e == 'E' || e == 'e') = true
          · by_cases hd : digitCount ds = 0
            · simp [he, hd, hrest]
            · have hall : ds.drop (digitCount ds) =
                  cs.drop (digitCount cs + 1 + digitCount ds) := by
                rw [← List.drop_drop, ← List.drop_drop, hrest, List.drop_succ_cons, List.drop_zero]
              have hlength : digitCount cs + 2 + digitCount ds =
                  digitCount cs + 1 + digitCount ds + 1 := by omega
              simp [he, hd, hall, Nat.pos_of_ne_zero hd, hlength]
          · simp [he, hrest]
    · simp [hc, fractionLength]

/-- What a descriptor takes is what its rule prefers. -/
theorem first?_descriptorRule (cs : List Char) :
    descriptorRule.first? cs =
      if descriptorLength cs = 0 then none else some (cs.drop (descriptorLength cs)) := by
  have hfraction : ∀ cs, fractionRule.optional.ends cs ≠ [] := Regex.ends_optional_ne_nil _
  have hdigits : ∀ cs, (Regex.both (.star (.char isDigit)) fractionRule.optional).first? cs =
      some ((cs.drop (digitCount cs)).drop (fractionLength (cs.drop (digitCount cs)))) := by
    intro cs
    rw [Regex.first?_both hfraction, Regex.first?_star_char, Option.bind_some, first?_fraction,
      show cs.drop (digitCount cs) = cs.dropWhile isDigit from Scan.drop_run isDigit cs]
  have hnever : ∀ cs, (Regex.both (.star (.char isDigit)) fractionRule.optional).ends cs ≠ [] :=
    fun cs => Regex.first?_ne_none (by rw [hdigits]; exact Option.some_ne_none _)
  rw [descriptorRule, Regex.first?_both hnever, first?_lettersRule, descriptorLength]
  cases hn : letterCount cs with
  | zero => rfl
  | succ n => simp [hdigits, List.drop_drop, Nat.add_assoc]

theorem digitCount_le (cs : List Char) : digitCount cs ≤ cs.length :=
  (List.takeWhile_sublist _).length_le

theorem letterCount_le (cs : List Char) : letterCount cs ≤ cs.length := by
  unfold letterCount
  split
  · rename_i c cs
    split
    · exact Nat.zero_le _
    · split
      · rename_i b hb
        have hcs : cs ≠ [] := by
          rintro rfl
          cases hb
        have hlength := List.length_pos_iff.2 hcs
        rw [List.length_cons]
        split <;> omega
      · simp
  · exact Nat.zero_le _

theorem fractionLength_le (cs : List Char) : fractionLength cs ≤ cs.length := by
  unfold fractionLength
  split
  · rename_i cs
    have hdigits := digitCount_le cs
    simp only [List.length_cons]
    split
    · exact Nat.zero_le _
    · split
      · rename_i e ds hrest
        have hlength := congrArg List.length hrest
        have hmore := digitCount_le ds
        rw [List.length_drop, List.length_cons] at hlength
        split <;> omega
      · omega
  · exact Nat.zero_le _

theorem descriptorLength_le (cs : List Char) : descriptorLength cs ≤ cs.length := by
  have hletters := letterCount_le cs
  have hdigits := digitCount_le (cs.drop (letterCount cs))
  have hfraction :=
    fractionLength_le (cs.drop (letterCount cs + digitCount (cs.drop (letterCount cs))))
  rw [List.length_drop] at hdigits hfraction
  unfold descriptorLength
  split
  · exact Nat.zero_le _
  · dsimp only
    omega

/-! ### Matches of a descriptor -/

/-- The letters of a descriptor. -/
def IsLetters (cs : List Char) : Prop :=
  (∃ c, cs = [c] ∧ (letterOf? c).isSome) ∨
    ∃ c d a b, cs = [c, d] ∧ letterOf? c = some a ∧ letterOf? d = some b ∧ (a, b) ∈ pairs

/-- The width of an exponent behind a fraction, or nothing. -/
def IsExponent (cs : List Char) : Prop :=
  cs = [] ∨ ∃ e ds, cs = e :: ds ∧ letterOf? e = some 'E' ∧ ds ≠ [] ∧ ∀ d ∈ ds, isDigit d

/-- A point with digits, or nothing. -/
def IsFraction (cs : List Char) : Prop :=
  cs = [] ∨ ∃ ds x, cs = '.' :: (ds ++ x) ∧ ds ≠ [] ∧ (∀ d ∈ ds, isDigit d) ∧ IsExponent x

theorem mem_ends_letter {a : Char} {cs rest : List Char} :
    rest ∈ (letter a).ends cs ↔ ∃ c, letterOf? c = some a ∧ cs = c :: rest := by
  rw [letter, Regex.mem_ends_char]
  simp only [beq_iff_eq]

theorem of_mem_ends_letters {cs rest : List Char} (h : rest ∈ lettersRule.ends cs) :
    ∃ letters, IsLetters letters ∧ cs = letters ++ rest := by
  have hpairs : ∀ ps : List (Char × Char), ps ⊆ pairs →
      rest ∈ (ps.foldr (fun p r => Regex.either (.both (letter p.1) (letter p.2)) r)
        (.char fun c => (letterOf? c).isSome)).ends cs →
      ∃ letters, IsLetters letters ∧ cs = letters ++ rest := by
    intro ps hps hmem
    induction ps with
    | nil =>
      obtain ⟨c, hc, rfl⟩ := Regex.mem_ends_char.1 hmem
      exact ⟨[c], .inl ⟨c, rfl, hc⟩, rfl⟩
    | cons p ps ih =>
      rcases Regex.mem_ends_either.1 hmem with hmem | hmem
      · obtain ⟨mid, hmid, hrest⟩ := Regex.mem_ends_both.1 hmem
        obtain ⟨c, hc, rfl⟩ := mem_ends_letter.1 hmid
        obtain ⟨d, hd, rfl⟩ := mem_ends_letter.1 hrest
        exact ⟨[c, d], .inr ⟨c, d, p.1, p.2, rfl, hc, hd, hps List.mem_cons_self⟩, rfl⟩
      · exact ih (List.subset_of_cons_subset hps) hmem
  exact hpairs pairs (List.Subset.refl _) h

theorem of_mem_ends_fraction {cs rest : List Char} (h : rest ∈ fractionRule.optional.ends cs) :
    ∃ fraction, IsFraction fraction ∧ cs = fraction ++ rest := by
  rcases Regex.mem_ends_optional.1 h with h | rfl
  · obtain ⟨_, hpoint, hmore⟩ := Regex.mem_ends_both.1 h
    obtain ⟨c, hc, rfl⟩ := Regex.mem_ends_char.1 hpoint
    obtain rfl := eq_of_beq hc
    obtain ⟨_, hdigits, hlast⟩ := Regex.mem_ends_both.1 hmore
    obtain ⟨ds, hne, hds, rfl⟩ := Regex.of_mem_ends_plus_char hdigits
    rcases Regex.mem_ends_optional.1 hlast with hexponent | rfl
    · obtain ⟨_, hletter, hwidth⟩ := Regex.mem_ends_both.1 hexponent
      obtain ⟨e, he, rfl⟩ := mem_ends_letter.1 hletter
      obtain ⟨es, hes, hdigit, rfl⟩ := Regex.of_mem_ends_plus_char hwidth
      exact ⟨'.' :: (ds ++ e :: es),
        .inr ⟨ds, e :: es, rfl, hne, hds, .inr ⟨e, es, rfl, he, hes, hdigit⟩⟩, by simp⟩
    · exact ⟨'.' :: (ds ++ []), .inr ⟨ds, [], rfl, hne, hds, .inl rfl⟩, by simp⟩
  · exact ⟨[], .inl rfl, rfl⟩

/-- A descriptor consists of letters, a width and a fraction. -/
theorem of_mem_ends_descriptor {cs rest : List Char} (h : rest ∈ descriptorRule.ends cs) :
    ∃ letters ds fraction, IsLetters letters ∧ (∀ d ∈ ds, isDigit d) ∧ IsFraction fraction ∧
      cs = letters ++ (ds ++ (fraction ++ rest)) := by
  obtain ⟨_, hfront, hmore⟩ := Regex.mem_ends_both.1 h
  obtain ⟨letters, hletters, rfl⟩ := of_mem_ends_letters hfront
  obtain ⟨_, hwidth, hlast⟩ := Regex.mem_ends_both.1 hmore
  obtain ⟨ds, hds, rfl⟩ := Regex.of_mem_ends_star_char hwidth
  obtain ⟨fraction, hfraction, rfl⟩ := of_mem_ends_fraction hlast
  exact ⟨letters, ds, fraction, hletters, hds, hfraction, rfl⟩

/-! ### All rules -/

theorem length?_dropping {r : Regex} {cs : List Char} {n : Nat} (hn : n ≤ cs.length)
    (h : r.first? cs = if n = 0 then none else some (cs.drop n)) :
    r.length? cs = if n = 0 then none else some n := by
  rw [Regex.length?, h]
  split
  · rfl
  · rw [Option.map_some, List.length_drop]
    congr 1
    omega

theorem length?_constantRule (c : Char) (cs : List Char) :
    constantRule.length? (c :: cs) = if c == '\'' then constantLength none 1 cs else none := by
  by_cases hc : c = '\''
  · subst hc
    exact first?_constantRule cs
  · simp [Regex.length?, constantRule, mark, Regex.first?_both_char, hc]

theorem length?_mark (c : Char) (cs : List Char) :
    (Regex.char isMark).length? (c :: cs) = if isMark c then some 1 else none := by
  rw [Regex.length?, Regex.first?_char]
  split <;> simp

theorem length?_gaps (c : Char) (cs : List Char) :
    (Regex.char isGap).plus.length? (c :: cs) =
      if isGap c then some ((c :: cs).takeWhile isGap).length else none := by
  have hlength : ((c :: cs).dropWhile isGap).length + ((c :: cs).takeWhile isGap).length =
      (c :: cs).length := by
    rw [Nat.add_comm, ← List.length_append, List.takeWhile_append_dropWhile]
  rw [Regex.length?, Regex.first?_plus_char]
  cases hc : isGap c with
  | false => simp [hc]
  | true =>
    simp only [List.takeWhile_cons, hc, if_true, List.cons_ne_nil, if_false, Option.map_some]
      at hlength ⊢
    congr 1
    omega

/-- The token at the front is the one that the first matching rule finds. -/
theorem first?_eq_byRules? (cs : List Char) : first? cs = byRules? cs := by
  cases cs with
  | nil => rfl
  | cons c cs =>
    have hdescriptor := length?_dropping (descriptorLength_le _) (first?_descriptorRule (c :: cs))
    have hnumber := length?_dropping (digitCount_le _) (first?_digits (c :: cs))
    have hdigit : (digitCount (c :: cs) = 0) ↔ isDigit c = false := by
      cases hc : isDigit c <;> simp [digitCount, hc]
    simp only [byRules?, rules, List.findSome?_cons, List.findSome?_nil, length?_constantRule,
      hdescriptor, hnumber, length?_mark, length?_gaps, first?]
    cases (if c == '\'' then constantLength none 1 cs else none) with
    | some n => rfl
    | none =>
      by_cases hd : descriptorLength (c :: cs) = 0
      · simp only [hd, gt_iff_lt, Nat.lt_irrefl, if_false, if_true, Option.map_none]
        cases hc : isDigit c with
        | true => simp [hdigit, hc]
        | false =>
          simp only [hdigit.2 hc, if_true, Option.map_none, Bool.false_eq_true, if_false]
          cases isMark c <;> cases isGap c <;> rfl
      · simp [hd, Nat.pos_of_ne_zero hd]

end Token

end FortranJulia.Format
