import FortranJulia.Format.Printf
import FortranJulia.Proofs.LetterCase.Scanning
import FortranJulia.Proofs.Meaning.Translation

/-!
The conversions in the `@printf` string of a format. The string is read as `@printf` reads it, from
left to right and without knowing the format it comes from; what is found are as many conversions
as the format takes values.
-/

namespace FortranJulia.Format

set_option autoImplicit false

open Decimal (isDigit)

/-! ## Reading a `@printf` string -/

/-- What is left behind the digits of a precision; nothing if there are none. -/
def afterDigits? (cs : List Char) : Option (List Char) :=
  if cs.takeWhile isDigit = [] then none else some (cs.dropWhile isDigit)

/-- What is left behind an optional width, an optional precision and a letter. -/
def afterConversion? (cs : List Char) : Option (List Char) :=
  let precise? :=
    match cs.dropWhile isDigit with
    | '.' :: ds => afterDigits? ds
    | ds => some ds
  match precise? with
  | some (c :: rest) => if c ∈ ['d', 'f', 'e', 'g', 's'] then some rest else none
  | _ => none

theorem length_dropWhile_le (p : Char → Bool) (cs : List Char) :
    (cs.dropWhile p).length ≤ cs.length :=
  (List.dropWhile_sublist p).length_le

theorem afterConversion?_length {cs rest : List Char} (h : afterConversion? cs = some rest) :
    rest.length < cs.length := by
  have hwidth := length_dropWhile_le isDigit cs
  unfold afterConversion? at h
  dsimp only at h
  split at h
  · rename_i c rest' hprecise
    split at h
    · cases h
      split at hprecise
      · rename_i ds hpoint
        rw [afterDigits?] at hprecise
        split at hprecise
        · cases hprecise
        · have hdigits := length_dropWhile_le isDigit ds
          rw [Option.some.inj hprecise] at hdigits
          rw [hpoint] at hwidth
          simp only [List.length_cons] at hwidth hdigits
          omega
      · rw [Option.some.inj hprecise] at hwidth
        exact hwidth
    · cases h
  · cases h

/-- The number of conversions in a `@printf` string, in which two percent signs stand for one. It
is `none` if a percent sign starts no conversion. -/
def conversions? : List Char → Option Nat
  | [] => some 0
  | '%' :: '%' :: cs => conversions? cs
  | '%' :: cs =>
    match _h : afterConversion? cs with
    | some rest => (conversions? rest).map (· + 1)
    | none => none
  | _ :: cs => conversions? cs
termination_by cs => cs.length
decreasing_by
  · simp only [List.length_cons]; omega
  · have := afterConversion?_length _h; simp only [List.length_cons]; omega
  · simp only [List.length_cons]; omega

example : conversions? "x = %8.3f, 100%% of %d\n".toList = some 2 := by cbv

/-- Characters with so many conversions, whatever follows. -/
def Converts (cs : List Char) (n : Nat) : Prop :=
  ∀ rest, conversions? (cs ++ rest) = (conversions? rest).map (· + n)

namespace Converts

theorem nil : Converts [] 0 := by
  intro rest
  rw [List.nil_append]
  cases conversions? rest <;> rfl

theorem append {a b : List Char} {m n : Nat} (ha : Converts a m) (hb : Converts b n) :
    Converts (a ++ b) (m + n) := by
  intro rest
  rw [List.append_assoc, ha, hb, Option.map_map]
  congr 1
  funext k
  exact (Nat.add_right_comm k n m).trans (Nat.add_assoc k m n)

theorem char {c : Char} (hc : c ≠ '%') : Converts [c] 0 := by
  intro rest
  rw [List.singleton_append, conversions?]
  · cases conversions? rest <;> rfl
  · exact fun _ h _ => hc h
  · exact hc

theorem percent : Converts ['%', '%'] 0 := by
  intro rest
  rw [List.cons_append, List.cons_append, List.nil_append, conversions?]
  cases conversions? rest <;> rfl

theorem conversion {cs : List Char} (h : ∀ rest, afterConversion? (cs ++ rest) = some rest) :
    Converts ('%' :: cs) 1 := by
  intro rest
  have hhead : ∀ ds, cs ++ rest = '%' :: ds → False := by
    intro ds hds
    have hnone : afterConversion? ('%' :: ds) = none := by simp [afterConversion?, isDigit]
    rw [← hds, h] at hnone
    cases hnone
  rw [List.cons_append, conversions?]
  · split
    · rename_i rest' hrest
      rw [h] at hrest
      rw [Option.some.inj hrest]
    · rename_i hnone
      rw [h] at hnone
      cases hnone
  · exact hhead

theorem join {n : Nat} {s : String} (h : Converts s.toList n) (k : Nat) :
    Converts (String.join (List.replicate k s)).toList (k * n) := by
  rw [String.toList_join]
  induction k with
  | zero => simpa using nil
  | succ k ih =>
    rw [List.replicate_succ, List.flatMap_cons, Nat.succ_mul, Nat.add_comm]
    exact h.append ih

/-- All of a text. -/
theorem conversions?_eq {cs : List Char} {n : Nat} (h : Converts cs n) :
    conversions? cs = some n := by
  have hall := h []
  rw [List.append_nil] at hall
  rw [hall, conversions?]
  simp

end Converts

/-! ## What is printed -/

theorem converts_plainText (s : String) : Converts (plainText s).toList 0 := by
  rw [plainText, String.toList_ofList]
  induction s.toList with
  | nil => exact .nil
  | cons c cs ih =>
    rw [List.flatMap_cons]
    split
    · exact Converts.append .percent ih
    · rename_i hc
      exact Converts.append (.char fun h => hc (by rw [h]; rfl)) ih

theorem converts_blanks (n : Nat) : Converts (List.replicate n ' ') 0 := by
  induction n with
  | zero => exact .nil
  | succ n ih => exact Converts.append (.char (by decide)) ih

section Conversion

variable {letter : Char} (hletter : letter ∈ ['d', 'f', 'e', 'g', 's'])

include hletter

theorem letter_ne : isDigit letter = false ∧ letter ≠ '.' := by
  simp only [List.mem_cons, List.not_mem_nil, or_false] at hletter
  rcases hletter with rfl | rfl | rfl | rfl | rfl <;> decide

theorem afterConversion?_letter {width : List Char} (hwidth : ∀ c ∈ width, isDigit c)
    (rest : List Char) : afterConversion? (width ++ letter :: rest) = some rest := by
  obtain ⟨hdigit, hpoint⟩ := letter_ne hletter
  have hdrop := (@Decimal.takeWhile_digits width (letter :: rest) hwidth hdigit).2
  simp [afterConversion?, hdrop, hpoint, hletter]

theorem afterConversion?_precise {width : List Char} (hwidth : ∀ c ∈ width, isDigit c) (n : Nat)
    (rest : List Char) :
    afterConversion? (width ++ '.' :: ((Decimal.digits n).toList ++ letter :: rest)) =
      some rest := by
  have hpoint := (@Decimal.takeWhile_digits width
    ('.' :: ((Decimal.digits n).toList ++ letter :: rest)) hwidth rfl).2
  obtain ⟨htake, hdrop⟩ := @Decimal.takeWhile_digits _ (letter :: rest) (digits_isDigit n)
    (letter_ne hletter).1
  rw [afterConversion?, hpoint]
  simp only [afterDigits?, htake, hdrop, digits_ne_nil, if_false, hletter, if_true]

/-- A width, a precision and a letter are one conversion. -/
theorem converts_conversion (d : Descriptor) (precise : Bool) :
    Converts (d.conversion (String.ofList [letter]) precise).toList 1 := by
  obtain ⟨width, hwidth, htext⟩ : ∃ width : List Char, (∀ c ∈ width, isDigit c) ∧
      (if d.width > 0 then Decimal.digits d.width else "").toList = width := by
    refine ⟨_, ?_, rfl⟩
    split
    · exact digits_isDigit _
    · exact fun c hc => absurd hc List.not_mem_nil
  have hnone : Converts ('%' :: (width ++ [letter])) 1 := .conversion fun rest => by
    rw [List.append_assoc]
    exact afterConversion?_letter hletter hwidth rest
  have hsome : ∀ n, Converts ('%' :: (width ++ '.' :: ((Decimal.digits n).toList ++ [letter]))) 1 :=
    fun n => .conversion fun rest => by
      rw [List.append_assoc, List.cons_append, List.append_assoc]
      exact afterConversion?_precise hletter hwidth n rest
  cases hprecision : d.precision with
  | none => simpa [Descriptor.conversion, hprecision, String.toList_append, htext] using hnone
  | some n =>
    cases precise with
    | true => simpa [Descriptor.conversion, hprecision, String.toList_append, htext] using hsome n
    | false => simpa [Descriptor.conversion, hprecision, String.toList_append, htext] using hnone

end Conversion

/-- What a descriptor writes is one conversion or nothing. -/
theorem converts_verb {d : Descriptor} {v : String} (h : d.verb = .ok v) :
    v = "" ∨ Converts v.toList 1 := by
  have hletter : ∀ letter ∈ ['d', 'f', 'e', 'g', 's'], ∀ precise,
      v = d.conversion (String.ofList [letter]) precise → v = "" ∨ Converts v.toList 1 := by
    rintro letter hletter precise rfl
    exact .inr (converts_conversion hletter d precise)
  unfold Descriptor.verb at h
  split at h
  all_goals first
    | exact hletter 'd' (by decide) _ (Except.ok.inj h).symm
    | exact hletter 'f' (by decide) _ (Except.ok.inj h).symm
    | exact hletter 'e' (by decide) _ (Except.ok.inj h).symm
    | exact hletter 'g' (by decide) _ (Except.ok.inj h).symm
    | exact hletter 's' (by decide) _ (Except.ok.inj h).symm
    | exact .inl (Except.ok.inj h).symm
    | cases h

/-! ## Copies -/

theorem join_replicate_empty (n : Nat) : String.join (List.replicate n "") = "" := by
  rw [← String.toList_inj, String.toList_join]
  induction n with
  | zero => rfl
  | succ n ih => rw [List.replicate_succ, List.flatMap_cons, ih]; rfl

namespace Printed

/-- One printed so many times over, with so many times the values, or a failure for the same
reason. -/
def IsCopies (n : Nat) (all one : Printed) : Prop :=
  all.error = one.error ∧ (all.error = none →
    all.text = String.join (List.replicate n one.text) ∧ all.values = n * one.values)

theorem times_of_ok (n : Nat) {a : Printed} (h : a.error = none) :
    a.times n = ⟨String.join (List.replicate n a.text), n * a.values, none⟩ := by
  unfold times
  rw [h]
  dsimp only
  congr 1
  split
  · rename_i hempty
    rw [eq_of_beq hempty, join_replicate_empty]
  · rfl

theorem times_error (n : Nat) (a : Printed) : (a.times n).error = a.error := by
  unfold times
  split
  · exact Eq.symm ‹_›
  · exact Eq.symm ‹_›

theorem times_isCopies (n : Nat) (a : Printed) : (a.times n).IsCopies n (a.times 1) := by
  refine ⟨by rw [times_error, times_error], fun h => ?_⟩
  rw [times_error] at h
  rw [times_of_ok n h, times_of_ok 1 h]
  simp

theorem andThen_ok {a b : Printed} (h : (a.andThen b).error = none) :
    a.error = none ∧ b.error = none ∧
      a.andThen b = ⟨a.text ++ b.text, a.values + b.values, none⟩ := by
  unfold andThen at h ⊢
  split at h
  · cases h
  · rename_i ha
    dsimp only at h
    rw [ha]
    exact ⟨rfl, h, by rw [h]⟩

end Printed

/-- So many times a group is so many copies of it. -/
theorem printItem_group (n : Nat) (hn : 0 < n) (is : List Item) :
    (printItem (.group n is)).IsCopies n (printItem (.group 0 is)) := by
  rw [printItem, printItem, Nat.max_eq_left hn]
  exact (printItems is).times_isCopies n

/-- So many times a descriptor is so many copies of what it writes. -/
theorem printItem_edit (n : Nat) (hn : 0 < n) {d : String}
    (hd : (Descriptor.ofText d).letters ≠ "X") :
    (printItem (.edit n d)).IsCopies n (printItem (.edit 0 d)) := by
  have hletters : ((Descriptor.ofText d).letters == "X") = false := beq_eq_false_iff_ne.2 hd
  simp only [printItem, printEdit, hletters, Bool.false_eq_true, if_false, Nat.max_eq_left hn]
  split
  · refine ⟨rfl, fun h => ?_⟩
    cases h
  · exact ⟨rfl, fun _ => ⟨(join_replicate_empty n).symm, (Nat.mul_zero n).symm⟩⟩
  · exact Printed.times_isCopies n _

theorem printEdit_blanks {n : Nat} {d : String} (hd : (Descriptor.ofText d).letters = "X")
    (h : (printEdit n d).error = none) :
    printEdit n d =
      { text :=
          String.ofList (List.replicate (max (max n (Descriptor.ofText d).width) 1) ' ') } := by
  unfold printEdit at h ⊢
  simp only [hd, beq_self_eq_true, if_true, blanks] at h ⊢
  split at h
  · cases h
  · rw [if_neg ‹_›]

/-- So many blanks are written without a value. -/
theorem printItem_blanks (n : Nat) (hn : 0 < n) {d : String}
    (hd : (Descriptor.ofText d).letters = "X") (hwidth : (Descriptor.ofText d).width = 0)
    (h : (printItem (.edit n d)).error = none) :
    printItem (.edit n d) = { text := String.ofList (List.replicate n ' ') } := by
  rw [printItem] at h ⊢
  rw [printEdit_blanks hd h, hwidth, Nat.max_zero, Nat.max_eq_left hn]

/-! ## The number of values -/

/-- The text and the number of values agree. -/
def Printed.Counted (a : Printed) : Prop :=
  Converts a.text.toList a.values

theorem counted_printEdit {n : Nat} {d : String} (h : (printEdit n d).error = none) :
    (printEdit n d).Counted := by
  by_cases hd : (Descriptor.ofText d).letters = "X"
  · rw [printEdit_blanks hd h, Printed.Counted, String.toList_ofList]
    exact converts_blanks _
  · have hletters : ((Descriptor.ofText d).letters == "X") = false := beq_eq_false_iff_ne.2 hd
    simp only [printEdit, hletters, Bool.false_eq_true, if_false] at h ⊢
    split at h
    · cases h
    · exact .nil
    · rename_i v hne hverb
      obtain hempty | hv := converts_verb hverb
      · exact absurd hempty (by simpa using hne)
      · rw [Printed.times_of_ok _ rfl]
        exact hv.join _

theorem counted_empty : Printed.Counted {} := by
  rw [Printed.Counted, String.toList_empty]
  exact .nil

theorem counted_slash : Printed.Counted { text := "\n" } := by
  have htext : "\n".toList = ['\n'] := by decide
  rw [Printed.Counted, htext]
  exact .char (by decide)

theorem counted_plainText (s : String) : Printed.Counted { text := plainText s } :=
  converts_plainText s

mutual

theorem counted_printItem : ∀ i : Item, (printItem i).error = none → (printItem i).Counted
  | .comma => fun _ => counted_empty
  | .colon => fun _ => counted_empty
  | .dollar => fun _ => counted_empty
  | .slash => fun _ => counted_slash
  | .text s => fun _ => counted_plainText _
  | .edit n d => fun h => by
    rw [printItem] at h ⊢
    exact counted_printEdit h
  | .group n is => fun h => by
    rw [printItem, Printed.times_error] at h
    rw [printItem, Printed.times_of_ok _ h]
    exact (counted_printItems is h).join _

theorem counted_printItems : ∀ is : List Item, (printItems is).error = none →
    (printItems is).Counted
  | [] => fun _ => counted_empty
  | i :: is => fun h => by
    obtain ⟨hi, his, hall⟩ := Printed.andThen_ok h
    rw [printItems, hall, Printed.Counted, String.toList_append]
    exact (counted_printItem i hi).append (counted_printItems is his)

end

/-- A format prints what its items print, one after the other. -/
theorem printItems_concat (items : List Item) (h : (printItems items).error = none) :
    (printItems items).text = String.join (items.map fun i => (printItem i).text) ∧
      (printItems items).values = (items.map fun i => (printItem i).values).sum ∧
      ∀ i ∈ items, (printItem i).error = none := by
  induction items with
  | nil => exact ⟨rfl, rfl, fun i hi => absurd hi List.not_mem_nil⟩
  | cons i is ih =>
    rw [printItems] at h
    obtain ⟨hi, his, hall⟩ := Printed.andThen_ok h
    obtain ⟨htext, hvalues, herror⟩ := ih his
    refine ⟨?_, ?_, List.forall_mem_cons.2 ⟨hi, herror⟩⟩
    · rw [printItems, hall, List.map_cons, String.join_cons, ← htext]
    · rw [printItems, hall, List.map_cons, List.sum_cons, ← hvalues]

/-- The string of a format has a conversion for each value the format takes. It consists of what the
items print; a count prints copies of what is behind it, or so many blanks. -/
theorem printed_values_exact (items : List Item) (h : (printItems items).error = none) :
    conversions? (printItems items).text.toList = some (printItems items).values ∧
      ((printItems items).text = String.join (items.map fun i => (printItem i).text) ∧
        (printItems items).values = (items.map fun i => (printItem i).values).sum ∧
        ∀ i ∈ items, (printItem i).error = none) ∧
      ∀ n, 0 < n →
        (∀ is, (printItem (.group n is)).IsCopies n (printItem (.group 0 is)) ∧
          (printItem (.group 0 is)).IsCopies 1 (printItems is)) ∧
        (∀ d, (Descriptor.ofText d).letters ≠ "X" →
          (printItem (.edit n d)).IsCopies n (printItem (.edit 0 d))) ∧
        ∀ d, (Descriptor.ofText d).letters = "X" → (Descriptor.ofText d).width = 0 →
          (printItem (.edit n d)).error = none →
          printItem (.edit n d) = { text := String.ofList (List.replicate n ' ') } := by
  refine ⟨(counted_printItems items h).conversions?_eq, printItems_concat items h, fun n hn =>
    ⟨fun is => ⟨printItem_group n hn is, ?_⟩, fun d hd => printItem_edit n hn hd,
      fun d hd hwidth hok => printItem_blanks n hn hd hwidth hok⟩⟩
  refine ⟨Printed.times_error 1 _, fun hone => ?_⟩
  rw [printItem, Printed.times_error] at hone
  rw [printItem, Nat.zero_max, Printed.times_of_ok 1 hone]
  exact ⟨rfl, rfl⟩

theorem printed_values_exact_nested :
    printItems [.text "'100%: '", .comma, .group 2 [.edit 3 "I5", .edit 4 "X"], .slash, .edit 1 "P",
        .edit 0 "E12.4E3"] =
      { text := "100%%: %5d%5d%5d    %5d%5d%5d    \n%12.4e", values := 7 } ∧
      conversions? "100%%: %5d%5d%5d    %5d%5d%5d    \n%12.4e".toList = some 7 := by
  have hprint : printItems [.text "'100%: '", .comma, .group 2 [.edit 3 "I5", .edit 4 "X"], .slash,
      .edit 1 "P", .edit 0 "E12.4E3"] =
      { text := "100%%: %5d%5d%5d    %5d%5d%5d    \n%12.4e", values := 7 } := by
    decide +kernel
  have hcount := (printed_values_exact [.text "'100%: '", .comma,
    .group 2 [.edit 3 "I5", .edit 4 "X"], .slash, .edit 1 "P", .edit 0 "E12.4E3"]
    (by rw [hprint])).1
  rw [hprint] at hcount
  exact ⟨hprint, hcount⟩

end FortranJulia.Format
