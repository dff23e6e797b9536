import FortranJulia.Proofs.Emission.Plain

/-!
Blocks in the text of a program. A line of text opens a block if it starts with `function`, `for` or
`if` and a blank behind its indentation, and closes one if it is `end`. The lines of code that are
made of words do so exactly if the code does, so that blocks that are balanced in the code are
balanced in its text.
-/

namespace FortranJulia

set_option autoImplicit false

open Julia (Expr Code Line Binding)

/-! ## Lines of text -/

namespace Text

def isIndentation (c : Char) : Bool :=
  c == ' ' || c == '\t'

/-- A line without its indentation. -/
def unindented (line : List Char) : List Char :=
  line.dropWhile isIndentation

/-- Does the line start with a word that opens a block? -/
def opensBlock (line : List Char) : Bool :=
  ["function ", "for ", "if "].any fun head => head.toList.isPrefixOf (unindented line)

/-- Is the line the word that closes a block? -/
def closesBlock (line : List Char) : Bool :=
  unindented line == "end".toList

/-- No line closes a block that is not open, and in the end all blocks are closed. -/
def BalancedLines (lines : List (List Char)) : Prop :=
  (∀ first, first <+: lines → first.countP closesBlock ≤ first.countP opensBlock) ∧
    lines.countP closesBlock = lines.countP opensBlock

/-- The lines of the text open and close blocks evenly. -/
def Balanced (text : String) : Prop :=
  BalancedLines (text.toList.splitOn '\n')

/-! ## First words -/

/-- The characters that end a word at the front of a line. -/
def isBreak (c : Char) : Bool :=
  isIndentation c || c == '(' || c == '[' || c == ',' || c == '='

def firstWord (line : List Char) : List Char :=
  (unindented line).takeWhile (!isBreak ·)

/-- The words that open or close blocks. -/
def blockWords : List String := ["function", "for", "if", "end"]

theorem unbroken_of_all {cs : List Char} (h : cs.all (!isBreak ·)) : ∀ c ∈ cs, isBreak c = false := by
  simpa using h

/-- A line that starts with another word does nothing to blocks. -/
theorem inert_of_firstWord {line : List Char} (h : ∀ w ∈ blockWords, firstWord line ≠ w.toList) :
    opensBlock line = false ∧ closesBlock line = false := by
  have hword : ∀ {w : String}, (∀ c ∈ w.toList, isBreak c = false) → w ∈ blockWords →
      ∀ rest, unindented line ≠ w.toList ++ ' ' :: rest := by
    intro w hbreak hw rest heq
    refine h w hw ?_
    rw [firstWord, heq, List.takeWhile_append_of_pos (by simpa using hbreak)]
    simp [isBreak, isIndentation]
  constructor
  · rw [opensBlock, List.any_eq_false]
    intro head hhead hprefix
    obtain ⟨rest, hrest⟩ := List.isPrefixOf_iff_prefix.1 hprefix
    simp only [List.mem_cons, List.not_mem_nil, or_false] at hhead
    rcases hhead with rfl | rfl | rfl
    · exact hword (w := "function") (unbroken_of_all (by decide)) (by decide) rest hrest.symm
    · exact hword (w := "for") (unbroken_of_all (by decide)) (by decide) rest hrest.symm
    · exact hword (w := "if") (unbroken_of_all (by decide)) (by decide) rest hrest.symm
  · rw [closesBlock, beq_eq_false_iff_ne]
    intro heq
    refine h "end" (by decide) ?_
    rw [firstWord, heq]
    decide

/-- A word is no indentation. -/
theorem unindented_word {w rest : List Char} (hne : w ≠ []) (hw : ∀ c ∈ w, isBreak c = false) :
    unindented (w ++ rest) = w ++ rest := by
  obtain ⟨c, cs, rfl⟩ := List.exists_cons_of_ne_nil hne
  have hc : isIndentation c = false := by
    have := hw c (by simp)
    simp_all [isBreak]
  rw [unindented, List.cons_append, List.dropWhile_cons_of_neg (by simp [hc])]

/-- A word at the front of a line ends where a break follows. -/
theorem firstWord_break {w rest : List Char} (hne : w ≠ []) (hw : ∀ c ∈ w, isBreak c = false)
    (hrest : rest.head?.all isBreak) : firstWord (w ++ rest) = w := by
  have hnone : rest.takeWhile (!isBreak ·) = [] := by
    cases rest with
    | nil => rfl
    | cons d ds => simp_all
  rw [firstWord, unindented_word hne hw, List.takeWhile_append_of_pos (by simpa using hw), hnone,
    List.append_nil]

/-- The word may be empty, if the indentation of what follows is followed by a break. -/
theorem firstWord_append {w rest : List Char} (hw : ∀ c ∈ w, isBreak c = false)
    (hrest : (unindented rest).head?.all isBreak) : firstWord (w ++ rest) = w := by
  cases w with
  | nil =>
    show (unindented rest).takeWhile (!isBreak ·) = []
    cases hlist : unindented rest with
    | nil => rfl
    | cons d ds =>
      rw [hlist] at hrest
      simp_all
  | cons c cs =>
    refine firstWord_break (by simp) hw ?_
    cases rest with
    | nil => rfl
    | cons d ds =>
      by_cases hd : isIndentation d
      · simp [isBreak, hd]
      · simpa [unindented, hd] using hrest

end Text

/-! ## Lines of code -/

/-- The text of the code is one line that does to blocks what the code does, and starts with the marker of
comments only if it is one. -/
structure Julia.Code.Plain (c : Code) : Prop where
  inline : Text.Inline c.text
  opens : Text.opensBlock c.text.toList = c.opens
  closes : Text.closesBlock c.text.toList = c.closes
  marked : (Text.unindented c.text.toList).head? = some '#' → ∃ s, c = .comment s

/-- The word can stand at the front of a line. -/
structure Text.Fronts (w : String) : Prop where
  unbroken : ∀ c ∈ w.toList, isBreak c = false
  unmarked : '#' ∉ w.toList
  free : w ∉ blockWords

theorem word_unbroken {w : String} (h : Text.Word w) : ∀ c ∈ w.toList, Text.isBreak c = false := by
  intro c hc
  have hword := h c hc
  by_contra hbreak
  simp only [Text.isBreak, Text.isIndentation, Bool.not_eq_false, Bool.or_eq_true, beq_iff_eq] at hbreak
  rcases hbreak with (((((rfl | rfl) | rfl) | rfl) | rfl) | rfl) <;> exact absurd hword (by decide)

theorem word_unmarked {w : String} (h : Text.Word w) : '#' ∉ w.toList :=
  fun hc => absurd (h _ hc) (by decide)

/-- An escaped name is no reserved word. -/
theorem escaped_free (w : String) : Lower.escaped w ∉ Text.blockWords := by
  have hreserved : ∀ k ∈ Text.blockWords, Lower.reservedWords.contains k.toLower := by
    decide +kernel
  have hends : ∀ k ∈ Text.blockWords, k.toList.getLast? ≠ some '_' := by decide
  intro hmem
  unfold Lower.escaped at hmem
  split at hmem
  · refine hends _ hmem ?_
    simp
  · rename_i hfree
    exact hfree (hreserved w hmem)

theorem fronts_escaped {w : String} (h : Text.Word w) : Text.Fronts (Lower.escaped w) :=
  ⟨word_unbroken (word_escaped h), word_unmarked (word_escaped h), escaped_free w⟩

theorem fronts_marked {w : String} (h : ∀ c ∈ w.toList, Text.isBreak c = false) (hw : '#' ∉ w.toList) :
    Text.Fronts ("_" ++ w) := by
  have hstarts : ∀ k ∈ Text.blockWords, k.toList.head? ≠ some '_' := by decide
  refine ⟨?_, by simpa using hw, fun hmem => hstarts _ hmem (by simp)⟩
  intro c hc
  rw [String.toList_append, List.mem_append] at hc
  rcases hc with hc | hc
  · obtain rfl := List.mem_singleton.1 hc
    decide
  · exact h c hc

theorem ofInt_chars (n : Int) : ∀ c ∈ (Decimal.ofInt n).toList, c = '-' ∨ c.isDigit := by
  have hdigits : ∀ (k : Nat), ∀ c ∈ (Decimal.digits k).toList, c.isDigit := by
    intro k c hc
    rw [Decimal.digits, String.toList_ofList] at hc
    exact Nat.isDigit_of_mem_toDigits (by decide) (by decide) hc
  cases n with
  | ofNat k => exact fun c hc => .inr (hdigits k c hc)
  | negSucc k =>
    intro c hc
    rw [Decimal.ofInt, String.toList_append, List.mem_append] at hc
    exact hc.imp List.mem_singleton.1 (hdigits (k + 1) c)

theorem fronts_unit (n : Int) : Text.Fronts ("_" ++ Decimal.ofInt n) := by
  refine fronts_marked (fun c hc => ?_) fun hc => ?_
  · have hchars := ofInt_chars n c hc
    by_contra hbreak
    simp only [Text.isBreak, Text.isIndentation, Bool.not_eq_false, Bool.or_eq_true, beq_iff_eq] at hbreak
    rcases hbreak with (((((rfl | rfl) | rfl) | rfl) | rfl) | rfl) <;> exact absurd hchars (by decide)
  · exact absurd (ofInt_chars n _ hc) (by decide)

namespace Material

variable {result : String → Bool} {w : String}

theorem fronts_named (h : (plain result).Named w) : Text.Fronts w := by
  cases h with
  | word _ hspelled => exact fronts_escaped hspelled
  | marked _ hspelled => exact fronts_marked (word_unbroken hspelled) (word_unmarked hspelled)
  | unit number => exact fronts_unit number
  | helper hknown =>
    have hall : ∀ w ∈ helperNames,
        w.toList.all (!Text.isBreak ·) ∧ '#' ∉ w.toList ∧ w ∉ Text.blockWords := by decide
    exact ⟨Text.unbroken_of_all (hall w hknown).1, (hall w hknown).2.1, (hall w hknown).2.2⟩

theorem fronts_helper {f : String} (h : (plain result).helper f) : Text.Fronts f := by
  obtain ⟨l, hl⟩ := h
  have hall : ∀ f ∈ l.helpers, f.toList.all (!Text.isBreak ·) ∧ '#' ∉ f.toList ∧ f ∉ Text.blockWords := by
    unfold Label.helpers
    split <;> decide
  exact ⟨Text.unbroken_of_all (hall f hl).1, (hall f hl).2.1, (hall f hl).2.2⟩

/-- A line that starts with such a word does nothing to blocks. -/
theorem inert_front {w : String} {rest : List Char} (h : w ∉ Text.blockWords)
    (hfirst : Text.firstWord (w.toList ++ rest) = w.toList) :
    Text.opensBlock (w.toList ++ rest) = false ∧ Text.closesBlock (w.toList ++ rest) = false := by
  refine Text.inert_of_firstWord (fun k hk => ?_)
  rw [hfirst]
  intro heq
  rw [String.toList_injective heq] at h
  exact h hk

/-- What is assigned to starts with a name. -/
theorem front_target {j : Expr} (h : (plain result).Target j) :
    ∃ w rest, j.text = w ++ rest ∧ (plain result).Named w ∧ rest.toList.head?.all (· == '[') := by
  induction h with
  | @name w hnamed => exact ⟨w, "", by simp [Expr.text], hnamed, rfl⟩
  | @index base subs _ _ ih =>
    obtain ⟨w, rest, htext, hnamed, hrest⟩ := ih
    refine ⟨w, rest ++ ("[" ++ Expr.separated ", " (Expr.texts subs) ++ "]"), ?_, hnamed, ?_⟩
    · rw [Expr.text, htext]
      simp only [String.append_assoc]
    · cases hlist : rest.toList with
      | nil => simp [hlist]
      | cons c cs => simpa [hlist] using hrest

/-- Names with commas between them. -/
theorem inline_names {names : List String} (h : ∀ x ∈ names, (plain result).Named x) :
    Text.Inline (Expr.separated ", " names) :=
  Text.inline_separated (by decide) (fun x hx => inline_named (h x hx))

/-- The first target of an assignment, and what follows it. -/
theorem front_targets {targets : List Expr} (hne : targets ≠ [])
    (h : ∀ t ∈ targets, (plain result).Target t) (value : String) :
    ∃ w rest, Expr.separated ", " (Expr.texts targets) ++ " = " ++ value = w ++ rest ∧
      (plain result).Named w ∧ (Text.unindented rest.toList).head?.all Text.isBreak := by
  have hbreak : ∀ {front behind : String}, front.toList.head?.all (· == '[') →
      (Text.unindented behind.toList).head?.all Text.isBreak →
      (Text.unindented (front ++ behind).toList).head?.all Text.isBreak := by
    intro front behind hfront hbehind
    cases hlist : front.toList with
    | nil => simpa [hlist] using hbehind
    | cons c cs =>
      obtain rfl : c = '[' := by simpa [hlist] using hfront
      simp [hlist, Text.unindented, Text.isIndentation, Text.isBreak]
  match targets, hne, h with
  | [t], _, h =>
    obtain ⟨w, rest, htext, hnamed, hrest⟩ := front_target (h t (by simp))
    refine ⟨w, rest ++ (" = " ++ value), ?_, hnamed, hbreak hrest ?_⟩
    · simp [Expr.separated, Expr.texts, htext, String.append_assoc]
    · simp [Text.unindented, Text.isIndentation, Text.isBreak]
  | t :: t' :: ts, _, h =>
    obtain ⟨w, rest, htext, hnamed, hrest⟩ := front_target (h t (by simp))
    refine ⟨w, rest ++ (", " ++ (Expr.separated ", " (Expr.texts (t' :: ts)) ++ " = " ++ value)), ?_,
      hnamed, hbreak hrest ?_⟩
    · apply String.toList_injective
      simp [Expr.separated, Expr.texts, htext, String.toList_intercalate]
    · simp [Text.unindented, Text.isIndentation, Text.isBreak]

/-- A line that starts with a name. -/
theorem plain_name {c : Code} {rest : List Char} {w : String}
    (htext : c.text.toList = w.toList ++ rest) (h : Text.Fronts w) (hinline : Text.Inline c.text)
    (hrest : (Text.unindented rest).head?.all Text.isBreak)
    (hcode : c.opens = false ∧ c.closes = false) : c.Plain := by
  have hinert := inert_front h.free (Text.firstWord_append h.unbroken hrest)
  rw [← htext] at hinert
  refine ⟨hinline, hinert.1.trans hcode.1.symm, hinert.2.trans hcode.2.symm, fun hhead => ?_⟩
  rw [htext] at hhead
  cases hw : w.toList with
  | nil =>
    rw [hw, List.nil_append] at hhead
    rw [hhead] at hrest
    cases hrest
  | cons d ds =>
    rw [hw, Text.unindented_word (by simp) (hw ▸ h.unbroken)] at hhead
    obtain rfl := Option.some.inj hhead
    exact absurd (by simp [hw]) h.unmarked

/-- A line that starts with a word of its own that does nothing to blocks. -/
theorem plain_word {c : Code} {rest : List Char} (w : String)
    (hw : (!w.toList.isEmpty && w.toList.all (!Text.isBreak ·) && !Text.blockWords.contains w) = true)
    (htext : c.text.toList = w.toList ++ rest) (hrest : rest.head?.all Text.isBreak)
    (hinline : Text.Inline c.text) (hcode : c.opens = false ∧ c.closes = false)
    (hmarked : w.toList.head? ≠ some '#' ∨ ∃ s, c = .comment s) : c.Plain := by
  simp only [Bool.and_eq_true, List.all_eq_true, Bool.not_eq_true', List.contains_eq_mem,
    decide_eq_false_iff_not, List.isEmpty_eq_false_iff] at hw
  obtain ⟨⟨hne, hunbroken⟩, hfree⟩ := hw
  have hinert := inert_front hfree (Text.firstWord_break hne hunbroken hrest)
  rw [← htext] at hinert
  refine ⟨hinline, hinert.1.trans hcode.1.symm, hinert.2.trans hcode.2.symm, fun hhead => ?_⟩
  refine hmarked.resolve_left fun hunmarked => hunmarked ?_
  rwa [htext, Text.unindented_word hne hunbroken, List.head?_append_of_ne_nil _ hne] at hhead

/-- A line that starts with the word for the head of a block. -/
theorem plain_head {c : Code} {rest : List Char} (w : String)
    (htext : c.text.toList = w.toList ++ rest) (hw : w ∈ ["function ", "for ", "if "])
    (hinline : Text.Inline c.text) (hcode : c.opens = true ∧ c.closes = false) : c.Plain := by
  have hfirst : ∀ w ∈ ["function ", "for ", "if "], w.toList.head?.any (!Text.isIndentation ·) ∧
      w.toList.head? ≠ some 'e' ∧ w.toList.head? ≠ some '#' := by decide
  obtain ⟨hblank, hletter, hunmarked⟩ := hfirst w hw
  obtain ⟨d, ds, hchars⟩ : ∃ d ds, w.toList = d :: ds := by
    cases hchars : w.toList with
    | nil => simp [hchars] at hblank
    | cons d ds => exact ⟨d, ds, rfl⟩
  have hsame : Text.unindented c.text.toList = c.text.toList := by
    rw [hchars] at hblank htext
    simp only [List.head?_cons, Option.any_some, Bool.not_eq_true'] at hblank
    simp [htext, Text.unindented, hblank]
  refine ⟨hinline, ?_, ?_, fun hhead => ?_⟩
  · rw [hcode.1, Text.opensBlock, hsame, List.any_eq_true]
    exact ⟨w, hw, List.isPrefixOf_iff_prefix.2 ⟨rest, htext.symm⟩⟩
  · rw [hcode.2, Text.closesBlock, hsame, beq_eq_false_iff_ne]
    intro heq
    refine hletter ?_
    have hhead := congrArg List.head? heq
    rw [htext, hchars] at hhead
    rw [hchars]
    exact hhead
  · rw [hsame, htext, hchars] at hhead
    rw [hchars] at hunmarked
    exact absurd hhead hunmarked

/-- An assignment starts with a word of its own or with its first target. -/
theorem plain_assign {b : Binding} {targets : List Expr} {j : Expr} (hne : targets ≠ [])
    (hlefts : ∀ t ∈ targets, (plain result).Target t) (hj : j.Inline) :
    (Code.assign b targets j).Plain := by
  have hinline : Text.Inline (Code.assign b targets j).text := by
    have hb : Text.Inline b.text := by cases b <;> decide
    have hitems := Expr.inline_items (t := ", ") (by decide) (fun t ht => inline_target (hlefts t ht))
    simp +decide [Code.text, Text.inline_append, hb, hitems, show Text.Inline j.text from hj]
  cases b with
  | plain =>
    obtain ⟨w, rest, htext, hnamed, hrest⟩ := front_targets hne hlefts j.text
    have hassign : (Code.assign .plain targets j).text.toList = w.toList ++ rest.toList := by
      rw [← String.toList_append, ← htext]
      simp [Code.text, Binding.text]
    exact plain_name hassign (fronts_named hnamed) hinline hrest ⟨rfl, rfl⟩
  | globally =>
    exact plain_word "global" (by decide) (by simp [Code.text, Binding.text]; rfl) rfl hinline ⟨rfl, rfl⟩
      (.inl (by decide))
  | constant =>
    exact plain_word "const" (by decide) (by simp [Code.text, Binding.text]; rfl) rfl hinline ⟨rfl, rfl⟩
      (.inl (by decide))

theorem inline_labelName {l : String} (h : Text.Inline l) : Text.Inline (Lower.labelName l) := by
  refine Text.inline_append.2 ⟨by decide, ?_⟩
  unfold labelKey
  split
  · decide
  · split
    · decide
    · refine Text.Inline.of_subset h ?_
      rw [String.toList_ofList]
      exact (List.dropWhile_sublist _).subset

/-- The lines that are made of words are plain. -/
theorem emitted_plain {c : Code} (h : (plain result).Emitted c) : c.Plain := by
  cases h with
  | functionHead hnamed hparams =>
    have hf := inline_named hnamed
    have hps := inline_names hparams
    exact plain_head "function " (by simp [Code.text]; rfl) (by simp)
      (by simp +decide [Code.text, Text.inline_append, hf, hps]) ⟨rfl, rfl⟩
  | forHead hindex hrange =>
    have hv := inline_named hindex
    have hr := inline_wrought hrange
    exact plain_head "for " (by simp [Code.text]; rfl) (by simp)
      (by simp +decide [Code.text, Text.inline_append, hv, show Text.Inline _ from hr]) ⟨rfl, rfl⟩
  | forPairs hindex hrange hvalues =>
    have hv := inline_named hindex
    have hr := inline_wrought hrange
    have hxs := inline_wrought hvalues
    exact plain_head "for " (by simp [Code.text]; rfl) (by simp)
      (by simp +decide [Code.text, Text.inline_append, hv, show Text.Inline _ from hr,
        show Text.Inline _ from hxs]) ⟨rfl, rfl⟩
  | ifHead hcondition =>
    have hc := inline_wrought hcondition
    exact plain_head "if " (by simp [Code.text]; rfl) (by simp)
      (Text.inline_append.2 ⟨by decide, hc⟩) ⟨rfl, rfl⟩
  | elseifHead hcondition =>
    have hc := inline_wrought hcondition
    exact plain_word "elseif" (by decide) (by simp [Code.text]; rfl) rfl
      (Text.inline_append.2 ⟨by decide, hc⟩) ⟨rfl, rfl⟩ (.inl (by decide))
  | elseHead => exact ⟨by decide, by decide, by decide, fun h => absurd h (by decide)⟩
  | close => exact ⟨by decide, by decide, by decide, fun h => absurd h (by decide)⟩
  | label hsource =>
    exact plain_word "@label" (by decide) (by simp [Code.text]; rfl) rfl
      (Text.inline_append.2 ⟨by decide, inline_labelName hsource⟩) ⟨rfl, rfl⟩ (.inl (by decide))
  | goto hsource =>
    exact plain_word "@goto" (by decide) (by simp [Code.text]; rfl) rfl
      (Text.inline_append.2 ⟨by decide, inline_labelName hsource⟩) ⟨rfl, rfl⟩ (.inl (by decide))
  | @comment s t hsource hpart =>
    by_cases hs : s = ""
    · subst hs
      exact ⟨by decide, by decide, by decide, fun _ => ⟨"", rfl⟩⟩
    · have htext : (Code.comment s).text = "# " ++ s := if_neg (by simpa using hs)
      refine plain_word "#" (by decide) (by rw [htext]; simp; rfl) rfl ?_ ⟨rfl, rfl⟩ (.inr ⟨s, rfl⟩)
      rw [htext]
      exact Text.inline_append.2 ⟨by decide, Text.Inline.of_subset hsource hpart⟩
  | @returns values hnamed =>
    cases values with
    | nil => exact ⟨by decide, by decide, by decide, fun h => absurd h (by decide)⟩
    | cons v vs =>
      exact plain_word "return" (by decide) (by simp [Code.text]; rfl) rfl
        (Text.inline_append.2 ⟨by decide, inline_names hnamed⟩) ⟨rfl, rfl⟩ (.inl (by decide))
  | assign b hne hlefts hvalue =>
    exact plain_assign hne hlefts (hvalue.elim inline_wrought inline_called)
  | globals hnamed =>
    exact plain_word "global" (by decide) (by simp [Code.text]; rfl) rfl
      (Text.inline_append.2 ⟨by decide, inline_names hnamed⟩) ⟨rfl, rfl⟩ (.inl (by decide))
  | shortFunction hnamed hparams hbody =>
    have hf := inline_named hnamed
    have hps := inline_names hparams
    have hj := inline_wrought hbody
    exact plain_name (by simp [Code.text]; rfl) (fronts_named hnamed)
      (by simp +decide [Code.text, Text.inline_append, hf, hps, show Text.Inline _ from hj]) rfl
      ⟨rfl, rfl⟩
  | run hcalled =>
    have hinline := inline_called hcalled
    cases hcalled with
    | subroutine _ hcallee _ =>
      obtain ⟨v, hv, rfl⟩ := hcallee
      exact plain_name (by simp [Code.text, Expr.text]; rfl) (fronts_escaped hv) hinline rfl ⟨rfl, rfl⟩
    | helper hknown _ =>
      exact plain_name (by simp [Code.text, Expr.text]; rfl) (fronts_helper hknown) hinline rfl ⟨rfl, rfl⟩
  | @lone w hnamed =>
    have hname : (Code.run (.name w)).text.toList = w.toList ++ [] := by simp [Code.text, Expr.text]
    exact plain_name hname (fronts_named hnamed) (inline_named hnamed) rfl ⟨rfl, rfl⟩

end Material

/-! ## Programs -/

namespace Julia

namespace Line

def opens : Line → Bool
  | .code _ c => c.opens
  | .gap => false

def closes : Line → Bool
  | .code _ c => c.closes
  | .gap => false

/-- The code of the line is plain. -/
def Plain : Line → Prop
  | .code _ c => c.Plain
  | .gap => True

/-- The characters of the line before its end. -/
def chars (indent : String) : Line → List Char
  | .code depth c => (String.join (List.replicate depth indent)).toList ++ c.text.toList
  | .gap => []

variable {indent : String} {l : Line}

theorem text_chars (indent : String) (l : Line) : (l.text indent).toList = l.chars indent ++ ['\n'] := by
  cases l <;> simp [Line.text, chars]

theorem indentation_chars (hindent : ∀ c ∈ indent.toList, Text.isIndentation c) (depth : Nat) :
    ∀ c ∈ (String.join (List.replicate depth indent)).toList, Text.isIndentation c := by
  intro c hc
  rw [String.toList_join, List.mem_flatMap] at hc
  obtain ⟨s, hs, hc⟩ := hc
  rw [List.eq_of_mem_replicate hs] at hc
  exact hindent c hc

/-- A plain line is one line of text, and does to blocks what its code does. -/
theorem Plain.chars (h : l.Plain) (hindent : ∀ c ∈ indent.toList, Text.isIndentation c) :
    '\n' ∉ l.chars indent ∧ Text.opensBlock (l.chars indent) = l.opens ∧
      Text.closesBlock (l.chars indent) = l.closes := by
  cases l with
  | gap => exact ⟨by simp [Line.chars], rfl, rfl⟩
  | code depth c =>
    have hblank := indentation_chars hindent depth
    have hskip : Text.unindented ((Line.code depth c).chars indent) = Text.unindented c.text.toList :=
      List.dropWhile_append_of_pos hblank
    refine ⟨?_, ?_, ?_⟩
    · rw [Line.chars, List.mem_append]
      rintro (hc | hc)
      · exact absurd (hblank _ hc) (by decide)
      · exact h.inline hc
    · rw [Text.opensBlock, hskip]
      exact h.opens
    · rw [Text.closesBlock, hskip]
      exact h.closes

end Line

/-- The lines of text of a program are its lines, and an empty one behind the last line end. -/
theorem splitOn_render {indent : String} {lines : List Line} (h : ∀ l ∈ lines, l.Plain)
    (hindent : ∀ c ∈ indent.toList, Text.isIndentation c) :
    (Line.render indent lines).toList.splitOn '\n' = lines.map (Line.chars indent) ++ [[]] := by
  induction lines with
  | nil => rfl
  | cons l lines ih =>
    obtain ⟨hinline, -⟩ := (h l (by simp)).chars hindent
    have hfirst : (Line.render indent (l :: lines)).toList =
        l.chars indent ++ '\n' :: (Line.render indent lines).toList := by
      simp [Line.render, String.toList_join, Line.text_chars]
    have hnone : ∀ c ∈ l.chars indent, (c == '\n') = false := by
      intro c hc
      rw [beq_eq_false_iff_ne]
      rintro rfl
      exact hinline hc
    rw [hfirst, List.splitOn, List.splitOnP_append_cons_of_forall_mem hnone _ (beq_self_eq_true _)]
    rw [List.splitOn] at ih
    rw [ih (fun k hk => h k (by simp [hk])), List.map_cons, List.cons_append]

/-- What is open behind some lines is what was open before, and what they open and close. -/
theorem levels_count {floor : Nat} {lines : List Line} : ∀ {count count' : Nat},
    levels floor count lines = some count' →
      count + lines.countP Line.opens = count' + lines.countP Line.closes := by
  have hline : ∀ {l : Line} {count count' : Nat}, l.level floor count = some count' →
      count + (if l.opens then 1 else 0) = count' + (if l.closes then 1 else 0) := by
    intro l count count' hl
    cases l with
    | gap =>
      obtain rfl := Option.some.inj hl
      rfl
    | code depth c =>
      have hboth : c.opens → c.closes = false := by cases c <;> simp [Code.opens, Code.closes]
      have hneither : c.resumes → c.opens = false ∧ c.closes = false := by
        cases c <;> simp [Code.opens, Code.closes, Code.resumes]
      simp only [Line.level] at hl
      simp only [Line.opens, Line.closes]
      grind
  induction lines with
  | nil =>
    intro count count' h
    rw [Option.some.inj h]
    rfl
  | cons l lines ih =>
    intro count count' h
    obtain ⟨k, hk, hrest⟩ := Option.bind_eq_some_iff.1 h
    have hfirst := hline hk
    have hothers := ih hrest
    rw [List.countP_cons, List.countP_cons]
    omega

/-- Blocks that are balanced in the code of a program are balanced in its text. -/
theorem balanced_render {indent : String} {lines : List Line} (h : ∀ l ∈ lines, l.Plain)
    (hindent : ∀ c ∈ indent.toList, Text.isIndentation c) (hlevels : levels 0 0 lines = some 0) :
    Text.Balanced (Line.render indent lines) := by
  have hcount : ∀ {xs : List Line}, (∀ l ∈ xs, l.Plain) →
      (xs.map (Line.chars indent)).countP Text.opensBlock = xs.countP Line.opens ∧
      (xs.map (Line.chars indent)).countP Text.closesBlock = xs.countP Line.closes := by
    intro xs hxs
    rw [List.countP_map, List.countP_map]
    exact ⟨List.countP_congr (fun l hl => by simp [((hxs l hl).chars hindent).2.1]),
      List.countP_congr (fun l hl => by simp [((hxs l hl).chars hindent).2.2])⟩
  have hwhole := levels_count hlevels
  have hlast : Text.opensBlock [] = false ∧ Text.closesBlock [] = false := by decide
  obtain ⟨hopens, hcloses⟩ := hcount h
  have hall : (lines.map (Line.chars indent) ++ [[]]).countP Text.closesBlock =
      (lines.map (Line.chars indent) ++ [[]]).countP Text.opensBlock := by
    rw [List.countP_append, List.countP_append, hopens, hcloses]
    simp [hlast]
    omega
  rw [Text.Balanced, splitOn_render h hindent]
  refine ⟨fun first hfirst => ?_, hall⟩
  rcases List.prefix_concat_iff.1 hfirst with rfl | hfirst
  · exact hall.le
  · -- The first lines of the text are those of the first lines of code.
    obtain ⟨n, rfl⟩ : ∃ n, first = (lines.take n).map (Line.chars indent) := by
      refine ⟨first.length, ?_⟩
      rw [List.map_take]
      exact List.prefix_iff_eq_take.1 hfirst
    have hfront : ∀ l ∈ lines.take n, l.Plain := fun l hl => h l (List.mem_of_mem_take hl)
    obtain ⟨hopens', hcloses'⟩ := hcount hfront
    rw [← List.take_append_drop n lines, levels_append] at hlevels
    obtain ⟨k, hk, -⟩ := Option.bind_eq_some_iff.1 hlevels
    have hpart := levels_count hk
    omega

end Julia

end FortranJulia
