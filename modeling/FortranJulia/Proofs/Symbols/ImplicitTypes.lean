import FortranJulia.Symbol.Collect
import FortranJulia.Proofs.LetterCase.Texts
import FortranJulia.Proofs.Lowering.Declarations
import Mathlib.Data.List.Induction

/-!
The type that a name has by its first letter. A `RuleCall` asks for a change of the rules, and
`RuleCall.typeAfter` says of a list of calls which of them counts for a letter: the last one that was not
refused and that covers it. The rules after the calls answer by that call, and an IMPLICIT statement makes
the calls that `Node.ruleCalls` reads off it and changes nothing else in the table.
-/

namespace FortranJulia

set_option autoImplicit false

/-! ## Letters and types -/

theorem TypeName.textOf_ofText? (s : String) : textOf (ofText? s) = s := by
  unfold ofText?
  split <;> rfl

theorem TypeName.ofText?_isNone (s : String) : (ofText? s).isNone ↔ s = "" := by
  unfold ofText?
  split
  · exact ⟨fun _ => rfl, fun _ => rfl⟩
  iterate 6 exact ⟨nofun, by decide +revert⟩
  · rename_i hne _ _ _ _ _ _
    exact ⟨nofun, fun h => absurd h hne⟩

namespace Letter

/-- The letters are the characters from A to Z, in their order. -/
theorem ofUpper?_isSome (c : Char) : (ofUpper? c).isSome ↔ 'A' ≤ c ∧ c ≤ 'Z' := by
  have hle : ∀ a b : Char, a ≤ b ↔ a.toNat ≤ b.toNat := fun _ _ => Iff.rfl
  have hA : 'A'.toNat = 65 := rfl
  have hZ : 'Z'.toNat = 90 := rfl
  unfold ofUpper?
  split
  · rename_i h
    refine ⟨fun _ => ?_, fun _ => rfl⟩
    rw [hle, hle]
    omega
  · rename_i h
    refine ⟨nofun, fun hc => absurd ?_ h⟩
    rw [hle, hle] at hc
    omega

theorem ofUpper?_val {c : Char} {l : Letter} (h : ofUpper? c = some l) : l.val + 65 = c.toNat := by
  unfold ofUpper? at h
  split at h
  · rename_i hc
    obtain rfl := Option.some.inj h
    exact Nat.sub_add_cancel hc.1
  · cases h

theorem ofUpper?_le {c d : Char} {l m : Letter} (hl : ofUpper? c = some l) (hm : ofUpper? d = some m) :
    l ≤ m ↔ c ≤ d := by
  have hc := ofUpper?_val hl
  have hd := ofUpper?_val hm
  rw [show c ≤ d ↔ c.toNat ≤ d.toNat from Iff.rfl, Fin.le_def]
  omega

end Letter

theorem toUpper_between {c : Char} (h : c.isAlpha) : 'A' ≤ c.toUpper ∧ c.toUpper ≤ 'Z' := by
  have hletters : ∀ l : Letter, 'A' ≤ l.lower.toUpper ∧ l.lower.toUpper ≤ 'Z' := by decide
  rcases toUpper_or_lower c with hc | ⟨l, rfl⟩
  · have hcase : c.isUpper ∨ c.isLower := Bool.or_eq_true_iff.1 h
    rcases hcase with hupper | hlower
    · rw [hc]
      exact of_decide_eq_true hupper
    · -- A letter in lower case is not its own upper case.
      have hbetween := Bool.and_eq_true_iff.1 hlower
      have hval : 'a'.val ≤ c.val ∧ c.val ≤ 'z'.val :=
        ⟨of_decide_eq_true hbetween.1, of_decide_eq_true hbetween.2⟩
      have hne := congrArg Char.val ((dif_pos hval).symm.trans hc)
      simp at hne
  · exact hletters l

/-! ## Calls -/

/-- A call that changes the rules. -/
inductive RuleCall where
  /-- No letter has a type. -/
  | none
  /-- The letters from the first to the last one, in any case, get a type. -/
  | range (type : String) (first last : Char)
  deriving DecidableEq, Repr

namespace RuleCall

/-- Why a call is refused: an end of its range is no letter, or its range runs backwards. -/
def refusal? : RuleCall → Option RangeError
  | none => .none
  | range _ first last =>
    let a := Text.upperChar first
    let b := Text.upperChar last
    if ¬ (('A' ≤ a ∧ a ≤ 'Z') ∧ 'A' ≤ b ∧ b ≤ 'Z') then some (.notLetters a b)
    else if b < a then some (.reversed a b)
    else .none

def accepted (call : RuleCall) : Bool := call.refusal?.isNone

/-- Is the letter, in upper case, one of those that the call is about? -/
def covers (letter : Char) : RuleCall → Bool
  | none => true
  | range _ first last => Text.upperChar first ≤ letter && letter ≤ Text.upperChar last

/-- The type that the call sets; there is none without a name. -/
def type : RuleCall → String
  | none => ""
  | range type _ _ => type

/-- The type of a letter before any call. -/
def firstType (letter : Char) : String :=
  if 'I' ≤ letter && letter ≤ 'N' then "INTEGER" else "REAL"

/-- The type of an upper-case letter after some calls: that of the last call for it. -/
def typeAfter (calls : List RuleCall) (letter : Char) : String :=
  ((calls.reverse.find? fun call => call.accepted && call.covers letter).map type).getD (firstType letter)

end RuleCall

namespace ImplicitRules

/-- Makes one call. -/
def call (r : ImplicitRules) : RuleCall → Except RangeError ImplicitRules
  | .none => .ok .setNone
  | .range type first last => r.setRange (TypeName.ofText? type) first last

/-- The rules in force after a call. -/
def after (r : ImplicitRules) (c : RuleCall) : ImplicitRules :=
  match r.call c with
  | .ok s => s
  | .error _ => r

variable {r s : ImplicitRules} {c : RuleCall} {letter : Char} {l : Letter}

theorem call_error (r : ImplicitRules) (c : RuleCall) (e : RangeError) :
    r.call c = .error e ↔ c.refusal? = some e := by
  cases c with
  | none => exact ⟨nofun, nofun⟩
  | range type first last =>
    have hfirst := Letter.ofUpper?_isSome (Text.upperChar first)
    have hlast := Letter.ofUpper?_isSome (Text.upperChar last)
    simp only [call, setRange, RuleCall.refusal?, ← hfirst, ← hlast]
    cases ha : Letter.ofUpper? (Text.upperChar first) with
    | none => simp
    | some i =>
      cases hb : Letter.ofUpper? (Text.upperChar last) with
      | none => simp
      | some j =>
        have hlt : j < i ↔ Text.upperChar last < Text.upperChar first := by
          rw [← Fin.not_le, ← Char.not_le, Letter.ofUpper?_le ha hb]
        simp only [Option.isSome_some, and_self, not_true_eq_false, if_false, ← hlt]
        split <;> simp

theorem after_refused (h : c.accepted = false) : r.after c = r := by
  obtain ⟨e, he⟩ := Option.isSome_iff_exists.1 (Option.isNone_eq_false_iff.1 h)
  rw [after, (call_error r c e).2 he]

theorem call_accepted (h : c.accepted) : r.call c = .ok (r.after c) := by
  have hnone : c.refusal? = .none := Option.isNone_iff_eq_none.1 h
  cases hcall : r.call c with
  | ok s => rw [after, hcall]
  | error e =>
    rw [call_error, hnone] at hcall
    cases hcall

/-- Whether no letter has a type after a call. -/
theorem isNone_after (h : c.accepted) : (r.after c).isNone = (c == .none) := by
  have hcall := r.call_accepted h
  cases c with
  | none =>
    obtain heq := Except.ok.inj hcall
    rw [← heq]
    rfl
  | range type first last =>
    simp only [call, setRange] at hcall
    split at hcall
    · split at hcall
      · cases hcall
      · rw [← Except.ok.inj hcall]
        rfl
    · cases hcall

/-- The type of a letter after a call. -/
theorem types_after (h : c.accepted) (hl : Letter.ofUpper? letter = some l) :
    (r.after c).types l = if c.covers letter then TypeName.ofText? c.type else r.types l := by
  have hcall := r.call_accepted h
  cases c with
  | none =>
    obtain heq := Except.ok.inj hcall
    rw [← heq]
    rfl
  | range type first last =>
    simp only [call, setRange] at hcall
    split at hcall
    · rename_i i j hi hj
      split at hcall
      · cases hcall
      · rw [← Except.ok.inj hcall]
        simp only [RuleCall.covers, RuleCall.type, Letter.ofUpper?_le hi hl, Letter.ofUpper?_le hl hj,
          Bool.and_eq_true, decide_eq_true_eq]
    · cases hcall

theorem types_default (hl : Letter.ofUpper? letter = some l) :
    default.types l = TypeName.ofText? (RuleCall.firstType letter) := by
  have hI : Letter.ofUpper? 'I' = some 8 := by decide
  have hN : Letter.ofUpper? 'N' = some 13 := by decide
  have hbounds : ('I' ≤ letter && letter ≤ 'N') = decide (8 ≤ l.val ∧ l.val ≤ 13) := by
    rw [Bool.decide_and, ← decide_eq_decide.2 (Letter.ofUpper?_le hI hl),
      ← decide_eq_decide.2 (Letter.ofUpper?_le hl hN)]
    rfl
  simp only [default, RuleCall.firstType, hbounds, decide_eq_true_eq]
  split <;> rfl

/-- After any calls, the type of a letter is that of the last call for it. -/
theorem types_run (calls : List RuleCall) (hl : Letter.ofUpper? letter = some l) :
    (calls.foldl after default).types l = TypeName.ofText? (RuleCall.typeAfter calls letter) := by
  induction calls using List.reverseRecOn with
  | nil => exact types_default hl
  | append_singleton calls c ih =>
    rw [List.foldl_append, List.foldl_cons, List.foldl_nil, RuleCall.typeAfter, List.reverse_append,
      List.reverse_singleton, List.singleton_append, List.find?_cons]
    cases haccepted : c.accepted with
    | false => rw [after_refused haccepted, ih, Bool.false_and]; rfl
    | true =>
      rw [types_after haccepted hl, Bool.true_and]
      cases c.covers letter with
      | true => rfl
      | false => exact ih

/-- After any calls, no letter has a type if the last call that was not refused said so. -/
theorem isNone_run (calls : List RuleCall) :
    (calls.foldl after default).isNone = ((calls.filter RuleCall.accepted).getLast? == some .none) := by
  induction calls using List.reverseRecOn with
  | nil => rfl
  | append_singleton calls c ih =>
    rw [List.foldl_append, List.foldl_cons, List.foldl_nil, List.filter_append]
    cases haccepted : c.accepted with
    | false => rw [after_refused haccepted, ih, List.filter_singleton, haccepted]; simp
    | true =>
      rw [isNone_after haccepted, List.filter_singleton, haccepted]
      simp

end ImplicitRules

/-! ## IMPLICIT statements -/

namespace Node

/-- The call for a range of letters, if its ends are single characters. -/
def ruleCall? (type : Option TypeName) (range : Node) : Option RuleCall :=
  let letters := (range.children.filter (·.hasKind .name)).map (·.text)
  match letters.head?, letters.getLast? with
  | some a, some b =>
    match a.toList, b.toList with
    | [x], [y] => some (.range (TypeName.textOf type) x y)
    | _, _ => none
  | _, _ => none

/-- The calls that an IMPLICIT statement makes, in order. -/
def ruleCalls (stmt : Node) : List RuleCall :=
  if stmt.hasToken (.keyword .NONE) then [.none]
  else (stmt.findAll .implicitSpec).flatMap fun spec =>
    (spec.findAll .implicitRange).filterMap (·.ruleCall? (typeName? (spec.child? .typeSpec)))

/-- A type specification is known by the name of its type. -/
theorem ofText?_typeName? (spec : Option Node) :
    TypeName.ofText? (TypeName.textOf (typeName? spec)) = typeName? spec := by
  unfold typeName?
  split
  · split
    iterate 2 rfl
    rw [TypeName.textOf_ofText?]
  · rfl

end Node

/-- The table with the rules of the scope at hand changed by some calls. -/
def Table.setRules (t : Table) (calls : List RuleCall) : Table :=
  t.modify fun s => { s with implicit := calls.foldl .after s.implicit }

namespace Table

theorem setRules_nil (t : Table) : t.setRules [] = t := by
  obtain ⟨global, closed, opened, spellings⟩ := t
  cases opened <;> rfl

theorem setRules_append (t : Table) (calls more : List RuleCall) :
    t.setRules (calls ++ more) = (t.setRules calls).setRules more := by
  simp only [setRules, modify_modify, List.foldl_append]

end Table

namespace Collection

theorem each_setRules {ns : List Node} {f : Collection → Node → Collection} {g : Node → List RuleCall}
    (h : ∀ c k, (f c k).table = c.table.setRules (g k)) :
    ∀ c : Collection, (c.each ns f).table = c.table.setRules (ns.flatMap g) := by
  induction ns with
  | nil => exact fun c => c.table.setRules_nil.symm
  | cons k ns ih =>
    intro c
    rw [List.flatMap_cons, Table.setRules_append, ← h c k]
    exact ih (f c k)

/-- A range of letters makes its call; if it is refused, the table stays as it is. -/
theorem implicitRange_table {type : Option TypeName}
    (htype : TypeName.ofText? (TypeName.textOf type) = type) (c : Collection) (range : Node) :
    (implicitRange type c range).table = c.table.setRules (range.ruleCall? type).toList := by
  have hstays := c.table.setRules_nil.symm
  unfold implicitRange Node.ruleCall?
  simp only
  generalize (range.children.filter (·.hasKind .name)).map (·.text) = letters
  cases letters.head? with
  | none => exact hstays
  | some a =>
    cases letters.getLast? with
    | none => exact hstays
    | some b =>
      simp only
      -- Only two single characters make a call.
      rcases a.toList with _ | ⟨x, _ | _⟩ <;> rcases b.toList with _ | ⟨y, _ | _⟩ <;> try exact hstays
      have hset : c.table.setRules [.range (TypeName.textOf type) x y] = c.table.modify fun s =>
          { s with implicit := c.table.current.implicit.after (.range (TypeName.textOf type) x y) } :=
        Table.modify_congr rfl
      simp only [Option.toList_some]
      rw [hset, ImplicitRules.after, ImplicitRules.call, htype]
      cases c.table.current.implicit.setRange type x y with
      | ok rules => rfl
      | error e => exact hstays.trans (Table.modify_congr rfl)

/-- An IMPLICIT statement makes its calls and changes nothing else in the table. -/
theorem implicitTypes_table (c : Collection) (stmt : Node) :
    (c.implicitTypes stmt).table = c.table.setRules stmt.ruleCalls := by
  unfold implicitTypes Node.ruleCalls
  split
  · rfl
  · refine each_setRules (fun c spec => ?_) c
    rw [List.filterMap_eq_flatMap_toList]
    exact each_setRules (implicitRange_table (Node.ofText?_typeName? _)) c

end Collection

/-! ## The last rule counts -/

/-- After any calls on the rules that a program starts with, the type of a name that starts with a letter is
that of the last call for the letter in either case, and the name has none if that type is empty. No letter
has a type exactly if the last call that was not refused said so, and a call that is refused leaves the
rules as they were. An IMPLICIT statement is such a list of calls on the rules of its scope. -/
theorem last_rule_counts (calls : List RuleCall) :
    (∀ (c : Char) (cs : List Char), c.isAlpha →
      TypeName.textOf ((calls.foldl ImplicitRules.after .default).typeOf (String.ofList (c :: cs))) =
          RuleCall.typeAfter calls c.toUpper ∧
        (((calls.foldl ImplicitRules.after .default).typeOf (String.ofList (c :: cs))).isNone ↔
          RuleCall.typeAfter calls c.toUpper = "")) ∧
      ((calls.foldl ImplicitRules.after .default).isNone ↔
        (calls.filter RuleCall.accepted).getLast? = some .none) ∧
      (∀ (r : ImplicitRules) (call : RuleCall),
        (call.refusal? = none → r.call call = .ok (r.after call)) ∧
        ∀ e, call.refusal? = some e → r.call call = .error e ∧ r.after call = r) ∧
      ∀ (c : Collection) (stmt : Node), (c.implicitTypes stmt).table = c.table.modify fun s =>
        { s with implicit := stmt.ruleCalls.foldl ImplicitRules.after s.implicit } := by
  refine ⟨fun c cs hc => ?_, ?_, fun r call => ⟨fun h => ?_, fun e he => ?_⟩, ?_⟩
  · obtain ⟨l, hl⟩ := Option.isSome_iff_exists.1 ((Letter.ofUpper?_isSome c.toUpper).2 (toUpper_between hc))
    have htype : (calls.foldl ImplicitRules.after .default).typeOf (String.ofList (c :: cs)) =
        TypeName.ofText? (RuleCall.typeAfter calls c.toUpper) := by
      rw [ImplicitRules.typeOf, String.toList_ofList]
      simp only [hl, Option.bind_some]
      exact ImplicitRules.types_run calls hl
    rw [htype]
    exact ⟨TypeName.textOf_ofText? _, TypeName.ofText?_isNone _⟩
  · rw [ImplicitRules.isNone_run, beq_iff_eq]
  · exact ImplicitRules.call_accepted (Option.isNone_iff_eq_none.2 h)
  · refine ⟨(ImplicitRules.call_error r call e).2 he, ImplicitRules.after_refused ?_⟩
    rw [RuleCall.accepted, he]
    rfl
  · exact Collection.implicitTypes_table

/-- A range that runs backwards does not count, and the range before it is set in lower case. -/
theorem last_rule_counts_refused : 'b'.isAlpha ∧
    TypeName.textOf (([.none, .range "INTEGER" 'a' 'c', .range "REAL" 'z' 'a'].foldl
      ImplicitRules.after .default).typeOf (String.ofList ['b', 'x'])) = "INTEGER" :=
  ⟨by decide, ((last_rule_counts _).1 'b' ['x'] (by decide)).1.trans (by decide)⟩

end FortranJulia
