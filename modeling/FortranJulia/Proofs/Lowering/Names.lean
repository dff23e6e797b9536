import FortranJulia.Lowering.State
import FortranJulia.Proofs.Meaning.Julia
import FortranJulia.Proofs.Scanning.Lexemes

/-!
Names in the program that is written. A name is written as it was spelled first, and so with the
same letters up to their case; a reserved word and the result of a function get an underscore. What
is written for a name is a word, and once a name has been written it is written the same way for
good.
-/

namespace FortranJulia

set_option autoImplicit false

/-! ## Case -/

/-- A word that can stand for a variable. -/
structure Julia.IsWord (cs : List Char) : Prop where
  ne_nil : cs ≠ []
  chars : ∀ c ∈ cs, Julia.isWordChar c
  first : ∀ c, cs.head? = some c → Decimal.isDigit c = false

theorem Julia.isWord_of_check {cs : List Char}
    (h : (!cs.isEmpty && cs.all Julia.isWordChar && !cs.head?.any Decimal.isDigit) = true) :
    Julia.IsWord cs := by
  simp only [Bool.and_eq_true, Bool.not_eq_true', List.isEmpty_eq_false_iff, List.all_eq_true,
    Option.any_eq_false] at h
  exact ⟨h.1.1, h.1.2, h.2⟩

/-- What holds of each ASCII character holds of all of them. -/
theorem ascii_forall {P : Char → Prop} (h : ∀ n : Fin 128, P (Char.ofNat n)) {c : Char}
    (hc : c.toNat < 128) : P c := by
  have hthis := h ⟨c.toNat, hc⟩
  rwa [Char.ofNat_toNat] at hthis

theorem ascii_toUpper {c : Char} (hc : c.toNat < 128) :
    Scan.isWordChar c.toUpper = Scan.isWordChar c ∧
      Decimal.isDigit c.toUpper = Decimal.isDigit c :=
  ascii_forall (P := fun c => Scan.isWordChar c.toUpper = Scan.isWordChar c ∧
    Decimal.isDigit c.toUpper = Decimal.isDigit c) (by decide) hc

theorem wordChar_ascii {d : Char} (hd : Scan.isWordChar d) : d.toNat < 128 := by
  simp only [Scan.isWordChar, Scan.isLetter, Decimal.isDigit, Bool.or_eq_true, Bool.and_eq_true,
    decide_eq_true_eq, beq_iff_eq, Char.le_def] at hd
  rcases hd with ((h | h) | h) | h
  · exact Nat.lt_of_le_of_lt h.2 (by decide)
  · exact Nat.lt_of_le_of_lt h.2 (by decide)
  · rw [h]
    decide
  · exact Nat.lt_of_le_of_lt h.2 (by decide)

theorem letter_not_digit {d : Char} (hd : Scan.isLetter d) : Decimal.isDigit d = false :=
  ascii_forall (P := fun d => Scan.isLetter d → Decimal.isDigit d = false) (by decide)
    (wordChar_ascii (by simp [Scan.isWordChar, hd])) hd

/-- A character with the upper case of a word character is one in Julia, and a digit only if the
other one is. -/
theorem wordChar_of_upper {c d : Char} (h : Text.upperChar c = Text.upperChar d)
    (hd : Scan.isWordChar d) :
    Julia.isWordChar c ∧ (Decimal.isDigit d = false → Decimal.isDigit c = false) := by
  have hd' := wordChar_ascii hd
  by_cases hc : c.toNat < 128
  · rw [Text.upperChar, Text.upperChar, if_pos hc, if_pos hd'] at h
    obtain ⟨hword, hdigit⟩ := ascii_toUpper hc
    obtain ⟨hword', hdigit'⟩ := ascii_toUpper hd'
    rw [h] at hword hdigit
    rw [hword'] at hword
    rw [hdigit'] at hdigit
    exact ⟨by simp [Julia.isWordChar, ← hword, hd], fun hno => by rw [← hdigit, hno]⟩
  · refine ⟨by simp only [Julia.isWordChar, Bool.or_eq_true, decide_eq_true_eq]; omega, fun _ => ?_⟩
    simp only [Decimal.isDigit, Bool.and_eq_false_iff, decide_eq_false_iff_not, Char.le_def]
    right
    have hnine : '9'.toNat < 128 := by decide
    intro hle
    exact hc (Nat.lt_of_le_of_lt hle hnine)

/-- A text with the key of a name is a word. -/
theorem word_of_nameKey {w x : String} (hkey : nameKey w = nameKey x)
    (hx : Scan.IsName x.toList) : Julia.IsWord w.toList := by
  have hmap : w.toList.map Text.upperChar = x.toList.map Text.upperChar := by
    have h := congrArg String.toList hkey
    simpa [nameKey, Text.upper] using h
  obtain ⟨d, ds, hname, ⟨hletter, hunder⟩, hds⟩ := hx
  rw [hname] at hmap
  have hword : ∀ e ∈ d :: ds, Scan.isWordChar e := by
    intro e he
    rcases List.mem_cons.1 he with rfl | he
    · simp [Scan.isWordChar, hletter]
    · exact hds e he
  refine ⟨?_, ?_, ?_⟩
  · intro hnil
    rw [hnil] at hmap
    cases hmap
  · intro c hc
    have hmem : Text.upperChar c ∈ (d :: ds).map Text.upperChar :=
      hmap ▸ List.mem_map_of_mem hc
    obtain ⟨e, he, heq⟩ := List.mem_map.1 hmem
    exact (wordChar_of_upper heq.symm (hword e he)).1
  · intro c hc
    obtain ⟨rest, hw⟩ := List.head?_eq_some_iff.1 hc
    rw [hw, List.map_cons, List.map_cons] at hmap
    exact (wordChar_of_upper (List.cons.inj hmap).1 (hword d (by simp))).2
      (letter_not_digit hletter)

/-! ## Spellings -/

namespace Table

theorem nameKey_spelling (t : Table) (x : String) : nameKey (t.spelling x) = nameKey x := by
  rw [spelling]
  cases h : t.spelling? x with
  | none => rfl
  | some w => simpa using List.find?_some h

/-- The table after some more names were recorded. -/
def recorded (t : Table) (more : List String) : Table :=
  { t with spellings := t.spellings ++ more }

theorem recorded_nil (t : Table) : t.recorded [] = t := by
  simp [recorded]

theorem recorded_recorded (t : Table) (more others : List String) :
    (t.recorded more).recorded others = t.recorded (more ++ others) := by
  simp [recorded]

theorem typeOf_recorded (t : Table) (more : List String) (x : String) :
    (t.recorded more).typeOf x = t.typeOf x :=
  rfl

theorem spelling?_recorded {t : Table} {x w : String} (h : t.spelling? x = some w)
    (more : List String) : (t.recorded more).spelling? x = some w := by
  rw [spelling?, recorded, List.find?_append]
  rw [spelling?] at h
  rw [h]
  rfl

/-- A name is recorded as it is spelled, or not again. -/
theorem spell_eq (t : Table) (x : String) :
    ∃ more, t.spell x = t.recorded more ∧ (t.spell x).spelling? x = some (t.spelling x) := by
  rw [spell, spelling]
  cases h : t.spelling? x with
  | none =>
    refine ⟨[x], rfl, ?_⟩
    rw [spelling?] at h ⊢
    simp only [List.find?_append, h]
    simp
  | some w => exact ⟨[], (recorded_nil t).symm, h⟩

end Table

/-! ## Names of variables -/

namespace LowerState

/-- The state after some more names were recorded. -/
def recorded (s : LowerState) (more : List String) : LowerState :=
  { s with collection := { s.collection with table := s.collection.table.recorded more } }

theorem recorded_nil (s : LowerState) : s.recorded [] = s := by
  simp [recorded, Table.recorded_nil]

theorem recorded_recorded (s : LowerState) (more others : List String) :
    (s.recorded more).recorded others = s.recorded (more ++ others) := by
  simp [recorded, Table.recorded_recorded]

/-- Is the name that of the function at hand? -/
def isResult (s : LowerState) (x : String) : Bool :=
  s.unit.kind == .functionSubprogram && nameKey x == nameKey s.unit.name

/-- What is written for the variable of a name. -/
def variableName (s : LowerState) (x : String) : String :=
  if s.isResult x then "_" ++ s.collection.table.spelling x
  else Lower.escaped (s.collection.table.spelling x)

/-- A name that is recorded is written the same way in any case of its letters. -/
theorem variableName_congr {s : LowerState} {x y w : String}
    (hx : s.collection.table.spelling? x = some w) (hy : nameKey y = nameKey x) :
    s.variableName y = s.variableName x := by
  have hspelling : s.collection.table.spelling y = s.collection.table.spelling x := by
    rw [Table.spelling, Table.spelling, hx, Table.spelling?, hy, ← Table.spelling?, hx]
    rfl
  rw [variableName, variableName, isResult, isResult, hy, hspelling]

end LowerState

namespace Lower

/-- A step that is made and what follows it. -/
theorem run_bind_ok {α β : Type} {m : Lower α} {f : α → Lower β} {s t : LowerState} {a : α}
    (h : m.run s = .ok (a, t)) : (m >>= f).run s = (f a).run t := by
  rw [StateT.run_bind, h]
  rfl

theorem spell_run (s : LowerState) (x : String) :
    ∃ more, (spell x).run s = .ok (s.collection.table.spelling x, s.recorded more) ∧
      (s.recorded more).collection.table.spelling? x = some (s.collection.table.spelling x) := by
  obtain ⟨more, heq, hspelled⟩ := s.collection.table.spell_eq x
  rw [heq] at hspelled
  refine ⟨more, ?_, hspelled⟩
  rw [LowerState.recorded, ← heq]
  rfl

/-- The variable of a name is written as the state says, and its name is recorded. -/
theorem ident_spells (s : LowerState) (x : String) :
    ∃ more, (ident x).run s = .ok (s.variableName x, s.recorded more) ∧
      (s.recorded more).collection.table.spelling? x = some (s.collection.table.spelling x) := by
  obtain ⟨more, hrun, hspelled⟩ := spell_run s x
  refine ⟨more, ?_, hspelled⟩
  have hresult : (isResult x).run s = .ok (s.isResult x, s) := rfl
  rw [ident, run_bind_ok hresult, LowerState.variableName]
  cases s.isResult x with
  | true => exact run_bind_ok hrun
  | false => exact run_bind_ok hrun

/-- The variable of a name is written as the state says, and after that for good. -/
theorem ident_run (s : LowerState) (x : String) :
    ∃ more, (ident x).run s = .ok (s.variableName x, s.recorded more) ∧
      ∀ later, ((s.recorded more).recorded later).variableName x = s.variableName x := by
  obtain ⟨more, hrun, hspelled⟩ := ident_spells s x
  refine ⟨more, hrun, fun later => ?_⟩
  have hsame : ((s.recorded more).recorded later).collection.table.spelling x =
      s.collection.table.spelling x := by
    rw [Table.spelling]
    exact congrArg (·.getD x) (Table.spelling?_recorded hspelled later)
  rw [LowerState.variableName, LowerState.variableName, hsame]
  rfl

/-- A reserved word is not written for a name. -/
theorem escaped_ne {w r : String} (hr : r.toLower ∈ reservedWords)
    (hlast : r.toList.getLast? ≠ some '_') : escaped w ≠ r := by
  rw [escaped]
  split
  · rintro rfl
    apply hlast
    rw [String.toList_append]
    exact List.getLast?_concat
  · rename_i hno
    rintro rfl
    exact hno (by simpa using hr)

/-- What is written for a name is a word other than the truth values. -/
theorem variableName_word {x : String} (hx : Scan.IsName x.toList) (s : LowerState) :
    Julia.IsWord (s.variableName x).toList ∧ s.variableName x ≠ "true" ∧
      s.variableName x ≠ "false" := by
  obtain ⟨hne, hchars, hfirst⟩ :=
    word_of_nameKey (s.collection.table.nameKey_spelling x) hx
  rw [LowerState.variableName]
  generalize s.collection.table.spelling x = w at hne hchars hfirst
  split
  · have hlist : ("_" ++ w).toList = '_' :: w.toList := by
      rw [String.toList_append]
      rfl
    refine ⟨⟨?_, ?_, ?_⟩, ?_, ?_⟩
    · rw [hlist]
      exact List.cons_ne_nil _ _
    · rw [hlist]
      intro c hc
      rcases List.mem_cons.1 hc with rfl | hc
      · rfl
      · exact hchars c hc
    · rw [hlist]
      rintro c ⟨⟩
      rfl
    · intro heq
      have h := congrArg String.toList heq
      rw [hlist] at h
      exact absurd (List.cons.inj h).1 (by decide)
    · intro heq
      have h := congrArg String.toList heq
      rw [hlist] at h
      exact absurd (List.cons.inj h).1 (by decide)
  · refine ⟨?_, escaped_ne (by decide +kernel) (by decide), escaped_ne (by decide +kernel) (by decide)⟩
    rw [escaped]
    split
    · rw [String.toList_append]
      refine ⟨by simp [hne], fun c hc => ?_, fun c hc => hfirst c ?_⟩
      · rcases List.mem_append.1 hc with hc | hc
        · exact hchars c hc
        · rw [List.mem_singleton.1 hc]
          rfl
      · obtain ⟨d, ds, hds⟩ := List.exists_cons_of_ne_nil hne
        rw [hds] at hc ⊢
        exact hc
    · exact ⟨hne, hchars, hfirst⟩

end Lower

end FortranJulia
