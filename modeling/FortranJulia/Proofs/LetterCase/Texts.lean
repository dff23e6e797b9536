import FortranJulia.Format.Printf
import FortranJulia.Julia.Expr
import FortranJulia.Symbol.Scope
import FortranJulia.Text.Blank

/-!
Texts up to letter case. Two texts differ in the case of ASCII letters only exactly if they are equal
in upper case, so what is claimed of such texts is claimed of a text and its upper case. Classes of
characters that hold both cases of a letter or none cut both texts at the same places.
-/

namespace FortranJulia

set_option autoImplicit false

open Julia (Expr)

/-! ## Characters -/

/-- Something that is the same for both cases of a letter. -/
def Caseless {α : Type} (f : Char → α) : Prop :=
  ∀ c, f c.toUpper = f c

/-- A letter in lower case. -/
def Letter.lower (l : Letter) : Char :=
  Char.ofNat ('a'.toNat + l.val)

theorem toUpper_or_lower (c : Char) : c.toUpper = c ∨ ∃ l : Letter, c = l.lower := by
  by_cases h : 'a'.val ≤ c.val ∧ c.val ≤ 'z'.val
  · right
    have hleast : 97 ≤ c.toNat := UInt32.le_iff_toNat_le.1 h.1
    have hmost : c.toNat ≤ 122 := UInt32.le_iff_toNat_le.1 h.2
    refine ⟨⟨c.toNat - 97, by omega⟩, ?_⟩
    show c = Char.ofNat (97 + (c.toNat - 97))
    rw [Nat.add_sub_cancel' hleast, Char.ofNat_toNat]
  · left
    exact dif_neg h

theorem Caseless.of_letters {α : Type} {f : Char → α}
    (h : ∀ l : Letter, f l.lower.toUpper = f l.lower) : Caseless f := by
  intro c
  rcases toUpper_or_lower c with hc | ⟨l, rfl⟩
  · rw [hc]
  · exact h l

theorem caseless_toUpper : Caseless Char.toUpper :=
  .of_letters (by decide)

theorem caseless_toLower : Caseless Char.toLower :=
  .of_letters (by decide)

/-- A character of a class without letters is its own upper case. -/
theorem toUpper_of_class {p : Char → Bool} (h : ∀ l : Letter, p l.lower = false) {c : Char} (hc : p c) :
    c.toUpper = c := by
  rcases toUpper_or_lower c with hupper | ⟨l, rfl⟩
  · exact hupper
  · rw [h l] at hc
    cases hc

/-- A character that is no letter is the upper case of itself only. -/
theorem toUpper_eq_iff {c d : Char} (hd : d.isAlpha = false) : c.toUpper = d ↔ c = d := by
  rcases toUpper_or_lower c with hc | ⟨l, rfl⟩
  · rw [hc]
  · have hletters : ∀ l : Letter, l.lower.toUpper.isAlpha ∧ l.lower.isAlpha := by decide
    obtain ⟨hupper, hlower⟩ := hletters l
    constructor <;> rintro rfl <;> simp_all

theorem toUpper_ne {c d : Char} (hd : d.isAlpha = false) (h : c ≠ d) : c.toUpper ≠ d :=
  mt (toUpper_eq_iff hd).1 h

theorem Caseless.beq {d : Char} (hd : d.isAlpha = false) : Caseless (· == d) := by
  intro c
  rw [Bool.eq_iff_iff]
  simp only [beq_iff_eq]
  exact toUpper_eq_iff hd

theorem Caseless.not {p : Char → Bool} (hp : Caseless p) : Caseless (!p ·) :=
  fun c => congrArg _ (hp c)

/-! ## Lists of characters -/

section Lists

variable {p : Char → Bool}

theorem Caseless.comp {α : Type} {f : Char → α} (hf : Caseless f) : f ∘ Char.toUpper = f :=
  funext hf

theorem Caseless.takeWhile (hp : Caseless p) (cs : List Char) :
    (cs.map Char.toUpper).takeWhile p = (cs.takeWhile p).map Char.toUpper := by
  rw [List.takeWhile_map, hp.comp]

theorem Caseless.dropWhile (hp : Caseless p) (cs : List Char) :
    (cs.map Char.toUpper).dropWhile p = (cs.dropWhile p).map Char.toUpper := by
  rw [List.dropWhile_map, hp.comp]

theorem Caseless.any (hp : Caseless p) (cs : List Char) : (cs.map Char.toUpper).any p = cs.any p := by
  rw [List.any_map, hp.comp]

theorem Caseless.head (hp : Caseless p) (cs : List Char) :
    (cs.map Char.toUpper).head?.any p = cs.head?.any p := by
  cases cs with
  | nil => rfl
  | cons c cs => exact hp c

theorem Caseless.dropTrailing (hp : Caseless p) (cs : List Char) :
    Text.dropTrailing p (cs.map Char.toUpper) = (Text.dropTrailing p cs).map Char.toUpper := by
  rw [Text.dropTrailing, ← List.map_reverse, hp.dropWhile, ← List.map_reverse, Text.dropTrailing]

theorem map_toUpper_map (cs : List Char) :
    (cs.map Char.toUpper).map Char.toUpper = cs.map Char.toUpper := by
  rw [List.map_map]
  exact List.map_congr_left fun c _ => caseless_toUpper c

/-- A function of characters to lists of them that keeps letters keeps upper case. -/
theorem flatMap_toUpper {f : Char → List Char}
    (h : ∀ c, f c.toUpper = (f c).map Char.toUpper) (cs : List Char) :
    (cs.map Char.toUpper).flatMap f = (cs.flatMap f).map Char.toUpper := by
  simp only [List.flatMap_map, List.map_flatMap, h]

end Lists

/-! ## Texts -/

section Texts

variable {s t : String}

@[simp] theorem toList_toUpper (s : String) : s.toUpper.toList = s.toList.map Char.toUpper :=
  String.toList_map

@[simp] theorem ofList_toUpper (cs : List Char) :
    (String.ofList cs).toUpper = String.ofList (cs.map Char.toUpper) := by
  rw [← String.toList_inj]
  simp

@[simp] theorem append_toUpper (s t : String) : (s ++ t).toUpper = s.toUpper ++ t.toUpper := by
  rw [← String.toList_inj]
  simp

@[simp] theorem toUpper_toUpper (s : String) : s.toUpper.toUpper = s.toUpper := by
  rw [← String.toList_inj, toList_toUpper, toList_toUpper, map_toUpper_map]

theorem toUpper_eq_of_toList (h : s.toList.map Char.toUpper = t.toList.map Char.toUpper) :
    s.toUpper = t.toUpper := by
  rw [← String.toList_inj, toList_toUpper, toList_toUpper, h]

theorem toList_eq_of_toUpper (h : s.toUpper = t.toUpper) :
    s.toList.map Char.toUpper = t.toList.map Char.toUpper := by
  rw [← toList_toUpper, ← toList_toUpper, h]

theorem toUpper_of_chars (h : s.toList.map Char.toUpper = s.toList) : s.toUpper = s := by
  rw [← String.toList_inj, toList_toUpper, h]

@[simp] theorem toUpper_eq_empty : s.toUpper = "" ↔ s = "" := by
  rw [← String.toList_inj, ← String.toList_inj, toList_toUpper]
  simp

@[simp] theorem toUpper_beq_empty (s : String) : (s.toUpper == "") = (s == "") := by
  rw [Bool.eq_iff_iff]
  simp

@[simp] theorem map_toUpper_toUpper (ss : List String) :
    (ss.map String.toUpper).map String.toUpper = ss.map String.toUpper := by
  simp

theorem join_toUpper (ss : List String) :
    (String.join ss).toUpper = String.join (ss.map String.toUpper) := by
  rw [← String.toList_inj]
  simp [String.toList_join, List.map_flatMap, List.flatMap_map]

theorem map_intercalate {α β : Type} (f : α → β) (sep : List α) (parts : List (List α)) :
    (sep.intercalate parts).map f = (sep.map f).intercalate (parts.map (·.map f)) := by
  induction parts with
  | nil => rfl
  | cons p parts ih =>
    cases parts with
    | nil => simp [List.intercalate]
    | cons q parts => simpa [List.intercalate_cons_cons] using ih

theorem separated_toUpper (sep : String) (ss : List String) :
    (Expr.separated sep ss).toUpper = Expr.separated sep.toUpper (ss.map String.toUpper) := by
  rw [← String.toList_inj]
  simp only [Expr.separated, toList_toUpper, String.toList_intercalate, map_intercalate,
    List.map_map]
  congr 1
  exact List.map_congr_left fun s _ => (toList_toUpper s).symm

theorem separated_congr (sep : String) {ss ts : List String}
    (h : ss.map String.toUpper = ts.map String.toUpper) :
    (Expr.separated sep ss).toUpper = (Expr.separated sep ts).toUpper := by
  rw [separated_toUpper, separated_toUpper, h]

end Texts

/-! ## Keys -/

theorem caseless_upperChar : Caseless Text.upperChar :=
  .of_letters (by decide)

@[simp] theorem upper_toUpper (s : String) : Text.upper s.toUpper = Text.upper s := by
  rw [Text.upper, toList_toUpper, List.map_map, Text.upper]
  congr 1
  exact List.map_congr_left fun c _ => caseless_upperChar c

@[simp] theorem nameKey_toUpper (s : String) : nameKey s.toUpper = nameKey s :=
  upper_toUpper s

@[simp] theorem toLower_toUpper (s : String) : s.toUpper.toLower = s.toLower := by
  have hlower : ∀ s : String, s.toLower.toList = s.toList.map Char.toLower :=
    fun s => String.toList_map
  rw [← String.toList_inj, hlower, hlower, toList_toUpper, List.map_map]
  exact List.map_congr_left fun c _ => caseless_toLower c

theorem upper_congr {s t : String} (h : s.toUpper = t.toUpper) : Text.upper s = Text.upper t := by
  rw [← upper_toUpper s, h, upper_toUpper]

theorem nameKey_congr {s t : String} (h : s.toUpper = t.toUpper) : nameKey s = nameKey t :=
  upper_congr h

end FortranJulia
