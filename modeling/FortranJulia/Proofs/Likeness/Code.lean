import FortranJulia.Julia.Code
import FortranJulia.Lowering.Expression
import FortranJulia.Proofs.Likeness.Expressions
import FortranJulia.Proofs.Scanning.Spans
import Mathlib.Data.List.Forall2

/-!
Julia code in a guise. Two expressions are alike in a guise if they read the same in it, and so are two
lines of one depth. What is made of constants, of operations and of calls of intrinsic procedures is
alike if the parts are.
-/

namespace FortranJulia

set_option autoImplicit false

namespace Julia

namespace Expr

def isSpread : Expr → Bool
  | .spread _ => true
  | _ => false

theorem isSpread_iff {e : Expr} : e.isSpread ↔ ∃ a, e = .spread a := by
  cases e <;> simp [isSpread]

/-- The expressions read the same in the guise. -/
structure Alike (g : Guise) (e e' : Expr) : Prop where
  same : g.text e.text = g.text e'.text
  spread : e.isSpread = e'.isSpread

namespace Alike

-- The lemmas below share the equations of `text`.
attribute [local simp] text

variable {g : Guise} {e e' l l' r r' : Expr} {es es' : List Expr} {s s' f f' : String}

theorem refl (e : Expr) : Alike g e e := ⟨rfl, rfl⟩

theorem texts (h : List.Forall₂ (Alike g) es es') :
    (Expr.texts es).map g.text = (Expr.texts es').map g.text := by
  induction h with
  | nil => rfl
  | cons hhead _ ih => simp only [Expr.texts, List.map_cons, ih, hhead.same]

theorem list (sep : String) (h : List.Forall₂ (Alike g) es es') :
    g.text (separated sep (Expr.texts es)) = g.text (separated sep (Expr.texts es')) := by
  rw [g.text_separated, g.text_separated, texts h]

theorem number (h : g.text s = g.text s') : Alike g (.number s) (.number s') :=
  ⟨by simpa using h, rfl⟩

theorem str (h : g.text s = g.text s') : Alike g (.str s) (.str s') :=
  ⟨by simpa using h, rfl⟩

theorem name (h : g.text s = g.text s') : Alike g (.name s) (.name s') :=
  ⟨by simpa using h, rfl⟩

theorem verbatim (h : g.text s = g.text s') : Alike g (.verbatim s) (.verbatim s') :=
  ⟨by simpa using h, rfl⟩

theorem paren (h : Alike g e e') : Alike g (.paren e) (.paren e') :=
  ⟨by simp [h.same], rfl⟩

theorem signed (hs : g.text s = g.text s') (h : Alike g e e') : Alike g (.signed s e) (.signed s' e') :=
  ⟨by simp [hs, h.same], rfl⟩

theorem negated (n : Nat) (h : Alike g e e') : Alike g (.negated n e) (.negated n e') :=
  ⟨by simp [h.same], rfl⟩

theorem operation (op : String) (hl : Alike g l l') (hr : Alike g r r') :
    Alike g (.operation op l r) (.operation op l' r') :=
  ⟨by simp [hl.same, hr.same], rfl⟩

theorem call (hf : g.text f = g.text f') (h : List.Forall₂ (Alike g) es es') :
    Alike g (.call f es) (.call f' es') :=
  ⟨by simp [hf, list _ h], rfl⟩

theorem typedCall (f t : String) (h : List.Forall₂ (Alike g) es es') :
    Alike g (.typedCall f t es) (.typedCall f t es') :=
  ⟨by simp [list _ h], rfl⟩

theorem joined (op : String) (h : List.Forall₂ (Alike g) es es') :
    Alike g (.joined op es) (.joined op es') :=
  ⟨by simp [list _ h], rfl⟩

theorem index (hbase : Alike g e e') (h : List.Forall₂ (Alike g) es es') :
    Alike g (.index e es) (.index e' es') :=
  ⟨by simp [hbase.same, list _ h], rfl⟩

theorem range (h : List.Forall₂ (Alike g) es es') : Alike g (.range es) (.range es') :=
  ⟨by simp [list _ h], rfl⟩

theorem vector (h : List.Forall₂ (Alike g) es es') : Alike g (.vector es) (.vector es') :=
  ⟨by simp [list _ h], rfl⟩

theorem tuple (h : List.Forall₂ (Alike g) es es') : Alike g (.tuple es) (.tuple es') :=
  ⟨by simp [list _ h], rfl⟩

theorem spreads (h : Alike g e e') : Alike g (.spread e) (.spread e') :=
  ⟨by simp [h.same], rfl⟩

/-- What is spread in one of two expressions that are alike. -/
theorem of_spreads (h : Alike g (.spread e) (.spread e')) : g.text e.text = g.text e'.text := by
  have hsame := h.same
  simpa using hsame

theorem generator (h : Alike g e e') (hs : g.text s = g.text s') (hr : Alike g r r') :
    Alike g (.generator e s r) (.generator e' s' r') :=
  ⟨by simp [h.same, hs, hr.same], rfl⟩

theorem flattened (hs : g.text s = g.text s') (hr : Alike g r r') (h : g.text e.text = g.text e'.text) :
    Alike g (.flattened s r e) (.flattened s' r' e') :=
  ⟨by simp [h, hs, hr.same], rfl⟩

theorem conditional (h : Alike g e e') (hl : Alike g l l') (hr : Alike g r r') :
    Alike g (.conditional e l r) (.conditional e' l' r') :=
  ⟨by simp [h.same, hl.same, hr.same], rfl⟩

end Alike

end Expr

/-! ## Lines -/

namespace Code

/-- The lines read the same in the guise. -/
def Alike (g : Guise) (c c' : Code) : Prop :=
  g.text c.text = g.text c'.text

namespace Alike

-- The lemmas below share the equations of `text`.
attribute [local simp] text Alike Guise.text_separated

variable {g : Guise} {e e' r r' : Expr} {es es' : List Expr} {s s' f : String} {names : List String}

theorem refl (c : Code) : Alike g c c := rfl

theorem functionHead : Alike g (.functionHead f names) (.functionHead (g.text f) (names.map g.text)) := by
  simp

theorem forHead (h : r.Alike g r') : Alike g (.forHead s r) (.forHead (g.text s) r') := by
  simp [h.same]

theorem forPairs (hr : r.Alike g r') (h : e.Alike g e') :
    Alike g (.forPairs s r e) (.forPairs (g.text s) r' e') := by
  simp [hr.same, h.same]

theorem ifHead (h : e.Alike g e') : Alike g (.ifHead e) (.ifHead e') := by
  simp [h.same]

theorem elseifHead (h : e.Alike g e') : Alike g (.elseifHead e) (.elseifHead e') := by
  simp [h.same]

theorem comment (h : g.text s = g.text s') : Alike g (.comment s) (.comment s') := by
  have hempty : (s == "") = (s' == "") := by
    rw [← g.text_beq_empty, h, g.text_beq_empty]
  simp only [Alike, text, hempty]
  split
  · rfl
  · rw [g.text_append, g.text_append, h]

theorem returns : Alike g (.returns names) (.returns (names.map g.text)) := by
  cases names <;> simp

theorem assign (b : Binding) (hes : List.Forall₂ (Expr.Alike g) es es') (h : e.Alike g e') :
    Alike g (.assign b es e) (.assign b es' e') := by
  have hlist := Expr.Alike.list ", " hes
  rw [Guise.text_separated, Guise.text_separated] at hlist
  simp [hlist, h.same]

theorem globals : Alike g (.globals names) (.globals (names.map g.text)) := by
  simp

theorem shortFunction (h : e.Alike g e') :
    Alike g (.shortFunction f names e) (.shortFunction (g.text f) (names.map g.text) e') := by
  simp [h.same]

theorem run (h : e.Alike g e') : Alike g (.run e) (.run e') :=
  h.same

end Alike

end Code

namespace Line

/-- Lines of one depth that do what is alike. -/
inductive Alike (g : Guise) : Line → Line → Prop where
  | code (depth : Nat) {c c' : Code} (h : c.Alike g c') : Alike g (.code depth c) (.code depth c')
  | gap : Alike g .gap .gap

theorem render_alike {g : Guise} (indent : String) {lines lines' : List Line}
    (h : List.Forall₂ (Alike g) lines lines') :
    g.text (render indent lines) = g.text (render indent lines') := by
  rw [render, g.text_join, render, g.text_join]
  congr 1
  induction h with
  | nil => rfl
  | cons hhead _ ih =>
    rw [List.map_cons, List.map_cons, List.map_cons, List.map_cons, ih]
    congr 1
    cases hhead with
    | code depth h => simp only [text, g.text_append, show _ = _ from h]
    | gap => rfl

end Line

end Julia

/-! ## Constants -/

open Julia (Expr)

namespace Guise

variable (g : Guise)

/-- A text made of a text, in the same way in both letter cases. -/
theorem text_congr {F : String → String} (h : ∀ s, (F s.toUpper).toUpper = (F s).toUpper) (s : String) :
    g.text (F (g.text s)) = g.text (F s) := by
  cases hcaps : g.caps with
  | false => rw [text, g.on_plain hcaps, id, id, id]
  | true => simpa [text, g.on_caps hcaps] using h s

theorem juliaString_text (s : String) :
    g.text (Text.juliaString (g.text s)) = g.text (Text.juliaString s) :=
  g.text_congr (fun s => by rw [Scan.juliaString_toUpper]) s

theorem juliaString_congr {s s' : String} (h : g.text s = g.text s') :
    g.text (Text.juliaString s) = g.text (Text.juliaString s') := by
  rw [← g.juliaString_text, h, g.juliaString_text]

theorem radixNumber_toUpper (s : String) :
    (Lexeme.radixNumber s.toUpper).toUpper = (Lexeme.radixNumber s).toUpper := by
  have hquote : Caseless (!Lexeme.isQuote ·) := .of_letters (by decide)
  have hbinary : Caseless fun c => c == 'B' || c == 'b' := .of_letters (by decide)
  have hoctal : Caseless fun c => c == 'O' || c == 'o' := .of_letters (by decide)
  rw [Lexeme.radixNumber, toList_toUpper, Lexeme.radixNumber]
  rcases s.toList with _ | ⟨c, cs⟩
  · exact toUpper_toUpper s
  · simp only [List.map_cons]
    rw [← List.map_cons, hquote.dropWhile, ← List.map_drop, ← List.map_reverse, hquote.dropWhile]
    generalize ((c :: cs).dropWhile (!Lexeme.isQuote ·)).drop 1 = quoted
    generalize quoted.reverse.dropWhile (!Lexeme.isQuote ·) = closed
    rcases quoted with _ | ⟨x, quoted⟩
    · exact toUpper_toUpper s
    · rcases closed with _ | ⟨y, digits⟩
      · exact toUpper_toUpper s
      · simp only [List.map_cons, ← List.map_reverse, List.map_map, caseless_toLower.comp, hbinary c,
          hoctal c]

variable (lx : Lexeme)

@[simp] theorem textValue_lexeme : (g.lexeme lx).textValue = g.text lx.textValue := by
  simp only [Lexeme.textValue, value_lexeme]
  rcases lx.value with _ | _ | _ | _ | _ <;> simp

theorem juliaNumber_lexeme : g.text (g.lexeme lx).juliaNumber = g.text lx.juliaNumber := by
  simp only [Lexeme.juliaNumber, value_lexeme]
  rcases lx.value with _ | _ | _ | _ | _ <;> simp

theorem juliaConstant_lexeme : lx.juliaConstant.Alike g (g.lexeme lx).juliaConstant := by
  simp only [Lexeme.juliaConstant, kind_lexeme, textValue_lexeme, text_lexeme]
  split
  · exact .number (g.juliaNumber_lexeme lx).symm
  · exact .number (g.juliaNumber_lexeme lx).symm
  · exact .str (g.text_text _).symm
  · exact .str (g.juliaString_text _).symm
  · exact .number (g.text_congr radixNumber_toUpper _).symm
  · exact .number (g.text_congr radixNumber_toUpper _).symm
  · exact .number (g.text_congr radixNumber_toUpper _).symm
  · exact .refl _
  · exact .refl _
  · exact .verbatim (g.text_text _).symm

theorem julia_component (c : Component) : c.julia.Alike g (g.component c).julia := by
  obtain ⟨_ | s, n⟩ := c
  · exact g.juliaConstant_lexeme n
  · exact .signed (g.text_text _).symm (g.juliaConstant_lexeme n)

end Guise

/-! ## Conversions -/

namespace Decimal

theorem readDigits_toUpper (cs : List Char) (n : Nat) :
    readDigits n (cs.map Char.toUpper) = readDigits n cs := by
  have hdigit : Caseless isDigit := .of_letters (by decide)
  induction cs generalizing n with
  | nil => rfl
  | cons c cs ih =>
    rw [List.map_cons, readDigits, hdigit c, readDigits]
    cases hc : isDigit c with
    | false => rfl
    | true => simp only [toUpper_of_class (by decide) hc, ih]

theorem int?_toUpper (s : String) : int? s.toUpper = int? s := by
  have hminus : '-'.toUpper = '-' := by decide
  have hplus : '+'.toUpper = '+' := by decide
  rw [int?, toList_toUpper, int?]
  congr 1
  rcases s.toList with _ | ⟨c, cs⟩
  · rfl
  · by_cases hc : c = '-' ∨ c = '+'
    · rcases hc with rfl | rfl <;> simp only [List.map_cons, hminus, hplus, readInt, List.isEmpty_map,
        readDigits_toUpper]
    · have hc' : ¬(c.toUpper = '-' ∨ c.toUpper = '+') := by
        rwa [toUpper_eq_iff (by decide), toUpper_eq_iff (by decide)]
      have hunsigned : ∀ (d : Char) (ds : List Char), ¬(d = '-' ∨ d = '+') → readInt (d :: ds) =
          (readDigits 0 (d :: ds)).bind fun n => if n > maxInt then .error .outOfRange else .ok (n : Int) := by
        intro d ds hd
        unfold readInt
        split
        rename_i hsplit
        split at hsplit <;> cases hsplit
        · exact absurd (.inl (List.cons.inj ‹_›).1) hd
        · exact absurd (.inr (List.cons.inj ‹_›).1) hd
        · cases readDigits 0 (d :: ds) <;> rfl
      rw [List.map_cons, hunsigned _ _ hc', hunsigned _ _ hc, ← List.map_cons, readDigits_toUpper]

end Decimal

namespace Guise

variable {g : Guise}

/-- A text that is a number shows no letters. -/
theorem int?_alike {e e' : Expr} (h : e.Alike g e') : Decimal.int? e.text = Decimal.int? e'.text := by
  rw [← Decimal.int?_toUpper e.text, g.toUpper_congr h.same, Decimal.int?_toUpper]

end Guise

namespace Julia.Expr.Alike

variable {g : Guise} {e e' l l' r r' : Expr} {es es' : List Expr}

theorem floatValue (h : Alike g e e') : Alike g (FortranJulia.floatValue e) (FortranJulia.floatValue e') := by
  unfold FortranJulia.floatValue
  rw [Guise.int?_alike h]
  split
  · exact .number (by rw [g.text_append, g.text_append, h.same])
  · exact .call rfl (.cons h .nil)

theorem convertValue (target source : Option TypeName) (h : Alike g e e') :
    Alike g (FortranJulia.convertValue target source e) (FortranJulia.convertValue target source e') := by
  unfold FortranJulia.convertValue
  split
  · exact .typedCall _ _ (.cons h .nil)
  · split
    · exact h.floatValue
    · exact h

theorem combine (op : BinaryOp) (leftType rightType : Option TypeName) (hl : Alike g l l')
    (hr : Alike g r r') :
    Alike g (FortranJulia.combine op leftType rightType l r)
      (FortranJulia.combine op leftType rightType l' r') := by
  unfold FortranJulia.combine
  split
  · exact .call rfl (.cons hl (.cons hr .nil))
  · exact .operation _ hl hr

/-- The call of an intrinsic procedure. -/
theorem emit (f : Intrinsic) (h : List.Forall₂ (Alike g) es es') : Alike g (f.emit es) (f.emit es') := by
  unfold Intrinsic.emit
  cases f.form with
  | plain => exact .call rfl h
  | typed t => exact .typedCall _ _ h
  | comparison =>
    rcases h with _ | ⟨ha, _ | ⟨hb, _ | ⟨hc, h⟩⟩⟩
    · exact .paren (.joined _ .nil)
    · exact .paren (.joined _ (.cons ha .nil))
    · exact .paren (.operation _ ha hb)
    · exact .paren (.joined _ (.cons ha (.cons hb (.cons hc h))))
  | difference =>
    rcases h with _ | ⟨ha, _ | ⟨hb, _ | ⟨hc, h⟩⟩⟩
    · exact .call rfl .nil
    · exact .call rfl (.cons ha .nil)
    · exact .call rfl (.cons (.operation _ ha hb) (.cons (.call rfl (.cons ha .nil)) .nil))
    · exact .call rfl (.cons ha (.cons hb (.cons hc h)))

end Julia.Expr.Alike

end FortranJulia
