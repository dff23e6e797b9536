import FortranJulia.Intrinsic.Table
import FortranJulia.Proofs.LetterCase.Symbols
import Mathlib.Order.Monotone.Basic

/-!
Guises of a source. A source may be written in upper case, or with its lines numbered in another way,
without a change of what it says. A `Guise` is such a way to write it. Names in a guise are looked up
in symbol tables in that guise, and what is found there is what is found otherwise, in the guise.
-/

namespace FortranJulia

set_option autoImplicit false

/-- A way to write a source: perhaps in upper case, and with other numbers for its lines. -/
structure Guise where
  caps : Bool
  line : Nat → Nat
  /-- The line of what stands nowhere. -/
  line_zero : line 0 = 0
  strict : StrictMono line

namespace Guise

/-- The source as it is. -/
def same : Guise :=
  ⟨false, id, rfl, fun _ _ h => h⟩

/-- The source in upper case. -/
def upper : Guise :=
  ⟨true, id, rfl, fun _ _ h => h⟩

/-- Applies a change to upper case if the guise asks for it. -/
def on {α : Type} (g : Guise) (f : α → α) (a : α) : α :=
  if g.caps then f a else a

variable (g : Guise)

theorem on_plain {α : Type} (h : g.caps = false) (f : α → α) : g.on f = id := by
  funext a
  simp [on, h]

theorem on_caps {α : Type} (h : g.caps = true) (f : α → α) : g.on f = f := by
  funext a
  simp [on, h]

theorem on_comm {α β : Type} {f : α → α} {k : β → β} {F : α → β} (h : ∀ a, F (f a) = k (F a)) (a : α) :
    F (g.on f a) = g.on k (F a) := by
  unfold on
  split
  · exact h a
  · rfl

theorem on_same {α β : Type} {f : α → α} {F : α → β} (h : ∀ a, F (f a) = F a) (a : α) :
    F (g.on f a) = F a := by
  unfold on
  split
  · exact h a
  · rfl

/-! ## Texts -/

def text : String → String :=
  g.on String.toUpper

@[simp] theorem text_same (s : String) : same.text s = s := rfl

@[simp] theorem text_upper (s : String) : upper.text s = s.toUpper := rfl

@[simp] theorem text_append (s t : String) : g.text (s ++ t) = g.text s ++ g.text t := by
  cases hcaps : g.caps <;> simp [text, on_plain, on_caps, hcaps]

@[simp] theorem text_text (s : String) : g.text (g.text s) = g.text s := by
  cases hcaps : g.caps <;> simp [text, on_plain, on_caps, hcaps]

@[simp] theorem text_comp_text : g.text ∘ g.text = g.text :=
  funext g.text_text

@[simp] theorem text_eq_empty {s : String} : g.text s = "" ↔ s = "" := by
  cases hcaps : g.caps <;> simp [text, on_plain, on_caps, hcaps]

@[simp] theorem text_beq_empty (s : String) : (g.text s == "") = (s == "") := by
  rw [Bool.eq_iff_iff]
  simp

@[simp] theorem text_empty : g.text "" = "" :=
  g.text_eq_empty.2 rfl

theorem toUpper_text (s : String) : (g.text s).toUpper = s.toUpper :=
  g.on_same toUpper_toUpper s

@[simp] theorem toList_text (s : String) : (g.text s).toList = s.toList.map (g.on Char.toUpper) := by
  cases hcaps : g.caps <;> simp [text, on_plain, on_caps, hcaps]

/-- Texts that are the same in a guise differ in letter case only. -/
theorem toUpper_congr {s t : String} (h : g.text s = g.text t) : s.toUpper = t.toUpper := by
  rw [← g.toUpper_text s, h, g.toUpper_text]

@[simp] theorem nameKey_text (s : String) : nameKey (g.text s) = nameKey s :=
  g.on_same nameKey_toUpper s

@[simp] theorem upper_text (s : String) : Text.upper (g.text s) = Text.upper s :=
  g.on_same upper_toUpper s

@[simp] theorem toLower_text (s : String) : (g.text s).toLower = s.toLower :=
  g.on_same toLower_toUpper s

theorem text_join (ss : List String) : g.text (String.join ss) = String.join (ss.map g.text) := by
  cases hcaps : g.caps <;> simp [text, on_plain, on_caps, hcaps, join_toUpper]

theorem text_separated (sep : String) (ss : List String) :
    g.text (Julia.Expr.separated sep ss) = Julia.Expr.separated (g.text sep) (ss.map g.text) := by
  cases hcaps : g.caps <;> simp [text, on_plain, on_caps, hcaps, separated_toUpper]

/-- A text without letters is the only one that looks like it. -/
theorem eq_of_text {s t : String} (ht : t.toList.all fun c => !c.isAlpha) (h : g.text s = g.text t) :
    s = t := by
  have hchars := toList_eq_of_toUpper (g.toUpper_congr h)
  rw [← String.toList_inj]
  generalize s.toList = cs at hchars
  generalize t.toList = ds at hchars ht
  induction ds generalizing cs with
  | nil => simpa using hchars
  | cons d ds ih =>
    cases cs with
    | nil => simp at hchars
    | cons c cs =>
      simp only [List.map_cons, List.cons.injEq] at hchars
      simp only [List.all_cons, Bool.and_eq_true, Bool.not_eq_true'] at ht
      have hd : d.toUpper = d := (toUpper_eq_iff ht.1).2 rfl
      rw [hd] at hchars
      rw [(toUpper_eq_iff ht.1).1 hchars.1, ih cs hchars.2 ht.2]

@[simp] theorem lookup?_text (x : String) : Intrinsic.lookup? (g.text x) = Intrinsic.lookup? x := by
  unfold Intrinsic.lookup?
  rw [upper_text]

/-! ## Symbols and scopes -/

def symbol : Symbol → Symbol :=
  g.on Symbol.caps

def scope : Scope → Scope :=
  g.on Scope.caps

variable (y : Symbol) (s : Scope) (x : String)

@[simp] theorem name_symbol : (g.symbol y).name = g.text y.name :=
  g.on_comm Symbol.name_caps y

@[simp] theorem type_symbol : (g.symbol y).type = y.type :=
  g.on_same Symbol.type_caps y

@[simp] theorem kind_symbol : (g.symbol y).kind = y.kind :=
  g.on_same Symbol.kind_caps y

@[simp] theorem flags_symbol : (g.symbol y).flags = y.flags :=
  g.on_same Symbol.flags_caps y

@[simp] theorem isArray_symbol : (g.symbol y).isArray = y.isArray :=
  g.on_same Symbol.isArray_caps y

@[simp] theorem dims_symbol : (g.symbol y).dims = y.dims.map g.text := by
  cases hcaps : g.caps <;> simp [symbol, text, on_plain, on_caps, hcaps]

@[simp] theorem params_symbol : (g.symbol y).params = y.params.map g.text := by
  cases hcaps : g.caps <;> simp [symbol, text, on_plain, on_caps, hcaps]

@[simp] theorem name_scope : (g.scope s).name = g.text s.name :=
  g.on_comm Scope.name_caps s

@[simp] theorem formals_scope : (g.scope s).formals = s.formals.map g.text := by
  cases hcaps : g.caps <;> simp [scope, text, on_plain, on_caps, hcaps]

@[simp] theorem implicit_scope : (g.scope s).implicit = s.implicit :=
  g.on_same Scope.implicit_caps s

@[simp] theorem typeOf_implicit (r : ImplicitRules) : r.typeOf (g.text x) = r.typeOf x :=
  g.on_same (F := r.typeOf) (fun x => Scope.implicit_toUpper x r) x

@[simp] theorem get?_scope : (g.scope s).get? (g.text x) = (s.get? x).map g.symbol := by
  cases hcaps : g.caps <;> simp [scope, symbol, text, on_plain, on_caps, hcaps]

@[simp] theorem getOrNew_scope : (g.scope s).getOrNew (g.text x) = g.symbol (s.getOrNew x) := by
  cases hcaps : g.caps <;> simp [scope, symbol, text, on_plain, on_caps, hcaps]

@[simp] theorem isFormal_scope : (g.scope s).isFormal (g.text x) = s.isFormal x := by
  cases hcaps : g.caps <;> simp [scope, text, on_plain, on_caps, hcaps]

@[simp] theorem isCommon_scope : (g.scope s).isCommon (g.text x) = s.isCommon x := by
  cases hcaps : g.caps <;> simp [scope, text, on_plain, on_caps, hcaps]

/-- A change of a symbol that does the same in the guise. -/
theorem update_scope {f k : Symbol → Symbol} (h : ∀ y, k (g.symbol y) = g.symbol (f y)) :
    (g.scope s).update (g.text x) k = g.scope (s.update x f) := by
  cases hcaps : g.caps with
  | false =>
    simp only [symbol, g.on_plain hcaps, id] at h
    obtain rfl : k = f := funext h
    simp [scope, text, on_plain, hcaps]
  | true =>
    simp only [symbol, g.on_caps hcaps] at h
    simpa [scope, text, on_plain, on_caps, hcaps] using s.update_caps x h

@[simp] theorem declare_scope (type : Option TypeName) :
    (g.scope s).declare (g.text x) type = g.scope (s.declare x type) := by
  cases hcaps : g.caps <;> simp [scope, text, on_plain, on_caps, hcaps]

@[simp] theorem declareArray_scope (dims : List String) :
    (g.scope s).declareArray (g.text x) (dims.map g.text) = g.scope (s.declareArray x dims) := by
  cases hcaps : g.caps <;> simp [scope, text, on_plain, on_caps, hcaps]

@[simp] theorem markCommon_scope : (g.scope s).markCommon (g.text x) = g.scope (s.markCommon x) := by
  cases hcaps : g.caps <;> simp [scope, text, on_plain, on_caps, hcaps]

@[simp] theorem markAssigned_scope :
    (g.scope s).markAssigned (g.text x) = g.scope (s.markAssigned x) := by
  cases hcaps : g.caps <;> simp [scope, text, on_plain, on_caps, hcaps]

@[simp] theorem setFormals_scope (names : List String) :
    (g.scope s).setFormals (names.map g.text) = g.scope (s.setFormals names) := by
  cases hcaps : g.caps <;> simp [scope, text, on_plain, on_caps, hcaps]

/-! ## Tables -/

def table : Table → Table :=
  g.on Table.caps

variable (t : Table)

@[simp] theorem table_empty : g.table .empty = .empty := by
  cases hcaps : g.caps <;> simp [table, on_plain, on_caps, hcaps]

@[simp] theorem global_table : (g.table t).global = g.scope t.global :=
  g.on_comm Table.global_caps t

@[simp] theorem current_table : (g.table t).current = g.scope t.current :=
  g.on_comm Table.current_caps t

theorem modify_table {f k : Scope → Scope} (h : ∀ s, k (g.scope s) = g.scope (f s)) :
    (g.table t).modify k = g.table (t.modify f) := by
  cases hcaps : g.caps with
  | false =>
    simp only [scope, g.on_plain hcaps, id] at h
    obtain rfl : k = f := funext h
    simp [table, on_plain, hcaps]
  | true =>
    simp only [scope, g.on_caps hcaps] at h
    simpa [table, on_plain, on_caps, hcaps] using t.modify_caps h

@[simp] theorem exit_table : (g.table t).exit = g.table t.exit :=
  g.on_comm Table.exit_caps t

@[simp] theorem enter_table (kind : ScopeKind) :
    (g.table t).enter (g.text x) kind = g.table (t.enter x kind) := by
  cases hcaps : g.caps <;> simp [table, text, on_plain, on_caps, hcaps]

@[simp] theorem lookup_table : (g.table t).lookup (g.text x) = (t.lookup x).map g.symbol := by
  cases hcaps : g.caps <;> simp [table, symbol, text, on_plain, on_caps, hcaps]

@[simp] theorem spelling_table : (g.table t).spelling (g.text x) = g.text (t.spelling x) := by
  cases hcaps : g.caps <;> simp [table, text, on_plain, on_caps, hcaps]

@[simp] theorem spell_table : (g.table t).spell (g.text x) = g.table (t.spell x) := by
  cases hcaps : g.caps <;> simp [table, text, on_plain, on_caps, hcaps]

@[simp] theorem defineUnit_table (kind : SymbolKind) (type : Option TypeName) (params : List String) :
    (g.table t).defineUnit (g.text x) kind type (params.map g.text) =
      g.table (t.defineUnit x kind type params) := by
  cases hcaps : g.caps <;> simp [table, text, on_plain, on_caps, hcaps]

@[simp] theorem isArray_table : (g.table t).isArray (g.text x) = t.isArray x := by
  cases hcaps : g.caps <;> simp [table, text, on_plain, on_caps, hcaps]

@[simp] theorem procedure_table : (g.table t).procedure (g.text x) = t.procedure x := by
  cases hcaps : g.caps <;> simp [table, text, on_plain, on_caps, hcaps]

@[simp] theorem typeOf_table : (g.table t).typeOf (g.text x) = t.typeOf x := by
  cases hcaps : g.caps <;> simp [table, text, on_plain, on_caps, hcaps]

end Guise

end FortranJulia
