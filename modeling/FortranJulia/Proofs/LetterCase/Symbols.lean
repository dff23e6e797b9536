import FortranJulia.Proofs.LetterCase.Trees

/-!
Symbol tables up to letter case. Names are looked up by keys, which are the same for both cases, and
what is recorded of a name is its spelling and what is declared of it. So everything that is done with
a table in upper case gives what it gives otherwise, in upper case.
-/

namespace FortranJulia

set_option autoImplicit false

/-! ## Tables in upper case -/

def Symbol.caps (y : Symbol) : Symbol :=
  { y with
    name := y.name.toUpper
    dims := y.dims.map String.toUpper
    params := y.params.map String.toUpper }

def Scope.caps (s : Scope) : Scope :=
  { s with
    name := s.name.toUpper
    symbols := s.symbols.map fun e => (e.1, e.2.caps)
    formals := s.formals.map String.toUpper }

def Table.caps (t : Table) : Table :=
  { global := t.global.caps
    closed := t.closed.map Scope.caps
    opened := t.opened.map Scope.caps
    spellings := t.spellings.map String.toUpper }

def DeclarationError.caps : DeclarationError → DeclarationError
  | .redefined line kind name => .redefined line kind name.toUpper
  | .wordRange line a b => .wordRange line a.toUpper b.toUpper
  | .range line e => .range line e
  | .emptyTree => .emptyTree

def Collection.caps (c : Collection) : Collection :=
  ⟨c.table.caps, c.errors.map DeclarationError.caps⟩

/-! ## Symbols -/

namespace Symbol

variable (y : Symbol)

@[simp] theorem name_caps : y.caps.name = y.name.toUpper := rfl

@[simp] theorem type_caps : y.caps.type = y.type := rfl

@[simp] theorem kind_caps : y.caps.kind = y.kind := rfl

@[simp] theorem dims_caps : y.caps.dims = y.dims.map String.toUpper := rfl

@[simp] theorem flags_caps : y.caps.flags = y.flags := rfl

@[simp] theorem params_caps : y.caps.params = y.params.map String.toUpper := rfl

@[simp] theorem isArray_caps : y.caps.isArray = y.isArray := rfl

@[simp] theorem mark_caps (f : Flag) : y.caps.mark f = (y.mark f).caps := rfl

end Symbol

/-! ## Scopes -/

namespace Scope

variable (s : Scope) (x : String)

@[simp] theorem name_caps : s.caps.name = s.name.toUpper := rfl

@[simp] theorem formals_caps : s.caps.formals = s.formals.map String.toUpper := rfl

@[simp] theorem implicit_caps : s.caps.implicit = s.implicit := rfl

theorem implicit_toUpper (r : ImplicitRules) : r.typeOf x.toUpper = r.typeOf x := by
  simp only [ImplicitRules.typeOf, toList_toUpper]
  cases x.toList with
  | nil => rfl
  | cons c cs => exact congrArg (fun c => (Letter.ofUpper? c).bind r.types) (caseless_toUpper c)

theorem lookup_mapValues {α β : Type} (f : α → β) (k : String) (es : List (String × α)) :
    (es.map fun e => (e.1, f e.2)).lookup k = (es.lookup k).map f := by
  induction es with
  | nil => rfl
  | cons e es ih =>
    rw [List.map_cons, List.lookup_cons, List.lookup_cons, ih]
    cases k == e.1 <;> rfl

@[simp] theorem get?_caps : s.caps.get? x.toUpper = (s.get? x).map Symbol.caps := by
  rw [get?, nameKey_toUpper, get?]
  exact lookup_mapValues Symbol.caps (nameKey x) s.symbols

@[simp] theorem define_caps : s.caps.define x.toUpper = (s.define x).caps := by
  rw [define, get?_caps, define]
  cases s.get? x with
  | some y => rfl
  | none => simp [caps, Symbol.caps]

/-- A change of a symbol that does the same in upper case. -/
theorem update_caps {f g : Symbol → Symbol} (h : ∀ y, g y.caps = (f y).caps) :
    s.caps.update x.toUpper g = (s.update x f).caps := by
  rw [update, define_caps, nameKey_toUpper, update]
  simp only [caps, List.map_map]
  congr 1
  refine List.map_congr_left fun e _ => ?_
  simp only [Function.comp_apply]
  split
  · rw [h]
  · rfl

@[simp] theorem getOrNew_caps : s.caps.getOrNew x.toUpper = (s.getOrNew x).caps := by
  rw [getOrNew, get?_caps, getOrNew]
  cases s.get? x <;> simp [Symbol.caps]

@[simp] theorem declare_caps (type : Option TypeName) :
    s.caps.declare x.toUpper type = (s.declare x type).caps :=
  s.update_caps x fun _ => rfl

@[simp] theorem declareArray_caps (dims : List String) :
    s.caps.declareArray x.toUpper (dims.map String.toUpper) = (s.declareArray x dims).caps := by
  refine s.update_caps x fun y => ?_
  simp only [implicit_caps, implicit_toUpper, Symbol.type_caps, Symbol.flags_caps]
  cases hy : y.type <;> simp [Symbol.caps]

@[simp] theorem markCommon_caps : s.caps.markCommon x.toUpper = (s.markCommon x).caps :=
  s.update_caps x fun _ => rfl

@[simp] theorem setFormals_caps (names : List String) :
    s.caps.setFormals (names.map String.toUpper) = (s.setFormals names).caps := by
  unfold setFormals
  rw [List.foldl_map]
  change List.foldl _ (caps { s with formals := [] }) _ = _
  refine List.foldl_hom caps fun t name => ?_
  have hmark := t.update_caps name (f := (·.mark .formal)) (g := (·.mark .formal)) fun _ => rfl
  simp only [hmark, getOrNew_caps]
  simp [caps]

@[simp] theorem isAssigned_caps : s.caps.isAssigned x.toUpper = s.isAssigned x := by
  rw [isAssigned, nameKey_toUpper, isAssigned]
  rfl

@[simp] theorem markAssigned_caps : s.caps.markAssigned x.toUpper = (s.markAssigned x).caps := by
  have hmark := s.update_caps x (f := (·.mark .assigned)) (g := (·.mark .assigned)) fun _ => rfl
  simp only [markAssigned, isAssigned_caps, hmark, nameKey_toUpper]
  split <;> rfl

@[simp] theorem isFormal_caps : s.caps.isFormal x.toUpper = s.isFormal x := by
  simp [isFormal, Option.any_map]

@[simp] theorem isCommon_caps : s.caps.isCommon x.toUpper = s.isCommon x := by
  simp [isCommon, Option.any_map]

end Scope

/-! ## Tables -/

namespace Table

variable (t : Table) (x : String)

@[simp] theorem caps_empty : empty.caps = empty := by
  simp only [empty, caps, Scope.caps, List.map_nil, Option.map_none, Table.mk.injEq, Scope.mk.injEq,
    and_true]
  exact toUpper_eq_empty.2 rfl

@[simp] theorem global_caps : t.caps.global = t.global.caps := rfl

@[simp] theorem current_caps : t.caps.current = t.current.caps := by
  rw [current, current]
  cases h : t.opened <;> simp [caps, h]

theorem modify_caps {f g : Scope → Scope} (h : ∀ s, g s.caps = (f s).caps) :
    t.caps.modify g = (t.modify f).caps := by
  rw [modify, modify]
  cases hopened : t.opened <;> simp [caps, hopened, h]

@[simp] theorem exit_caps : t.caps.exit = t.exit.caps := by
  rw [exit, exit, units, units]
  cases hopened : t.opened <;> simp [caps, hopened]

@[simp] theorem enter_caps (kind : ScopeKind) : t.caps.enter x.toUpper kind = (t.enter x kind).caps := by
  simp only [enter, exit_caps]
  simp [caps, Scope.caps]

@[simp] theorem lookup_caps : t.caps.lookup x.toUpper = (t.lookup x).map Symbol.caps := by
  simp only [lookup, current_caps, global_caps, Scope.get?_caps]
  cases t.current.get? x <;> simp

@[simp] theorem spelling?_caps : t.caps.spelling? x.toUpper = (t.spelling? x).map String.toUpper := by
  simp only [spelling?, caps, nameKey_toUpper, List.find?_map, Function.comp_def]

@[simp] theorem spelling_caps : t.caps.spelling x.toUpper = (t.spelling x).toUpper := by
  rw [spelling, spelling?_caps, spelling]
  cases t.spelling? x <;> simp

@[simp] theorem spell_caps : t.caps.spell x.toUpper = (t.spell x).caps := by
  rw [spell, spelling?_caps, spell]
  cases t.spelling? x <;> simp [caps]

@[simp] theorem defineUnit_caps (kind : SymbolKind) (type : Option TypeName) (params : List String) :
    t.caps.defineUnit x.toUpper kind type (params.map String.toUpper) =
      (t.defineUnit x kind type params).caps := by
  have hupdate := (t.spell x).global.update_caps ((t.spell x).spelling x)
    (f := fun y => { y with kind := kind, params := params, type := type.or y.type })
    (g := fun y => { y with kind := kind, params := params.map String.toUpper, type := type.or y.type })
    fun _ => rfl
  simp only [defineUnit, spell_caps, spelling_caps, global_caps, hupdate]
  rfl

@[simp] theorem isArray_caps : t.caps.isArray x.toUpper = t.isArray x := by
  simp [isArray, Option.any_map]

@[simp] theorem procedure_caps : t.caps.procedure x.toUpper = t.procedure x := by
  simp only [procedure, current_caps, global_caps, Scope.get?_caps]
  cases t.current.get? x <;> cases t.global.get? x <;> rfl

@[simp] theorem typeOf_caps : t.caps.typeOf x.toUpper = t.typeOf x := by
  simp only [typeOf, lookup_caps, current_caps, Scope.implicit_caps, Scope.implicit_toUpper]
  cases t.lookup x <;> simp

end Table

end FortranJulia
