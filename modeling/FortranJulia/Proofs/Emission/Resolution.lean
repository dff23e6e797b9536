import FortranJulia.Proofs.Emission.Statements
import FortranJulia.Proofs.Lowering.Declarations

/-!
Arrays and procedures of a unit. `Table.Resolves` says of some names that they are arrays of the unit
at hand and of others that they are procedures that nothing in the unit hides. No statement makes an
array something else, and a statement hides a procedure only if it gives the name dimensions or lists it
as intrinsic. What is written for a statement follows what its names are known to be.
-/

namespace FortranJulia

set_option autoImplicit false

open Julia (Expr Code Line Binding)

/-! ## Tables -/

/-- The symbol does not hide a procedure with its name. -/
def Symbol.Transparent (y : Symbol) : Prop :=
  y.isArray = false ∧ y.kind ≠ .intrinsic

theorem Symbol.Tame.transparent {f : Symbol → Symbol} (h : Tame f) {y : Symbol} (hy : y.Transparent) :
    (f y).Transparent := by
  refine ⟨(h.array y).trans hy.1, ?_⟩
  rcases h.kind y with hkind | hkind <;> rw [hkind]
  · exact hy.2
  · nofun

namespace Scope

variable {s : Scope} {x w : String} {f : Symbol → Symbol}

theorem get?_congr (s : Scope) (h : nameKey x = nameKey w) : s.get? x = s.get? w := by
  rw [get?, get?, h]

/-- An array stays one if it does when its symbol changes. -/
theorem array_update (h : (s.get? x).any (·.isArray)) (hf : ∀ y, y.isArray → (f y).isArray) :
    ((s.update w f).get? x).any (·.isArray) := by
  rw [get?_update]
  split
  · rename_i hkey
    rw [get?_congr s hkey] at h
    obtain ⟨y, hy, harray⟩ := (Option.any_eq_true _ _).1 h
    rw [getOrNew, hy]
    exact hf y harray
  · exact h

theorem transparent_update (h : ∀ y, s.get? x = some y → y.Transparent)
    (hf : nameKey x = nameKey w → ∀ y, y.Transparent → (f y).Transparent) :
    ∀ y, (s.update w f).get? x = some y → y.Transparent := by
  intro y hy
  rw [get?_update] at hy
  split at hy
  · rename_i hkey
    obtain rfl := Option.some.inj hy
    refine hf hkey _ ?_
    unfold getOrNew
    cases hw : s.get? w with
    | none => exact ⟨rfl, nofun⟩
    | some z => exact h z (by rw [get?_congr s hkey, hw])
  · exact h y hy

/-- Dimensions make a symbol an array. -/
theorem declareArray_eq (s : Scope) (w : String) (dims : List String) :
    ∃ f : Symbol → Symbol, s.declareArray w dims = s.update w f ∧ (∀ y, (f y).name = y.name) ∧
      ∀ y, (f y).isArray := by
  refine ⟨_, rfl, fun y => ?_, fun y => ?_⟩
  · simp only
    split <;> rfl
  · simp only
    split <;> rfl

end Scope

/-- A unit is open, the given arrays are arrays of it, and the given procedures are known and not hidden
in it. Arrays and procedures are spelled as the function says. -/
structure Table.Resolves (arrays procedures : String → Prop) (written : String → String) (t : Table) :
    Prop where
  opened : t.opened.isSome
  keyed : t.current.Keyed
  array : ∀ x, arrays x → (t.current.get? x).any (·.isArray)
  known : ∀ x, procedures x → ∃ y, t.global.get? x = some y ∧ y.kind.isCallable ∧ y.kind ≠ .intrinsic
  shown : ∀ x, procedures x → ∀ y, t.current.get? x = some y → y.Transparent
  spelled : ∀ x, arrays x ∨ procedures x → t.spelling? x = some (written x)

namespace Table.Resolves

variable {arrays procedures : String → Prop} {written : String → String} {t : Table}

/-- Fewer arrays and procedures. -/
theorem weaken (h : t.Resolves arrays procedures written) {arrays' procedures' : String → Prop}
    (harrays : ∀ x, arrays' x → arrays x) (hprocedures : ∀ x, procedures' x → procedures x) :
    t.Resolves arrays' procedures' written :=
  ⟨h.opened, h.keyed, fun x hx => h.array x (harrays x hx), fun x hx => h.known x (hprocedures x hx),
    fun x hx => h.shown x (hprocedures x hx),
    fun x hx => h.spelled x (hx.imp (harrays x) (hprocedures x))⟩

theorem isArray {x : String} (h : t.Resolves arrays procedures written) (hx : arrays x) : t.isArray x :=
  h.array x hx

/-- A procedure is called and not taken for an intrinsic function. -/
theorem procedure {x : String} (h : t.Resolves arrays procedures written) (hx : procedures x) :
    t.isArray x = false ∧
      ((t.procedure x).isCallable && t.procedure x != .intrinsic) = true := by
  obtain ⟨y, hy, hcallable, hintrinsic⟩ := h.known x hx
  unfold Table.isArray Table.procedure
  rw [hy]
  cases hz : t.current.get? x with
  | none => simp [hcallable, hintrinsic]
  | some z =>
    obtain ⟨harray, hkind⟩ := h.shown x hx z hz
    by_cases hlocal : z.kind.isCallable <;> simp [harray, hlocal, hkind, hcallable, hintrinsic]

theorem spell (h : t.Resolves arrays procedures written) (x : String) :
    (t.spell x).Resolves arrays procedures written := by
  have hkin := Table.Kin.spell t x
  obtain ⟨more, hmore, -⟩ := t.spell_eq x
  have hopened : (t.spell x).opened = t.opened := by rw [hmore]; rfl
  have hcurrent : (t.spell x).current = t.current := by rw [Table.current, hopened, hkin.global]; rfl
  refine ⟨hopened ▸ h.opened, hcurrent ▸ h.keyed, hcurrent ▸ h.array, hkin.global ▸ h.known,
    hcurrent ▸ h.shown, fun y hy => hkin.spelling? (h.spelled y hy)⟩

/-- A change of the scope of the unit. -/
theorem modify (h : t.Resolves arrays procedures written) {f : Scope → Scope}
    (hkeyed : (f t.current).Keyed)
    (harray : ∀ x, arrays x → ((f t.current).get? x).any (·.isArray))
    (hshown : ∀ x, procedures x → ∀ y, (f t.current).get? x = some y → y.Transparent) :
    (t.modify f).Resolves arrays procedures written := by
  obtain ⟨s, hs⟩ := Option.isSome_iff_exists.1 h.opened
  have hmodify : t.modify f = { t with opened := some (f s) } := by rw [Table.modify, hs]
  have hcurrent := t.current_modify f
  refine ⟨by rw [hmodify]; rfl, hcurrent ▸ hkeyed, hcurrent ▸ harray, ?_, hcurrent ▸ hshown, ?_⟩
  · rw [hmodify]
    exact h.known
  · rw [hmodify]
    exact h.spelled

/-- A change of a symbol that does not make an array something else. -/
theorem update (h : t.Resolves arrays procedures written) {w : String} {f : Symbol → Symbol}
    (hname : ∀ y, (f y).name = y.name) (harray : ∀ y, y.isArray → (f y).isArray)
    (hshown : ∀ x, procedures x → nameKey x = nameKey w → ∀ y, y.Transparent → (f y).Transparent) :
    (t.modify (·.update w f)).Resolves arrays procedures written :=
  h.modify (h.keyed.update w hname) (fun x hx => Scope.array_update (h.array x hx) harray)
    (fun x hx => Scope.transparent_update (h.shown x hx) (hshown x hx))

theorem function (h : t.Resolves arrays procedures written) (w : String) (args : List String)
    (type : Scope → Symbol → Option TypeName) :
    (t.modify fun s => s.update w fun y =>
      { y with kind := .statementFunction, params := args, type := type s y }).Resolves
        arrays procedures written :=
  h.modify (h.keyed.update w (fun _ => rfl))
    (fun x hx => Scope.array_update (h.array x hx) (fun _ hy => hy))
    (fun x hx => Scope.transparent_update (h.shown x hx) (fun _ _ hy => ⟨hy.1, nofun⟩))

theorem declareArray (h : t.Resolves arrays procedures written) {w : String}
    (hw : ∀ x, procedures x → nameKey x ≠ nameKey w) (dims : List String) :
    (t.modify (·.declareArray w dims)).Resolves arrays procedures written := by
  obtain ⟨f, hf, hname, harray⟩ := t.current.declareArray_eq w dims
  rw [Table.modify_congr (g := (·.update w f)) hf]
  exact h.update hname (fun y _ => harray y) (fun x hx hkey => absurd hkey (hw x hx))

/-- The name that gets dimensions is an array from then on. -/
theorem dimensioned (h : t.Resolves (fun _ => False) (fun _ => False) written) {x w : String}
    (hx : (t.spelling? x).isSome) (hw : nameKey w = nameKey x) (dims : List String) :
    (t.modify (·.declareArray w dims)).Resolves (fun y => nameKey y = nameKey x) (fun _ => False)
      (fun _ => t.spelling x) := by
  have hthis := h.declareArray (w := w) (fun _ hy => hy.elim) dims
  refine ⟨hthis.opened, hthis.keyed, fun y hy => ?_, fun _ hy => hy.elim, fun _ hy => hy.elim,
    fun y hy => ?_⟩
  · obtain ⟨f, hf, -, harray⟩ := t.current.declareArray_eq w dims
    rw [Table.current_modify, hf, Scope.get?_update, if_pos (hy.trans hw.symm)]
    exact harray _
  · have hspelling? : (t.modify (·.declareArray w dims)).spelling? y = t.spelling? y := by
      unfold Table.modify
      split <;> rfl
    obtain ⟨v, hv⟩ := Option.isSome_iff_exists.1 hx
    rw [hspelling?, t.spelling?_congr (hy.resolve_right id), Table.spelling, hv]
    rfl

end Table.Resolves

/-! ## Declarations -/

section Declarations

variable {arrays procedures : String → Prop} {written : String → String} {n : Node} {t u : Table}

/-- The statement hides none of the procedures. -/
def Node.Spares (procedures : String → Prop) (n : Node) : Prop :=
  ∀ x, procedures x → ∀ y, n.Dimensions y ∨ n.ListsIntrinsic y → nameKey y ≠ nameKey x

/-- A name that gets dimensions keeps its key. -/
theorem nameKey_array (h : t.current.Keyed) {x y : String}
    (hy : y = t.spelling x ∨ y = (t.current.getOrNew (t.spelling x)).name) :
    nameKey y = nameKey x := by
  rcases hy with rfl | rfl
  · exact t.nameKey_spelling x
  · exact (h.getOrNew _).trans (t.nameKey_spelling x)

theorem Declares.resolves (h : Declares n t u) (hn : n.Spares procedures)
    (ht : t.Resolves arrays procedures written) : u.Resolves arrays procedures written := by
  cases h with
  | spell => exact ht.spell _
  | change _ htame =>
    exact ht.update htame.name (fun y hy => (htame.array y).trans hy)
      (fun _ _ _ _ hy => htame.transparent hy)
  | array dims hsource hspelled =>
    refine ht.declareArray (fun x hx hkey => ?_) dims
    exact hn x hx _ (.inl hsource) ((nameKey_array ht.keyed hspelled).symm.trans hkey.symm)
  | intrinsic hsource =>
    refine ht.update (fun _ => rfl) (fun _ hy => hy) (fun x hx hkey => ?_)
    exact absurd ((t.nameKey_spelling _).symm.trans hkey.symm) (hn x hx _ (.inr hsource))
  | function _ _ type => exact ht.function _ _ type
  | @other f hsymbols _ =>
    have hget : ∀ x, (f t.current).get? x = t.current.get? x := fun x => by
      rw [Scope.get?, Scope.get?, hsymbols]
    refine ht.modify (fun e he => ht.keyed e (hsymbols t.current ▸ he)) ?_ ?_
    · exact fun x hx => hget x ▸ ht.array x hx
    · exact fun x hx y hy => ht.shown x hx y (hget x ▸ hy)

theorem DeclaresAll.resolves (h : DeclaresAll n t u) (hn : n.Spares procedures)
    (ht : t.Resolves arrays procedures written) : u.Resolves arrays procedures written :=
  h.keeps (fun _ _ hstep hv => hstep.resolves hn hv) ht

/-- Once a statement has given a name dimensions, it is an array. -/
theorem Collection.statement?_resolves {c d : Collection} {x : String}
    (hc : c.table.Resolves (fun _ => False) (fun _ => False) written) (hx : n.Dimensions x)
    (h : c.statement? n = some d) :
    ∃ w, d.table.Resolves (fun y => nameKey y = nameKey x) (fun _ => False) (fun _ => w) := by
  have hnone : n.Spares fun _ => False := fun _ hx => hx.elim
  obtain ⟨t, ⟨v, y, dims, hbefore, hspelled, hy, rfl⟩, hbehind⟩ := c.statement?_array hx h
  have hv := hbefore.resolves hnone hc
  exact ⟨_, hbehind.resolves hnone (hv.dimensioned hspelled (nameKey_array hv.keyed hy) dims)⟩

end Declarations

/-! ## Statements -/

/-- How the names of a unit are read: its arrays and procedures are written as the function says, other
names in some letter case, and the name of a function stands for its result. -/
def Reading.ofUnit (unit : Node) (arrays procedures : String → Prop) (written : String → String) :
    Reading where
  spelled x w := nameKey w = nameKey x ∧ (arrays x ∨ procedures x → w = written x)
  result x := unit.hasLabel .functionSubprogram && nameKey x == nameKey unit.unitName
  array := arrays
  procedure := procedures

/-- An expression of a statement, which may stand inside another one. -/
inductive Node.HasExpression (n : Node) : Expression → Prop
  | whole {k : Node} {e : Expression} (node : k ∈ n.nodes) (reads : k.expression? = some e) :
    HasExpression n e
  | subscript {k : Node} {s : Subscript} {e : Expression} (node : k ∈ n.nodes)
    (item : s ∈ k.subscripts) (part : e ∈ s.expressions) : HasExpression n e
  | within {lx : Lexeme} {suffixes : List (List Subscript)} {items : List Subscript} {s : Subscript}
    {e : Expression} (outer : HasExpression n (.reference lx suffixes)) (list : items ∈ suffixes)
    (item : s ∈ items) (part : e ∈ s.expressions) : HasExpression n e

/-- The function may be called for the statement though it is not named in it. -/
def Node.Helps (n : Node) (f : String) : Prop :=
  ∃ k ∈ n.nodes, ∃ l, k.hasLabel l ∧ f ∈ l.helpers

namespace Material

/-- What the code of a statement is made of. -/
def ofStatement (n : Node) (reading : Reading) (helper : String → Prop) : Material where
  reading := reading
  expression := n.HasExpression
  name _ := True
  text _ := True
  subroutine x := ∃ k ∈ n.nodes, k.hasLabel .callStmt ∧ x = Lower.childText k .subroutineNameUse
  helper := helper

/-- What is known of the names of a unit while it is lowered. -/
structure Resolved (unit : Node) (arrays procedures : String → Prop) (written : String → String)
    (c : Collection) (u : UnitState) : Prop where
  table : c.table.Resolves arrays procedures written
  kind : (u.kind == .functionSubprogram) = unit.hasLabel .functionSubprogram
  name : nameKey u.name = nameKey unit.unitName

variable {unit n : Node} {arrays procedures : String → Prop} {written : String → String}
  {helper : String → Prop}

theorem resolved_lawful : (ofStatement n (.ofUnit unit arrays procedures written) helper).Lawful
    (Resolved unit arrays procedures written) where
  unit h hsettled := by
    have hkind := congrArg UnitState.kind hsettled
    have hname := congrArg UnitState.name hsettled
    exact ⟨h.table, (congrArg (· == _) hkind).trans h.kind, (congrArg nameKey hname).trans h.name⟩
  spell h _ := ⟨h.table.spell _, h.kind, h.name⟩
  spelled {c u x} h _ := by
    refine ⟨⟨c.table.nameKey_spelling x, fun hx => ?_⟩, trivial⟩
    rw [Table.spelling, h.table.spelled x hx]
    rfl
  result h x := by
    rw [h.kind, h.name]
    rfl
  array h hx := h.table.isArray hx
  procedure h hx := h.table.procedure hx
  current _ := ⟨fun _ _ => trivial, fun _ _ _ => ⟨trivial, fun _ _ => trivial⟩⟩
  define h _ _ := ⟨h.table.function _ _ (fun s y => y.type.or (s.implicit.typeOf y.name)), h.kind, h.name⟩
  name _ := trivial
  locals _ _ _ := trivial
  formats _ _ := trivial
  expression _ _ _ := trivial
  within h _ hitems _ hs _ he := .within h hitems hs he
  empty := ⟨trivial, trivial⟩

theorem resolved_fits (hspares : ∀ k ∈ n.nodes, k.Spares procedures)
    (hhelper : ∀ f, n.Helps f → helper f) :
    (ofStatement n (.ofUnit unit arrays procedures written) helper).Fits
      (Resolved unit arrays procedures written) n where
  named _ _ _ _ _ := trivial
  labels _ _ _ _ _ := trivial
  lexemes _ _ := ⟨fun _ => trivial, fun _ => trivial⟩
  expression _ hk _ _ he := .whole hk he
  operand _ hk _ _ _ _ hc _ he := .whole (nodes_trans hk (nodes_child hc)) he
  subscripts _ hk _ _ hs _ he := .subscript hk hs he
  subroutine k hk hl := ⟨k, hk, hl, rfl⟩
  helpers k hk l hl f hf := hhelper f ⟨k, hk, l, hl, hf⟩
  declares k hk _ _ _ hknown hd :=
    ⟨(Collection.statement?_declares hd).resolves (hspares k hk) hknown.table, hknown.kind, hknown.name⟩

end Material

end FortranJulia
