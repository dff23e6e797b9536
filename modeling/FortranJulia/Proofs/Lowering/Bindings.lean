import FortranJulia.Proofs.Lowering.Marks
import FortranJulia.Proofs.Lowering.Silence

/-!
The names that the lines of a unit bind. `LowerState.Binds` says of a line which names of the source it
gives values to or declares, and `LowerState.Accounts` why a name needs no zero of its own. A step that
`Introduces` lines accounts for every name that they bind, and whatever it notes as declared is bound by
one of them. So a name has a line of its own as soon as it is noted.
-/

namespace FortranJulia

set_option autoImplicit false

open Julia (Expr Binding Code Line)

/-! ## Lines that bind names -/

namespace Julia

def Expr.isVariable : Expr → Bool
  | .name _ => true
  | _ => false

/-- Does a line at the depth give a value to a variable, or declare one? -/
def Line.binds (depth : Nat) : Line → Bool
  | .code d (.assign _ targets _) => d == depth && targets.any Expr.isVariable
  | .code d (.globals _) => d == depth
  | .code d (.functionHead _ _) => d == depth
  | _ => false

theorem Line.binds_deeper {depth d : Nat} (h : d ≠ depth) (c : Code) :
    (Line.code d c).binds depth = false := by
  cases c <;> simp [Line.binds, h]

end Julia

namespace LowerState

/-- The line binds the names, which have been spelled, at a depth. -/
inductive Binds (s : LowerState) (depth : Nat) : Line → List String → Prop
  | value {x : String} (b : Binding) (e : Expr) (spelled : (s.collection.table.spelling? x).isSome) :
    Binds s depth (.code depth (.assign b [.name (s.variableName x)] e)) [x]
  | shared {xs : List String} (spelled : ∀ x ∈ xs, (s.collection.table.spelling? x).isSome) :
    Binds s depth (.code depth (.globals (xs.map s.variableName))) xs
  | other {l : Line} (h : l.binds depth = false) : Binds s depth l []

/-- The symbol of a name in the unit at hand. -/
def symbol (s : LowerState) (x : String) : Symbol :=
  s.collection.table.current.getOrNew x

/-- The name is noted as a variable or an array that was given a value. -/
def Noted (s : LowerState) (x : String) : Prop :=
  nameKey x ∈ s.unit.declared ++ s.unit.arrays

/-- Why a name needs no zero of its own. -/
inductive Accounts (s : LowerState) (x : String) : Prop
  | declared (h : nameKey x ∈ s.unit.declared)
  | constant (h : nameKey x ∈ s.unit.params)
  | formal (h : (s.symbol x).flags.formal)
  | common (h : (s.symbol x).flags.common)
  | result (h : s.isResult x)
  | array (h : (s.symbol x).isArray)
  | parameter (h : (s.symbol x).flags.parameter)
  | callable (h : (s.symbol x).kind.isCallable)
  | procedure (h : (s.collection.table.global.get? x).any (·.kind.isCallable))

/-- Does a variable that no statement declares need a value of its own? -/
def needsZero (s : LowerState) (x : String) : Bool :=
  let t := s.collection.table
  let k := nameKey x
  !(s.unit.declared.contains k || s.unit.params.contains k || t.current.isFormal x ||
      t.current.isCommon x || s.isResult x) &&
    (!(t.procedure x).isCallable &&
      !(t.current.get? x).any fun y => y.isArray || y.kind == .statementFunction || y.flags.parameter)

end LowerState

theorem Scope.any_get? {s : Scope} {x : String} {p : Symbol → Bool} (h : p { name := x } = false) :
    (s.get? x).any p = p (s.getOrNew x) := by
  rw [getOrNew]
  cases s.get? x with
  | none => exact h.symm
  | some y => rfl

/-- A name stands for a procedure unless it is an array. -/
theorem Table.procedure_isCallable (t : Table) (x : String) :
    (t.procedure x).isCallable = (!(t.current.getOrNew x).isArray &&
      ((t.current.getOrNew x).kind.isCallable || (t.global.get? x).any (·.kind.isCallable))) := by
  have hkept : ∀ k : SymbolKind, (if k.isCallable then k else .unknown).isCallable = k.isCallable := by
    intro k
    cases k <;> rfl
  unfold procedure Scope.getOrNew
  cases t.current.get? x with
  | none =>
    cases t.global.get? x with
    | none => rfl
    | some z => exact hkept z.kind
  | some y =>
    simp only [Option.getD_some]
    cases y.isArray with
    | true => rfl
    | false =>
      cases hkind : y.kind.isCallable with
      | true => simp [hkind]
      | false =>
        cases t.global.get? x with
        | none => rfl
        | some z => simpa using hkept z.kind

namespace LowerState

variable {s t : LowerState} {x : String}

theorem accounts_iff : s.Accounts x ↔ nameKey x ∈ s.unit.declared ∨ nameKey x ∈ s.unit.params ∨
    (s.symbol x).flags.formal ∨ (s.symbol x).flags.common ∨ s.isResult x ∨ (s.symbol x).isArray ∨
    (s.symbol x).flags.parameter ∨ (s.symbol x).kind.isCallable ∨
    (s.collection.table.global.get? x).any (·.kind.isCallable) := by
  constructor
  · rintro (h | h | h | h | h | h | h | h | h) <;> simp [h]
  · rintro (h | h | h | h | h | h | h | h | h)
    exacts [.declared h, .constant h, .formal h, .common h, .result h, .array h, .parameter h,
      .callable h, .procedure h]

/-- A name gets a zero unless it is accounted for. -/
theorem needsZero_iff : s.needsZero x = true ↔ ¬ s.Accounts x := by
  have hformal : s.collection.table.current.isFormal x = (s.symbol x).flags.formal :=
    Scope.any_get? rfl
  have hcommon : s.collection.table.current.isCommon x = (s.symbol x).flags.common :=
    Scope.any_get? rfl
  have hrest : ((s.collection.table.current.get? x).any fun y =>
      y.isArray || y.kind == .statementFunction || y.flags.parameter) = ((s.symbol x).isArray ||
        (s.symbol x).kind == .statementFunction || (s.symbol x).flags.parameter) :=
    Scope.any_get? rfl
  have hcalls : (s.collection.table.procedure x).isCallable = (!(s.symbol x).isArray &&
      ((s.symbol x).kind.isCallable ||
        (s.collection.table.global.get? x).any (·.kind.isCallable))) :=
    s.collection.table.procedure_isCallable x
  have hfunction : (s.symbol x).kind = .statementFunction → (s.symbol x).kind.isCallable := by
    intro h
    rw [h]
    rfl
  simp only [accounts_iff, needsZero, hformal, hcommon, hrest, hcalls, Bool.and_eq_true,
    Bool.not_eq_true', Bool.or_eq_false_iff, Bool.and_eq_false_iff, Bool.not_eq_false',
    List.contains_eq_mem, decide_eq_false_iff_not, beq_eq_false_iff_ne]
  grind

theorem needsZero_run (s : LowerState) (x : String) :
    (Lower.needsZero x).run s = .ok (s.needsZero x, s) := by
  have htable : Lower.table.run s = .ok (s.collection.table, s) := rfl
  have hunit : Lower.unit.run s = .ok (s.unit, s) := rfl
  have hresult : (Lower.isResult x).run s = .ok (s.isResult x, s) := rfl
  have hbranch : ∀ a b c : Bool, (if a then (pure false : Lower Bool) else
      if b then pure false else pure !c).run s = .ok (!a && (!b && !c), s) := by
    intro a b c
    cases a <;> cases b <;> rfl
  rw [Lower.needsZero, Lower.run_bind_ok htable, Lower.run_bind_ok hunit, Lower.run_bind_ok hresult]
  exact hbranch _ _ _

/-- What is known of a name depends on its key. -/
theorem Accounts.congr {y : String} (h : s.Accounts x) (hkey : nameKey y = nameKey x) : s.Accounts y := by
  obtain ⟨hflags, hkind⟩ := s.collection.table.current.getOrNew_congr hkey
  have hglobal : s.collection.table.global.get? y = s.collection.table.global.get? x := by
    rw [Scope.get?, Scope.get?, hkey]
  have hresult : s.isResult y = s.isResult x := by rw [isResult, isResult, hkey]
  rw [accounts_iff] at h ⊢
  simp only [symbol, Symbol.isArray] at h ⊢
  rwa [hkey, hflags, hkind, hglobal, hresult]

end LowerState

/-! ## Steps -/

/-- The keys of the names that are bound. -/
def boundKeys (own : List (Line × List String)) : List String :=
  own.flatMap fun e => e.2.map nameKey

theorem boundKeys_append (own own' : List (Line × List String)) :
    boundKeys (own ++ own') = boundKeys own ++ boundKeys own' :=
  List.flatMap_append

/-- A unit is open and its symbols are filed under their keys. -/
structure LowerState.Ready (s : LowerState) : Prop where
  opened : s.collection.table.opened.isSome
  keyed : s.collection.table.current.Keyed

/-- A step that writes the given lines and binds their names. What is noted as declared is bound by
them, what they bind is accounted for, and all else that is new is said by the statements. -/
structure Introduces (ns : List Node) (s t : LowerState) (own : List (Line × List String)) : Prop where
  depth : t.depth = s.depth
  blockData : t.blockData = s.blockData
  unit : ∃ names arrays, t.unit = { s.unit with
      declared := names ++ s.unit.declared, arrays := arrays ++ s.unit.arrays } ∧
    ∀ k ∈ names ++ arrays, k ∈ boundKeys own
  kin : s.collection.table.Kin t.collection.table
  grows : s.collection.table.Grows ns t.collection.table
  lines : t.lines = (own.map Prod.fst).reverse ++ s.lines
  binds : ∀ e ∈ own, t.Binds s.depth e.1 e.2
  accounts : ∀ x, nameKey x ∈ boundKeys own → t.Accounts x

namespace Introduces

variable {ns ms : List Node} {s t u : LowerState} {own own' : List (Line × List String)}

theorem mono (h : Introduces ns s t own) (hms : ∀ n ∈ ns, n ∈ ms) : Introduces ms s t own :=
  { h with grows := h.grows.mono hms }

theorem ready (h : Introduces ns s t own) (hs : s.Ready) : t.Ready :=
  ⟨h.kin.isSome.trans hs.opened, (h.grows hs.keyed).1⟩

/-- What is settled about the unit stays. -/
theorem unit_eq (h : Introduces ns s t own) : t.unit.name = s.unit.name ∧ t.unit.kind = s.unit.kind ∧
    t.unit.params = s.unit.params ∧ t.unit.loops = s.unit.loops ∧ t.unit.locals = s.unit.locals ∧
    t.unit.common = s.unit.common ∧ t.unit.localsDone = s.unit.localsDone := by
  obtain ⟨names, arrays, hunit, -⟩ := h.unit
  rw [hunit]
  exact ⟨rfl, rfl, rfl, rfl, rfl, rfl, rfl⟩

theorem symbol (h : Introduces ns s t own) (hs : s.Ready) (x : String) :
    Symbol.Grows ns x (s.symbol x) (t.symbol x) :=
  (h.grows hs.keyed).2 x

/-- What is accounted for stays so. -/
theorem accounts_later (h : Introduces ns s t own) (hs : s.Ready) {x : String} (hx : s.Accounts x) :
    t.Accounts x := by
  have hsymbol := h.symbol hs x
  obtain ⟨names, arrays, hunit, -⟩ := h.unit
  cases hx with
  | declared hx => exact .declared (by rw [hunit]; exact List.mem_append_right _ hx)
  | constant hx => exact .constant (by rw [hunit]; exact hx)
  | formal hx => exact .formal (by rw [hsymbol.formal]; exact hx)
  | common hx => exact .common (hsymbol.common hx)
  | result hx =>
    refine .result ?_
    rw [LowerState.isResult, hunit]
    exact hx
  | array hx => exact .array (hsymbol.array hx)
  | parameter hx => exact .parameter (hsymbol.parameter hx)
  | callable hx => exact .callable (hsymbol.callable hx)
  | procedure hx => exact .procedure (by rw [h.kin.global]; exact hx)

/-- A name that has been spelled is written the same way from then on. -/
theorem spelled (h : Introduces ns s t own) {x : String}
    (hx : (s.collection.table.spelling? x).isSome) :
    t.variableName x = s.variableName x ∧ (t.collection.table.spelling? x).isSome := by
  obtain ⟨hname, hkind, -⟩ := h.unit_eq
  refine ⟨variableName_kept h.kin hname hkind hx, ?_⟩
  obtain ⟨w, hw⟩ := Option.isSome_iff_exists.1 hx
  rw [h.kin.spelling? hw]
  rfl

theorem noted (h : Introduces ns s t own) {x : String} (hx : s.Noted x) : t.Noted x := by
  obtain ⟨names, arrays, hunit, -⟩ := h.unit
  rw [LowerState.Noted, hunit]
  rcases List.mem_append.1 hx with hx | hx
  · exact List.mem_append_left _ (List.mem_append_right _ hx)
  · exact List.mem_append_right _ (List.mem_append_right _ hx)

theorem binds_later (h : Introduces ns s t own) {d : Nat} {l : Line} {xs : List String}
    (hl : s.Binds d l xs) : t.Binds d l xs := by
  cases hl with
  | value b e hx =>
    rw [← (h.spelled hx).1]
    exact .value b e (h.spelled hx).2
  | shared hxs =>
    have hnames : xs.map s.variableName = xs.map t.variableName :=
      List.map_congr_left (fun x hx => (h.spelled (hxs x hx)).1.symm)
    rw [hnames]
    exact .shared (fun x hx => (h.spelled (hxs x hx)).2)
  | other hl => exact .other hl

theorem trans (hs : s.Ready) (h : Introduces ns s t own) (h' : Introduces ns t u own') :
    Introduces ns s u (own ++ own') := by
  obtain ⟨names, arrays, hunit, hkeys⟩ := h.unit
  obtain ⟨names', arrays', hunit', hkeys'⟩ := h'.unit
  refine ⟨h'.depth.trans h.depth, h'.blockData.trans h.blockData,
    ⟨names' ++ names, arrays' ++ arrays, ?_, fun k hk => ?_⟩, h.kin.trans h'.kin,
    h.grows.trans h'.grows, ?_, fun e he => ?_, fun x hx => ?_⟩
  · rw [hunit', hunit, List.append_assoc, List.append_assoc]
  · rw [boundKeys_append, List.mem_append]
    simp only [List.mem_append] at hk hkeys hkeys'
    rcases hk with (hk | hk) | hk | hk
    · exact .inr (hkeys' k (.inl hk))
    · exact .inl (hkeys k (.inl hk))
    · exact .inr (hkeys' k (.inr hk))
    · exact .inl (hkeys k (.inr hk))
  · rw [h'.lines, h.lines, List.map_append, List.reverse_append, List.append_assoc]
  · rcases List.mem_append.1 he with he | he
    · exact h'.binds_later (h.binds e he)
    · exact h.depth ▸ h'.binds e he
  · rw [boundKeys_append, List.mem_append] at hx
    rcases hx with hx | hx
    · exact h'.accounts_later (h.ready hs) (h.accounts x hx)
    · exact h'.accounts x hx

/-- A change of the table that keeps the frame of the unit. -/
theorem of_table {c : Collection} (hkin : s.collection.table.Kin c.table)
    (hgrows : s.collection.table.Grows ns c.table) : Introduces ns s { s with collection := c } [] :=
  ⟨rfl, rfl, ⟨[], [], rfl, by simp⟩, hkin, hgrows, rfl, by simp, by simp [boundKeys]⟩

end Introduces

theorem Table.Grows.recorded (ns : List Node) (t : Table) (more : List String) :
    t.Grows ns (t.recorded more) :=
  .of_current rfl

namespace Lower

theorem Hush.introduces {s t : LowerState} (h : Hush s t) (ns : List Node) : Introduces ns s t [] := by
  obtain ⟨more, hmore⟩ := h.table
  refine ⟨h.depth, h.blockData, ⟨[], [], h.unit, by simp⟩, ?_, ?_, h.lines, by simp, by simp [boundKeys]⟩
  · rw [hmore]
    exact .recorded _ more
  · rw [hmore]
    exact .recorded ns _ more

/-- A line that binds names that are accounted for. -/
theorem Hush.line {s t : LowerState} (h : Hush s t) (ns : List Node) {l : Line} {xs : List String}
    (hl : t.Binds s.depth l xs) (hx : ∀ x ∈ xs, t.Accounts x) :
    Introduces ns s { t with lines := l :: t.lines } [(l, xs)] := by
  obtain ⟨hdepth, hblock, hunit, hkin, hgrows, hlines, -, -⟩ := h.introduces ns
  refine ⟨hdepth, hblock, ?_, hkin, hgrows, ?_, ?_, fun y hy => ?_⟩
  · obtain ⟨names, arrays, heq, hkeys⟩ := hunit
    exact ⟨names, arrays, heq, fun k hk => absurd (hkeys k hk) (by simp [boundKeys])⟩
  · simpa using hlines
  · intro e he
    obtain rfl := List.mem_singleton.1 he
    cases hl with
    | value b e hspelled => exact .value b e hspelled
    | shared hspelled => exact .shared hspelled
    | other hother => exact .other hother
  · have hmem : nameKey y ∈ xs.map nameKey := by simpa [boundKeys] using hy
    obtain ⟨x, hxs, hkey⟩ := List.mem_map.1 hmem
    have hall := (hx x hxs).congr hkey.symm
    rw [LowerState.accounts_iff] at hall ⊢
    exact hall

/-- A line that binds nothing. -/
theorem Hush.other {s t : LowerState} (h : Hush s t) (ns : List Node) {l : Line}
    (hl : l.binds s.depth = false) : Introduces ns s { t with lines := l :: t.lines } [(l, [])] :=
  h.line ns (.other hl) (by simp)

end Lower

namespace LowerState

/-- The state with a name that was given a value, and with more arrays. -/
def noting (s : LowerState) (x : String) (arrays : List String) : LowerState :=
  { s with unit := { s.unit with
      declared := nameKey x :: s.unit.declared, arrays := arrays ++ s.unit.arrays } }

end LowerState

namespace Lower

theorem Hush.noting {s t : LowerState} (h : Hush s t) (x : String) (arrays : List String) :
    Hush (s.noting x arrays) (t.noting x arrays) :=
  ⟨⟨by rw [LowerState.noting, LowerState.noting, h.unit], h.table⟩, h.blockData, h.depth, h.lines⟩

/-- A line that gives a value to a name, which is noted. -/
theorem Hush.value {s t : LowerState} (ns : List Node) {x : String} {arrays : List String}
    (h : Hush (s.noting x arrays) t) (b : Binding) (e : Expr)
    (hx : (t.collection.table.spelling? x).isSome) (ha : ∀ k ∈ arrays, k = nameKey x) :
    let l := Line.code s.depth (.assign b [.name (t.variableName x)] e)
    Introduces ns s { t with lines := l :: t.lines } [(l, [x])] := by
  obtain ⟨hdepth, hblock, -, hkin, hgrows, hlines, -, -⟩ := h.introduces ns
  refine ⟨hdepth, hblock, ⟨[nameKey x], arrays, h.unit, ?_⟩, hkin, hgrows, ?_, ?_, ?_⟩
  · simpa [boundKeys] using ha
  · exact congrArg _ hlines
  · intro e' he'
    obtain rfl := List.mem_singleton.1 he'
    exact .value b e hx
  · intro y hy
    have hkey : nameKey y = nameKey x := by simpa [boundKeys] using hy
    refine .declared ?_
    rw [show t.unit = _ from h.unit, hkey]
    exact List.mem_cons_self

end Lower

end FortranJulia
