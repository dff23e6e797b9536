import FortranJulia.Proofs.Lowering.Routines
import Mathlib.Data.List.Induction
import Mathlib.Data.List.Nodup

/-!
Operations on symbol tables. A scope keeps the same facts several times over: its symbols by key and in
order, the names assigned beside a flag of their symbols, the dummy arguments beside another one.
`Scope.Consistent` says that these agree. Every operation on a scope keeps it, and an operation on a table
changes one scope at most, so that it holds of all scopes of a table after any operations.
-/

namespace FortranJulia

set_option autoImplicit false

/-! ## Operations -/

/-- An operation on one scope. -/
inductive ScopeOp where
  | define (name : String)
  | declare (name : String) (type : Option TypeName)
  | declareArray (name : String) (dims : List String)
  | markCommon (name : String)
  | markAssigned (name : String)
  | setFormals (names : List String)

namespace ScopeOp

def run (s : Scope) : ScopeOp → Scope
  | define name => s.define name
  | declare name type => s.declare name type
  | declareArray name dims => s.declareArray name dims
  | markCommon name => s.markCommon name
  | markAssigned name => s.markAssigned name
  | setFormals names => s.setFormals names

end ScopeOp

/-- A scope of a table: the global one, or that of the unit that was entered as the n-th. -/
inductive ScopeRef where
  | global
  | unit (n : Nat)
  deriving DecidableEq

/-- An operation on a table, or on one of its scopes, open or not. -/
inductive TableOp where
  | defineUnit (name : String) (kind : SymbolKind) (type : Option TypeName) (params : List String)
  | enter (name : String) (kind : ScopeKind)
  | exit
  | spell (name : String)
  | on (ref : ScopeRef) (op : ScopeOp)

namespace Table

/-- Changes one scope. -/
def modifyAt (t : Table) (f : Scope → Scope) : ScopeRef → Table
  | .global => { t with global := f t.global }
  | .unit n =>
    { t with
      closed := t.closed.modify n f
      opened := if n = t.closed.length then t.opened.map f else t.opened }

end Table

namespace TableOp

def run (t : Table) : TableOp → Table
  | defineUnit name kind type params => t.defineUnit name kind type params
  | enter name kind => t.enter name kind
  | exit => t.exit
  | spell name => t.spell name
  | on ref op => t.modifyAt op.run ref

end TableOp

/-! ## One scope -/

namespace Scope

variable {s : Scope} {name k : String} {f : Symbol → Symbol}

/-- What a scope says of a name in one place agrees with what it says elsewhere. -/
structure Consistent (s : Scope) : Prop where
  /-- Every key stands for one symbol. -/
  once : (s.symbols.map Prod.fst).Nodup
  filed : ∀ k y, s.symbols.lookup k = some y → nameKey y.name = k
  assignedOnce : s.assigned.Nodup
  assigned : ∀ k, k ∈ s.assigned ↔ (s.symbols.lookup k).any (·.flags.assigned)
  formal : ∀ k y, s.symbols.lookup k = some y → (y.name ∈ s.formals ↔ y.flags.formal)
  /-- A dummy argument is spelled as its symbol is. -/
  spelled : ∀ x ∈ s.formals, ∃ y, s.get? x = some y ∧ y.name = x

/-- A symbol is found under a key exactly if it is listed with it. -/
theorem Consistent.lookup_iff (h : s.Consistent) (k : String) (y : Symbol) :
    s.symbols.lookup k = some y ↔ (k, y) ∈ s.symbols := by
  have honce := h.once
  generalize s.symbols = l at honce
  induction l with
  | nil => exact ⟨nofun, nofun⟩
  | cons e l ih =>
    obtain ⟨k', y'⟩ := e
    rw [List.map_cons, List.nodup_cons] at honce
    rw [List.lookup_cons, List.mem_cons, Prod.mk.injEq]
    by_cases hk : k = k'
    · subst hk
      have hout : (k, y) ∉ l := fun hmem => honce.1 (List.mem_map.2 ⟨(k, y), hmem, rfl⟩)
      simp [hout, eq_comm]
    · have hne : (k == k') = false := beq_eq_false_iff_ne.2 hk
      simp [hk, hne, ih honce.2]

theorem Consistent.new (name : String) (kind : ScopeKind) (rules : ImplicitRules) :
    Consistent { name, kind, implicit := rules } where
  once := List.nodup_nil
  filed := by simp
  assignedOnce := List.nodup_nil
  assigned := by simp
  formal := by simp
  spelled := by simp

theorem define_eq_update (s : Scope) (name : String) : s.define name = s.update name id := by
  simp [update]

theorem assigned_update (s : Scope) (name : String) (f : Symbol → Symbol) :
    (s.update name f).assigned = s.assigned := by
  unfold update define
  split <;> rfl

theorem formals_update (s : Scope) (name : String) (f : Symbol → Symbol) :
    (s.update name f).formals = s.formals :=
  congrArg (·.2.2) (s.frame_update name f)

theorem once_update (h : (s.symbols.map Prod.fst).Nodup) (name : String) (f : Symbol → Symbol) :
    ((s.update name f).symbols.map Prod.fst).Nodup := by
  have hkeys : (s.update name f).symbols.map Prod.fst = (s.define name).symbols.map Prod.fst := by
    simp only [update, List.map_map]
    refine List.map_congr_left (fun e _ => ?_)
    simp only [Function.comp_apply]
    split <;> rfl
  rw [hkeys]
  unfold define
  cases hget : s.get? name with
  | some y => exact h
  | none =>
    have hnew : nameKey name ∉ s.symbols.map Prod.fst := by
      intro hmem
      obtain ⟨e, he, hkey⟩ := List.mem_map.1 hmem
      have hnone := List.lookup_eq_none_iff.1 hget e he
      simp [hkey] at hnone
    rw [List.map_append, List.nodup_append]
    exact ⟨h, List.nodup_singleton _, fun a ha b hb heq => hnew (by
      rwa [heq, List.mem_singleton.1 hb] at ha)⟩

/-- A name that is not defined yet is no dummy argument. -/
theorem Consistent.getOrNew_formal (h : s.Consistent) (name : String) :
    (s.getOrNew name).name ∈ s.formals ↔ (s.getOrNew name).flags.formal := by
  unfold getOrNew
  cases hget : s.get? name with
  | some y => exact h.formal _ y hget
  | none =>
    refine ⟨fun hmem => ?_, nofun⟩
    obtain ⟨y, hy, -⟩ := h.spelled name hmem
    rw [hget] at hy
    cases hy

theorem Consistent.keyed (h : s.Consistent) : s.Keyed :=
  fun e he => h.filed e.1 e.2 ((h.lookup_iff e.1 e.2).2 he)

theorem Consistent.getOrNew_assigned (h : s.Consistent) (name : String) :
    nameKey name ∈ s.assigned ↔ (s.getOrNew name).flags.assigned := by
  have hget : s.symbols.lookup (nameKey name) = s.get? name := rfl
  rw [h.assigned, hget, getOrNew]
  cases s.get? name <;> simp

/-- A change that keeps the name of a symbol and two of its flags. -/
theorem Consistent.update (h : s.Consistent) (hname : ∀ y, (f y).name = y.name)
    (hassigned : ∀ y, (f y).flags.assigned = y.flags.assigned)
    (hformal : ∀ y, (f y).flags.formal = y.flags.formal) : (s.update name f).Consistent where
  once := once_update h.once name f
  filed k y hy := by
    rw [lookup_update] at hy
    split at hy
    · rename_i hk
      rw [← Option.some.inj hy, hname, h.keyed.getOrNew, hk]
    · exact h.filed k y hy
  assignedOnce := by
    rw [assigned_update]
    exact h.assignedOnce
  assigned k := by
    rw [assigned_update, lookup_update]
    split
    · rename_i hk
      rw [Option.any_some, hassigned, hk]
      exact h.getOrNew_assigned name
    · exact h.assigned k
  formal k y hy := by
    rw [formals_update]
    rw [lookup_update] at hy
    split at hy
    · rw [← Option.some.inj hy, hname, hformal]
      exact h.getOrNew_formal name
    · exact h.formal k y hy
  spelled x hx := by
    rw [formals_update] at hx
    obtain ⟨y, hy, hspelled⟩ := h.spelled x hx
    rw [get?_update]
    split
    · rename_i hk
      refine ⟨_, rfl, ?_⟩
      have hsame : s.get? name = some y := by rw [get?, ← hk]; exact hy
      rw [hname, getOrNew, hsame, Option.getD_some, hspelled]
    · exact ⟨y, hy, hspelled⟩

theorem Consistent.define (h : s.Consistent) (name : String) : (s.define name).Consistent := by
  rw [define_eq_update]
  exact h.update (fun _ => rfl) (fun _ => rfl) (fun _ => rfl)

theorem Consistent.declare (h : s.Consistent) (name : String) (type : Option TypeName) :
    (s.declare name type).Consistent :=
  h.update (fun _ => rfl) (fun _ => rfl) (fun _ => rfl)

theorem Consistent.declareArray (h : s.Consistent) (name : String) (dims : List String) :
    (s.declareArray name dims).Consistent := by
  refine h.update (fun y => ?_) (fun y => ?_) (fun y => ?_) <;> simp only <;> split <;> rfl

theorem Consistent.markCommon (h : s.Consistent) (name : String) : (s.markCommon name).Consistent :=
  h.update (fun _ => rfl) (fun _ => rfl) (fun _ => rfl)

/-- An assignment sets the flag of the symbol and lists its key. -/
theorem Consistent.markAssigned (h : s.Consistent) (name : String) : (s.markAssigned name).Consistent := by
  unfold Scope.markAssigned
  split
  · exact h
  · rename_i hnot
    have hfresh : nameKey name ∉ s.assigned := by simpa [isAssigned] using hnot
    have honce := once_update h.once name (·.mark .assigned)
    refine ⟨honce, fun k y hy => ?_, ?_, fun k => ?_, fun k y hy => ?_, fun x hx => ?_⟩
    · simp only [lookup_update] at hy
      split at hy
      · rename_i hk
        rw [← Option.some.inj hy, hk]
        exact h.keyed.getOrNew name
      · exact h.filed k y hy
    · simp only [assigned_update]
      rw [List.nodup_append]
      exact ⟨h.assignedOnce, List.nodup_singleton _, fun a ha b hb heq => hfresh (by
        rwa [← List.mem_singleton.1 hb, ← heq])⟩
    · simp only [assigned_update, lookup_update, List.mem_append, List.mem_singleton]
      split
      · rename_i hk
        exact ⟨fun _ => rfl, fun _ => .inr hk⟩
      · rename_i hk
        rw [← h.assigned]
        exact ⟨fun hor => hor.resolve_right hk, .inl⟩
    · simp only [formals_update]
      simp only [lookup_update] at hy
      split at hy
      · rw [← Option.some.inj hy]
        exact h.getOrNew_formal name
      · exact h.formal k y hy
    · simp only [formals_update] at hx
      obtain ⟨y, hy, hspelled⟩ := h.spelled x hx
      show ∃ y, (s.update name (·.mark .assigned)).get? x = some y ∧ y.name = x
      rw [get?_update]
      split
      · rename_i hk
        have hsame : s.get? name = some y := by rw [get?, ← hk]; exact hy
        exact ⟨_, rfl, by rw [getOrNew, hsame, Option.getD_some]; exact hspelled⟩
      · exact ⟨y, hy, hspelled⟩

/-- A dummy argument gets its flag and is listed as its symbol is spelled. -/
theorem Consistent.addFormal (h : s.Consistent) (name : String) : (s.addFormal name).Consistent := by
  have hsymbol : (s.update name (·.mark .formal)).getOrNew name = (s.getOrNew name).mark .formal := by
    rw [getOrNew, get?_update, if_pos rfl, Option.getD_some]
  have hkey : nameKey ((s.getOrNew name).mark .formal).name = nameKey name := h.keyed.getOrNew name
  have honce := once_update h.once name (·.mark .formal)
  unfold Scope.addFormal
  simp only [hsymbol]
  refine ⟨honce, fun k y hy => ?_, ?_, fun k => ?_, fun k y hy => ?_, fun x hx => ?_⟩
  · simp only [lookup_update] at hy
    split at hy
    · rename_i hk
      rw [← Option.some.inj hy, hk, hkey]
    · exact h.filed k y hy
  · simp only [assigned_update]
    exact h.assignedOnce
  · simp only [assigned_update, lookup_update]
    split
    · rename_i hk
      rw [hk]
      exact h.getOrNew_assigned name
    · exact h.assigned k
  · simp only [formals_update, List.mem_append, List.mem_singleton]
    simp only [lookup_update] at hy
    split at hy
    · rw [← Option.some.inj hy]
      exact ⟨fun _ => rfl, fun _ => .inr rfl⟩
    · rename_i hk
      have hother : y.name ≠ ((s.getOrNew name).mark .formal).name := by
        intro heq
        rw [← h.filed k y hy, heq] at hk
        exact hk hkey
      rw [← h.formal k y hy]
      exact ⟨fun hor => hor.resolve_right hother, .inl⟩
  · simp only [formals_update, List.mem_append, List.mem_singleton] at hx
    show ∃ y, (s.update name (·.mark .formal)).get? x = some y ∧ y.name = x
    rw [get?_update]
    rcases hx with hx | rfl
    · obtain ⟨y, hy, hspelled⟩ := h.spelled x hx
      split
      · rename_i hk
        have hsame : s.get? name = some y := by rw [get?, ← hk]; exact hy
        exact ⟨_, rfl, by rw [getOrNew, hsame, Option.getD_some]; exact hspelled⟩
      · exact ⟨y, hy, hspelled⟩
    · rw [if_pos hkey]
      exact ⟨_, rfl, rfl⟩

/-- The dummy arguments may be set once. -/
theorem Consistent.setFormals (h : s.Consistent) (hnone : s.formals = []) (names : List String) :
    (s.setFormals names).Consistent := by
  have hsame : { s with formals := [] } = s := by rw [← hnone]
  have hfold : ∀ (names : List String) (s : Scope), s.Consistent → (names.foldl Scope.addFormal s).Consistent := by
    intro names
    induction names with
    | nil => exact fun _ h => h
    | cons name names ih => exact fun s h => ih _ (h.addFormal name)
  show (names.foldl Scope.addFormal { s with formals := [] }).Consistent
  rw [hsame]
  exact hfold names s h

/-! ## Flags -/

/-- Every symbol of a scope is still there in another one, with all flags but that of an implicit type. -/
def Keeps (s t : Scope) : Prop :=
  ∀ k y, s.symbols.lookup k = some y → ∃ z, t.symbols.lookup k = some z ∧
    ∀ flag, flag ≠ .implicit → y.flags.has flag → z.flags.has flag

theorem Keeps.refl (s : Scope) : s.Keeps s := fun _ y hy => ⟨y, hy, fun _ _ hflag => hflag⟩

theorem Keeps.trans {s t u : Scope} (hst : s.Keeps t) (htu : t.Keeps u) : s.Keeps u := by
  intro k y hy
  obtain ⟨z, hz, hyz⟩ := hst k y hy
  obtain ⟨x, hx, hzx⟩ := htu k z hz
  exact ⟨x, hx, fun flag hflag hset => hzx flag hflag (hyz flag hflag hset)⟩

end Scope

namespace ScopeOp

end ScopeOp

/-! ## All scopes of a table -/

namespace Table

variable (t : Table) (f : Scope → Scope) (ref r : ScopeRef)

/-- The scope that is changed by `Table.modify`. -/
def currentRef : ScopeRef := if t.opened.isSome then .unit t.closed.length else .global

theorem modify_eq_modifyAt : t.modify f = t.modifyAt f t.currentRef := by
  obtain ⟨global, closed, opened, spellings⟩ := t
  cases opened <;> simp [modify, modifyAt, currentRef, List.modify_eq_self]

end Table

namespace TableOp

/-- The scope an operation changes, if it changes one that is there already. -/
def target? : TableOp → Option ScopeRef
  | defineUnit .. => some .global
  | on ref _ => some ref
  | _ => none

variable {t : Table} {ref : ScopeRef} {s s' : Scope}

end TableOp

end FortranJulia
