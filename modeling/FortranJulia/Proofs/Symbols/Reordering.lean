import FortranJulia.Proofs.Symbols.Operations

/-!
The order of declarations. FORTRAN 66 lets the specification statements of a unit stand in any order, so
what is known of a name must not depend on it: declarations of types and dimensions, COMMON and
assignments may be exchanged, except for two declarations of one kind for one name.
-/

namespace FortranJulia

set_option autoImplicit false

/-! ## What declarations tell -/

/-- What is known of a name apart from its spelling. -/
structure Facts where
  type : Option TypeName := none
  kind : SymbolKind := .variableName
  dims : List String := []
  flags : Flags := {}

namespace Facts

def mark (x : Facts) (flag : Flag) : Facts := { x with flags := x.flags.put true flag }

def declare (x : Facts) (type : Option TypeName) : Facts :=
  { x with type, flags := x.flags.put false .implicit }

/-- Dimensions, with the type to guess if none is known. -/
def declareArray (x : Facts) (dims : List String) (guess : Option TypeName) : Facts :=
  let z : Facts := { x with dims, flags := x.flags.put true .array }
  match z.type with
  | some _ => z
  | none => { z with type := guess, flags := z.flags.put true .implicit }

theorem mark_declare (x : Facts) {flag : Flag} (hflag : flag ≠ .implicit) (type : Option TypeName) :
    (x.mark flag).declare type = (x.declare type).mark flag := by
  cases flag <;> first | exact absurd rfl hflag | rfl

theorem mark_declareArray (x : Facts) (flag : Flag) (dims : List String) (guess : Option TypeName) :
    (x.mark flag).declareArray dims guess = (x.declareArray dims guess).mark flag := by
  obtain ⟨type, kind, olds, flags⟩ := x
  cases type <;> cases flag <;> rfl

theorem mark_mark (x : Facts) (flag other : Flag) : (x.mark flag).mark other = (x.mark other).mark flag := by
  cases flag <;> cases other <;> rfl

/-- A declared type counts, whether the guess for an array comes before it or would come after it. -/
theorem declareArray_declare (x : Facts) {type : Option TypeName} (htype : type.isSome) (dims : List String)
    (guess : Option TypeName) :
    (x.declareArray dims guess).declare type = (x.declare type).declareArray dims guess := by
  obtain ⟨name, rfl⟩ := Option.isSome_iff_exists.1 htype
  obtain ⟨old, kind, olds, flags⟩ := x
  cases old <;> rfl

end Facts

def Symbol.facts (y : Symbol) : Facts := { type := y.type, kind := y.kind, dims := y.dims, flags := y.flags }

/-- What a scope knows under a key. -/
def Scope.factsOf (s : Scope) (k : String) : Option Facts := (s.symbols.lookup k).map Symbol.facts

/-- An update changes what is known under its key only. -/
theorem Scope.factsOf_update (s : Scope) (name k : String) {f : Symbol → Symbol} {g : Facts → Facts}
    (hfg : ∀ y, (f y).facts = g y.facts) :
    (s.update name f).factsOf k =
      if k = nameKey name then some (g ((s.factsOf k).getD {})) else s.factsOf k := by
  rw [factsOf, lookup_update]
  split
  · rename_i hk
    rw [Option.map_some, hfg, factsOf, hk, getOrNew, get?]
    cases s.symbols.lookup (nameKey name) <;> rfl
  · rfl

namespace ScopeOp

/-- A type that is not empty, dimensions, COMMON or an assignment. -/
def isDeclaration : ScopeOp → Bool
  | declare _ type => type.isSome
  | declareArray _ _ | markCommon _ | markAssigned _ => true
  | _ => false

/-- Two operations are apart unless both give a type or both give dimensions to one name. -/
def Apart : ScopeOp → ScopeOp → Prop
  | declare x _, declare y _ => nameKey x ≠ nameKey y
  | declareArray x _, declareArray y _ => nameKey x ≠ nameKey y
  | _, _ => True

theorem Apart.symm {a b : ScopeOp} (h : a.Apart b) : b.Apart a := by
  cases a <;> cases b <;> first | trivial | exact Ne.symm h

/-- The key of the name that is declared. -/
def key : ScopeOp → String
  | define x | declare x _ | declareArray x _ | markCommon x | markAssigned x => nameKey x
  | setFormals _ => ""

def isAssignment : ScopeOp → Bool
  | markAssigned _ => true
  | _ => false

/-- What a declaration makes of the facts under its key, where these are new or known, and listed
as assigned or not. -/
def change (rules : ImplicitRules) (op : ScopeOp) (listed : Prop) [Decidable listed] (x : Option Facts) :
    Option Facts :=
  match op with
  | declare _ type => some ((x.getD {}).declare type)
  | declareArray name dims => some ((x.getD {}).declareArray dims (rules.typeOf name))
  | markCommon _ => some ((x.getD {}).mark .common)
  | markAssigned _ => if listed then x else some ((x.getD {}).mark .assigned)
  | _ => x

variable {a b op : ScopeOp}

theorem factsOf_run (hop : op.isDeclaration) (s : Scope) (k : String) :
    (op.run s).factsOf k =
      if k = op.key then op.change s.implicit (k ∈ s.assigned) (s.factsOf k) else s.factsOf k := by
  cases op with
  | define name => cases hop
  | declare name type => exact s.factsOf_update (g := (·.declare type)) name k fun _ => rfl
  | declareArray name dims =>
    refine s.factsOf_update (g := (·.declareArray dims (s.implicit.typeOf name))) name k fun y => ?_
    simp only [Facts.declareArray, Symbol.facts]
    cases y.type <;> rfl
  | markCommon name => exact s.factsOf_update (g := (·.mark .common)) name k fun _ => rfl
  | markAssigned name =>
    have hmarked := s.factsOf_update (f := (·.mark .assigned)) (g := (·.mark .assigned)) name k fun _ => rfl
    show (s.markAssigned name).factsOf k =
      if k = nameKey name then if k ∈ s.assigned then s.factsOf k else some (((s.factsOf k).getD {}).mark .assigned)
      else s.factsOf k
    simp only [Scope.markAssigned, Scope.isAssigned, List.contains_iff_mem]
    by_cases hlisted : nameKey name ∈ s.assigned
    · by_cases hk : k = nameKey name <;> simp [hk, hlisted]
    · rw [if_neg hlisted]
      refine hmarked.trans ?_
      by_cases hk : k = nameKey name <;> simp [hk, hlisted]
  | setFormals names => cases hop

theorem mem_assigned_run (hop : op.isDeclaration) (s : Scope) (k : String) :
    k ∈ (op.run s).assigned ↔ k ∈ s.assigned ∨ (op.isAssignment ∧ k = op.key) := by
  cases op with
  | define name => cases hop
  | declare name type => simp [run, Scope.declare, Scope.assigned_update, isAssignment]
  | declareArray name dims => simp [run, Scope.declareArray, Scope.assigned_update, isAssignment]
  | markCommon name => simp [run, Scope.markCommon, Scope.assigned_update, isAssignment]
  | markAssigned name =>
    simp only [run, Scope.markAssigned, isAssignment, key, Scope.isAssigned, List.contains_iff_mem]
    split
    · rename_i hlisted
      exact ⟨.inl, fun hor => hor.elim id fun hk => hk.2 ▸ hlisted⟩
    · simp [Scope.assigned_update]
  | setFormals names => cases hop

theorem implicit_run (hop : op.isDeclaration) (s : Scope) : (op.run s).implicit = s.implicit := by
  have hupdate : ∀ name f, (s.update name f).implicit = s.implicit := by
    intro name f
    unfold Scope.update Scope.define
    split <;> rfl
  cases op with
  | define name => cases hop
  | declare name type => exact hupdate name _
  | declareArray name dims => exact hupdate name _
  | markCommon name => exact hupdate name _
  | markAssigned name =>
    simp only [run, Scope.markAssigned]
    split
    · rfl
    · exact hupdate name (·.mark .assigned)
  | setFormals names => cases hop

/-- Two declarations of one name that are apart may be exchanged. -/
theorem change_comm (ha : a.isDeclaration) (hb : b.isDeclaration) (hapart : a.Apart b) (hkey : a.key = b.key)
    (rules : ImplicitRules) (listed : Prop) [Decidable listed] (x : Option Facts) :
    b.change rules (listed ∨ a.isAssignment) (a.change rules listed x) =
      a.change rules (listed ∨ b.isAssignment) (b.change rules listed x) := by
  have hassigned : ∀ x : Facts, (x.mark .assigned).mark .common = (x.mark .common).mark .assigned :=
    fun x => x.mark_mark .assigned .common
  cases a <;> cases b <;> simp only [isDeclaration, Bool.false_eq_true] at ha hb <;>
    first
    -- twice the same
    | exact absurd hkey hapart
    | rfl
    -- two different ones
    | by_cases hlisted : listed <;>
        simp [change, isAssignment, Facts.mark_declare, Facts.mark_declareArray, Facts.declareArray_declare,
          hlisted, hassigned, ha, hb]

end ScopeOp

/-! ## Any order -/

/-- Scopes that tell the same of every name. -/
structure Scope.Agree (s t : Scope) : Prop where
  facts : ∀ k, s.factsOf k = t.factsOf k
  assigned : ∀ k, k ∈ s.assigned ↔ k ∈ t.assigned
  implicit : s.implicit = t.implicit

namespace ScopeOp

variable {a b op : ScopeOp} {s t : Scope}

theorem agree_run (hop : op.isDeclaration) (h : s.Agree t) : (op.run s).Agree (op.run t) where
  facts k := by
    simp only [factsOf_run hop, h.facts, h.assigned, h.implicit]
  assigned k := by
    rw [mem_assigned_run hop, mem_assigned_run hop, h.assigned]
  implicit := by
    rw [implicit_run hop, implicit_run hop, h.implicit]

theorem agree_foldl {ops : List ScopeOp} (hops : ∀ op ∈ ops, op.isDeclaration) (h : s.Agree t) :
    (ops.foldl run s).Agree (ops.foldl run t) := by
  induction ops generalizing s t with
  | nil => exact h
  | cons op ops ih =>
    rw [List.forall_mem_cons] at hops
    exact ih hops.2 (agree_run hops.1 h)

/-- Two declarations that are apart may be exchanged. -/
theorem agree_swap (ha : a.isDeclaration) (hb : b.isDeclaration) (hapart : a.Apart b) (s : Scope) :
    (b.run (a.run s)).Agree (a.run (b.run s)) where
  facts k := by
    simp only [factsOf_run ha, factsOf_run hb, mem_assigned_run ha, mem_assigned_run hb, implicit_run ha,
      implicit_run hb]
    by_cases hka : k = a.key
    · by_cases hkb : k = b.key
      · simp only [hka.symm, hkb.symm, and_true]
        exact change_comm ha hb hapart (hka.symm.trans hkb) s.implicit (k ∈ s.assigned) (s.factsOf k)
      · subst hka
        simp [hkb]
    · simp [hka]
  assigned k := by
    simp only [mem_assigned_run ha, mem_assigned_run hb]
    exact or_right_comm
  implicit := by
    rw [implicit_run hb, implicit_run ha, implicit_run ha, implicit_run hb]

/-- The order of declarations does not matter if any two of them are apart. -/
theorem agree_perm {l₁ l₂ : List ScopeOp} (hperm : l₁.Perm l₂) (hdecl : ∀ op ∈ l₁, op.isDeclaration)
    (hapart : l₁.Pairwise Apart) (s : Scope) : (l₁.foldl run s).Agree (l₂.foldl run s) := by
  induction hperm generalizing s with
  | nil => exact ⟨fun _ => rfl, fun _ => Iff.rfl, rfl⟩
  | cons op _ ih =>
    rw [List.forall_mem_cons] at hdecl
    exact ih hdecl.2 hapart.of_cons (op.run s)
  | swap a b l =>
    simp only [List.forall_mem_cons] at hdecl
    have hab : b.Apart a := (List.pairwise_cons.1 hapart).1 a List.mem_cons_self
    exact agree_foldl hdecl.2.2 (agree_swap hdecl.1 hdecl.2.1 hab s)
  | trans hfst _ ih ih' =>
    have hfirst := ih hdecl hapart s
    have hsecond := ih' (fun op hop => hdecl op (hfst.mem_iff.2 hop)) (hfst.pairwise hapart fun h => h.symm) s
    exact ⟨fun k => (hfirst.facts k).trans (hsecond.facts k),
      fun k => (hfirst.assigned k).trans (hsecond.assigned k), hfirst.implicit.trans hsecond.implicit⟩

end ScopeOp

/-- Declarations of types and of dimensions, one of each at most for a name, COMMON and assignments tell the
same of every name in whatever order they are applied to a scope. -/
theorem declarations_commute (s : Scope) {l₁ l₂ : List ScopeOp} (hperm : l₁.Perm l₂)
    (hdecl : ∀ op ∈ l₁, op.isDeclaration) (hapart : l₁.Pairwise ScopeOp.Apart) (k : String) :
    ((l₁.foldl ScopeOp.run s).symbols.lookup k).map Symbol.facts =
      ((l₂.foldl ScopeOp.run s).symbols.lookup k).map Symbol.facts :=
  (ScopeOp.agree_perm hperm hdecl hapart s).facts k

/-- The dimensions of an array before its type, and after it. -/
theorem declarations_commute_array :
    (((ScopeOp.declare "N" (some .real)).run ((ScopeOp.declareArray "n" ["3"]).run
      { name := "", kind := .program })).symbols.lookup "N").map Symbol.facts =
    (((ScopeOp.declareArray "n" ["3"]).run ((ScopeOp.declare "N" (some .real)).run
      { name := "", kind := .program })).symbols.lookup "N").map Symbol.facts :=
  declarations_commute { name := "", kind := .program }
    (List.Perm.swap (ScopeOp.declare "N" (some .real)) (.declareArray "n" ["3"]) []).symm
    (by simp [ScopeOp.isDeclaration]) (by simp [ScopeOp.Apart]) "N"

end FortranJulia
