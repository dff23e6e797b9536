import FortranJulia.Proofs.Lowering.Bindings

/-!
What declarations bind. A type declaration, a DIMENSION statement and, where variables are global, a COMMON
statement give each name a zero or an array of zeros, unless the name is skipped or has been given one. A
name with dimensions that is not skipped is an array from then on, or its last bound is not given.
-/

namespace FortranJulia

set_option autoImplicit false

open Julia (Expr Binding Code Line)

namespace Lower

variable {s t : LowerState} {ns : List Node}

/-! ## Names and targets -/

/-- A name that has been spelled is written the same way after an action that writes no lines. -/
theorem Hush.spelled (h : Hush s t) {x : String} (hx : (s.collection.table.spelling? x).isSome) :
    t.variableName x = s.variableName x ∧ (t.collection.table.spelling? x).isSome :=
  (h.introduces []).spelled hx

theorem ident_writes {x v : String} (h : (ident x).run s = .ok (v, t)) :
    Hush s t ∧ v = t.variableName x ∧ (t.collection.table.spelling? x).isSome := by
  obtain ⟨more, hrun, hspelled⟩ := ident_spells s x
  obtain ⟨rfl, rfl⟩ := Prod.mk.inj (Except.ok.inj (hrun.symm.trans h))
  refine ⟨.recorded s more, ?_, by rw [hspelled]; rfl⟩
  have hsame : (s.recorded more).collection.table.spelling x = s.collection.table.spelling x := by
    rw [Table.spelling, hspelled, Option.getD_some]
  rw [LowerState.variableName, LowerState.variableName, hsame]
  rfl

theorem idents_writes {xs : List String} : ∀ {s t : LowerState} {vs : List String},
    (idents xs).run s = .ok (vs, t) →
      Hush s t ∧ vs = xs.map t.variableName ∧ ∀ x ∈ xs, (t.collection.table.spelling? x).isSome := by
  induction xs with
  | nil =>
    intro s t vs h
    obtain ⟨rfl, rfl⟩ := Prod.mk.inj (Except.ok.inj h)
    exact ⟨.refl s, rfl, by simp⟩
  | cons x xs ih =>
    intro s t vs h
    obtain ⟨v, u, hx, h⟩ := run_bind_inv h
    obtain ⟨ws, w, hxs, h⟩ := run_bind_inv h
    obtain ⟨rfl, rfl⟩ := Prod.mk.inj (Except.ok.inj h)
    obtain ⟨hsu, rfl, hspelled⟩ := ident_writes hx
    obtain ⟨hut, rfl, hall⟩ := ih hxs
    obtain ⟨hname, hkept⟩ := hut.spelled hspelled
    refine ⟨hsu.trans hut, by rw [List.map_cons, hname], fun y hy => ?_⟩
    rcases List.mem_cons.1 hy with rfl | hy
    · exact hkept
    · exact hall y hy

/-- With subscripts, a reference is no variable. -/
theorem ensures_indexed (suffixes : List (List Subscript)) : ∀ base : Expr,
    Ensures (fun _ => True) (indexed base suffixes) fun e =>
      (suffixes ≠ [] ∨ base.isVariable = false) → e.isVariable = false := by
  induction suffixes with
  | nil =>
    intro base
    rw [indexed]
    exact .pure (fun h => h.resolve_left (by simp))
  | cons items rest ih =>
    intro base
    rw [indexed]
    have hitems : Ensures (fun _ => True) (subscripts items) fun _ => True :=
      fun _ _ _ _ _ => ⟨trivial, trivial⟩
    exact hitems.bind fun subs _ => (ih (.index base subs)).imp fun e h _ => h (.inr rfl)

/-- The target of an assignment is a variable, or an element if it has subscripts. -/
theorem target_writes {v : Node} {b : Binding} {e : Expr} (h : (target v).run s = .ok ((b, e), t)) :
    Hush s t ∧ (v.childrenWith .complexDataRefTail = [] →
        e = .name (t.variableName (childText v .variableName)) ∧
          (t.collection.table.spelling? (childText v .variableName)).isSome) ∧
      (v.childrenWith .complexDataRefTail ≠ [] → e.isVariable = false) := by
  unfold target at h
  simp only at h
  split at h
  · rename_i htails
    have hbinding : binding.run s = .ok (if s.unit.isGlobal then .globally else .plain, s) := rfl
    rw [run_bind_ok hbinding] at h
    obtain ⟨w, u, hident, h⟩ := run_bind_inv h
    obtain ⟨hpair, rfl⟩ := Prod.mk.inj (Except.ok.inj h)
    obtain ⟨rfl, rfl⟩ := Prod.mk.inj hpair
    obtain ⟨hst, rfl, hspelled⟩ := ident_writes hident
    exact ⟨hst, fun _ => ⟨rfl, hspelled⟩, fun hne => absurd htails hne⟩
  · rename_i tails htails
    obtain ⟨w, u, hident, h⟩ := run_bind_inv h
    obtain ⟨e', u', hindexed, h⟩ := run_bind_inv h
    obtain ⟨hpair, rfl⟩ := Prod.mk.inj (Except.ok.inj h)
    obtain ⟨rfl, rfl⟩ := Prod.mk.inj hpair
    have hne : v.childrenWith .complexDataRefTail ≠ [] := htails
    refine ⟨(hushed_ident _).hush hident |>.trans ((writing_hushed.indexed _ _).hush hindexed),
      fun hnil => absurd hnil hne, fun _ => ?_⟩
    refine (ensures_indexed _ _ _ trivial _ _ hindexed).2 (.inl ?_)
    simpa using hne

end Lower

/-! ## Declarations -/

namespace LowerState

/-- Does a name get no initial value where it is declared? -/
def skips (s : LowerState) (x : String) : Bool :=
  let t := s.collection.table
  let k := nameKey x
  (t.current.isFormal x || s.isResult x || s.unit.params.contains k) ||
    ((!t.isArray x && (t.procedure x).isCallable) ||
      (s.unit.common.contains k &&
        (!s.unit.isGlobal || (s.unit.kind == .mainProgram && s.blockData.contains k))))

theorem skips_run (s : LowerState) (x : String) :
    (Lower.skipsDeclaration x).run s = .ok (s.skips x, s) := by
  have htable : Lower.table.run s = .ok (s.collection.table, s) := rfl
  have hunit : Lower.unit.run s = .ok (s.unit, s) := rfl
  have hresult : (Lower.isResult x).run s = .ok (s.isResult x, s) := rfl
  have hbranch : ∀ a b c d e : Bool, (if a then (pure true : Lower Bool) else if b then pure true else
      if c then (do return !d || (e && (← get).blockData.contains (nameKey x))) else pure false).run s =
        .ok (a || (b || (c && (!d || (e && s.blockData.contains (nameKey x))))), s) := by
    intro a b c d e
    cases a <;> cases b <;> cases c <;> rfl
  rw [Lower.skipsDeclaration, Lower.run_bind_ok htable, Lower.run_bind_ok hunit,
    Lower.run_bind_ok hresult]
  exact hbranch _ _ _ _ _

/-- Only the spellings of the table and what is noted of the unit are new. -/
structure Notes (s t : LowerState) : Prop where
  table : ∃ more, t.collection.table = s.collection.table.recorded more
  unit : ∃ names arrays, t.unit = { s.unit with declared := names, arrays := arrays }
  blockData : t.blockData = s.blockData

theorem Notes.refl (s : LowerState) : Notes s s :=
  ⟨⟨[], s.collection.table.recorded_nil.symm⟩, ⟨_, _, rfl⟩, rfl⟩

theorem Notes.trans {s t u : LowerState} (h : Notes s t) (h' : Notes t u) : Notes s u := by
  obtain ⟨more, hmore⟩ := h.table
  obtain ⟨others, hothers⟩ := h'.table
  obtain ⟨names, arrays, hunit⟩ := h.unit
  obtain ⟨names', arrays', hunit'⟩ := h'.unit
  refine ⟨⟨more ++ others, ?_⟩, ⟨names', arrays', ?_⟩, h'.blockData.trans h.blockData⟩
  · rw [hothers, hmore, Table.recorded_recorded]
  · rw [hunit', hunit]

/-- Whether a name is skipped is known before the first declaration. -/
theorem Notes.skips {s t : LowerState} (h : Notes s t) (x : String) : t.skips x = s.skips x := by
  obtain ⟨more, hmore⟩ := h.table
  obtain ⟨names, arrays, hunit⟩ := h.unit
  rw [LowerState.skips, LowerState.skips, isResult, isResult, hmore, hunit, h.blockData]
  rfl

end LowerState

namespace Lower

variable {s t : LowerState} {ns : List Node}

theorem Hush.notes (h : Hush s t) : s.Notes t :=
  ⟨h.table, ⟨_, _, h.unit⟩, h.blockData⟩

/-- What is written for a name that is bound to a zero or to an array of zeros. -/
theorem bindZero_writes {name : String} {spec : Option Node} {a : Unit}
    (h : (bindZero name spec).run s = .ok (a, t)) (ns : List Node) :
    ∃ own, Introduces ns s t own ∧ s.Notes t ∧ (∀ e ∈ own, e.2 = [name]) ∧
      (t.Noted name ∨ spec.any (·.hasUnbounded)) := by
  have hunit : Lower.unit.run s = .ok (s.unit, s) := rfl
  have htable : Lower.table.run s = .ok (s.collection.table, s) := rfl
  -- A line that binds the name, after it has been noted.
  have hline : ∀ (arrays : List String) {u : LowerState} {e : Expr} {a : Unit}, Hush s u →
      (∀ k ∈ arrays, k = nameKey name) →
      (do line (.assign (← binding) [.name (← ident name)] e)).run (u.noting name arrays) = .ok (a, t) →
        ∃ own, Introduces ns s t own ∧ s.Notes t ∧ (∀ e ∈ own, e.2 = [name]) ∧
          t.Noted name := by
    intro arrays u e a hu ha hrun
    have hbinding : binding.run (u.noting name arrays) =
        .ok (if u.unit.isGlobal then .globally else .plain, u.noting name arrays) := rfl
    rw [run_bind_ok hbinding] at hrun
    obtain ⟨v, w, hident, hrun⟩ := run_bind_inv hrun
    obtain ⟨-, rfl⟩ := Prod.mk.inj (Except.ok.inj hrun)
    obtain ⟨hhush, rfl, hspelled⟩ := ident_writes hident
    have hall := (hu.noting name arrays).trans hhush
    have hown := hall.value ns (if u.unit.isGlobal then .globally else .plain) e hspelled ha
    rw [show s.depth = w.depth from hall.depth.symm] at hown
    refine ⟨_, hown, ⟨hall.table, ⟨_, _, hall.unit⟩, hall.blockData⟩, by simp, ?_⟩
    rw [LowerState.Noted, show w.unit = _ from hall.unit]
    exact List.mem_append_left _ List.mem_cons_self
  rw [bindZero, run_bind_ok hunit, run_bind_ok htable] at h
  cases spec with
  | none =>
    simp only at h
    split at h
    · rename_i hknown
      obtain ⟨-, rfl⟩ := Prod.mk.inj (Except.ok.inj h)
      refine ⟨[], (Hush.refl s).introduces ns, .refl s, by simp, .inl ?_⟩
      exact List.mem_append_left _ (by simpa using hknown)
    · obtain ⟨own, hown, hnotes, hkeys, hnoted⟩ := hline [] (.refl s) (by simp) h
      exact ⟨own, hown, hnotes, hkeys, .inl hnoted⟩
  | some dims =>
    simp only at h
    split at h
    · rename_i hknown
      obtain ⟨-, rfl⟩ := Prod.mk.inj (Except.ok.inj h)
      refine ⟨[], (Hush.refl s).introduces ns, .refl s, by simp, .inl ?_⟩
      exact List.mem_append_right _ (by simpa using hknown)
    · obtain ⟨r, u, hshapes, h⟩ := run_bind_inv h
      obtain ⟨hu, hbounds⟩ := ensures_shapes name _ s s (.refl s) _ _ hshapes
      cases r with
      | none =>
        obtain ⟨-, rfl⟩ := Prod.mk.inj (Except.ok.inj h)
        refine ⟨[], hu.introduces ns, hu.notes, by simp, .inr ?_⟩
        rw [Option.any_some, Node.hasUnbounded, List.any_eq_true]
        exact hbounds rfl
      | some es =>
        obtain ⟨own, hown, hnotes, hkeys, hnoted⟩ := hline [nameKey name] hu (by simp) h
        exact ⟨own, hown, hnotes, hkeys, .inl hnoted⟩

/-- What is written for declarations: the names that are not skipped get values. -/
theorem bindAll_writes (l : Label) (decls : List Node) (ns : List Node) :
    ∀ {s t : LowerState} {a : Unit}, s.Ready → (bindAll l decls).run s = .ok (a, t) →
      ∃ own, Introduces ns s t own ∧ s.Notes t ∧
        (∀ e ∈ own, ∃ decl ∈ decls,
          e.2 = [childText decl l] ∧ s.skips (childText decl l) = false) ∧
        ∀ decl ∈ decls, s.skips (childText decl l) = false →
          t.Noted (childText decl l) ∨ decl.isAssumedSize := by
  induction decls with
  | nil =>
    intro s t a hs h
    obtain ⟨-, rfl⟩ := Prod.mk.inj (Except.ok.inj h)
    exact ⟨[], (Hush.refl s).introduces ns, .refl s, by simp, by simp⟩
  | cons decl decls ih =>
    intro s t a hs h
    obtain ⟨_, u, hdecl, hrest⟩ := run_bind_inv (f := fun _ => bindAll l decls) h
    rw [run_bind_ok (s.skips_run _)] at hdecl
    split at hdecl
    · rename_i hskips
      obtain ⟨-, rfl⟩ := Prod.mk.inj (Except.ok.inj hdecl)
      obtain ⟨own, hown, hnotes, hkeys, harrays⟩ := ih hs hrest
      refine ⟨own, hown, hnotes, fun e he => ?_, fun d hd hd' => ?_⟩
      · obtain ⟨d, hd, hall⟩ := hkeys e he
        exact ⟨d, List.mem_cons_of_mem _ hd, hall⟩
      · rcases List.mem_cons.1 hd with rfl | hd
        · rw [hskips] at hd'
          cases hd'
        · exact harrays d hd hd'
    · rename_i hskips
      rw [Bool.not_eq_true] at hskips
      obtain ⟨own, hown, hnotes, hkeys, hnoted⟩ := bindZero_writes hdecl ns
      obtain ⟨own', hown', hnotes', hkeys', hall⟩ := ih (hown.ready hs) hrest
      refine ⟨own ++ own', hown.trans hs hown', hnotes.trans hnotes', fun e he => ?_,
        fun d hd hd' => ?_⟩
      · rcases List.mem_append.1 he with he | he
        · exact ⟨decl, List.mem_cons_self, hkeys e he, hskips⟩
        · obtain ⟨d, hd, hkey, hd'⟩ := hkeys' e he
          exact ⟨d, List.mem_cons_of_mem _ hd, hkey, by rw [← hnotes.skips, hd']⟩
      · rcases List.mem_cons.1 hd with rfl | hd
        · exact hnoted.imp hown'.noted id
        · exact hall d hd (by rw [hnotes.skips, hd'])

/-- The names of a line that declares variables of common blocks. -/
theorem globals_write {xs : List String} {a : Unit}
    (h : (do line (.globals (← idents xs))).run s = .ok (a, t)) (ns : List Node)
    (hx : ∀ x ∈ xs, (s.symbol x).flags.common) :
    ∃ own, Introduces ns s t own ∧ boundKeys own = xs.map nameKey := by
  obtain ⟨vs, u, hidents, h⟩ := run_bind_inv h
  obtain ⟨-, rfl⟩ := Prod.mk.inj (Except.ok.inj h)
  obtain ⟨hu, rfl, hspelled⟩ := idents_writes hidents
  obtain ⟨more, hmore⟩ := hu.table
  have hbinds : u.Binds s.depth (.code u.depth (.globals (xs.map u.variableName))) xs := by
    rw [hu.depth]
    exact .shared hspelled
  refine ⟨_, hu.line ns hbinds (fun x hmem => .common ?_), by simp [boundKeys]⟩
  rw [LowerState.symbol, hmore]
  exact hx x hmem

/-- What is written for named constants that have values. -/
theorem parameters_write (stmt : Node) (ns : List Node)
    (hvalues : ∀ c ∈ stmt.findAll .namedConstantDef, (c.child? .expr).isSome) {a : Unit} (hs : s.Ready)
    (h : (parameters stmt).run s = .ok (a, t)) :
    ∃ own, Introduces ns s t own ∧ ∀ c ∈ stmt.findAll .namedConstantDef,
      nameKey (childText c .namedConstant) ∈ boundKeys own := by
  have hunit : Lower.unit.run s = .ok (s.unit, s) := rfl
  rw [parameters, run_bind_ok hunit] at h
  generalize (if s.unit.isGlobal then Binding.constant else .plain) = b at h
  generalize stmt.findAll .namedConstantDef = constants at h hvalues ⊢
  clear hunit
  induction constants generalizing s t a with
  | nil =>
    obtain ⟨-, rfl⟩ := Prod.mk.inj (Except.ok.inj h)
    exact ⟨[], (Hush.refl s).introduces ns, by simp⟩
  | cons c constants ih =>
    obtain ⟨_, u, hc, hrest⟩ := run_bind_inv h
    have htable : Lower.table.run s = .ok (s.collection.table, s) := rfl
    obtain ⟨e, he⟩ := Option.isSome_iff_exists.1 (hvalues c List.mem_cons_self)
    rw [run_bind_ok htable] at hc
    obtain ⟨v, s₁, hident, hc⟩ := run_bind_inv hc
    obtain ⟨h₁, rfl, hspelled⟩ := ident_writes hident
    simp only [he] at hc
    obtain ⟨value, s₂, hvalue, hc⟩ := run_bind_inv hc
    have h₂ : Hush s₁ s₂ := (hushed_converted _ _).hush hvalue
    obtain ⟨hname, hkept⟩ := h₂.spelled hspelled
    rw [← hname] at hc
    obtain ⟨-, rfl⟩ := Prod.mk.inj (Except.ok.inj hc)
    have hown := ((h₁.trans h₂).noting (childText c .namedConstant) []).value ns b value hkept (by simp)
    rw [show s.depth = s₂.depth from (h₁.trans h₂).depth.symm] at hown
    obtain ⟨own, hrest, hkeys⟩ :=
      ih (hown.ready hs) hrest (fun d hd => hvalues d (List.mem_cons_of_mem _ hd))
    refine ⟨_, hown.trans hs hrest, fun d hd => ?_⟩
    rw [boundKeys_append, List.mem_append]
    rcases List.mem_cons.1 hd with rfl | hd
    · exact .inl (by simp [boundKeys])
    · exact .inr (hkeys d hd)

/-! ## Actions that introduce lines -/

/-- If the action succeeds, it has written lines that bind what it notes. -/
def Introducing {α : Type} (act : Lower α) : Prop :=
  ∀ (ns : List Node) {s t : LowerState} {a : α}, s.Ready → act.run s = .ok (a, t) →
    ∃ own, Introduces ns s t own

namespace Introducing

variable {α β : Type}

theorem of_hushed {act : Lower α} (h : Hushed act) : Introducing act :=
  fun ns _ _ _ _ hrun => ⟨[], (h.hush hrun).introduces ns⟩

theorem pure (a : α) : Introducing (Pure.pure a : Lower α) :=
  .of_hushed (.pure a)

theorem bind {act : Lower α} {f : α → Lower β} (h : Introducing act) (h' : ∀ a, Introducing (f a)) :
    Introducing (act >>= f) := by
  intro ns s t b hs hrun
  obtain ⟨a, u, hact, hrest⟩ := run_bind_inv hrun
  obtain ⟨own, hown⟩ := h ns hs hact
  obtain ⟨own', hown'⟩ := h' a ns (hown.ready hs) hrest
  exact ⟨own ++ own', hown.trans hs hown'⟩

theorem forM {xs : List α} {f : α → Lower Unit} (h : ∀ x, Introducing (f x)) :
    Introducing (xs.forM f) := by
  induction xs with
  | nil => exact .pure ()
  | cons x xs ih =>
    show Introducing (f x >>= fun _ => xs.forM f)
    exact .bind (h x) (fun _ => ih)

/-- A line that binds nothing. -/
theorem line {c : Code} (h : ∀ d, (Line.code d c).binds d = false) : Introducing (Lower.line c) := by
  intro ns s t a _ hrun
  obtain ⟨-, rfl⟩ := Prod.mk.inj (Except.ok.inj hrun)
  exact ⟨_, (Hush.refl s).other ns (h s.depth)⟩

/-- A line one level deeper. -/
theorem nested {act : Lower α} (h : Hushed act) (f : α → Code) :
    Introducing (Lower.nested do Lower.line (f (← act))) := by
  intro ns s t a _ hrun
  obtain ⟨_, u, hin, hrest⟩ := run_bind_inv hrun
  obtain ⟨-, rfl⟩ := Prod.mk.inj (Except.ok.inj hin)
  obtain ⟨_, v, hinner, hout⟩ := run_bind_inv hrest
  obtain ⟨c, w, hact, hline⟩ := run_bind_inv hinner
  obtain ⟨-, rfl⟩ := Prod.mk.inj (Except.ok.inj hline)
  obtain ⟨-, rfl⟩ := Prod.mk.inj (Except.ok.inj hout)
  obtain ⟨⟨hunit, htable⟩, hblock, hdepth, hlines⟩ := h.hush hact
  have hhush : Hush s { w with depth := w.depth - 1 } := by
    refine ⟨⟨hunit, htable⟩, hblock, ?_, hlines⟩
    show w.depth - 1 = s.depth
    rw [hdepth]
    rfl
  have hother : (Line.code w.depth (f c)).binds s.depth = false := by
    refine Line.binds_deeper ?_ (f c)
    rw [hdepth]
    exact Nat.succ_ne_self s.depth
  exact ⟨_, hhush.other ns hother⟩

end Introducing

theorem introducing_comment (text : String) : Introducing (comment text) := by
  unfold comment
  split
  · exact .line (fun _ => rfl)
  · exact .bind (.of_hushed (hushed_itemsFrom _ _)) (fun _ => .line (fun _ => rfl))

theorem introducing_trailing (stmt : Node) : Introducing (trailing stmt) := by
  unfold trailing
  split
  · exact .pure ()
  · exact .forM (fun lx => introducing_comment lx.text)

theorem introducing_labelMark (stmt : Node) : Introducing (labelMark stmt) := by
  unfold labelMark
  refine .bind (.of_hushed .unit) (fun u => ?_)
  split
  · exact .line (fun _ => rfl)
  · exact .pure ()

/-! ## Initial values -/

theorem introducing_dataImpliedDo (object : Node) (vals : List DataValue) :
    Introducing (dataImpliedDo object vals) := by
  have hrefuse : Introducing (dataImpliedDo.refuse object) :=
    .of_hushed (.bind (hushed_report _ _ _ _) (fun _ => .pure _))
  unfold dataImpliedDo
  simp only
  split
  · exact hrefuse
  · rename_i item _
    refine .bind (.of_hushed (hushed_constantTrips _)) (fun r => ?_)
    split
    · exact hrefuse
    · refine .bind (.of_hushed .table) (fun t => .bind (.of_hushed (hushed_itemsUpTo _ _)) (fun xs => ?_))
      refine .bind (.of_hushed (hushed_ident _)) (fun v => .bind (.of_hushed (hushed_rangeOf _)) (fun r => ?_))
      refine .bind (.line (fun _ => rfl)) (fun _ => .bind ?_ (fun _ => .bind (.line (fun _ => rfl)) (fun _ => .pure _)))
      exact .nested (.of_hush fun h => (target_writes h).1) (fun r => .assign r.1 [r.2] (.name "_v"))

/-- A variable that gets a value is noted and bound. -/
theorem introducing_dataObject (object : Node) (vals : List DataValue) (isLast : Bool) :
    Introducing (dataObject object vals isLast) := by
  unfold dataObject
  split
  · exact introducing_dataImpliedDo object vals
  · refine .bind (.of_hushed .table) (fun t => ?_)
    simp only
    split
    · cases vals with
      | nil => exact .pure _
      | cons v rest =>
        simp only
        split
        · rename_i htails
          intro ns s t a hs hrun
          obtain ⟨_, s₁, hnoted, hrun⟩ := run_bind_inv hrun
          obtain ⟨-, rfl⟩ := Prod.mk.inj (Except.ok.inj hnoted)
          obtain ⟨⟨b, left⟩, u, htarget, hrun⟩ := run_bind_inv hrun
          obtain ⟨-, rfl⟩ := Prod.mk.inj (Except.ok.inj hrun)
          obtain ⟨hhush, hname, -⟩ := target_writes htarget
          obtain ⟨rfl, hspelled⟩ := hname (List.isEmpty_iff.1 htails)
          have hall : Hush (s.noting (childText object .variableName) []) u := hhush
          have hown := hall.value ns b (v.convertedTo (t.typeOf (childText object .variableName)))
            hspelled (by simp)
          rw [show s.depth = u.depth from hall.depth.symm] at hown
          exact ⟨_, hown⟩
        · rename_i htails
          intro ns s t a hs hrun
          obtain ⟨⟨b, left⟩, u, htarget, hrun⟩ := run_bind_inv hrun
          obtain ⟨-, rfl⟩ := Prod.mk.inj (Except.ok.inj hrun)
          obtain ⟨hhush, -, hleft⟩ := target_writes htarget
          refine ⟨_, hhush.other ns ?_⟩
          simp [Line.binds, hleft (by simpa using htails)]
    · split
      · exact .of_hushed (.bind (hushed_report _ _ _ _) (fun _ => .pure _))
      · refine .bind (.of_hushed (hushed_itemsUpTo _ _)) (fun xs => ?_)
        refine .bind (.of_hushed (hushed_ident _)) (fun v => .bind (.line (fun d => ?_)) (fun _ => .pure _))
        simp [Line.binds, Expr.isVariable]

theorem introducing_dataObjects (vals : List DataValue) (objects : List Node) :
    ∀ taken, Introducing (dataObjects vals taken objects) := by
  induction objects with
  | nil => exact fun _ => .pure _
  | cons object rest ih =>
    intro taken
    refine .bind (.of_hushed (hushed_itemsFrom _ _)) (fun left => ?_)
    exact .bind (introducing_dataObject object left rest.isEmpty) (fun n => ih (taken + n))

theorem introducing_dataStmt (stmt : Node) : Introducing (dataStmt stmt) := by
  refine .forM (fun set => .bind (.of_hushed (hushed_dataValues _)) (fun vals => ?_))
  refine .bind (introducing_dataObjects vals _ 0) (fun taken => ?_)
  split
  · exact .of_hushed (hushed_report _ _ _ _)
  · exact .pure ()

/-! ## Statement functions -/

theorem introducing_statementFunction (y : Symbol) (body : Node) :
    Introducing (statementFunction y body) :=
  .bind (.of_hushed (hushed_idents _)) (fun _ => .bind (.of_hushed (hushed_callee _)) (fun _ =>
    .bind (.of_hushed (hushed_converted _ _)) (fun _ => .line (fun _ => rfl))))

theorem stmtFunction_writes {stmt : Node} (hns : stmt ∈ ns) (hl : stmt.hasLabel .stmtFunctionStmt)
    (hs : s.Ready) {a : Unit} (h : (stmtFunction stmt).run s = .ok (a, t)) :
    ∃ own, Introduces ns s t own := by
  obtain ⟨more, hspell, -⟩ := spell_run s (childText stmt .refName)
  have hkey := s.collection.table.nameKey_spelling (childText stmt .refName)
  rw [stmtFunction, run_bind_ok hspell] at h
  obtain ⟨args, u, hargs, h⟩ := run_bind_inv h
  obtain ⟨_, v, hmodify, h⟩ := run_bind_inv h
  have hsu : Introduces ns s u [] :=
    ((Hush.recorded s more).trans ((hushed_spellings _).hush hargs)).introduces ns
  have hdefines : Introduces ns u v [] := by
    obtain ⟨-, rfl⟩ := Prod.mk.inj (Except.ok.inj hmodify)
    refine .of_table (.modify (hsu.ready hs).opened (fun w => w.frame_update _ _)) ?_
    refine .update (fun _ _ => rfl) (fun _ _ _ hx => ⟨⟨rfl, id, id, id, fun _ => rfl⟩, .inl, .inl, .inl,
      fun _ => .inr ⟨stmt, hns, .inr (.inr (.inr ⟨hl, ?_⟩))⟩⟩)
    rw [hx, hkey]
  have hboth := hsu.trans hs hdefines
  have htable : Lower.table.run v = .ok (v.collection.table, v) := rfl
  rw [run_bind_ok htable] at h
  obtain ⟨own, hown⟩ : ∃ own, Introduces ns v t own := by
    split at h
    · exact introducing_statementFunction _ _ ns (hboth.ready hs) h
    · exact Introducing.pure () ns (hboth.ready hs) h
  exact ⟨_, hboth.trans hs hown⟩

/-- An assignment to the name of a statement function defines it, or binds a name that is accounted for. -/
theorem assignment_writes {stmt : Node} {a : Unit} (ns : List Node)
    (hfunction : ∀ v, stmt.child? .variableRef = some v → ∃ y,
      s.collection.table.current.get? (childText v .variableName) = some y ∧
        y.kind = .statementFunction)
    (hs : s.Ready) (h : (assignment stmt).run s = .ok (a, t)) : ∃ own, Introduces ns s t own := by
  unfold assignment at h
  split at h
  · rename_i v e hv he
    obtain ⟨y, hy, hkind⟩ := hfunction v hv
    have htable : Lower.table.run s = .ok (s.collection.table, s) := rfl
    rw [run_bind_ok htable] at h
    simp only [hy] at h
    by_cases htails : v.childrenWith .complexDataRefTail = []
    · have hcallable : s.Accounts (childText v .variableName) := by
        refine .callable ?_
        rw [LowerState.symbol, Scope.getOrNew, hy, Option.getD_some, hkind]
        rfl
      simp only [htails, Option.filter, List.isEmpty_nil, Bool.not_true, Bool.and_false,
        Bool.true_or, if_true] at h
      obtain ⟨⟨b, left⟩, u, htarget, h⟩ := run_bind_inv h
      obtain ⟨value, w, hvalue, h⟩ := run_bind_inv h
      obtain ⟨-, rfl⟩ := Prod.mk.inj (Except.ok.inj h)
      obtain ⟨hsu, hname, -⟩ := target_writes htarget
      obtain ⟨rfl, hspelled⟩ := hname htails
      have huw : Hush u w := (hushed_converted _ _).hush hvalue
      obtain ⟨hkept, hspelled'⟩ := huw.spelled hspelled
      have hall := hsu.trans huw
      rw [← hkept]
      have hbinds : w.Binds s.depth (.code w.depth (.assign b [.name (w.variableName
          (childText v .variableName))] value)) [childText v .variableName] := by
        rw [show w.depth = s.depth from hall.depth]
        exact .value b value hspelled'
      refine ⟨_, hall.line ns hbinds ?_⟩
      simp only [List.mem_singleton, forall_eq]
      exact (hall.introduces ns).accounts_later hs hcallable
    · have hempty : (v.childrenWith .complexDataRefTail).isEmpty = false := by
        simpa [List.isEmpty_iff] using htails
      simp only [Option.filter, hkind, hempty, beq_self_eq_true, Bool.not_false, Bool.and_self,
        if_true] at h
      exact introducing_statementFunction _ _ ns hs h
  · exact Introducing.pure () ns hs h

end Lower

end FortranJulia
