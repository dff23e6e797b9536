import FortranJulia.Proofs.Lowering.Entries
import FortranJulia.Proofs.Lowering.Initializers
import FortranJulia.Proofs.Parsing.Declarators

/-!
The specifications of a unit. The statements that may stand before the executable ones introduce lines. What
they list as common or as named constants is bound by these lines, and what they give dimensions has a value
then, or is an array whose last bound is not given.
-/

namespace FortranJulia

set_option autoImplicit false

open Julia (Expr Binding Code Line)

/-! ## What statements tell -/

/-- The statement gives the name dimensions of which one has no bound. -/
def Node.AssumesSize (n : Node) (x : String) : Prop :=
  ∃ decl ∈ n.nodes, nameKey decl.text = nameKey x ∧ decl.isAssumedSize

/-- Why a name that is given dimensions need not get a value there. -/
inductive LowerState.Excepted (s : LowerState) (x : String) : Prop
  | formal (h : (s.symbol x).flags.formal)
  | result (h : s.isResult x)
  | constant (h : nameKey x ∈ s.unit.params)
  | common (h : nameKey x ∈ s.unit.common)
  | shared (h : (s.symbol x).flags.common)

theorem Node.label_eq {n : Node} {l m : Label} (hn : n.label? = some l) (hm : n.hasLabel m) : l = m :=
  Option.some.inj (hn.symm.trans (eq_of_beq hm))

/-- What becomes of the names that specifications list. -/
structure Told (ns : List Node) (s : LowerState) (own : List (Line × List String)) : Prop where
  shared : ∀ n ∈ ns, ∀ x, n.Lists .commonStmt .commonBlockObject x →
    (s.symbol x).flags.common ∧ (s.unit.isGlobal = false → nameKey x ∈ boundKeys own)
  constant : ∀ n ∈ ns, ∀ x, n.Lists .parameterStmt .namedConstantDef x → nameKey x ∈ boundKeys own
  dimensioned : ∀ n ∈ ns, ∀ x, n.Dimensions x → s.Noted x ∨ s.Excepted x ∨ n.AssumesSize x

section Told

variable {ns ms : List Node} {n : Node} {s t : LowerState} {own own' : List (Line × List String)} {x : String}

theorem Introduces.excepted (hs : s.Ready) (h : Introduces ms s t own) (hx : s.Excepted x) :
    t.Excepted x := by
  have hsymbol := h.symbol hs x
  obtain ⟨names, arrays, hunit, -⟩ := h.unit
  cases hx with
  | formal hx => exact .formal (by rw [hsymbol.formal]; exact hx)
  | result hx => exact .result (by rw [LowerState.isResult, hunit]; exact hx)
  | constant hx => exact .constant (by rw [hunit]; exact hx)
  | common hx => exact .common (by rw [hunit]; exact hx)
  | shared hx => exact .shared (hsymbol.common hx)

theorem Introduces.isGlobal (h : Introduces ms s t own) : t.unit.isGlobal = s.unit.isGlobal := by
  rw [UnitState.isGlobal, UnitState.isGlobal, h.unit_eq.2.1]

namespace Told

theorem nil (s : LowerState) (own : List (Line × List String)) : Told [] s own :=
  ⟨by simp, by simp, by simp⟩

/-- What was told stays so. -/
theorem later (h : Told ns s own) (hs : s.Ready) (h' : Introduces ms s t own') : Told ns t (own ++ own') := by
  have hkept : ∀ k ∈ boundKeys own, k ∈ boundKeys (own ++ own') := by
    intro k hk
    rw [boundKeys_append]
    exact List.mem_append_left _ hk
  refine ⟨fun n hn x hx => ?_, fun n hn x hx => hkept _ (h.constant n hn x hx), fun n hn x hx => ?_⟩
  · obtain ⟨hcommon, hbound⟩ := h.shared n hn x hx
    exact ⟨(h'.symbol hs x).common hcommon, fun hg => hkept _ (hbound (h'.isGlobal ▸ hg))⟩
  · exact (h.dimensioned n hn x hx).imp h'.noted (Or.imp_left (h'.excepted hs))

/-- Lines before those of the statements bind no less. -/
theorem behind (h : Told ns s own') (own : List (Line × List String)) : Told ns s (own ++ own') := by
  have hkept : ∀ k ∈ boundKeys own', k ∈ boundKeys (own ++ own') := by
    intro k hk
    rw [boundKeys_append]
    exact List.mem_append_right _ hk
  exact ⟨fun n hn x hx => (h.shared n hn x hx).imp_right (fun hbound hg => hkept _ (hbound hg)),
    fun n hn x hx => hkept _ (h.constant n hn x hx), h.dimensioned⟩

theorem append (h : Told ns s own) (h' : Told ms s own) : Told (ns ++ ms) s own :=
  ⟨fun n hn => (List.mem_append.1 hn).elim (h.shared n) (h'.shared n),
    fun n hn => (List.mem_append.1 hn).elim (h.constant n) (h'.constant n),
    fun n hn => (List.mem_append.1 hn).elim (h.dimensioned n) (h'.dimensioned n)⟩

theorem single
    (hshared : ∀ x, n.Lists .commonStmt .commonBlockObject x →
      (s.symbol x).flags.common ∧ (s.unit.isGlobal = false → nameKey x ∈ boundKeys own))
    (hconstant : ∀ x, n.Lists .parameterStmt .namedConstantDef x → nameKey x ∈ boundKeys own)
    (hdimensions : ∀ x, n.Dimensions x → s.Noted x ∨ s.Excepted x ∨ n.AssumesSize x) : Told [n] s own := by
  refine ⟨?_, ?_, ?_⟩ <;> simpa only [List.mem_singleton, forall_eq]

/-- A statement that lists no names tells nothing. -/
theorem of_label {l : Label} (hn : n.label? = some l)
    (hl : l ∉ [Label.typeDeclarationStmt, .dimensionStmt, .commonStmt, .parameterStmt]) : Told [n] s own := by
  have hno : ∀ m ∈ [Label.typeDeclarationStmt, .dimensionStmt, .commonStmt, .parameterStmt],
      ¬ n.hasLabel m := fun m hm hlabel => hl (Node.label_eq hn hlabel ▸ hm)
  refine single (fun x hx => absurd hx.1 (hno _ (by simp))) (fun x hx => absurd hx.1 (hno _ (by simp))) ?_
  rintro x (⟨hlabel, -⟩ | ⟨hlabel, -⟩ | ⟨hlabel, -⟩)
  all_goals exact absurd hlabel (hno _ (by simp))

end Told

/-- An array that is skipped where it is declared is excepted. -/
theorem LowerState.skips_excepted (h : s.skips x = true) (harray : (s.symbol x).isArray) :
    s.Excepted x := by
  have hformal : s.collection.table.current.isFormal x = (s.symbol x).flags.formal := Scope.any_get? rfl
  have hisArray : s.collection.table.isArray x = (s.symbol x).isArray := Scope.any_get? rfl
  simp only [skips, hformal, hisArray, harray, Bool.not_true, Bool.false_and, Bool.false_or,
    Bool.or_eq_true, Bool.and_eq_true, List.contains_eq_mem, decide_eq_true_eq] at h
  rcases h with ((h | h) | h) | ⟨h, -⟩
  exacts [.formal h, .result h, .constant h, .common h]

end Told

/-! ## Specifications -/

namespace Lower

variable {n : Node} {s t : LowerState} {own : List (Line × List String)} {a : Unit} {x : String}

/-- What a statement tells that gives dimensions and lists nothing else. -/
theorem told_dimensions {l : Label} (hn : n.label? = some l)
    (hl : l = .typeDeclarationStmt ∨ l = .dimensionStmt)
    (hdimensions : ∀ x, n.Dimensions x → s.Noted x ∨ s.Excepted x ∨ n.AssumesSize x) : Told [n] s own := by
  refine .single (fun x hx => ?_) (fun x hx => ?_) hdimensions
  all_goals
    obtain rfl := Node.label_eq hn hx.1
    simp at hl

/-- The names that a statement gives dimensions get values, are excepted or have no size. -/
theorem bindAll_dimensions {l : Label} {decls : List Node} (hs : s.Ready)
    (h : (bindAll l decls).run s = .ok (a, t)) (hdecls : ∀ k ∈ decls, k ∈ n.nodes)
    (hnamed : ∀ k ∈ decls, childText k l = k.text)
    (harrays : ∀ x, n.Dimensions x → (s.symbol x).isArray ∧ ∃ k ∈ decls, x = k.text) :
    ∃ own, Introduces [n] s t own ∧ ∀ x, n.Dimensions x → t.Noted x ∨ t.Excepted x ∨ n.AssumesSize x := by
  obtain ⟨own, hown, -, -, hnoted⟩ := bindAll_writes l decls [n] hs h
  refine ⟨own, hown, fun x hx => ?_⟩
  obtain ⟨harray, k, hk, rfl⟩ := harrays x hx
  have htext := hnamed k hk
  cases hskips : s.skips k.text with
  | true => exact .inr (.inl (hown.excepted hs (LowerState.skips_excepted hskips harray)))
  | false =>
    rcases htext ▸ hnoted k hk (htext ▸ hskips) with hnoted | hsize
    · exact .inl hnoted
    · exact .inr (.inr ⟨k, hdecls k hk, rfl, hsize⟩)

/-- A COMMON statement binds the names that it lists, or declares them. -/
theorem common_tells (hdecl : n.Declarative) (hs : s.Ready) (hn : n.hasLabel .commonStmt)
    (hcommon : ∀ x, n.Lists .commonStmt .commonBlockObject x → (s.symbol x).flags.common)
    (h : (common n).run s = .ok (a, t)) : ∃ own, Introduces [n] s t own ∧ Told [n] t own := by
  have htext : ∀ k ∈ n.findAll .commonBlockObject, childText k .variableName = k.text :=
    fun k hk => hdecl.named k (List.mem_filter.1 hk).1 _ _ (Node.hasLabel_findAll hk) rfl
  have hunit : Lower.unit.run s = .ok (s.unit, s) := rfl
  have hwritten : ∃ own, Introduces [n] s t own ∧ (s.unit.isGlobal = false →
      ∀ k ∈ n.findAll .commonBlockObject, nameKey k.text ∈ boundKeys own) := by
    rw [common, run_bind_ok hunit] at h
    split at h
    · rename_i hglobal
      obtain ⟨own, hown, -⟩ := bindAll_writes _ _ [n] hs h
      exact ⟨own, hown, fun hno => absurd hglobal (by simp [hno])⟩
    · obtain ⟨own, hown, hkeys⟩ := globals_write h [n] (fun x hx => by
        obtain ⟨k, hk, rfl⟩ := List.mem_map.1 hx
        exact hcommon _ ⟨hn, k, hk, by rw [htext k hk]⟩)
      refine ⟨own, hown, fun _ k hk => ?_⟩
      rw [hkeys, List.map_map]
      exact List.mem_map.2 ⟨k, hk, congrArg nameKey (htext k hk)⟩
  obtain ⟨own, hown, hkeys⟩ := hwritten
  have hmarked : ∀ x, n.Lists .commonStmt .commonBlockObject x → (t.symbol x).flags.common :=
    fun x hx => (hown.symbol hs x).common (hcommon x hx)
  refine ⟨own, hown, .single (fun x hx => ⟨hmarked x hx, fun hglobal => ?_⟩) (fun x hx => ?_) ?_⟩
  · obtain ⟨-, k, hk, hkey⟩ := hx
    rw [← hkey]
    exact hkeys (hown.isGlobal ▸ hglobal) k hk
  · cases Node.label_eq (eq_of_beq hn) hx.1
  · rintro x (⟨hl, -⟩ | ⟨hl, -⟩ | ⟨-, k, hk, -, rfl⟩)
    · cases Node.label_eq (eq_of_beq hn) hl
    · cases Node.label_eq (eq_of_beq hn) hl
    · exact .inr (.inl (.shared (hmarked _ ⟨hn, k, hk, rfl⟩)))

/-- What a specification writes and tells, once what it declares is known. -/
theorem simple_tells (hdecl : n.Declarative) (hs : s.Ready)
    (hcommon : ∀ x, n.Lists .commonStmt .commonBlockObject x → (s.symbol x).flags.common)
    (harrays : ∀ x, n.Dimensions x → (s.symbol x).isArray)
    (hspec : isSpecification s.collection.table n) (h : (simple n).run s = .ok (a, t)) :
    ∃ own, Introduces [n] s t own ∧ Told [n] t own := by
  have hnamed : ∀ {l m : Label}, l.firstName? = some m → ∀ k ∈ n.findAll l, childText k m = k.text :=
    fun hm k hk => hdecl.named k (List.mem_filter.1 hk).1 _ _ (Node.hasLabel_findAll hk) hm
  have hinside : ∀ {l : Label}, ∀ k ∈ n.findAll l, k ∈ n.nodes := fun k hk => (List.mem_filter.1 hk).1
  cases hl : n.label? with
  | none => simp [isSpecification, hl] at hspec
  | some l =>
    have hlabel : n.hasLabel l := Node.hasLabel_of_label? hl
    have hno : ∀ {m : Label}, n.hasLabel m → l ≠ m → False := fun hm hne => hne (Node.label_eq hl hm)
    rw [simple, hl] at h
    rw [isSpecification, hl] at hspec
    cases l with
    | typeDeclarationStmt =>
      obtain ⟨own, hown, hdims⟩ := bindAll_dimensions (n := n) hs h hinside (hnamed rfl) (fun x hx => by
        refine ⟨harrays x hx, ?_⟩
        obtain ⟨-, k, hk, -, hx⟩ | ⟨hm, -⟩ | ⟨hm, -⟩ := hx
        · exact ⟨k, hk, hx⟩
        · exact (hno hm (by decide)).elim
        · exact (hno hm (by decide)).elim)
      exact ⟨own, hown, told_dimensions hl (.inl rfl) hdims⟩
    | dimensionStmt =>
      obtain ⟨own, hown, hdims⟩ := bindAll_dimensions (n := n) hs h hinside (hnamed rfl) (fun x hx => by
        refine ⟨harrays x hx, ?_⟩
        obtain ⟨hm, -⟩ | ⟨-, k, hk, hx⟩ | ⟨hm, -⟩ := hx
        · exact (hno hm (by decide)).elim
        · exact ⟨k, hk, hx⟩
        · exact (hno hm (by decide)).elim)
      exact ⟨own, hown, told_dimensions hl (.inr rfl) hdims⟩
    | commonStmt => exact common_tells hdecl hs hlabel hcommon h
    | parameterStmt =>
      obtain ⟨own, hown, hkeys⟩ := parameters_write n [n]
        (fun c hc => hdecl.valued c (hinside c hc) (Node.hasLabel_findAll hc)) hs h
      refine ⟨own, hown, .single (fun x hx => (hno hx.1 (by decide)).elim) (fun x hx => ?_) ?_⟩
      · obtain ⟨-, k, hk, hkey⟩ := hx
        rw [← hkey, ← hnamed rfl k hk]
        exact hkeys k hk
      · rintro x (⟨hm, -⟩ | ⟨hm, -⟩ | ⟨hm, -⟩)
        all_goals exact (hno hm (by decide)).elim
    | dataStmt =>
      obtain ⟨own, hown⟩ := introducing_dataStmt n [n] hs h
      exact ⟨own, hown, .of_label hl (by decide)⟩
    | implicitStmt | formatStmt =>
      obtain ⟨own, hown⟩ := Introducing.pure () [n] hs h
      exact ⟨own, hown, .of_label hl (by decide)⟩
    | externalStmt | intrinsicStmt | equivalenceStmt | saveStmt | entryStmt =>
      obtain ⟨own, hown⟩ := Introducing.of_hushed (hushed_report _ _ _ _) [n] hs h
      exact ⟨own, hown, .of_label hl (by decide)⟩
    | stmtFunctionStmt =>
      obtain ⟨own, hown⟩ := stmtFunction_writes (List.mem_singleton_self n) hlabel hs h
      exact ⟨own, hown, .of_label hl (by decide)⟩
    | assignmentStmt =>
      obtain ⟨y, hy, hkind⟩ := (Option.any_eq_true _ _).1 hspec
      obtain ⟨own, hown⟩ := assignment_writes [n] (fun v hv => by
        have hnode : v ∈ n.nodes := nodes_child (List.mem_of_find?_eq_some hv)
        have htext := hdecl.named v hnode .variableRef .variableName (Node.hasLabel_child? hv) rfl
        rw [childText, hv, Option.map_some, Option.getD_some] at hy
        exact ⟨y, htext ▸ hy, eq_of_beq hkind⟩) hs h
      exact ⟨own, hown, .of_label hl (by decide)⟩
    | _ => cases hspec

theorem collected_introduces (hs : s.Ready) (n : Node) : Introduces [n] s (collected n s) [] := by
  refine .of_table ?_ ?_
  · cases h : s.collection.statement? n with
    | none => exact .refl _
    | some c => exact Collection.kin_statement? hs.opened h
  · cases h : s.collection.statement? n with
    | none => exact .refl _
    | some c => exact Collection.statement?_grows (List.mem_singleton_self n) h

/-- A statement that is executed says nothing of a name that accounts for it. -/
theorem collected_accounts (hs : s.Ready) (hspec : Visit.isSpecification ⟨n, s⟩ = false)
    (hx : (collected n s).Accounts x) : s.Accounts x := by
  have hcollected := collected_introduces hs n
  have hsymbol := hcollected.symbol hs x
  have hno : ∀ l ∈ [Label.typeDeclarationStmt, .dimensionStmt, .commonStmt, .parameterStmt, .externalStmt,
      .intrinsicStmt, .stmtFunctionStmt], ¬ n.hasLabel l := by
    intro l hl hlabel
    rw [Visit.isSpecification, isSpecification, eq_of_beq hlabel] at hspec
    simp only [List.mem_cons, List.not_mem_nil, or_false] at hl
    rcases hl with rfl | rfl | rfl | rfl | rfl | rfl | rfl <;> cases hspec
  cases hx with
  | declared hx => exact .declared hx
  | constant hx => exact .constant hx
  | formal hx => exact .formal (by rw [← hsymbol.formal]; exact hx)
  | common hx =>
    refine .common ((hsymbol.shared hx).resolve_right ?_)
    rintro ⟨_, hmem, hl, -⟩
    exact hno _ (by simp) (List.mem_singleton.1 hmem ▸ hl)
  | result hx => exact .result hx
  | array hx =>
    refine .array ((hsymbol.dimensioned hx).resolve_right ?_)
    rintro ⟨_, hmem, w, ⟨hl, -⟩ | ⟨hl, -⟩ | ⟨hl, -⟩, -⟩
    all_goals exact hno _ (by simp) (List.mem_singleton.1 hmem ▸ hl)
  | parameter hx =>
    refine .parameter ((hsymbol.constant hx).resolve_right ?_)
    rintro ⟨_, hmem, hl, -⟩
    exact hno _ (by simp) (List.mem_singleton.1 hmem ▸ hl)
  | callable hx =>
    refine .callable ((hsymbol.called hx).elim id ?_)
    rintro ⟨_, hmem, hmakes⟩
    rw [List.mem_singleton.1 hmem] at hmakes
    rcases hmakes with ⟨hl, -⟩ | ⟨hl, -⟩ | ⟨hl, hkey⟩ | ⟨hl, -⟩
    · exact absurd hl (hno _ (by simp))
    · exact absurd hl (hno _ (by simp))
    · -- The target of an assignment that is executed is no statement function: its kind is the one it had.
      have hcollection : (collected n s).collection = s.collection.assignment n := by
        show (s.collection.statement? n).getD _ = _
        unfold Collection.statement?
        rw [eq_of_beq hl]
        rfl
      have hkind : (((collected n s).symbol (childText n .variableRef)).kind == .statementFunction) =
          false := by
        rw [Visit.isSpecification, isSpecification, eq_of_beq hl] at hspec
        exact (Scope.any_get? rfl).symm.trans hspec
      have hsame : ((collected n s).symbol (childText n .variableRef)).kind =
          ((collected n s).symbol x).kind := (Scope.getOrNew_congr _ hkey).2
      rcases s.collection.assignment_kind n x with hfunction | hkept
      · rw [hsame, LowerState.symbol, hcollection, hfunction] at hkind
        cases hkind
      · rw [LowerState.symbol, hcollection, hkept] at hx
        exact hx
    · exact absurd hl (hno _ (by simp))
  | procedure hx => exact .procedure (by rw [← hcollected.kin.global]; exact hx)

/-- A specification holds no other statement. -/
theorem statement_specification {table : Table} (h : isSpecification table n) : statement n = simple n := by
  cases n with
  | leaf i lx => rw [statement]
  | inner i l cs =>
    rw [statement]
    all_goals
      rintro rfl
      cases h

/-- Where no loops are open, a statement that is no IF block is followed by its comments only. -/
theorem after_introduces (hs : s.Ready) (hloops : s.unit.loops = []) (hn : ¬ n.hasLabel .ifConstruct)
    (h : (after n).run s = .ok (a, t)) (ns : List Node) : ∃ own, Introduces ns s t own := by
  obtain ⟨_, u, htrailing, h⟩ := run_bind_inv h
  obtain ⟨own, hown⟩ := introducing_trailing n ns hs htrailing
  have hclosing : (closingLabel n).run u = .ok (labelOf n, u) := by
    rw [closingLabel, if_neg hn]
    rfl
  have hunit : Lower.unit.run u = .ok (u.unit, u) := rfl
  have hnone : u.unit.loops = [] := hown.unit_eq.2.2.2.1.trans hloops
  rw [run_bind_ok hclosing] at h
  split at h
  · rw [run_bind_ok hunit, hnone] at h
    obtain ⟨-, rfl⟩ := Prod.mk.inj (Except.ok.inj h)
    exact ⟨own, hown⟩
  · obtain ⟨-, rfl⟩ := Prod.mk.inj (Except.ok.inj h)
    exact ⟨own, hown⟩

/-- What a specification writes and tells where it stands. -/
theorem specification_tells (hdecl : n.Declarative) (hs : s.Ready) (hloops : s.unit.loops = [])
    (hspec : Visit.isSpecification ⟨n, s⟩) (h : (statements [n]).run s = .ok (a, t)) :
    ∃ own, Introduces [n] s t own ∧ Told [n] t own := by
  have hn : ¬ n.hasLabel .ifConstruct := by
    intro hlabel
    rw [Visit.isSpecification, isSpecification, eq_of_beq hlabel] at hspec
    cases hspec
  have hcollected := collected_introduces hs n
  rw [statements] at h
  obtain ⟨_, s₁, hbefore, h⟩ := run_bind_inv h
  obtain ⟨_, s₂, hstatement, h⟩ := run_bind_inv h
  obtain ⟨_, s₃, hafter, h⟩ := run_bind_inv h
  rw [statements] at h
  obtain ⟨-, rfl⟩ := Prod.mk.inj (Except.ok.inj h)
  rw [before_quiet (.inr hspec)] at hbefore
  obtain ⟨marks, hmarks⟩ := introducing_labelMark n [n] (hcollected.ready hs) hbefore
  have hfirst := hcollected.trans hs hmarks
  have htable : s₁.collection = (collected n s).collection := by
    obtain ⟨_, rfl, -⟩ := labelMark_writes hbefore
    rfl
  have hsymbol : ∀ x, s₁.symbol x = (collected n s).symbol x := by
    intro x
    rw [LowerState.symbol, htable]
    rfl
  have hthere : isSpecification s₁.collection.table n := by rw [htable]; exact hspec
  rw [statement_specification hthere] at hstatement
  obtain ⟨own, hown, htold⟩ := simple_tells hdecl (hfirst.ready hs)
    (fun x hx => by rw [hsymbol]; exact Collection.statement?_common hs.keyed hx)
    (fun x hx => by rw [hsymbol]; exact Collection.statement?_isArray hs.keyed hx) hthere hstatement
  have hboth := hfirst.trans hs hown
  obtain ⟨last, hlast⟩ := after_introduces (hboth.ready hs) (hboth.unit_eq.2.2.2.1.trans hloops) hn hafter [n]
  exact ⟨_, hboth.trans hs hlast, (htold.behind _).later (hboth.ready hs) hlast⟩

end Lower

end FortranJulia
