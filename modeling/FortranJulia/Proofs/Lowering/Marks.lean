import FortranJulia.Proofs.Lowering.Declarations

/-!
What a statement says of the names of its unit. A statement makes no dummy arguments; it marks as common
and as named constants the names that it lists and makes arrays of those that it gives dimensions. What is
known of a name stays: `Table.Grows` says so of each statement, and `Symbol.Keeps` of all that follows.
-/

namespace FortranJulia

set_option autoImplicit false

/-! ## Symbols -/

/-- A statement with a label lists the name in a phrase of its own. -/
def Node.Lists (n : Node) (l m : Label) (x : String) : Prop :=
  n.hasLabel l ∧ ∃ k ∈ n.findAll m, nameKey k.text = nameKey x

/-- The statement makes the name that of a procedure: it lists it as external or intrinsic, or assigns to
it as to a statement function. -/
def Node.MakesProcedure (n : Node) (x : String) : Prop :=
  n.Lists .externalStmt .externalName x ∨ n.Lists .intrinsicStmt .intrinsicProcedureName x ∨
    (n.hasLabel .assignmentStmt ∧ nameKey (Lower.childText n .variableRef) = nameKey x) ∨
    n.hasLabel .stmtFunctionStmt ∧ nameKey (Lower.childText n .refName) = nameKey x

/-- A symbol of which more is known. -/
structure Symbol.Keeps (y z : Symbol) : Prop where
  formal : z.flags.formal = y.flags.formal
  common : y.flags.common → z.flags.common
  parameter : y.flags.parameter → z.flags.parameter
  array : y.isArray → z.isArray
  callable : y.kind.isCallable → z.kind.isCallable

/-- What becomes of the symbol of a name by some of the statements. -/
structure Symbol.Grows (ns : List Node) (x : String) (y z : Symbol) : Prop extends Keeps y z where
  shared : z.flags.common → y.flags.common ∨ ∃ n ∈ ns, n.Lists .commonStmt .commonBlockObject x
  constant : z.flags.parameter → y.flags.parameter ∨ ∃ n ∈ ns, n.Lists .parameterStmt .namedConstantDef x
  dimensioned : z.isArray → y.isArray ∨ ∃ n ∈ ns, ∃ w, n.Dimensions w ∧ nameKey w = nameKey x
  called : z.kind.isCallable → y.kind.isCallable ∨ ∃ n ∈ ns, n.MakesProcedure x

namespace Symbol

variable {ns ms : List Node} {x : String} {y z w : Symbol}

theorem Keeps.of_eq (hflags : z.flags = y.flags) (hkind : z.kind = y.kind) : Keeps y z := by
  refine ⟨by rw [hflags], fun h => hflags ▸ h, fun h => hflags ▸ h, fun h => ?_, fun h => hkind ▸ h⟩
  rwa [isArray, hflags]

theorem Keeps.trans (h : Keeps y z) (h' : Keeps z w) : Keeps y w :=
  ⟨h'.formal.trans h.formal, fun hy => h'.common (h.common hy), fun hy => h'.parameter (h.parameter hy),
    fun hy => h'.array (h.array hy), fun hy => h'.callable (h.callable hy)⟩

theorem Grows.of_eq (hflags : z.flags = y.flags) (hkind : z.kind = y.kind) : Grows ns x y z := by
  refine ⟨.of_eq hflags hkind, fun h => .inl (hflags ▸ h), fun h => .inl (hflags ▸ h), fun h => .inl ?_,
    fun h => .inl (hkind ▸ h)⟩
  rwa [isArray, hflags] at h

theorem Grows.trans (h : Grows ns x y z) (h' : Grows ns x z w) : Grows ns x y w :=
  ⟨h.toKeeps.trans h'.toKeeps, fun hw => (h'.shared hw).elim h.shared .inr,
    fun hw => (h'.constant hw).elim h.constant .inr,
    fun hw => (h'.dimensioned hw).elim h.dimensioned .inr,
    fun hw => (h'.called hw).elim h.called .inr⟩

/-- More statements say no less. -/
theorem Grows.mono (h : Grows ns x y z) (hms : ∀ n ∈ ns, n ∈ ms) : Grows ms x y z := by
  have hmore : ∀ {P : Node → Prop}, (∃ n ∈ ns, P n) → ∃ n ∈ ms, P n :=
    fun ⟨n, hn, hP⟩ => ⟨n, hms n hn, hP⟩
  exact ⟨h.toKeeps, fun hz => (h.shared hz).imp_right hmore, fun hz => (h.constant hz).imp_right hmore,
    fun hz => (h.dimensioned hz).imp_right hmore, fun hz => (h.called hz).imp_right hmore⟩

end Symbol

namespace Scope

variable {s : Scope} {x w : String}

theorem getOrNew_update (s : Scope) (w x : String) (f : Symbol → Symbol) :
    (s.update w f).getOrNew x = if nameKey x = nameKey w then f (s.getOrNew w) else s.getOrNew x := by
  rw [getOrNew, get?_update]
  split <;> rfl

/-- All that is known of a name depends on its key. -/
theorem getOrNew_congr (s : Scope) (h : nameKey x = nameKey w) :
    (s.getOrNew x).flags = (s.getOrNew w).flags ∧ (s.getOrNew x).kind = (s.getOrNew w).kind := by
  have hget : s.get? x = s.get? w := by rw [get?, get?, h]
  rw [getOrNew, getOrNew, hget]
  cases s.get? w <;> exact ⟨rfl, rfl⟩

theorem markAssigned_kind (s : Scope) (w x : String) :
    ((s.markAssigned w).getOrNew x).kind = (s.getOrNew x).kind := by
  unfold markAssigned
  split
  · rfl
  · show ((s.update w (·.mark .assigned)).getOrNew x).kind = _
    rw [getOrNew_update]
    split
    · rename_i hkey
      exact (s.getOrNew_congr hkey).2.symm
    · rfl

end Scope

/-! ## Tables -/

/-- What becomes of the scope at hand by some of the statements. -/
def Table.Grows (ns : List Node) (t u : Table) : Prop :=
  t.current.Keyed → u.current.Keyed ∧
    ∀ x, Symbol.Grows ns x (t.current.getOrNew x) (u.current.getOrNew x)

namespace Table

theorem current_spell (t : Table) (x : String) : (t.spell x).current = t.current := by
  obtain ⟨more, heq, -⟩ := t.spell_eq x
  rw [heq]
  rfl

namespace Grows

variable {ns ms : List Node} {n : Node} {t u v : Table} {w : String}

theorem mono (h : Grows ns t u) (hms : ∀ n ∈ ns, n ∈ ms) : Grows ms t u :=
  fun hkeyed => ⟨(h hkeyed).1, fun x => ((h hkeyed).2 x).mono hms⟩

theorem of_current (h : u.current = t.current) : Grows ns t u := by
  rw [Grows, h]
  exact fun hkeyed => ⟨hkeyed, fun _ => .of_eq rfl rfl⟩

theorem refl (t : Table) : Grows ns t t :=
  of_current rfl

theorem trans (h : Grows ns t u) (h' : Grows ns u v) : Grows ns t v := by
  intro hkeyed
  obtain ⟨hu, hsymbols⟩ := h hkeyed
  obtain ⟨hv, hsymbols'⟩ := h' hu
  exact ⟨hv, fun x => (hsymbols x).trans (hsymbols' x)⟩

/-- A change of the scope that leaves the symbols alone. -/
theorem modify_symbols {g : Scope → Scope} (h : ∀ s, (g s).symbols = s.symbols) :
    Grows ns t (t.modify g) := by
  rw [Grows, current_modify]
  refine fun hkeyed => ⟨fun e he => hkeyed e (h t.current ▸ he), fun x => ?_⟩
  have hget : (g t.current).getOrNew x = t.current.getOrNew x := by
    rw [Scope.getOrNew, Scope.getOrNew, Scope.get?, Scope.get?, h]
  rw [hget]
  exact .of_eq rfl rfl

/-- A change of one symbol. -/
theorem update {f : Scope → Symbol → Symbol} (hname : ∀ s y, (f s y).name = y.name)
    (h : ∀ x s y, nameKey x = nameKey w → Symbol.Grows ns x y (f s y)) :
    Grows ns t (t.modify fun s => s.update w (f s)) := by
  rw [Grows, current_modify]
  refine fun hkeyed => ⟨hkeyed.update w (hname _), fun x => ?_⟩
  rw [Scope.getOrNew_update]
  split
  · rename_i hkey
    obtain ⟨hflags, hkind⟩ := t.current.getOrNew_congr hkey
    exact (Symbol.Grows.of_eq hflags.symm hkind.symm).trans (h x _ _ hkey)
  · exact .of_eq rfl rfl

theorem declareArray (hn : n ∈ ns) {x : String} (hx : n.Dimensions x) (hw : nameKey w = nameKey x)
    (dims : List String) : Grows ns t (t.modify (·.declareArray w dims)) := by
  refine update (f := fun s y => _) (fun s y => ?_) (fun v s y hv => ?_)
  · simp only
    split <;> rfl
  · have harray : ∀ b, b = true →
        y.isArray ∨ ∃ n ∈ ns, ∃ w, n.Dimensions w ∧ nameKey w = nameKey v :=
      fun _ _ => .inr ⟨n, hn, x, hx, (hv.trans hw).symm⟩
    simp only
    split <;> exact ⟨⟨rfl, id, id, fun _ => rfl, id⟩, .inl, .inl, harray _, .inl⟩

theorem markAssigned (w : String) : Grows ns t (t.modify (·.markAssigned w)) := by
  by_cases hassigned : t.current.isAssigned w
  · exact of_current ((t.current_modify _).trans (if_pos hassigned))
  · have hmark : Grows ns t (t.modify (·.update w (·.mark .assigned))) :=
      update (f := fun _ y => y.mark .assigned) (fun _ _ => rfl)
        (fun _ _ _ _ => ⟨⟨rfl, id, id, id, id⟩, .inl, .inl, .inl, .inl⟩)
    rw [modify_markAssigned hassigned]
    exact hmark.trans (modify_symbols (fun _ => rfl))

end Grows

end Table

/-! ## Statements -/

namespace Collection

variable {ns : List Node} {n k : Node} {c d : Collection}

theorem grows_each {ms : List Node} {f : Collection → Node → Collection}
    (hf : ∀ c, ∀ k ∈ ms, Table.Grows ns c.table (f c k).table) :
    ∀ c : Collection, Table.Grows ns c.table (c.each ms f).table := by
  induction ms with
  | nil => exact fun _ => .refl _
  | cons k ms ih =>
    intro c
    exact (hf c k (by simp)).trans (ih (fun c m hm => hf c m (by simp [hm])) (f c k))

/-- What a phrase makes of a name is kept by the phrases behind it. -/
theorem marked_each {ms : List Node} {f : Collection → Node → Collection}
    (hf : ∀ c, ∀ k ∈ ms, Table.Grows ns c.table (f c k).table) (hk : k ∈ ms) {x : String}
    {P : Symbol → Prop} (hkept : ∀ {y z : Symbol}, y.Keeps z → P y → P z)
    (hthis : ∀ c : Collection, c.table.current.Keyed → P ((f c k).table.current.getOrNew x))
    (hc : c.table.current.Keyed) : P ((c.each ms f).table.current.getOrNew x) := by
  obtain ⟨front, back, rfl⟩ := List.append_of_mem hk
  have hsplit : c.each (front ++ k :: back) f = (f (c.each front f) k).each back f := by
    simp only [each, List.foldl_append, List.foldl_cons]
  have hfront : Table.Grows ns c.table (c.each front f).table :=
    grows_each (fun c m hm => hf c m (by simp [hm])) c
  have hthere : Table.Grows ns (c.each front f).table (f (c.each front f) k).table :=
    hf _ k (by simp)
  have hback := grows_each (fun c m (hm : m ∈ back) => hf c m (by simp [hm]))
    (f (c.each front f) k) (hthere (hfront hc).1).1
  rw [hsplit]
  exact hkept (hback.2 x).toKeeps (hthis _ (hfront hc).1)

/-- A name is spelled and then its symbol changes. -/
theorem grows_spelled {f : Scope → Symbol → Symbol} (hname : ∀ s y, (f s y).name = y.name)
    (h : ∀ x s y, nameKey x = nameKey k.text → Symbol.Grows ns x y (f s y)) :
    Table.Grows ns c.table ((c.spell k).2.modifyScope fun s => s.update (c.spell k).1 (f s)).table := by
  have hkey : nameKey (c.spell k).1 = nameKey k.text := c.table.nameKey_spelling k.text
  have hspell : Table.Grows ns c.table (c.spell k).2.table := .of_current (c.table.current_spell k.text)
  exact hspell.trans (.update hname (fun x s y hx => h x s y (hx.trans hkey)))

theorem grows_addEntity (hns : n ∈ ns) (hn : n.hasLabel .typeDeclarationStmt) (hk : k ∈ n.findAll .entityDecl)
    (type : Option TypeName) (c : Collection) : Table.Grows ns c.table (addEntity type c k).table := by
  have hdeclare : Table.Grows ns c.table
      ((c.spell k).2.modifyScope (·.declare (c.spell k).1 type)).table :=
    grows_spelled (f := fun _ y => { y with type := type, flags := y.flags.put false .implicit })
      (fun _ _ => rfl) (fun _ _ _ _ => ⟨⟨rfl, id, id, id, id⟩, .inl, .inl, .inl, .inl⟩)
  unfold addEntity
  simp only
  split
  · rename_i spec hspec
    have hdims : n.Dimensions k.text := by
      refine .inl ⟨hn, k, hk, ?_, rfl⟩
      rw [← k.child?_isSome, hspec]
      rfl
    exact hdeclare.trans (.declareArray hns hdims (c.table.nameKey_spelling k.text) spec.bounds)
  · exact hdeclare

theorem grows_addArray (hns : n ∈ ns) (hn : n.hasLabel .dimensionStmt) (hk : k ∈ n.findAll .arrayDeclarator)
    (c : Collection) : Table.Grows ns c.table (addArray c k).table := by
  have hspell : Table.Grows ns c.table (c.spell k).2.table := .of_current (c.table.current_spell k.text)
  exact hspell.trans (.declareArray hns (.inr (.inl ⟨hn, k, hk, rfl⟩)) (c.table.nameKey_spelling k.text) _)

theorem grows_addCommon (hns : n ∈ ns) (hn : n.hasLabel .commonStmt) (hk : k ∈ n.findAll .commonBlockObject)
    (c : Collection) : Table.Grows ns c.table (addCommon c k).table := by
  have hcommon : Table.Grows ns c.table
      ((c.spell k).2.modifyScope (·.markCommon (c.spell k).1)).table :=
    grows_spelled (f := fun _ y => y.mark .common) (fun _ _ => rfl)
      (fun _ _ _ hx => ⟨⟨rfl, fun _ => rfl, id, id, id⟩, fun _ => .inr ⟨n, hns, hn, k, hk, hx.symm⟩, .inl, .inl, .inl⟩)
  unfold addCommon
  simp only
  split
  · rename_i spec hspec
    have hdims : n.Dimensions k.text := by
      refine .inr (.inr ⟨hn, k, hk, ?_, rfl⟩)
      rw [← k.child?_isSome, hspec]
      rfl
    -- The array is declared by the name of the symbol, which is the name that was spelled.
    intro hkeyed
    have hkey : nameKey (((c.spell k).2.modifyScope (·.markCommon (c.spell k).1)).table.current.getOrNew
        (c.spell k).1).name = nameKey k.text :=
      ((hcommon hkeyed).1.getOrNew _).trans (c.table.nameKey_spelling k.text)
    have harray := Table.Grows.declareArray (t := ((c.spell k).2.modifyScope
      (·.markCommon (c.spell k).1)).table) hns hdims hkey spec.bounds
    rw [Table.modify_congr (g := fun s => s.declareArray (s.getOrNew (c.spell k).1).name spec.bounds) rfl]
      at harray
    exact hcommon.trans harray hkeyed
  · exact hcommon

/-! ### Names that are marked -/

section Marked

variable {x w : String}

theorem getOrNew_declareArray (s : Scope) (dims : List String) (h : nameKey x = nameKey w) :
    ((s.declareArray w dims).getOrNew x).isArray := by
  rw [Scope.declareArray, Scope.getOrNew_update, if_pos h]
  simp only
  split <;> rfl

theorem declareArray_common {s : Scope} (dims : List String) (h : (s.getOrNew x).flags.common) :
    ((s.declareArray w dims).getOrNew x).flags.common := by
  rw [Scope.declareArray, Scope.getOrNew_update]
  split
  · rename_i hkey
    rw [(s.getOrNew_congr hkey).1] at h
    simp only
    split <;> exact h
  · exact h

theorem addEntity_isArray (hspec : k.hasChild .arraySpec) (hx : nameKey x = nameKey k.text)
    (type : Option TypeName) (c : Collection) :
    ((addEntity type c k).table.current.getOrNew x).isArray := by
  obtain ⟨spec, hspec⟩ := Option.isSome_iff_exists.1 ((k.child?_isSome .arraySpec).trans hspec)
  simp only [addEntity, hspec, modifyScope, Table.current_modify]
  exact getOrNew_declareArray _ _ (hx.trans (c.table.nameKey_spelling k.text).symm)

theorem addArray_isArray (hx : nameKey x = nameKey k.text) (c : Collection) :
    ((addArray c k).table.current.getOrNew x).isArray := by
  simp only [addArray, modifyScope, Table.current_modify]
  exact getOrNew_declareArray _ _ (hx.trans (c.table.nameKey_spelling k.text).symm)

theorem markCommon_keyed (hc : c.table.current.Keyed) (k : Node) :
    ((c.spell k).2.table.current.markCommon (c.spell k).1).Keyed := by
  have hspell : (c.spell k).2.table.current = c.table.current := c.table.current_spell k.text
  rw [hspell]
  exact hc.update _ (fun _ => rfl)

theorem addCommon_isArray (hspec : k.hasChild .arraySpec) (hx : nameKey x = nameKey k.text)
    (hc : c.table.current.Keyed) : ((addCommon c k).table.current.getOrNew x).isArray := by
  obtain ⟨spec, hspec⟩ := Option.isSome_iff_exists.1 ((k.child?_isSome .arraySpec).trans hspec)
  simp only [addCommon, hspec, modifyScope, Table.current_modify]
  refine getOrNew_declareArray _ _ (hx.trans ?_)
  exact (c.table.nameKey_spelling k.text).symm.trans ((markCommon_keyed hc k).getOrNew _).symm

theorem addCommon_isCommon (hx : nameKey x = nameKey k.text) (c : Collection) :
    ((addCommon c k).table.current.getOrNew x).flags.common := by
  have hkey : nameKey x = nameKey (c.spell k).1 := hx.trans (c.table.nameKey_spelling k.text).symm
  have hmark : (((c.spell k).2.table.current.markCommon (c.spell k).1).getOrNew x).flags.common := by
    rw [Scope.markCommon, Scope.getOrNew_update, if_pos hkey]
    rfl
  unfold addCommon
  simp only
  split
  · simp only [modifyScope, Table.current_modify]
    exact declareArray_common _ hmark
  · simp only [modifyScope, Table.current_modify]
    exact hmark

end Marked

theorem bareNames_current (ns : List Node) : ∀ t : Table, (bareNames t ns).2.current = t.current := by
  induction ns with
  | nil => exact fun _ => rfl
  | cons k ns ih =>
    intro t
    unfold bareNames
    split
    · split
      · exact (ih _).trans (t.current_spell _)
      · rfl
    · rfl

theorem statementFunctionArgs_current (t : Table) (stmt : Node) :
    (statementFunctionArgs t stmt).2.current = t.current := by
  unfold statementFunctionArgs
  split
  · rfl
  · split
    · split
      · rfl
      · rename_i tail _ _
        have hnames := bareNames_current (tail.findAll .sectionSubscript) t
        split
        · rename_i heq
          rw [heq] at hnames
          exact hnames
        · exact hnames
    · rfl

theorem grows_assignment (hns : n ∈ ns) (hn : n.hasLabel .assignmentStmt) (c : Collection) :
    Table.Grows ns c.table (c.assignment n).table := by
  unfold assignment
  split
  · exact .refl _
  · rename_i target htarget
    have htext : Lower.childText n .variableRef = target.text := by rw [Lower.childText, htarget]; rfl
    have hspelled : Table.Grows ns c.table (statementFunctionArgs (c.spell target).2.table n).2 :=
      .of_current ((statementFunctionArgs_current _ n).trans (c.table.current_spell target.text))
    simp only
    split
    · have hkey : nameKey (c.spell target).1 = nameKey target.text := c.table.nameKey_spelling target.text
      refine hspelled.trans (.update (fun _ _ => rfl) (fun _ _ _ hx => ?_))
      exact ⟨⟨rfl, id, id, id, fun _ => rfl⟩, .inl, .inl, .inl,
        fun _ => .inr ⟨n, hns, .inr (.inr (.inl ⟨hn, by rw [htext, hx, hkey]⟩))⟩⟩
    · exact hspelled.trans (.markAssigned _)

/-- An assignment makes its target a statement function or leaves the kinds of names alone. -/
theorem assignment_kind (c : Collection) (n : Node) (x : String) :
    ((c.assignment n).table.current.getOrNew x).kind = .statementFunction ∨
      ((c.assignment n).table.current.getOrNew x).kind = (c.table.current.getOrNew x).kind := by
  unfold assignment
  split
  · exact .inr rfl
  · rename_i target _
    have hcurrent : (statementFunctionArgs (c.spell target).2.table n).2.current = c.table.current :=
      (statementFunctionArgs_current _ n).trans (c.table.current_spell target.text)
    simp only
    split
    · simp only [modifyScope, Table.current_modify, Scope.getOrNew_update, hcurrent]
      split
      · exact .inl rfl
      · exact .inr rfl
    · simp only [modifyScope, Table.current_modify, Scope.markAssigned_kind, hcurrent]
      exact .inr trivial

theorem grows_implicitTypes (c : Collection) (n : Node) :
    Table.Grows ns c.table (c.implicitTypes n).table := by
  unfold implicitTypes
  split
  · exact .modify_symbols (fun _ => rfl)
  · refine grows_each (fun c spec _ => grows_each (fun c range _ => ?_) c) c
    unfold implicitRange
    simp only
    split
    · split
      · split
        · exact .modify_symbols (fun _ => rfl)
        · exact .refl _
      · exact .refl _
    · exact .refl _

/-- What a statement declares. -/
theorem statement?_grows (hns : n ∈ ns) (h : c.statement? n = some d) : Table.Grows ns c.table d.table := by
  unfold statement? at h
  split at h
  · rename_i hlabel
    obtain rfl := Option.some.inj h
    exact grows_each (fun c k hk => grows_addEntity hns (Node.hasLabel_of_label? hlabel) hk _ c) c
  · rename_i hlabel
    obtain rfl := Option.some.inj h
    exact grows_each (fun c k hk => grows_addArray hns (Node.hasLabel_of_label? hlabel) hk c) c
  · rename_i hlabel
    obtain rfl := Option.some.inj h
    exact grows_each (fun c k hk => grows_addCommon hns (Node.hasLabel_of_label? hlabel) hk c) c
  · rename_i hlabel
    obtain rfl := Option.some.inj h
    exact grows_each (fun c k hk => grows_spelled (f := fun _ y => y.mark .parameter) (fun _ _ => rfl)
      (fun _ _ _ hx => ⟨⟨rfl, id, fun _ => rfl, id, id⟩, .inl,
        fun _ => .inr ⟨n, hns, Node.hasLabel_of_label? hlabel, k, hk, hx.symm⟩, .inl, .inl⟩)) c
  · rename_i hlabel
    obtain rfl := Option.some.inj h
    refine grows_each (fun c k hk => grows_spelled
      (f := fun _ y => if y.kind.isCallable then y else { y with kind := .externalName })
      (fun _ y => ?_) (fun _ _ y hx => ?_)) c
    · split <;> rfl
    · split
      · exact .of_eq rfl rfl
      · exact ⟨⟨rfl, id, id, id, fun _ => rfl⟩, .inl, .inl, .inl,
          fun _ => .inr ⟨n, hns, .inl ⟨Node.hasLabel_of_label? hlabel, k, hk, hx.symm⟩⟩⟩
  · rename_i hlabel
    obtain rfl := Option.some.inj h
    exact grows_each (fun c k hk => grows_spelled (f := fun _ y => { y with kind := .intrinsic })
      (fun _ _ => rfl) (fun _ _ _ hx => ⟨⟨rfl, id, id, id, fun _ => rfl⟩, .inl, .inl, .inl,
        fun _ => .inr ⟨n, hns, .inr (.inl ⟨Node.hasLabel_of_label? hlabel, k, hk, hx.symm⟩)⟩⟩)) c
  · obtain rfl := Option.some.inj h
    exact grows_implicitTypes c n
  · rename_i hlabel
    obtain rfl := Option.some.inj h
    exact grows_assignment hns (Node.hasLabel_of_label? hlabel) c
  · obtain rfl := Option.some.inj h
    exact .refl _
  · obtain rfl := Option.some.inj h
    exact .refl _
  · obtain rfl := Option.some.inj h
    exact .refl _
  · cases h

theorem statement?_commonStmt (c : Collection) (hl : n.hasLabel .commonStmt) :
    c.statement? n = some (c.each (n.findAll .commonBlockObject) addCommon) := by
  unfold statement?
  rw [eq_of_beq hl]
  rfl

/-- A COMMON statement marks the names that it lists. -/
theorem statement?_common {x : String} (hc : c.table.current.Keyed)
    (hx : n.Lists .commonStmt .commonBlockObject x) :
    ((((c.statement? n).getD c).table.current).getOrNew x).flags.common := by
  obtain ⟨hl, k, hk, hkey⟩ := hx
  have hn : n ∈ [n] := List.mem_singleton_self n
  rw [c.statement?_commonStmt hl, Option.getD_some]
  exact marked_each (P := fun y => y.flags.common) (fun _ _ hm => grows_addCommon hn hl hm _) hk
    (fun h => h.common) (fun c _ => addCommon_isCommon hkey.symm c) hc

/-- A statement that gives a name dimensions makes it an array. -/
theorem statement?_isArray {x : String} (hc : c.table.current.Keyed) (hx : n.Dimensions x) :
    (((c.statement? n).getD c).table.current.getOrNew x).isArray := by
  have hn : n ∈ [n] := List.mem_singleton_self n
  rcases hx with ⟨hl, k, hk, hspec, rfl⟩ | ⟨hl, k, hk, rfl⟩ | ⟨hl, k, hk, hspec, rfl⟩
  · have hstatement : c.statement? n = some (c.each (n.findAll .entityDecl)
        (addEntity (Node.typeName? (n.child? .typeSpec)))) := by
      unfold statement?
      rw [eq_of_beq hl]
      rfl
    rw [hstatement, Option.getD_some]
    exact marked_each (P := fun y => y.isArray) (fun _ _ hm => grows_addEntity hn hl hm _ _) hk
      (fun h => h.array) (fun c _ => addEntity_isArray hspec rfl _ c) hc
  · have hstatement : c.statement? n = some (c.each (n.findAll .arrayDeclarator) addArray) := by
      unfold statement?
      rw [eq_of_beq hl]
      rfl
    rw [hstatement, Option.getD_some]
    exact marked_each (P := fun y => y.isArray) (fun _ _ hm => grows_addArray hn hl hm _) hk
      (fun h => h.array) (fun c _ => addArray_isArray rfl c) hc
  · rw [c.statement?_commonStmt hl, Option.getD_some]
    exact marked_each (P := fun y => y.isArray) (fun _ _ hm => grows_addCommon hn hl hm _) hk
      (fun h => h.array) (fun c hc => addCommon_isArray hspec rfl hc) hc

end Collection

end FortranJulia
