import FortranJulia.Proofs.Symbols.Traversal

/-!
Symbols of whole programs. Whether the units of a program are collected one after the other as they
stand, or registered first and then lowered, routines before main programs, each of them ends with the
scope that it has by itself, `Node.declared`, and the global scope holds the same units. So the two
symbol tables differ in the order of units and in letter case only.
-/

namespace FortranJulia

set_option autoImplicit false

/-! ## Heads of units -/

namespace Collection

/-- The header with all dummy arguments in upper case. -/
def Header.folded (h : Header) : Header :=
  { h with params := h.params.map nameKey }

/-- What the first statement of a unit says does not depend on the table. -/
theorem folded_header (c d : Collection) (unit : Node) :
    (c.header unit).1.folded = (d.header unit).1.folded := by
  have hparams : ∀ stmt, (c.params stmt).1.map nameKey = (d.params stmt).1.map nameKey :=
    fun stmt => (c.params_spelled stmt).2.2.trans (d.params_spelled stmt).2.2.symm
  unfold header Header.folded
  split <;> simp [hparams]

theorem enter_frame (c : Collection) (h : Header) :
    (c.enter h).table.closed = c.table.units ∧ (c.enter h).table.global = c.table.global := by
  obtain ⟨more, hspell, -⟩ := c.table.spell_eq h.name
  unfold enter
  simp only [hspell]
  split <;> exact ⟨rfl, rfl⟩

/-- A unit is entered alike wherever the same implicit rules are in force. -/
theorem enter_agrees {c d : Collection} {h k : Header} (hfolded : h.folded = k.folded)
    (hglobal : c.table.global.implicit = d.table.global.implicit) :
    (c.enter h).table.Agrees (d.enter k).table := by
  simp only [Header.folded, Header.mk.injEq] at hfolded
  obtain ⟨-, hname, htype, hkind, hscope, hparams⟩ := hfolded
  have hspelled : ∀ e : Collection, (e.table.spell k.name).global.implicit = e.table.global.implicit :=
    fun e => by rw [(Table.Kin.spell e.table k.name).global]
  have hentered : ((c.table.spell h.name).enter ((c.table.spell h.name).spelling h.name) h.scope).Agrees
      ((d.table.spell k.name).enter ((d.table.spell k.name).spelling k.name) k.scope) := by
    refine ⟨_, _, rfl, rfl, Scope.folded_eq_iff.2 ⟨?_, hscope, rfl, rfl, rfl, ?_⟩⟩
    · rw [Table.nameKey_spelling, Table.nameKey_spelling, hname]
    · rw [hname, hspelled, hspelled, hglobal]
  have hformals := hentered.modify (f := (·.setFormals h.params)) (g := (·.setFormals k.params))
    (Scope.folded_setFormals hentered.current hparams)
  unfold enter
  simp only [hkind]
  split
  · refine hformals.modify ?_
    rw [htype]
    exact Scope.folded_declare hformals.current (congrArg nameKey hname) _
  · exact hformals

/-! ## Units -/

theorem statement?_isSome (c d : Collection) (n : Node) :
    (c.statement? n).isSome = (d.statement? n).isSome := by
  unfold statement?
  split <;> rfl

section Kept

variable {I : Collection → Collection → Prop}

mutual

/-- What the statements below a node keep of two collections is kept by a walk. -/
theorem visit_keeps : ∀ n : Node, (∀ m ∈ n.nodes, ¬ m.label?.any Label.isUnit) →
    (∀ m ∈ n.nodes, ∀ c d, I c d → I ((c.statement? m).getD c) ((d.statement? m).getD d)) →
    ∀ {c d}, I c d → I (visit false c n) (visit false d n)
  | .leaf _ _, _, _, _, _, h => h
  | .inner i l cs, hunits, hinv, c, d, h => by
    have hthis := hinv _ (nodes_self _) c d h
    have hsome := statement?_isSome c d (.inner i l cs)
    have hl : ¬ l.isUnit = true := hunits _ (nodes_self _)
    rw [visit, visit, if_neg hl, if_neg hl]
    cases hc : c.statement? (.inner i l cs) with
    | some c' =>
      rw [hc] at hsome hthis
      obtain ⟨d', hd⟩ := Option.isSome_iff_exists.1 hsome.symm
      rw [hd] at hthis ⊢
      exact hthis
    | none =>
      rw [hc] at hsome
      have hd : d.statement? (.inner i l cs) = none :=
        Option.not_isSome_iff_eq_none.1 (by rw [← hsome]; simp)
      rw [hd]
      refine visitAll_keeps cs (fun n hn m hm => ?_) (fun n hn m hm => ?_) h
      · exact hunits m (nodes_trans (nodes_child hn) hm)
      · exact hinv m (nodes_trans (nodes_child hn) hm)

theorem visitAll_keeps : ∀ ns : List Node, (∀ n ∈ ns, ∀ m ∈ n.nodes, ¬ m.label?.any Label.isUnit) →
    (∀ n ∈ ns, ∀ m ∈ n.nodes, ∀ c d, I c d →
      I ((c.statement? m).getD c) ((d.statement? m).getD d)) →
    ∀ {c d}, I c d → I (visitAll false c ns) (visitAll false d ns)
  | [], _, _, _, _, h => h
  | n :: ns, hunits, hinv, c, d, h => by
    refine visitAll_keeps ns (fun m hm => hunits m (by simp [hm])) (fun m hm => hinv m (by simp [hm])) ?_
    exact visit_keeps n (hunits n (by simp)) (hinv n (by simp)) h

end

end Kept

end Collection

/-- There are no units inside anything but a program. -/
theorem Node.Placed.no_unit : ∀ {n : Node}, n.Placed → ¬ n.label?.any Label.isUnit →
    n.label? ≠ some .executableProgram → n.label? ≠ some .program →
    ∀ m ∈ n.nodes, ¬ m.label?.any Label.isUnit := by
  intro n
  induction n using Node.induction with
  | leaf i lx =>
    intro _ hunit _ _ m hm
    obtain rfl := List.mem_singleton.1 hm
    exact hunit
  | inner i l cs ih =>
    intro h hunit hunits hprogram m hm
    rw [Node.nodes, List.mem_cons, mem_nodesOf] at hm
    rcases hm with rfl | ⟨c, hc, hm⟩
    · exact hunit
    · have hplace : ∀ k ∈ Label.placed, c.label? = some k → l ∈ k.places :=
        h.place (nodes_self _) c hc
      refine ih c hc (h.child hc) (fun hunit' => ?_) (fun hlabel => ?_) (fun hlabel => ?_) m hm
      · obtain ⟨k, hlabel, hk⟩ := (Option.any_eq_true _ _).1 hunit'
        cases k with
        | mainProgram | functionSubprogram | subroutineSubprogram | blockDataSubprogram =>
          have hl := hplace _ (by decide) hlabel
          exact hunits (congrArg some (List.mem_singleton.1 hl))
        | _ => cases hk
      · have hl := hplace _ (by decide) hlabel
        exact hprogram (congrArg some (List.mem_singleton.1 hl))
      · exact absurd (hplace _ (by decide) hlabel) (by simp [Label.places])

/-- What the statements of a unit declare, whatever else there is in a program. -/
def Node.declared (unit : Node) : Scope :=
  (Collection.visitAll false (({} : Collection).enterUnit unit) unit.children).table.current.folded

section Units

variable {unit : Node}

theorem unit_no_unit (h : unit.Placed) (hl : unit.label?.any Label.isUnit) :
    ∀ n ∈ unit.children, ∀ m ∈ n.nodes, ¬ m.label?.any Label.isUnit := by
  cases unit with
  | leaf => cases hl
  | inner i l cs =>
    intro n hn
    rcases h.children_unit hl n hn with hbody | hn'
    · refine (h.child hn).no_unit ?_ ?_ ?_ <;> rw [eq_of_beq hbody] <;> simp [Label.isUnit]
    · refine (h.child hn).no_unit (fun hunit => ?_) (hn' _ (by decide)) (hn' _ (by decide))
      obtain ⟨k, hlabel, hk⟩ := (Option.any_eq_true _ _).1 hunit
      cases k with
      | mainProgram | functionSubprogram | subroutineSubprogram | blockDataSubprogram =>
        exact hn' _ (by decide) hlabel
      | _ => cases hk

/-- Two tables in which a unit has been entered alike are alike behind its statements. -/
theorem unit_alike (h : unit.Usual) (hl : unit.label?.any Label.isUnit) {c d : Collection}
    (hcd : c.table.Alike d.table) :
    (Collection.visitAll false c unit.children).table.Alike
      (Collection.visitAll false d unit.children).table := by
  refine Collection.visitAll_keeps (I := fun c d => c.table.Alike d.table) unit.children
    (unit_no_unit h.placed hl) (fun n hn m hm c d hcd => ?_) hcd
  exact Collection.statement?_alike ((h.child hn).node hm).worded hcd

/-- The statements of a unit leave the scopes around and beside it as they are. -/
theorem unit_kin (h : unit.Placed) (hl : unit.label?.any Label.isUnit) {c : Collection}
    (hc : c.table.opened.isSome) : c.table.Kin (Collection.visitAll false c unit.children).table := by
  refine Collection.visitAll_keeps (I := fun d _ => c.table.Kin d.table) unit.children
    (unit_no_unit h hl) (fun n hn m hm d _ hcd => ?_) (d := c) (.refl _)
  cases hstmt : d.statement? m with
  | none => exact hcd
  | some d' => exact hcd.trans (Collection.kin_statement? (by rw [hcd.isSome]; exact hc) hstmt)

/-- A unit that is left has its own scope. -/
theorem exit_declared {t : Table}
    (ht : t.Agrees (Collection.visitAll false (({} : Collection).enterUnit unit) unit.children).table) :
    t.exit.closed.map Scope.folded = t.closed.map Scope.folded ++ [unit.declared] := by
  have hcurrent := ht.current
  obtain ⟨s, _, hs, -, -⟩ := ht
  rw [Table.current, hs] at hcurrent
  show (t.closed ++ t.opened.toList).map Scope.folded = _
  rw [hs, List.map_append, Node.declared, ← hcurrent]
  rfl

end Units

theorem Table.Tidy.empty : Table.empty.Tidy := by
  refine ⟨?_, ⟨?_, ?_⟩, ?_⟩
  all_goals exact fun _ h => nomatch h

namespace Collection

/-! ## Registered units -/

theorem addUnit_frame (c : Collection) (unit : Node) :
    (c.addUnit unit).table.closed = c.table.closed ∧
      (c.addUnit unit).table.opened.isSome = c.table.opened.isSome ∧
      (c.addUnit unit).table.global.implicit = c.table.global.implicit := by
  obtain ⟨hkin, -⟩ := c.header_spelled unit
  have hdefine : ∀ (t : Table) (name : String) (kind : SymbolKind) (type : Option TypeName)
      (params : List String), (t.defineUnit name kind type params).closed = t.closed ∧
        (t.defineUnit name kind type params).opened = t.opened ∧
        (t.defineUnit name kind type params).global.implicit = t.global.implicit := by
    intro t name kind type params
    obtain ⟨more, hspell, -⟩ := t.spell_eq name
    unfold Table.defineUnit
    simp only [hspell]
    refine ⟨rfl, rfl, ?_⟩
    unfold Scope.update Scope.define
    simp only
    split <;> rfl
  rw [addUnit, register_table]
  split
  · exact ⟨hkin.closed, hkin.isSome, by rw [hkin.global]⟩
  · obtain ⟨hclosed, hopened, himplicit⟩ := hdefine (c.header unit).2.table (c.header unit).1.name
      (c.header unit).1.kind (c.header unit).1.type (c.header unit).1.params
    exact ⟨hclosed.trans hkin.closed, by rw [hopened, hkin.isSome],
      himplicit.trans (by rw [hkin.global])⟩

/-- A unit is registered alike in scopes that differ in letter case only. -/
theorem addUnit_folded {c d : Collection} (h : c.table.global.folded = d.table.global.folded)
    (unit : Node) : (c.addUnit unit).table.global.folded = (d.addUnit unit).table.global.folded := by
  obtain ⟨hkin, -⟩ := c.header_spelled unit
  obtain ⟨hkin', -⟩ := d.header_spelled unit
  have hfolded := folded_header c d unit
  simp only [Header.folded, Header.mk.injEq] at hfolded
  obtain ⟨-, hname, htype, hkind, -, hparams⟩ := hfolded
  rw [addUnit, addUnit, register_table, register_table, hname]
  split
  · rw [hkin.global, hkin'.global]
    exact h
  · unfold Table.defineUnit
    simp only
    rw [(Table.Kin.spell _ _).global, (Table.Kin.spell _ _).global, hkin.global, hkin'.global]
    refine Scope.folded_update h ?_ fun a b hab => ?_
    · rw [Table.nameKey_spelling, Table.nameKey_spelling]
    · obtain ⟨hkey, htype', -, hdims, hflags, -⟩ := Symbol.folded_eq_iff.1 hab
      refine Symbol.folded_eq_iff.2 ⟨hkey, ?_, hkind, hdims, hflags, hparams⟩
      rw [htype, htype']

/-! ## Collected units -/

/-- Some units have been collected, and none is open. -/
structure Collected (c : Collection) (units : List Node) : Prop where
  words : c.table.Tidy
  opened : c.table.opened = none
  global : c.table.global.folded = (units.foldl addUnit {}).table.global.folded
  scopes : c.table.closed.map Scope.folded = units.map Node.declared

theorem implicit_units (units : List Node) :
    (units.foldl addUnit {}).table.global.implicit = .default := by
  have hfold : ∀ c : Collection,
      (units.foldl addUnit c).table.global.implicit = c.table.global.implicit := by
    induction units with
    | nil => exact fun _ => rfl
    | cons unit units ih => exact fun c => (ih _).trans (c.addUnit_frame unit).2.2
  exact hfold {}

theorem frame_units (units : List Node) : (units.foldl addUnit {}).table.closed = [] ∧
    (units.foldl addUnit {}).table.opened = none := by
  have hfold : ∀ c : Collection, c.table.closed = [] ∧ c.table.opened = none →
      (units.foldl addUnit c).table.closed = [] ∧ (units.foldl addUnit c).table.opened = none := by
    induction units with
    | nil => exact fun _ h => h
    | cons unit units ih =>
      intro c hc
      obtain ⟨hclosed, hopened, -⟩ := c.addUnit_frame unit
      refine ih _ ⟨hclosed.trans hc.1, Option.not_isSome_iff_eq_none.1 ?_⟩
      rw [hopened, hc.2]
      simp
  exact hfold {} ⟨rfl, rfl⟩

theorem visit_whole (c : Collection) {unit : Node} (h : unit.label?.any Label.isUnit) :
    visit false c unit =
      (visitAll false ((c.addUnit unit).enter (c.header unit).1) unit.children).exitUnit := by
  cases unit with
  | leaf => cases h
  | inner i l cs =>
    have hl : l.isUnit = true := h
    rw [visit, if_pos hl]
    rfl

/-- A unit on its own. -/
theorem own_alike {unit : Node} (h : unit.Worded) {c : Collection} {k : Header}
    (hc : c.table.Tidy) (himplicit : c.table.global.implicit = .default)
    (hfolded : k.folded = (({} : Collection).header unit).1.folded)
    (hwords : Text.Word k.name ∧ ∀ p ∈ k.params, Text.Word p) :
    (c.enter k).table.Alike (({} : Collection).enterUnit unit).table := by
  have hblank : (({} : Collection).header unit).2.table.global.implicit = .default := by
    rw [((({} : Collection).header_spelled unit).1).global]
    rfl
  exact ⟨enter_words hc hwords.1 hwords.2, (enterUnit_words .empty h).1,
    enter_agrees hfolded (himplicit.trans hblank.symm)⟩

theorem Collected.visit {c : Collection} {units : List Node} (hc : c.Collected units) {unit : Node}
    (h : unit.Usual) (hl : unit.label?.any Label.isUnit) :
    (visit false c unit).Collected (units ++ [unit]) := by
  obtain ⟨hclosed, hopened, himplicit⟩ := c.addUnit_frame unit
  have hglobal : c.table.global.implicit = .default := by
    obtain ⟨-, -, -, -, -, hsame⟩ := Scope.folded_eq_iff.1 hc.global
    rw [hsame, implicit_units]
  have hadded : (c.addUnit unit).table.Tidy := addUnit_words hc.words h.worded
  have hown := own_alike h.worded hadded (himplicit.trans hglobal) (folded_header c {} unit)
    (header_words hc.words h.worded).2
  obtain ⟨s, hs⟩ : ∃ s, ((c.addUnit unit).enter (c.header unit).1).table.opened = some s := by
    obtain ⟨s, -, hs, -⟩ := hown.agrees
    exact ⟨s, hs⟩
  have hkin := unit_kin h.placed hl (c := (c.addUnit unit).enter (c.header unit).1) (by rw [hs]; rfl)
  have halike := unit_alike h hl hown
  have hunits : (c.addUnit unit).table.units = c.table.closed := by
    have hnone : (c.addUnit unit).table.opened = none :=
      Option.not_isSome_iff_eq_none.1 (by rw [hopened, hc.opened]; simp)
    rw [Table.units, hnone, hclosed]
    exact List.append_nil _
  rw [visit_whole c hl]
  refine ⟨exitUnit_words halike.left, rfl, ?_, ?_⟩
  · rw [List.foldl_append]
    show (visitAll false _ unit.children).table.global.folded = _
    rw [hkin.global, (enter_frame _ _).2]
    exact addUnit_folded hc.global unit
  · show (visitAll false _ unit.children).table.exit.closed.map Scope.folded = _
    rw [exit_declared halike.agrees, hkin.closed, (enter_frame _ _).1, hunits, hc.scopes, List.map_append]
    rfl

theorem Collected.visitAll {units : List Node}
    (h : ∀ unit ∈ units, unit.Usual ∧ unit.label?.any Label.isUnit) :
    ∀ {c : Collection} {before : List Node}, c.Collected before →
      (visitAll false c units).Collected (before ++ units) := by
  induction units with
  | nil => exact fun hc => (List.append_nil _).symm ▸ hc
  | cons unit units ih =>
    intro c before hc
    obtain ⟨hunit, hl⟩ := h unit (by simp)
    have hall := ih (fun n hn => h n (by simp [hn])) (hc.visit hunit hl)
    rwa [List.append_assoc] at hall

/-- Everything a program declares, unit by unit. -/
theorem collected_tree {root : Node} (h : root.Usual)
    (hroot : root.hasLabel .program ∨ root.hasLabel .loneName)
    (hparts : ∀ n ∈ root.children, n.isLeaf ∨
      n.hasLabel .executableProgram ∧ ∀ unit ∈ n.children, unit.label?.any Label.isUnit) :
    (ofTree false (some root) .empty).Collected root.units := by
  have hwalk : ∀ parts : List Node, (∀ n ∈ parts, n ∈ root.children) → ∀ {c : Collection}
      {before : List Node}, c.Collected before → (Collection.visitAll false c parts).Collected
        (before ++ (parts.filter (·.hasLabel .executableProgram)).flatMap (·.children)) := by
    intro parts
    induction parts with
    | nil => exact fun _ _ _ hc => (List.append_nil _).symm ▸ hc
    | cons part parts ih =>
      intro hmem c before hc
      have hrest : ∀ n ∈ parts, n ∈ root.children := fun n hn => hmem n (by simp [hn])
      rcases hparts part (hmem part (by simp)) with hleaf | ⟨hl, hunits⟩
      · cases part with
        | inner => cases hleaf
        | leaf i lx => exact ih hrest hc
      · cases part with
        | leaf => cases hl
        | inner i l units =>
          obtain rfl : l = .executableProgram := by simpa [Node.hasLabel, Node.label?] using hl
          have hpart := h.child (hmem _ List.mem_cons_self)
          have hthis : (Collection.visitAll false c units).Collected (before ++ units) :=
            hc.visitAll fun unit hunit => ⟨hpart.child hunit, hunits unit hunit⟩
          have hall := ih hrest hthis
          rw [List.filter_cons_of_pos hl, List.flatMap_cons, ← List.append_assoc]
          exact hall
  have hnone : ({} : Collection).Collected [] := ⟨.empty, rfl, rfl, rfl⟩
  have htree : ofTree false (some root) .empty = Collection.visitAll false {} root.children := by
    cases root with
    | leaf => simp [Node.hasLabel, Node.label?] at hroot
    | inner i l cs =>
      refine visit_inner ?_ _
      rcases hroot with hl | hl
      · obtain rfl : l = .program := by simpa [Node.hasLabel, Node.label?] using hl
        simp
      · obtain rfl : l = .loneName := by simpa [Node.hasLabel, Node.label?] using hl
        simp
  rw [htree]
  exact hwalk root.children (fun _ hn => hn) hnone

end Collection

/-! ## Lowered units -/

namespace Lower

/-- The action adds the scopes of some units to the table, between units. -/
def Adds (act : Lower Unit) (units : List Node) : Prop :=
  ∀ s a t, act.run s = .ok (a, t) → Between s → s.collection.table.opened = none →
    s.collection.table.global.implicit = .default →
    Between t ∧ t.collection.table.opened = none ∧
      t.collection.table.global = s.collection.table.global ∧
      t.collection.table.closed.map Scope.folded =
        s.collection.table.closed.map Scope.folded ++ units.map Node.declared

namespace Adds

theorem bind {act : Lower Unit} {f : Unit → Lower Unit} {units more : List Node} (h : Adds act units)
    (h' : ∀ r, Adds (f r) more) : Adds (act >>= f) (units ++ more) := by
  intro s b u hrun hs hopened himplicit
  obtain ⟨a, t, hact, hrest⟩ := run_bind_inv hrun
  obtain ⟨ht, htopened, htglobal, htclosed⟩ := h s a t hact hs hopened himplicit
  obtain ⟨hu, huopened, huglobal, huclosed⟩ :=
    h' a t b u hrest ht htopened (by rw [htglobal]; exact himplicit)
  refine ⟨hu, huopened, huglobal.trans htglobal, ?_⟩
  rw [huclosed, htclosed, List.append_assoc, List.map_append]

/-- Names may be spelled between units. -/
theorem of_spells {act : Lower Unit} {post : Unit → Prop} (hbetween : Ensures Between act fun _ => True)
    (h : Spells ⟨.empty, fun _ => false⟩ .recorded True act post) : Adds act [] := by
  intro s a t hrun hs hopened _
  obtain ⟨more, hmore⟩ := (h s a t hrun).1
  obtain ⟨ht, -⟩ := hbetween s hs a t hrun
  rw [hmore]
  exact ⟨ht, hopened, rfl, (List.append_nil _).symm⟩

end Adds

variable {wide : Prop}

theorem adds_programUnit {unit : Node} (h : unit.Usual) (hl : unit.label?.any Label.isUnit)
    (hsound : unit.Sound wide) : Adds (programUnit unit) [unit] := by
  intro s a w hrun hs hopened himplicit
  obtain ⟨u, t, v, -, hreports, -, hparts, hpasses, hrun'⟩ := programUnit_run hsound s
  obtain ⟨-, rfl⟩ := Prod.mk.inj (Except.ok.inj (hrun'.symm.trans hrun))
  obtain ⟨hleft, -⟩ := neat_programUnit h.worded s hs _ _ hrun
  have htable : t.collection = s.collection := by
    obtain ⟨_, _, rfl, -⟩ := hreports
    rfl
  obtain ⟨hkin, -⟩ := s.collection.header_spelled unit
  have hown : (t.entered unit u).collection.table.Alike (({} : Collection).enterUnit unit).table := by
    have hheader := Collection.header_words hs.unit.table h.worded
    have hrules : (s.collection.header unit).2.table.global.implicit = .default := by
      rw [hkin.global]
      exact himplicit
    show (t.collection.enterUnit unit).table.Alike _
    rw [htable]
    exact Collection.own_alike h.worded hheader.1 hrules (Collection.folded_header _ _ unit) hheader.2
  have hchildren : ∀ n ∈ unit.children, n.hasLabel .body ∨ n.Unplaced := by
    cases unit with
    | leaf => cases hl
    | inner => exact h.placed.children_unit hl
  have htracks := (tracks_parts unit (fun n hn => h.child hn) hchildren _ _ _ hparts).2
    hleft.unit.table.spellings _ hown
  refine ⟨hleft, rfl, ?_, ?_⟩
  · show v.collection.table.global = _
    rw [hpasses.table.global, (t.entered_open unit u).2, htable]
  · show v.collection.table.exit.closed.map Scope.folded = _
    have hclosed : (t.entered unit u).collection.table.closed = s.collection.table.closed := by
      show ((t.collection.header unit).2.enter (t.collection.header unit).1).table.closed = _
      rw [(Collection.enter_frame _ _).1, htable, Table.units, hkin.closed]
      have hnone : (s.collection.header unit).2.table.opened = none :=
        Option.not_isSome_iff_eq_none.1 (by rw [hkin.isSome, hopened]; simp)
      rw [hnone]
      exact List.append_nil _
    rw [exit_declared htracks.agrees, hpasses.table.closed, hclosed]
    rfl

theorem adds_programUnits {units : List Node} (h : ∀ unit ∈ units, unit.Usual)
    (hl : ∀ unit ∈ units, unit.label?.any Label.isUnit) (hsound : ∀ unit ∈ units, unit.Sound wide) :
    Adds (programUnits units) units := by
  induction units with
  | nil => exact .of_spells (.pure trivial) .skip
  | cons unit units ih =>
    have hunit := adds_programUnit (h unit (by simp)) (hl unit (by simp)) (hsound unit (by simp))
    have hrest := ih (fun n hn => h n (by simp [hn])) (fun n hn => hl n (by simp [hn]))
      (fun n hn => hsound n (by simp [hn]))
    cases units with
    | nil => exact hunit
    | cons next units =>
      refine hunit.bind fun _ => ?_
      intro s a t hrun hs hopened himplicit
      exact hrest { s with lines := .gap :: s.lines } a t hrun ⟨hs.unit, List.forall_mem_cons.2 ⟨trivial, hs.lines⟩⟩ hopened himplicit

/-- The order in which units are lowered. -/
def ordered (units : List Node) : List Node :=
  (units.partition (·.hasLabel .mainProgram)).2 ++ (units.partition (·.hasLabel .mainProgram)).1

theorem ordered_perm (units : List Node) : (ordered units).Perm units := by
  rw [ordered, List.partition_eq_filter_filter]
  exact List.perm_append_comm.trans (List.filter_append_perm _ _)

theorem adds_sourcePart {root part : Node} (h : root.Usual)
    (hroot : root.hasLabel .program ∨ root.hasLabel .loneName) (hsound : root.Sound wide)
    (hpart : part ∈ root.children) (hparts : part.isLeaf ∨
      part.hasLabel .executableProgram ∧ ∀ unit ∈ part.children, unit.label?.any Label.isUnit) :
    Adds (sourcePart part) (if part.hasLabel .executableProgram then ordered part.children else []) := by
  have hbetween := neat_sourcePart h.worded hroot hpart
  rcases hparts with hleaf | ⟨hl, hunits⟩
  · cases part with
    | inner => cases hleaf
    | leaf i lx =>
      have hspells : Spells ⟨.empty, fun _ => false⟩ .recorded True (sourcePart (.leaf i lx))
          fun _ => True := by
        unfold sourcePart
        simp only
        split
        · exact spells_comment _
        · exact spells_lone (fun _ => rfl) _
        · exact spells_lone (fun _ => rfl) _
        · exact .skip
      exact .of_spells hbetween hspells
  · cases part with
    | leaf => cases hl
    | inner i l units =>
      obtain rfl : l = .executableProgram := by simpa [Node.hasLabel, Node.label?] using hl
      have hpart' := h.child hpart
      have hall : ∀ unit ∈ ordered units, unit ∈ units := fun unit hunit => mem_ordered.1 hunit
      have hadds := adds_programUnits (fun unit hunit => hpart'.child (hall unit hunit))
        (fun unit hunit => hunits unit (hall unit hunit))
        (fun unit hunit => (hsound.child hpart).child (hall unit hunit))
      intro s a t hrun hs hopened himplicit
      exact hadds { s with blockData := blockDataKeys units ++ s.blockData } a t hrun
        ⟨hs.unit, hs.lines⟩ hopened himplicit

theorem adds_sources {root : Node} (h : root.Usual)
    (hroot : root.hasLabel .program ∨ root.hasLabel .loneName) (hsound : root.Sound wide)
    (hparts : ∀ n ∈ root.children, n.isLeaf ∨
      n.hasLabel .executableProgram ∧ ∀ unit ∈ n.children, unit.label?.any Label.isUnit) :
    ∃ units, units.Perm root.units ∧ Adds (root.children.forM sourcePart) units := by
  have hall : ∀ parts : List Node, (∀ n ∈ parts, n ∈ root.children) → ∃ units, units.Perm
      ((parts.filter (·.hasLabel .executableProgram)).flatMap (·.children)) ∧
        Adds (parts.forM sourcePart) units := by
    intro parts
    induction parts with
    | nil =>
      intro _
      exact ⟨[], .refl _, .of_spells (.pure trivial) .skip⟩
    | cons part parts ih =>
      intro hmem
      have hpart := hmem part (by simp)
      obtain ⟨units, hperm, hadds⟩ := ih fun n hn => hmem n (by simp [hn])
      have hthis := adds_sourcePart h hroot hsound hpart (hparts part hpart)
      refine ⟨_, ?_, hthis.bind fun _ => hadds⟩
      by_cases hl : part.hasLabel .executableProgram
      · rw [if_pos hl, List.filter_cons_of_pos hl, List.flatMap_cons]
        exact (ordered_perm part.children).append hperm
      · rw [if_neg hl, List.filter_cons_of_neg hl]
        exact hperm
  exact hall root.children fun _ hn => hn

end Lower

/-! ## Main statement -/

/-- The table that a lowering leaves and the table of everything that a program declares hold the same
global symbols and, in some order, the same scopes of units, up to letter case; in both no unit is left
open. -/
theorem symbols_agree {source : String} {o : Options} {p q : Parser} {root : Node}
    (hp : Parser.start? o.source (scan source) = some p) (hq : p.parse = .ok (.ok root, q))
    (hfunctions : ∀ n ∈ root.nodes, ¬ n.hasLabel .stmtFunctionStmt) :
    ∃ text g, (Generator.start root o).run (some root) = .ok (text, g) ∧
      let lowered := g.state.collection.table
      let collected := (Collection.ofTree false (some root) .empty).table
      lowered.global.folded = collected.global.folded ∧
      (lowered.units.map Scope.folded).Perm (collected.units.map Scope.folded) ∧
      lowered.opened = none ∧ collected.opened = none := by
  have hsound : root.Sound True := fun n hn => ⟨parse_indexable hp hq hn, fun _ => trivial⟩
  have husual : root.Usual := ⟨parse_worded hp hq, parse_placed hp hq, hfunctions⟩
  obtain ⟨hroot, hparts⟩ := parse_program hp hq
  obtain ⟨s, hrun, hlowered⟩ := Generator.run_lines hsound o
  have hcollected := Collection.collected_tree husual hroot hparts
  obtain ⟨units, hperm, hadds⟩ := Lower.adds_sources husual hroot hsound hparts
  have hstart : (Generator.start root o).state.collection.table =
      (root.units.foldl Collection.addUnit {}).table := by
    rw [← Collection.ofTree_units hroot hparts]
    rfl
  obtain ⟨hclosed, hopened⟩ := Collection.frame_units root.units
  have hbetween := Lower.start_between husual.worded hroot hparts o
  obtain ⟨-, hsopened, hsglobal, hsclosed⟩ := hadds _ _ s hlowered hbetween (by rw [hstart, hopened])
    (by rw [hstart]; exact Collection.implicit_units root.units)
  refine ⟨_, _, hrun, ?_, ?_, hsopened, hcollected.opened⟩
  · show s.collection.table.global.folded = _
    rw [hsglobal, hstart]
    exact hcollected.global.symm
  · show (s.collection.table.units.map Scope.folded).Perm _
    rw [Table.units, Table.units, hsopened, hcollected.opened]
    simp only [Option.toList_none, List.append_nil]
    rw [hsclosed, hstart, hclosed, hcollected.scopes]
    exact hperm.map _

/-- A main program is lowered behind the subroutine that follows it, and spells a name of it first. -/
theorem symbols_agree_reordered : ∃ p q root text g,
    Parser.start? "" (scan "x=1\nEND\nSUBROUTINE S(y)\nDIMENSION X(2)\nX(1)=Y\nEND") = some p ∧
    p.parse = .ok (.ok root, q) ∧
    root.units.map (·.label?) = [some .mainProgram, some .subroutineSubprogram] ∧
    (∀ n ∈ root.nodes, ¬ n.hasLabel .stmtFunctionStmt) ∧
    (Generator.start root {}).run (some root) = .ok (text, g) ∧
    let lowered := g.state.collection.table
    let collected := (Collection.ofTree false (some root) .empty).table
    lowered.global.folded = collected.global.folded ∧
    (lowered.units.map Scope.folded).Perm (collected.units.map Scope.folded) ∧
    lowered.opened = none ∧ collected.opened = none := by
  have hstart := start_scan "" "x=1\nEND\nSUBROUTINE S(y)\nDIMENSION X(2)\nX(1)=Y\nEND"
  have hok : ((Parser.matched? { source := "", tokens :=
      (scan "x=1\nEND\nSUBROUTINE S(y)\nDIMENSION X(2)\nX(1)=Y\nEND").toArray }).any fun root =>
        root.units.map (·.label?) == [some .mainProgram, some .subroutineSubprogram] &&
          root.nodes.all fun n => !n.hasLabel .stmtFunctionStmt) = true := by
    rw [scan_within]
    decide +kernel
  obtain ⟨root, hmatched, hroot⟩ := (Option.any_eq_true _ _).1 hok
  simp only [Bool.and_eq_true, List.all_eq_true, beq_iff_eq, Bool.not_eq_true'] at hroot
  obtain ⟨hunits, hnone⟩ := hroot
  obtain ⟨q, hq⟩ := parse_of_match (Parser.start_sound hstart) hmatched
  have hfunctions : ∀ n ∈ root.nodes, ¬ n.hasLabel .stmtFunctionStmt :=
    fun n hn => by simp [hnone n hn]
  obtain ⟨text, g, hrun, hagree⟩ := symbols_agree (o := {}) hstart hq hfunctions
  exact ⟨_, q, root, text, g, hstart, hq, hunits, hfunctions, hrun, hagree⟩

end FortranJulia
