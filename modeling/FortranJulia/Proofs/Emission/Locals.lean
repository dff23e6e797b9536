import FortranJulia.Proofs.Emission.References
import FortranJulia.Proofs.Lowering.Blocks
import FortranJulia.Proofs.Lowering.Openings

/-!
Variables of routines. A name that a statement of a function or subroutine gives a value, wherever it stands,
is bound before the first executable statement: by the first line, by the result of a function, by a
specification or by a zero of its type. So no variable is first bound inside a block, where its value would be
lost behind the block.
-/

namespace FortranJulia

set_option autoImplicit false

open Julia (Expr Binding Code Line)

/-! ## Names that need values -/

/-- The statement gives the name a value: it is assigned to, read or passed to a subroutine. -/
def Node.Gives (n : Node) (x : String) : Prop :=
  (n.hasLabel .assignmentStmt ∧ ∃ v, n.child? .variableRef = some v ∧
    Lower.isPlain v ∧ nameKey v.text = nameKey x) ∨
  (n.hasLabel .readStmt ∧ ∃ items ∈ n.findAll .inputItemList, ∃ v ∈ items.childrenWith .variableRef,
    Lower.isPlain v ∧ nameKey v.text = nameKey x) ∨
  n.hasLabel .callStmt ∧ ∃ arg ∈ Lower.grandchildren n .subroutineArgList, arg.hasLabel .subroutineArg ∧
    ∃ y, Lower.argumentName? arg = some y ∧ nameKey y = nameKey x

namespace Lower

/-- Of names that are written alike one is kept. -/
theorem distinctNames_keys {names : List String} {x : String} (hx : x ∈ names) :
    nameKey x ∈ (distinctNames names).map nameKey := by
  have hfold : ∀ kept : List String, nameKey x ∈ kept.map nameKey ∨ x ∈ names →
      nameKey x ∈ (names.foldl (fun kept n =>
        if kept.any (nameKey · == nameKey n) then kept else n :: kept) kept).map nameKey := by
    clear hx
    induction names with
    | nil => exact fun kept h => h.resolve_right (by simp)
    | cons n names ih =>
      intro kept h
      rw [List.foldl_cons]
      refine ih _ ?_
      rw [List.mem_cons] at h
      split
      · rename_i hkept
        obtain ⟨y, hy, hkey⟩ := List.any_eq_true.1 hkept
        rcases h with h | rfl | h
        · exact .inl h
        · exact .inl (List.mem_map.2 ⟨y, hy, eq_of_beq hkey⟩)
        · exact .inr h
      · rcases h with h | rfl | h
        · exact .inl (List.mem_cons_of_mem _ h)
        · exact .inl List.mem_cons_self
        · exact .inr h
  rw [distinctNames, List.map_reverse, List.mem_reverse]
  exact hfold [] (.inr hx)

/-- What a statement of a routine gives a value is one of the local variables. -/
theorem localNames_keys {whole stmt : Node} {x : String} (hstmt : stmt ∈ whole.nodes) (hx : stmt.Gives x)
    {u : UnitState} (hroutine : u.isGlobal = false) :
    nameKey x ∈ (localNames whole u).map nameKey := by
  have hkept : ∀ {y : String}, y ∈ assignedNames whole ++ passedNames whole → nameKey y = nameKey x →
      nameKey x ∈ (localNames whole u).map nameKey := by
    intro y hy hkey
    rw [← hkey, localNames, hroutine]
    exact distinctNames_keys hy
  have hassigned : ∀ {v : Node}, v ∈ (whole.findAll .assignmentStmt).filterMap (·.child? .variableRef) ++
      (whole.findAll .inputItemList).flatMap (·.childrenWith .variableRef) → isPlain v →
      nameKey v.text = nameKey x → nameKey x ∈ (localNames whole u).map nameKey := fun hv hplain hkey =>
    hkept (List.mem_append_left _ (List.mem_map_of_mem (List.mem_filter.2 ⟨hv, hplain⟩))) hkey
  rcases hx with ⟨hl, v, hv, hplain, hkey⟩ | ⟨-, items, hitems, v, hv, hplain, hkey⟩ |
    ⟨hl, arg, harg, harglabel, y, hy, hkey⟩
  · exact hassigned (List.mem_append_left _ (List.mem_filterMap.2 ⟨stmt, List.mem_filter.2 ⟨hstmt, hl⟩, hv⟩))
      hplain hkey
  · obtain ⟨hnode, hlist⟩ := List.mem_filter.1 hitems
    exact hassigned (List.mem_append_right _ (List.mem_flatMap.2
      ⟨items, List.mem_filter.2 ⟨nodes_trans hstmt hnode, hlist⟩, hv⟩)) hplain hkey
  · refine hkept (List.mem_append_right _ (List.mem_flatMap.2 ⟨stmt, List.mem_filter.2 ⟨hstmt, hl⟩, ?_⟩)) hkey
    exact List.mem_filterMap.2 ⟨arg, List.mem_filter.2 ⟨harg, harglabel⟩, hy⟩

end Lower

/-- A name that is known in the global scope of a program is that of a unit. -/
theorem Collection.units_get? {units : List Node} {x : String} : ∀ {c : Collection},
    ((units.foldl addUnit c).table.global.get? x).isSome →
    (c.table.global.get? x).isSome ∨ ∃ unit ∈ units, nameKey unit.unitName = nameKey x := by
  induction units with
  | nil => exact fun h => .inl h
  | cons unit units ih =>
    intro c h
    obtain ⟨y, -, -, hget⟩ := c.addUnit_get? unit
    rcases ih h with h | ⟨other, hother, hkey⟩
    · rw [hget] at h
      split at h
      · rename_i hname
        exact .inr ⟨unit, List.mem_cons_self, hname.1.symm⟩
      · exact .inl h
    · exact .inr ⟨other, List.mem_cons_of_mem _ hother, hkey⟩

/-! ## Routines -/

namespace Lower

/-- A routine of which the specifications `front` have been lowered: behind its first line stand lines that
bind the names beside them, and all that its PARAMETER and COMMON statements list is listed in `front`. -/
structure Opening (run : Visit) (front : List Visit) (u v : LowerState) (own : List (Line × List String)) :
    Prop where
  opened : u.collection.table.opened.isSome
  global : u.collection.table.global = run.state.collection.table.global
  fresh : u.collection.table.current.Fresh
  formals : u.collection.table.current.formals.map nameKey = run.node.formalNames.map nameKey
  spelled : ∀ x ∈ u.collection.table.current.formals, (u.collection.table.spelling? x).isSome
  depth : u.depth = run.state.depth + 1
  lines : ∃ f, u.lines = .code run.state.depth (.functionHead f
    (u.collection.table.current.formals.map u.variableName)) :: run.state.lines
  kind : u.unit.kind = run.node.label?.getD .program
  name : nameKey u.unit.name = nameKey run.node.unitName
  routine : u.unit.isGlobal = false
  unnoted : u.unit.declared = [] ∧ u.unit.arrays = [] ∧ u.unit.localsDone = false
  params : u.unit.params = keysOf run.node .namedConstantDef
  common : u.unit.common = keysOf run.node .commonBlockObject
  locals : u.unit.locals = localNames run.node u.unit
  introduces : Introduces (front.map (·.node)) u v own
  told : Told (front.map (·.node)) v own
  result : u.unit.kind = .functionSubprogram → nameKey u.unit.name ∈ boundKeys own
  constants : ∀ k ∈ run.node.nodes, k.hasLabel .namedConstantDef →
    ∃ f ∈ front, f.node.hasLabel .parameterStmt ∧ k ∈ f.node.nodes
  commons : ∀ k ∈ run.node.nodes, k.hasLabel .commonBlockObject →
    ∃ f ∈ front, f.node.hasLabel .commonStmt ∧ k ∈ f.node.nodes

namespace Opening

variable {run : Visit} {front : List Visit} {u v : LowerState} {own : List (Line × List String)}
  {x : String}

theorem ready (h : Opening run front u v own) : u.Ready :=
  ⟨h.opened, h.fresh.keyed⟩

/-- The name is that of a dummy argument, or one of the lines binds it. -/
def Binds (u : LowerState) (own : List (Line × List String)) (x : String) : Prop :=
  nameKey x ∈ u.collection.table.current.formals.map nameKey ++ boundKeys own

theorem constant_bound (h : Opening run front u v own) (hx : nameKey x ∈ v.unit.params) : Binds u own x := by
  rw [h.introduces.unit_eq.2.2.1, h.params] at hx
  obtain ⟨k, hk, hkey⟩ := List.mem_map.1 hx
  obtain ⟨hnode, hlabel⟩ := List.mem_filter.1 hk
  obtain ⟨f, hf, hl, hin⟩ := h.constants k hnode hlabel
  exact List.mem_append_right _ (h.told.constant f.node (List.mem_map_of_mem hf) x
    ⟨hl, k, List.mem_filter.2 ⟨hin, hlabel⟩, hkey⟩)

theorem shared_bound (h : Opening run front u v own) {n : Node} (hn : n ∈ front.map (·.node))
    (hx : n.Lists .commonStmt .commonBlockObject x) : Binds u own x :=
  List.mem_append_right _ ((h.told.shared n hn x hx).2 (h.introduces.isGlobal.trans h.routine))

theorem common_bound (h : Opening run front u v own) (hx : nameKey x ∈ v.unit.common) : Binds u own x := by
  rw [h.introduces.unit_eq.2.2.2.2.2.1, h.common] at hx
  obtain ⟨k, hk, hkey⟩ := List.mem_map.1 hx
  obtain ⟨hnode, hlabel⟩ := List.mem_filter.1 hk
  obtain ⟨f, hf, hl, hin⟩ := h.commons k hnode hlabel
  exact h.shared_bound (List.mem_map_of_mem hf) ⟨hl, k, List.mem_filter.2 ⟨hin, hlabel⟩, hkey⟩

theorem formal_bound (h : Opening run front u v own) (hx : (v.symbol x).flags.formal) : Binds u own x := by
  rw [(h.introduces.symbol h.ready x).formal] at hx
  exact List.mem_append_left _ ((h.fresh.formal x).1 hx)

theorem marked_bound (h : Opening run front u v own) (hx : (v.symbol x).flags.common) : Binds u own x := by
  rcases (h.introduces.symbol h.ready x).shared hx with hx | ⟨n, hn, hlists⟩
  · exact absurd hx (by rw [LowerState.symbol, (h.fresh.plain x).common]; simp)
  · exact h.shared_bound hn hlists

theorem result_bound (h : Opening run front u v own) (hx : v.isResult x) : Binds u own x := by
  obtain ⟨hname, hkind, -⟩ := h.introduces.unit_eq
  rw [LowerState.isResult, hname, hkind, Bool.and_eq_true] at hx
  rw [Binds, eq_of_beq hx.2]
  exact List.mem_append_right _ (h.result (eq_of_beq hx.1))

theorem noted_bound (h : Opening run front u v own) (hx : v.Noted x) : Binds u own x := by
  obtain ⟨names, arrays, hunit, hkeys⟩ := h.introduces.unit
  rw [LowerState.Noted, hunit] at hx
  simp only [h.unnoted.1, h.unnoted.2.1, List.append_nil] at hx
  exact List.mem_append_right _ (hkeys _ hx)

/-- An array gets a value where it is declared, or it is bound otherwise, or its size is not known. -/
theorem array_bound (h : Opening run front u v own) {n : Node} (hn : n ∈ front.map (·.node))
    (hx : n.Dimensions x) :
    Binds u own x ∨ n.AssumesSize x := by
  rcases h.told.dimensioned n hn x hx with hnoted | hexcepted | hsize
  · exact .inl (h.noted_bound hnoted)
  · cases hexcepted with
    | formal hx => exact .inl (h.formal_bound hx)
    | result hx => exact .inl (h.result_bound hx)
    | constant hx => exact .inl (h.constant_bound hx)
    | common hx => exact .inl (h.common_bound hx)
    | shared hx => exact .inl (h.marked_bound hx)
  · exact .inr hsize

/-- A name that needs no zero is bound, or it is that of a procedure or of an array without a size. -/
theorem accounted (h : Opening run front u v own) (hx : v.Accounts x) :
    Binds u own x ∨ (∃ f ∈ front, f.node.MakesProcedure x ∨ f.node.AssumesSize x) ∨
      (run.state.collection.table.global.get? x).isSome := by
  have hsymbol := h.introduces.symbol h.ready x
  obtain ⟨hcommon, hparameter, harray, hcalled⟩ := h.fresh.plain x
  cases hx with
  | declared hx => exact .inl (h.noted_bound (List.mem_append_left _ hx))
  | constant hx => exact .inl (h.constant_bound hx)
  | formal hx => exact .inl (h.formal_bound hx)
  | common hx => exact .inl (h.marked_bound hx)
  | result hx => exact .inl (h.result_bound hx)
  | array hx =>
    rcases hsymbol.dimensioned hx with hx | ⟨n, hn, w, hdims, hkey⟩
    · exact absurd hx (by rw [LowerState.symbol, harray]; simp)
    · rcases h.array_bound hn hdims with hbound | ⟨decl, hdecl, hdeclkey, hsize⟩
      · rw [Binds, ← hkey]
        exact .inl hbound
      · obtain ⟨f, hf, rfl⟩ := List.mem_map.1 hn
        exact .inr (.inl ⟨f, hf, .inr ⟨decl, hdecl, hdeclkey.trans hkey, hsize⟩⟩)
  | parameter hx =>
    rcases hsymbol.constant hx with hx | ⟨n, hn, hlists⟩
    · exact absurd hx (by rw [LowerState.symbol, hparameter]; simp)
    · exact .inl (List.mem_append_right _ (h.told.constant n hn x hlists))
  | callable hx =>
    rcases hsymbol.called hx with hx | ⟨n, hn, hmakes⟩
    · exact absurd hx (by rw [LowerState.symbol, hcalled]; simp)
    · obtain ⟨f, hf, rfl⟩ := List.mem_map.1 hn
      exact .inr (.inl ⟨f, hf, .inl hmakes⟩)
  | procedure hx =>
    obtain ⟨y, hy, -⟩ := (Option.any_eq_true _ _).1 hx
    rw [h.introduces.kin.global, h.global] at hy
    exact .inr (.inr (by rw [hy]; rfl))

/-- A name that is bound needs no zero. -/
theorem accounts (h : Opening run front u v own) (hx : Binds u own x) : v.Accounts x := by
  rcases List.mem_append.1 hx with hx | hx
  · refine .formal ?_
    rw [(h.introduces.symbol h.ready x).formal]
    exact (h.fresh.formal x).2 hx
  · exact h.introduces.accounts x hx

end Opening

end Lower

/-! ## Main statement -/

/-- Why no line of a routine need bind a name: it is that of a program unit, or a statement in front makes it
that of a procedure or of an array that is no dummy argument and whose size is not known. -/
inductive Visit.Exempts (run : Visit) (root : Node) (front : List Visit) (x : String) : Prop
  | unit {unit : Node} (h : unit ∈ root.units) (name : nameKey unit.unitName = nameKey x)
  | procedure {f : Visit} (h : f ∈ front) (made : f.node.MakesProcedure x)
  | array {f : Visit} (h : f ∈ front) (size : f.node.AssumesSize x)
    (free : nameKey x ∉ run.node.formalNames.map nameKey)

namespace Lower

variable {wide : Prop} {run e : Visit} {front rest : List Visit}

/-- The specifications of a routine are lowered behind its first line. -/
theorem routine_opening (hsound : run.node.Sound wide) (hdecl : run.node.Declarative) {l : Label}
    (hl : l = .functionSubprogram ∨ l = .subroutineSubprogram) (hlabel : run.node.label? = some l)
    {head body : Option Node} {last : Node} (hparts : UnitParts l run.node.children head body last)
    (hsplit : unitEntries run = front ++ e :: rest) (hfront : ∀ f ∈ front, f.isSpecification)
    (hconstants : ∀ k ∈ run.node.nodes, k.hasLabel .namedConstantDef →
      ∃ f ∈ front, f.node.hasLabel .parameterStmt ∧ k ∈ f.node.nodes)
    (hcommons : ∀ k ∈ run.node.nodes, k.hasLabel .commonBlockObject →
      ∃ f ∈ front, f.node.hasLabel .commonStmt ∧ k ∈ f.node.nodes) :
    ∃ u own, Opening run front u e.state own ∧
      (e.isSpecification = false → ∀ f ∈ rest, f.state.unit.localsDone) := by
  obtain ⟨w, s, -, hreports, hsurveyed, hentries⟩ := unitEntries_body hsound hparts
  have hopen := (s.entered_open run.node w).1
  have hready := s.entered_ready run.node w
  obtain ⟨u, starting, hheaded, hstart, hresult, hstartOpen⟩ :=
    @routine_start l run.node _ _ _ _ hl hparts _ hopen hready
  have hstartReady := hstart.ready (hheaded.ready hready)
  cases body with
  | none =>
    rw [hentries] at hsplit
    exact absurd hsplit (by simp)
  | some n =>
    rw [hentries] at hsplit
    have hn : n ∈ run.node.children := by rw [hparts.children]; simp
    have hstmts : ∀ m ∈ n.children, m.Sound wide ∧ m.Declarative := fun m hm =>
      ⟨(hsound.child hn).child hm, hdecl.node (nodes_trans (nodes_child hn) (nodes_child hm))⟩
    have hloops := hstart.unit_eq.2.2.2.1.trans
      ((congrArg UnitState.loops hheaded.unit).trans hsurveyed.loops)
    obtain ⟨own, hown, htold, hdone⟩ := opening hstmts hstartOpen hstartReady hloops hsplit hfront
    have hsame : (s.entered run.node w).lines = run.state.lines ∧
        (s.entered run.node w).depth = run.state.depth ∧
        s.collection.table.global = run.state.collection.table.global := by
      obtain ⟨_, _, rfl, -⟩ := hreports
      exact ⟨rfl, rfl, rfl⟩
    have hkind : (s.entered run.node w).unit.kind = l := by
      show w.kind = l
      rw [hsurveyed.kind, hlabel]
      rfl
    have hwritten : ∀ x ∈ (s.entered run.node w).collection.table.current.formals,
        u.variableName x = (s.entered run.node w).variableName x := fun x hx =>
      variableName_kept hheaded.kin (congrArg UnitState.name hheaded.unit)
        (congrArg UnitState.kind hheaded.unit) (hopen.spelled x (List.mem_cons_of_mem _ hx))
    refine ⟨u, starting ++ own, ?_, hdone⟩
    exact {
      opened := (hheaded.ready hready).opened
      global := hheaded.kin.global.trans ((s.entered_open run.node w).2.trans hsame.2.2)
      fresh := by
        rw [hheaded.current]
        exact s.collection.enterUnit_fresh run.node
      formals := by
        rw [hheaded.current]
        exact s.entered_formals hl hlabel hparts w
      spelled := by
        intro x hx
        rw [hheaded.current] at hx
        exact hheaded.kin.spelled (hopen.spelled x (List.mem_cons_of_mem _ hx))
      depth := by rw [hheaded.depth, hsame.2.1]
      lines := by
        obtain ⟨f, hf⟩ := hheaded.lines
        refine ⟨f, ?_⟩
        rw [hf, hsame.1, hsame.2.1, hheaded.current, List.map_congr_left hwritten]
      kind := by
        rw [hheaded.unit]
        exact hsurveyed.kind
      name := by
        rw [hheaded.unit]
        exact s.entered_name run.node w
      routine := by
        rw [hheaded.unit, UnitState.isGlobal, hkind]
        rcases hl with rfl | rfl <;> rfl
      unnoted := by
        rw [hheaded.unit]
        exact hsurveyed.fresh
      params := by
        rw [hheaded.unit]
        exact hsurveyed.params
      common := by
        rw [hheaded.unit]
        exact hsurveyed.common
      locals := by
        rw [hheaded.unit]
        exact hsurveyed.locals
      introduces := (hstart.mono (by simp)).trans (hheaded.ready hready) hown
      told := htold.behind starting
      result := by
        rw [hheaded.unit, boundKeys_append]
        exact fun hfunction => List.mem_append_left _ (hresult hfunction)
      constants := hconstants
      commons := hcommons }

end Lower

/-- If the COMMON and PARAMETER statements of a function or subroutine stand before its first executable
statement, then every name that a statement of it gives a value is bound before the code of that statement:
by the first line of the routine, by a line behind it or by a zero. No name that is bound already gets a zero,
none gets two, and before the other statements of the routine only marks of labels are written. -/
theorem routines_bind_locals {source : String} {o : Options} {p q : Parser} {root : Node}
    (hp : Parser.start? o.source (scan source) = some p) (hq : p.parse = .ok (.ok root, q)) :
    ∃ lines g, (Generator.start root o).run (some root) =
        .ok (o.header ++ Line.render o.indentation lines, g) ∧
      let runs := Lower.sourceRuns root.children (Generator.start root o).state
      (∀ unit ∈ root.units, ∃ run ∈ runs, run.node = unit) ∧
      ∀ run ∈ runs, run.node.hasLabel .functionSubprogram ∨ run.node.hasLabel .subroutineSubprogram →
        ∀ front e rest, Lower.unitEntries run = front ++ e :: rest →
        (∀ f ∈ front, f.isSpecification) → e.isSpecification = false →
        (∀ stmt ∈ run.node.nodes, stmt.hasLabel .commonStmt ∨ stmt.hasLabel .parameterStmt →
          ∃ f ∈ front, f.node = stmt) →
        ∃ (f : String) (formals : List String) (t : LowerState) (decls : List (Line × List String))
            (given : List String) (marks : List Line),
          e.state.lines = (.code run.state.depth (.functionHead f (formals.map t.variableName)) ::
            decls.map Prod.fst).reverse ++ run.state.lines ∧
          Wrote lines (Lower.before e.node) e.state t ((t.zeros given).map Prod.fst ++ marks) ∧
          t.depth = run.state.depth + 1 ∧
          formals.map nameKey = run.node.formalNames.map nameKey ∧
          (∀ b ∈ decls ++ t.zeros given, t.Binds t.depth b.1 b.2) ∧
          (run.node.hasLabel .functionSubprogram → nameKey run.node.unitName ∈ boundKeys decls) ∧
          (∀ stmt ∈ run.node.nodes, ∀ x, stmt.Gives x → ¬ run.Exempts root front x →
            nameKey x ∈ formals.map nameKey ++ boundKeys decls ++ given.map nameKey) ∧
          (given.map nameKey).Nodup ∧
          (∀ x ∈ given, nameKey x ∉ formals.map nameKey ++ boundKeys decls) ∧
          (∀ l ∈ marks, ∃ w, l = .code t.depth (.label w)) ∧
          ∀ f ∈ front ++ rest, ∃ u own, Wrote lines (Lower.before f.node) f.state u own ∧
            ∀ l ∈ own, ∃ d w, l = .code d (.label w) := by
  have hsound : root.Sound True := fun n hn => ⟨parse_indexable hp hq hn, fun _ => trivial⟩
  obtain ⟨hroot, hprograms⟩ := parse_program hp hq
  obtain ⟨s, hrun, hlowered⟩ := Generator.run_lines hsound o
  have hruns := (Lower.runs_sources (fun n hn => hsound.child hn)
    (Generator.start root o).state).of_run hlowered
  refine ⟨_, _, hrun, ?_, fun run hmem hroutine front e rest hsplit hfront hspec hlisted => ?_⟩
  · intro unit hunit
    obtain ⟨n, hn, hprogram, hmem⟩ := mem_units.1 hunit
    exact Lower.sourceRuns_nodes hn hprogram hmem _
  obtain ⟨hunit, hwithin⟩ := hruns run hmem
  have hnode := units_nodes (mem_units.2 hunit)
  have hrunSound := hsound.node hnode
  obtain ⟨l, hl, hlabel⟩ : ∃ l, (l = .functionSubprogram ∨ l = .subroutineSubprogram) ∧
      run.node.hasLabel l := by
    rcases hroutine with h | h
    exacts [⟨_, .inl rfl, h⟩, ⟨_, .inr rfl, h⟩]
  have hlunit : l.isUnit := by rcases hl with rfl | rfl <;> rfl
  have hany : run.node.label?.any Label.isUnit := by
    rw [eq_of_beq hlabel]
    exact hlunit
  obtain ⟨head, body, last, hparts⟩ := parse_parts hp hq hnode hlabel hlunit
  have hconstants : ∀ k ∈ run.node.nodes, k.hasLabel .namedConstantDef →
      ∃ f ∈ front, f.node.hasLabel .parameterStmt ∧ k ∈ f.node.nodes := by
    intro k hk hm
    obtain ⟨stmt, hstmt, hstmtLabel, hin⟩ := parse_parameters hp hq hnode hany hk hm
    obtain ⟨f, hf, rfl⟩ := hlisted stmt hstmt (.inr hstmtLabel)
    exact ⟨f, hf, hstmtLabel, hin⟩
  have hcommons : ∀ k ∈ run.node.nodes, k.hasLabel .commonBlockObject →
      ∃ f ∈ front, f.node.hasLabel .commonStmt ∧ k ∈ f.node.nodes := by
    intro k hk hm
    obtain ⟨stmt, hstmt, hstmtLabel, hin⟩ := parse_commons hp hq hnode hany hk hm
    obtain ⟨f, hf, rfl⟩ := hlisted stmt hstmt (.inl hstmtLabel)
    exact ⟨f, hf, hstmtLabel, hin⟩
  obtain ⟨u, decls, hopening, hdone⟩ := Lower.routine_opening hrunSound ((parse_declarative hp hq).node hnode)
    hl (eq_of_beq hlabel) hparts hsplit hfront hconstants hcommons
  obtain ⟨_, v, hunitRun, hlater⟩ := hwithin.behind
  have hentries := (Lower.entries_unit hrunSound).of_run hunitRun
  have hready : e.state.Ready := hopening.introduces.ready hopening.ready
  obtain ⟨_, t, hbefore, hbehind⟩ := (hentries e (by rw [hsplit]; simp)).2.behind
  have hundone : e.state.unit.localsDone = false :=
    hopening.introduces.unit_eq.2.2.2.2.2.2.trans hopening.unnoted.2.2
  obtain ⟨given, marks, hlines, hmarks, ⟨w, hw, hlast⟩, hnew, hnodup, hall⟩ :=
    Lower.before_opens hready hundone hspec hbefore
  obtain ⟨hdepth, hbinds, hnames⟩ := Lower.opens_keeps hready hw
  have hlines' : ∀ {d l xs}, w.Binds d l xs → t.Binds d l xs := fun hb => hlast ▸ hb.of_lines t.lines
  have htdepth : t.depth = e.state.depth := (congrArg LowerState.depth hlast).trans hdepth
  have hedepth : e.state.depth = run.state.depth + 1 := hopening.introduces.depth.trans hopening.depth
  obtain ⟨f, hf⟩ := hopening.lines
  refine ⟨f, u.collection.table.current.formals, t, decls, given, marks, ?_,
    .of_extends hbefore hlines (hbehind.trans hlater), htdepth.trans hedepth, hopening.formals, ?_, ?_, ?_,
    hnodup, ?_, ?_, ?_⟩
  · have hwritten : ∀ x ∈ u.collection.table.current.formals, t.variableName x = u.variableName x := by
      intro x hx
      obtain ⟨hname, hspelled⟩ := hopening.introduces.spelled (hopening.spelled x hx)
      have hthis : t.variableName x = w.variableName x := by
        rw [hlast]
        rfl
      exact hthis.trans ((hnames hspelled).trans hname)
    rw [hopening.introduces.lines, hf, List.map_congr_left hwritten, List.reverse_cons, List.append_assoc]
    rfl
  · intro b hb
    rw [htdepth]
    rcases List.mem_append.1 hb with hb | hb
    · rw [hopening.introduces.depth]
      exact hlines' (hbinds (hopening.introduces.binds b hb))
    · exact hlines' (hw.binds b hb)
  · intro hfunction
    have hkind : u.unit.kind = .functionSubprogram := by
      rw [hopening.kind, eq_of_beq hfunction]
      rfl
    exact hopening.name ▸ hopening.result hkind
  · intro stmt hstmt x hgives hexempt
    have hlocal := Lower.localNames_keys hstmt hgives hopening.routine
    rw [← hopening.locals, ← hopening.introduces.unit_eq.2.2.2.2.1] at hlocal
    obtain ⟨y, hy, hkey⟩ := List.mem_map.1 hlocal
    rcases hall y hy with haccounts | hgiven
    · refine List.mem_append_left _ ?_
      have hx := (Lower.collected_accounts hready hspec haccounts).congr hkey.symm
      rcases hopening.accounted hx with hbound | ⟨f, hf, hmakes | hsize⟩ | hknown
      · exact hbound
      · exact absurd (.procedure hf hmakes) hexempt
      · refine List.mem_append_left _ (by_contra fun hfree => hexempt (.array hf hsize ?_))
        rw [← hopening.formals]
        exact hfree
      · rw [hwithin.before.global] at hknown
        change ((Collection.ofTree true (some root) .empty).table.global.get? x).isSome at hknown
        rw [Collection.ofTree_units hroot hprograms] at hknown
        rcases Collection.units_get? hknown with hnone | ⟨unit, hunit, hkey⟩
        · cases hnone
        · exact absurd (.unit hunit hkey) hexempt
    · exact List.mem_append_right _ (hkey ▸ hgiven)
  · intro x hx hbound
    have haccounts := hopening.accounts hbound
    exact hnew x hx ((Lower.collected_introduces hready e.node).accounts_later hready haccounts)
  · exact fun l hl => ⟨_, by rw [htdepth]; exact hmarks l hl⟩
  · intro f hf
    have hmem : f ∈ Lower.unitEntries run := by
      rw [hsplit]
      simp only [List.mem_append, List.mem_cons] at hf ⊢
      exact hf.imp_right .inr
    obtain ⟨_, u', hmarkRun, hmarkBehind⟩ := (hentries f hmem).2.behind
    have hlabelRun := hmarkRun
    have hquiet : f.state.unit.localsDone ∨ Visit.isSpecification ⟨f.node, f.state⟩ := by
      rcases List.mem_append.1 hf with hf | hf
      · exact .inr (hfront f hf)
      · exact .inl (hdone hspec f hf)
    rw [Lower.before_quiet hquiet] at hlabelRun
    obtain ⟨own, hown, hlabels⟩ := Lower.labelMark_writes hlabelRun
    refine ⟨u', own, .of_extends hmarkRun ?_ (hmarkBehind.trans hlater), fun l hl => ⟨_, _, hlabels l hl⟩⟩
    rw [hown]
    rfl

/-- A variable that is assigned to in a loop only is bound before the loop. -/
theorem routines_bind_locals_loop :
    ∃ p q root run common loop rest lines g, Parser.start? "" (scan
        "SUBROUTINE S(A)\n COMMON C\n DO 1 I=1,3\n1 X=A\n END") = some p ∧
      p.parse = .ok (.ok root, q) ∧
      (Generator.start root {}).run (some root) = .ok (({} : Options).header ++ Line.render "\t" lines, g) ∧
      Line.render "\t" lines =
        "function S(A)\n\tglobal C\n\tX = 0.0\n\tfor I in 1:3\n\t\tX = A\n\tend\n\treturn A\nend\n" ∧
      run ∈ Lower.sourceRuns root.children (Generator.start root {}).state ∧
      Lower.unitEntries run = [common] ++ loop :: rest ∧
      common.isSpecification ∧ loop.isSpecification = false ∧
      (∃ stmt ∈ run.node.nodes, stmt.Gives "X") ∧ ¬ run.Exempts root [common] "X" ∧
      ∃ (formals : List String) (t : LowerState) (decls : List (Line × List String)) (given : List String)
          (marks : List Line),
        Wrote lines (Lower.before loop.node) loop.state t ((t.zeros given).map Prod.fst ++ marks) ∧
        nameKey "X" ∈ formals.map nameKey ++ boundKeys decls ++ given.map nameKey := by
  have hstart := start_scan ""
    "SUBROUTINE S(A)\n COMMON C\n DO 1 I=1,3\n1 X=A\n END"
  have hok : ((Parser.matched? { source := "", tokens := (scan
      "SUBROUTINE S(A)\n COMMON C\n DO 1 I=1,3\n1 X=A\n END").toArray }).any
        fun root => (((Generator.start root {}).run (some root)).toOption.any fun r =>
            r.1 == ({} : Options).header ++
              "function S(A)\n\tglobal C\n\tX = 0.0\n\tfor I in 1:3\n\t\tX = A\n\tend\n\treturn A\nend\n") &&
          (root.units.all (nameKey ·.unitName != nameKey "X") &&
          (Lower.sourceRuns root.children (Generator.start root {}).state).any fun run =>
            run.node.hasLabel .subroutineSubprogram && (((run.node.nodes.filter fun stmt =>
              stmt.hasLabel .commonStmt || stmt.hasLabel .parameterStmt).length == 1 &&
            (run.node.nodes.any fun stmt => stmt.hasLabel .assignmentStmt &&
              (stmt.child? .variableRef).any fun v =>
                Lower.isPlain v && nameKey v.text == nameKey "X")) &&
            (Lower.unitEntries run).head?.any (fun e => e.isSpecification && (e.node.hasLabel .commonStmt &&
              e.node.nodes.all (nameKey ·.text != nameKey "X"))) &&
            (Lower.unitEntries run)[1]?.any (!·.isSpecification)))) = true := by
    rw [scan_within]
    decide +kernel
  obtain ⟨root, hmatched, hroot⟩ := (Option.any_eq_true _ _).1 hok
  obtain ⟨q, hq⟩ := parse_of_match (Parser.start_sound hstart) hmatched
  simp only [Bool.and_eq_true, List.any_eq_true, List.all_eq_true, beq_iff_eq, bne_iff_ne, ne_eq] at hroot
  obtain ⟨hrendered, hunits, run, hmem, hlabel, ⟨⟨hone, stmt, hstmt, hassigns, htarget⟩, hhead⟩,
    hsecond⟩ := hroot
  obtain ⟨common, loop, rest, hentries⟩ : ∃ common loop rest,
      Lower.unitEntries run = [common] ++ loop :: rest := by
    cases h : Lower.unitEntries run with
    | nil => rw [h] at hhead; cases hhead
    | cons common others =>
      cases others with
      | nil => rw [h] at hsecond; cases hsecond
      | cons loop rest => exact ⟨common, loop, rest, rfl⟩
  rw [hentries] at hhead hsecond
  simp only [List.singleton_append, List.head?_cons, List.getElem?_cons_succ, List.getElem?_cons_zero,
    Option.any_some, Bool.and_eq_true, List.all_eq_true, Bool.not_eq_true', bne_iff_ne, ne_eq]
    at hhead hsecond
  obtain ⟨hspec, hcommon, hnot⟩ := hhead
  have hgives : stmt.Gives "X" := by
    obtain ⟨v, hv, hplain⟩ := (Option.any_eq_true _ _).1 htarget
    rw [Bool.and_eq_true] at hplain
    exact .inl ⟨hassigns, v, hv, hplain.1, eq_of_beq hplain.2⟩
  have hbare : ¬ run.Exempts root [common] "X" := by
    have hno : ∀ l : Label, l ≠ .commonStmt → ¬ common.node.hasLabel l := fun l hne hl =>
      hne (Node.label_eq (eq_of_beq hl) hcommon)
    rintro (⟨hunit, hname⟩ | ⟨hf, hmakes⟩ | ⟨hf, ⟨decl, hdecl, hkey, -⟩, -⟩)
    · exact hunits _ hunit hname
    · rw [List.mem_singleton.1 hf] at hmakes
      rcases hmakes with ⟨hl, -⟩ | ⟨hl, -⟩ | ⟨hl, -⟩ | ⟨hl, -⟩
      all_goals exact hno _ (by decide) hl
    · rw [List.mem_singleton.1 hf] at hdecl
      exact hnot decl hdecl hkey
  have hlisted : ∀ other ∈ run.node.nodes, other.hasLabel .commonStmt ∨ other.hasLabel .parameterStmt →
      ∃ f ∈ [common], f.node = other := by
    intro other hother hlabels
    obtain ⟨only, honly⟩ := List.length_eq_one_iff.1 hone
    have hsame : ∀ n ∈ run.node.nodes, n.hasLabel .commonStmt ∨ n.hasLabel .parameterStmt → n = only :=
      fun n hn hl => List.mem_singleton.1 (honly ▸ List.mem_filter.2 ⟨hn, by simpa using hl⟩)
    have hnext : common.next ∈ Lower.unitVisits run := Lower.unitEntries_next (by rw [hentries]; simp)
    have hin : common.node ∈ run.node.nodes :=
      (Lower.unitVisits_sublist run).subset (List.mem_map.2 ⟨_, hnext, rfl⟩)
    exact ⟨common, by simp, (hsame _ hin (.inl hcommon)).trans (hsame other hother hlabels).symm⟩
  obtain ⟨lines, g, hrun, -, hall⟩ := routines_bind_locals (o := {}) hstart hq
  obtain ⟨f, formals, t, decls, given, marks, -, hwrote, -, -, -, -, hbound, -⟩ := hall run hmem (.inr hlabel)
    [common] loop rest hentries (by simpa using hspec) hsecond hlisted
  refine ⟨_, q, root, run, common, loop, rest, lines, g, hstart, hq, hrun, ?_, hmem, hentries, hspec, hsecond,
    ⟨stmt, hstmt, hgives⟩, hbare, formals, t, decls, given, marks, hwrote, hbound stmt hstmt "X" hgives hbare⟩
  rw [hrun] at hrendered
  obtain ⟨_, hsome, heq⟩ := (Option.any_eq_true _ _).1 hrendered
  obtain rfl := Option.some.inj hsome
  exact (String.append_right_inj _).1 (eq_of_beq heq)

end FortranJulia
