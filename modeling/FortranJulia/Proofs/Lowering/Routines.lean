import FortranJulia.Lowering.Generator
import FortranJulia.Proofs.Lowering.Visits
import FortranJulia.Proofs.Lowering.Calls
import FortranJulia.Proofs.Parsing.Programs

/-!
Subroutines and their calls. The units of a program are registered before any of them is lowered, so
that each call finds the dummy arguments of the subroutine that it names. The head of a subroutine,
its returns and its calls go by these arguments, wherever they stand in the program.
-/

namespace FortranJulia

set_option autoImplicit false

open Julia (Expr Binding Code Line Share Rebinds)

/-! ## Registered units -/

namespace Scope

theorem lookup_map {k x : String} {f : Symbol → Symbol} (l : List (String × Symbol)) :
    (l.map fun e => if e.1 == k then (e.1, f e.2) else e).lookup x =
      if x = k then (l.lookup x).map f else l.lookup x := by
  induction l with
  | nil => simp
  | cons e l ih =>
    obtain ⟨key, y⟩ := e
    by_cases hx : x = key
    · subst hx
      by_cases hk : x = k <;> simp [hk]
    · have hne : (x == key) = false := beq_eq_false_iff_ne.2 hx
      have hhead : (if key == k then (key, f y) else (key, y)) = (key, if key == k then f y else y) := by
        split <;> rfl
      simp only [List.map_cons, hhead, List.lookup_cons, hne, ih]

/-- The symbol with a key after a change of the symbol of a name. -/
theorem lookup_update (s : Scope) (name k : String) (f : Symbol → Symbol) :
    (s.update name f).symbols.lookup k =
      if k = nameKey name then some (f (s.getOrNew name)) else s.symbols.lookup k := by
  unfold update
  simp only
  rw [lookup_map]
  unfold define getOrNew
  cases hname : s.get? name with
  | some y =>
    by_cases hk : k = nameKey name
    · rw [get?] at hname
      simp [hk, hname]
    · simp [hk]
  | none =>
    rw [get?] at hname
    by_cases hk : k = nameKey name
    · simp [hk, List.lookup_append, hname]
    · have hne : (k == nameKey name) = false := beq_eq_false_iff_ne.2 hk
      simp [hk, List.lookup_append, List.lookup_cons, hne]

/-- The symbol of a name after a change of the symbol of another one or of itself. -/
theorem get?_update (s : Scope) (name x : String) (f : Symbol → Symbol) :
    (s.update name f).get? x =
      if nameKey x = nameKey name then some (f (s.getOrNew name)) else s.get? x :=
  s.lookup_update name (nameKey x) f

end Scope

theorem Table.defineUnit_get? (t : Table) (name : String) (kind : SymbolKind)
    (type : Option TypeName) (params : List String) :
    ∃ y : Symbol, y.kind = kind ∧ y.params = params ∧
      ∀ x, (t.defineUnit name kind type params).global.get? x =
        if nameKey x = nameKey name then some y else t.global.get? x := by
  have hglobal : (t.spell name).global = t.global := (Table.Kin.spell t name).global
  let old := t.global.getOrNew ((t.spell name).spelling name)
  refine ⟨{ old with kind, params, type := type.or old.type }, rfl, rfl, fun x => ?_⟩
  rw [defineUnit]
  simp only
  rw [Scope.get?_update, hglobal, Table.nameKey_spelling]

namespace Node

/-- The name in the first statement of a unit, empty if there is none. -/
def unitName (unit : Node) : String :=
  (({} : Collection).header unit).1.name

/-- The dummy arguments of a subroutine; alternate returns are left out. -/
def dummyArgs (unit : Node) : List String :=
  (((unit.child? .subroutineStmt).map (·.findAll .dummyArgName)).getD []).map (·.text)

end Node

namespace Collection

theorem header_name (c : Collection) (unit : Node) : (c.header unit).1.name = unit.unitName := by
  unfold Node.unitName header
  split <;> rfl

/-- One more unit is registered. -/
def addUnit (c : Collection) (unit : Node) : Collection :=
  (c.header unit).2.register (c.header unit).1

theorem visitAll_eq (c : Collection) (ns : List Node) :
    visitAll true c ns = ns.foldl (visit true) c := by
  induction ns generalizing c with
  | nil => rfl
  | cons n ns ih => rw [visitAll, List.foldl_cons, ih]

theorem visit_unit (c : Collection) {unit : Node} (h : unit.label?.any Label.isUnit) :
    visit true c unit = c.addUnit unit := by
  cases unit with
  | leaf => cases h
  | inner i l cs =>
    have hl : l.isUnit = true := h
    rw [visit, if_pos hl]
    rfl

theorem visit_program (c : Collection) {n : Node} (h : n.hasLabel .executableProgram)
    (hunits : ∀ unit ∈ n.children, unit.label?.any Label.isUnit) :
    visit true c n = n.children.foldl addUnit c := by
  cases n with
  | leaf => cases h
  | inner i l units =>
    obtain rfl : l = .executableProgram := by simpa [Node.hasLabel, Node.label?] using h
    have hvisit : visit true c (.inner i .executableProgram units) = visitAll true c units := rfl
    rw [hvisit, visitAll_eq]
    exact List.foldl_ext _ _ c (fun c unit hunit => visit_unit c (hunits unit hunit))

/-- The units of a program are registered in order, and nothing else is. -/
theorem ofTree_units {root : Node} (hlabel : root.hasLabel .program ∨ root.hasLabel .loneName)
    (h : ∀ n ∈ root.children, n.isLeaf ∨
      n.hasLabel .executableProgram ∧ ∀ unit ∈ n.children, unit.label?.any Label.isUnit) :
    ofTree true (some root) .empty = root.units.foldl addUnit {} := by
  have hroot : ofTree true (some root) .empty = root.children.foldl (visit true) {} := by
    cases root with
    | leaf => simp [Node.hasLabel, Node.label?] at hlabel
    | inner i l cs =>
      rw [ofTree, Node.children, ← visitAll_eq]
      rcases hlabel with hl | hl
      · obtain rfl : l = .program := by simpa [Node.hasLabel, Node.label?] using hl
        rfl
      · obtain rfl : l = .loneName := by simpa [Node.hasLabel, Node.label?] using hl
        rfl
  rw [hroot, Node.units, Node.childrenWith]
  generalize ({} : Collection) = c
  generalize root.children = parts at h
  induction parts generalizing c with
  | nil => rfl
  | cons n ns ih =>
    rw [List.foldl_cons, ih _ (fun m hm => h m (by simp [hm]))]
    rcases h n (by simp) with hleaf | ⟨hprogram, hunits⟩
    · cases n with
      | leaf => rfl
      | inner => cases hleaf
    · rw [visit_program c hprogram hunits, List.filter_cons_of_pos hprogram, List.flatMap_cons,
        List.foldl_append]

theorem register_table (c : Collection) (h : Header) : (c.register h).table =
    if h.name = "" then c.table else c.table.defineUnit h.name h.kind h.type h.params := by
  unfold register
  simp only [beq_iff_eq]
  split
  · rfl
  · split <;> rfl

/-- Registering a unit defines its name and no other. -/
theorem addUnit_get? (c : Collection) (unit : Node) :
    ∃ y : Symbol, y.kind = (c.header unit).1.kind ∧ y.params = (c.header unit).1.params ∧
      ∀ x, (c.addUnit unit).table.global.get? x =
        if nameKey x = nameKey unit.unitName ∧ unit.unitName ≠ "" then some y
        else c.table.global.get? x := by
  obtain ⟨hkin, -⟩ := c.header_spelled unit
  obtain ⟨y, hkind, hparams, hget⟩ := (c.header unit).2.table.defineUnit_get? (c.header unit).1.name
    (c.header unit).1.kind (c.header unit).1.type (c.header unit).1.params
  refine ⟨y, hkind, hparams, fun x => ?_⟩
  rw [addUnit, register_table, c.header_name unit]
  by_cases hname : unit.unitName = ""
  · rw [if_pos hname, if_neg (by simp [hname]), hkin.global]
  · rw [c.header_name unit] at hget
    rw [if_neg hname, hget, hkin.global]
    simp only [hname, ne_eq, not_false_eq_true, and_true]

/-- A subroutine is known with so many dummy arguments. -/
def Knows (c : Collection) (name : String) (count : Nat) : Prop :=
  ∃ y, c.table.global.get? name = some y ∧ y.kind = .subroutine ∧ y.params.length = count

theorem header_subroutine (c : Collection) {unit : Node} (h : unit.hasLabel .subroutineSubprogram) :
    (c.header unit).1.kind = .subroutine ∧
      (c.header unit).1.params.length = unit.dummyArgs.length := by
  have hlabel : unit.label? = some .subroutineSubprogram := eq_of_beq h
  obtain ⟨-, -, hkeys⟩ := c.params_spelled (unit.child? .subroutineStmt)
  have hlength := congrArg List.length hkeys
  rw [List.length_map, List.length_map] at hlength
  unfold header
  rw [hlabel]
  refine ⟨rfl, ?_⟩
  rw [Node.dummyArgs, List.length_map]
  exact hlength

/-- A subroutine whose name no other unit has is known once it is registered. -/
theorem knows_units {units : List Node} {unit : Node} (hunit : unit.hasLabel .subroutineSubprogram)
    (hname : unit.unitName ≠ "")
    (hunique : ∀ other ∈ units, nameKey other.unitName = nameKey unit.unitName → other = unit)
    {name : String} (hkey : nameKey name = nameKey unit.unitName) {c : Collection}
    (h : c.Knows name unit.dummyArgs.length ∨ unit ∈ units) :
    (units.foldl addUnit c).Knows name unit.dummyArgs.length := by
  induction units generalizing c with
  | nil => exact h.resolve_right (by simp)
  | cons other units ih =>
    refine ih (fun n hn => hunique n (by simp [hn])) ?_
    obtain ⟨y, hkind, hparams, hget⟩ := c.addUnit_get? other
    by_cases hother : other = unit
    · subst hother
      obtain ⟨hsubroutine, hlength⟩ := c.header_subroutine hunit
      refine .inl ⟨y, ?_, hkind.trans hsubroutine, by rw [hparams, hlength]⟩
      rw [hget, if_pos ⟨hkey, hname⟩]
    · have hne : nameKey name ≠ nameKey other.unitName := by
        intro heq
        exact hother (hunique other (by simp) (heq.symm.trans hkey))
      rcases h with ⟨z, hz, hzkind, hzparams⟩ | hmem
      · exact .inl ⟨z, by rw [hget, if_neg (by simp [hne]), hz], hzkind, hzparams⟩
      · exact .inr ((List.mem_cons.1 hmem).resolve_left (fun heq => hother heq.symm))

end Collection

/-! ## Heads and returns -/

/-- A name that is spelled is spelled the same way in all its writings. -/
theorem Table.spelling_congr {t : Table} {x y : String} (hkey : nameKey x = nameKey y)
    (h : (t.spelling? x).isSome) : t.spelling x = t.spelling y := by
  obtain ⟨w, hw⟩ := Option.isSome_iff_exists.1 h
  rw [spelling, spelling, ← t.spelling?_congr hkey, hw]
  rfl

theorem Table.map_spelling {t : Table} {xs ys : List String}
    (hkeys : xs.map nameKey = ys.map nameKey) (h : ∀ x ∈ xs, (t.spelling? x).isSome) :
    xs.map t.spelling = ys.map t.spelling := by
  induction xs generalizing ys with
  | nil =>
    obtain rfl := List.map_eq_nil_iff.1 hkeys.symm
    rfl
  | cons x xs ih =>
    obtain ⟨y, ys, rfl, hkey, hrest⟩ := List.map_eq_cons_iff.1 hkeys.symm
    rw [List.map_cons, List.map_cons, spelling_congr hkey.symm (h x (by simp)),
      ih hrest.symm (fun z hz => h z (by simp [hz]))]

/-- A name that is spelled keeps its spelling. -/
theorem Extends.spelling {s t : LowerState} (h : Extends s t) {x : String}
    (hx : (s.collection.table.spelling? x).isSome) :
    (t.collection.table.spelling? x).isSome ∧
      t.collection.table.spelling x = s.collection.table.spelling x := by
  obtain ⟨more, hmore⟩ := h.spellings
  obtain ⟨w, hw⟩ := Option.isSome_iff_exists.1 hx
  have hlater : t.collection.table.spelling? x = some w := by
    rw [Table.spelling?, hmore, List.find?_append]
    rw [Table.spelling?] at hw
    rw [hw]
    rfl
  rw [Table.spelling, Table.spelling, hlater, hw]
  exact ⟨rfl, rfl⟩

namespace LowerState

/-- The scope of a unit when it is entered. -/
theorem entered_current (s : LowerState) (unit : Node) (u : UnitState) :
    nameKey (s.entered unit u).unit.name = nameKey unit.unitName ∧
      (s.entered unit u).collection.table.current.formals.map nameKey =
        (s.collection.header unit).1.params.map nameKey := by
  obtain ⟨-, hspelled⟩ := s.collection.header_spelled unit
  obtain ⟨scope, hopened, hname, -, hformals, -, -⟩ :=
    (s.collection.header unit).2.enter_scope (s.collection.header unit).1 hspelled
  have hcurrent : (s.entered unit u).collection.table.current = scope := by
    show (Option.getD _ _) = scope
    rw [show (s.entered unit u).collection.table.opened = some scope from hopened]
    rfl
  have hunit : (s.entered unit u).unit.name = scope.name := congrArg Scope.name hcurrent
  constructor
  · rw [hunit, hname, Table.nameKey_spelling, Collection.header_name]
  · rw [hcurrent, hformals]

/-- The scope of a subroutine when it is entered. -/
theorem entered_subroutine (s : LowerState) {whole : Node} (u : UnitState)
    (h : whole.hasLabel .subroutineSubprogram) :
    nameKey (s.entered whole u).unit.name = nameKey whole.unitName ∧
      (s.entered whole u).collection.table.current.formals.map nameKey =
        whole.dummyArgs.map nameKey := by
  obtain ⟨hname, hformals⟩ := s.entered_current whole u
  obtain ⟨-, -, hkeys⟩ := s.collection.params_spelled (whole.child? .subroutineStmt)
  have hparams : (s.collection.header whole).1.params =
      (s.collection.params (whole.child? .subroutineStmt)).1 := by
    have hlabel : whole.label? = some .subroutineSubprogram := eq_of_beq h
    unfold Collection.header
    rw [hlabel]
  refine ⟨hname, ?_⟩
  rw [hformals, hparams, hkeys, Node.dummyArgs, List.map_map]
  rfl

/-- The dummy arguments of a subroutine are written as they are spelled in the end. -/
theorem entered_dummies (s : LowerState) {whole : Node} {u : UnitState}
    (h : whole.hasLabel .subroutineSubprogram) (hkind : u.kind = whole.label?.getD .program)
    {final : LowerState} (hlater : Extends (s.entered whole u) final) :
    (s.entered whole u).collection.table.current.formals.map (s.entered whole u).variableName =
      whole.dummyArgs.map fun x => Lower.escaped (final.collection.table.spelling x) := by
  obtain ⟨hopen, -⟩ := s.entered_open whole u
  obtain ⟨-, hkeys⟩ := s.entered_subroutine u h
  have hunit : (s.entered whole u).unit.kind = .subroutineSubprogram :=
    hkind.trans (by rw [show whole.label? = _ from eq_of_beq h]; rfl)
  have hsame : ∀ x ∈ (s.entered whole u).collection.table.current.formals,
      (final.collection.table.spelling? x).isSome ∧ final.collection.table.spelling x =
        (s.entered whole u).collection.table.spelling x :=
    fun x hx => hlater.spelling (hopen.spelled x (by simp [hx]))
  have hspellings := Table.map_spelling hkeys (fun x hx => (hsame x hx).1)
  have hescaped := congrArg (List.map Lower.escaped) hspellings
  rw [List.map_map, List.map_map] at hescaped
  refine Eq.trans (List.map_congr_left (fun x hx => ?_)) hescaped
  rw [variableName, isResult, hunit, Function.comp_apply, (hsame x hx).2]
  rfl

end LowerState

namespace Lower

variable {wide : Prop}

/-- A subroutine starts with a line that names it and its dummy arguments, and all its returns
return these. -/
theorem subroutine_run {whole : Node} (h : whole.Sound wide)
    (hlabel : whole.hasLabel .subroutineSubprogram) {head : Node} {rest : List Node}
    (hchildren : whole.children = head :: rest) (hhead : head.label? = some .subroutineStmt)
    (s : LowerState) :
    ∃ t depth own, (programUnit whole).run s = .ok ((), t) ∧
      (∀ x ∈ whole.unitName :: whole.dummyArgs, (t.collection.table.spelling? x).isSome) ∧
      t.lines = (.code depth (.functionHead (escaped (t.collection.table.spelling whole.unitName))
        (whole.dummyArgs.map fun x => escaped (t.collection.table.spelling x))) :: own).reverse ++
          s.lines ∧
      ∀ d values, Line.code d (.returns values) ∈ own →
        values = whole.dummyArgs.map fun x => escaped (t.collection.table.spelling x) := by
  obtain ⟨u, r, v, -, hreports, hsurveyed, hparts, hpasses, hrun⟩ := programUnit_run h s
  obtain ⟨hopen, -⟩ := r.entered_open whole u
  obtain ⟨hname, hformals⟩ := r.entered_subroutine u hlabel
  have hlines : (r.entered whole u).lines = s.lines := by
    obtain ⟨_, _, rfl, -⟩ := hreports
    rfl
  have hunit : (r.entered whole u).unit.kind = .subroutineSubprogram := by
    show u.kind = _
    rw [hsurveyed.kind, eq_of_beq hlabel]
    rfl
  have hvariables := r.entered_dummies hlabel hsurveyed.kind (hpasses.extends.trans v.left_extends)
  generalize r.entered whole u = e at *
  -- The names are spelled when the unit is entered, and spelled the same way when it is left.
  have hlater : Extends e v.left := hpasses.extends.trans v.left_extends
  have hsame : ∀ x ∈ e.unit.name :: e.collection.table.current.formals,
      (v.left.collection.table.spelling? x).isSome ∧
        v.left.collection.table.spelling x = e.collection.table.spelling x :=
    fun x hx => hlater.spelling (hopen.spelled x hx)
  have hkeys : (e.unit.name :: e.collection.table.current.formals).map nameKey =
      (whole.unitName :: whole.dummyArgs).map nameKey := by
    rw [List.map_cons, List.map_cons, hname, hformals]
  have hspellings := Table.map_spelling hkeys (fun x hx => (hsame x hx).1)
  obtain ⟨hfunction, -⟩ := List.cons.inj hspellings
  rw [(hsame e.unit.name (by simp)).2] at hfunction
  have hreturned : e.returned =
      whole.dummyArgs.map fun x => escaped (v.left.collection.table.spelling x) := by
    rw [LowerState.returned, hunit, ← hvariables]
    rfl
  -- The first line, and then what the other parts add.
  obtain ⟨_, t, hheadRun, hheadPasses, new, hnew⟩ := @routineHead_run wide head e hopen
  have hrest : Carries wide (rest.forM (unitPart whole)) :=
    .forM (fun part hpart => carries_unitPart whole (h.child (by rw [hchildren]; simp [hpart])))
  obtain ⟨_, v', hrestRun, htv⟩ := hrest t (hheadPasses.settled hopen).1
  have hhead' : (unitPart whole head).run e = .ok ((), t) := by
    rw [unitPart, hhead]
    exact hheadRun
  have hall : (whole.children.forM (unitPart whole)).run e = .ok ((), v') := by
    rw [hchildren]
    show (unitPart whole head >>= fun _ => rest.forM (unitPart whole)).run e = _
    rw [run_bind_ok hhead', hrestRun]
  obtain rfl : v' = v := congrArg Prod.snd (Except.ok.inj (hall.symm.trans hparts))
  obtain ⟨more, hmore, -⟩ := htv.lines
  obtain ⟨all, hallLines, hreturns⟩ := hpasses.lines
  rw [hfunction, hvariables] at hnew
  have hown : v'.lines = (.code e.depth (.functionHead
      (escaped (v'.left.collection.table.spelling whole.unitName))
      (whole.dummyArgs.map fun x => escaped (v'.left.collection.table.spelling x))) ::
        (new.reverse ++ more)).reverse ++ e.lines := by
    rw [hmore, hnew]
    simp only [List.reverse_cons, List.reverse_append, List.reverse_reverse, List.append_assoc,
      List.singleton_append]
  have hsplit := List.reverse_injective (List.append_cancel_right (hallLines.symm.trans hown))
  refine ⟨v'.left, e.depth, new.reverse ++ more, hrun, fun x hx => ?_, ?_, fun d values hl => ?_⟩
  · have hmem : nameKey x ∈ (e.unit.name :: e.collection.table.current.formals).map nameKey :=
      hkeys ▸ List.mem_map_of_mem hx
    obtain ⟨y, hy, hkey⟩ := List.mem_map.1 hmem
    rw [Table.spelling?_congr _ hkey.symm]
    exact (hsame y hy).1
  · rw [← hlines]
    exact hown
  · rw [← hreturned]
    exact hreturns d values (hsplit ▸ List.mem_cons_of_mem _ hl)

end Lower

namespace Lower

variable {wide : Prop}

/-- What is written for a subroutine, with the spellings of a later state. -/
theorem subroutine_wrote {whole : Node} (h : whole.Sound wide)
    (hlabel : whole.hasLabel .subroutineSubprogram) {head : Node} {rest : List Node}
    (hchildren : whole.children = head :: rest) (hhead : head.label? = some .subroutineStmt)
    {s final : LowerState} (hfinal : (programUnit whole).Does s fun _ t => Extends t final) :
    ∃ t depth own, Wrote final.lines.reverse (programUnit whole) s t
        (.code depth (.functionHead (escaped (final.collection.table.spelling whole.unitName))
          (whole.dummyArgs.map fun x => escaped (final.collection.table.spelling x))) :: own) ∧
      ∀ d values, Line.code d (.returns values) ∈ own →
        values = whole.dummyArgs.map fun x => escaped (final.collection.table.spelling x) := by
  obtain ⟨t, depth, own, hrun, hspelled, hlines, hreturns⟩ :=
    subroutine_run h hlabel hchildren hhead s
  obtain ⟨_, t', hrun', hlater⟩ := hfinal
  obtain rfl : t' = t := congrArg Prod.snd (Except.ok.inj (hrun'.symm.trans hrun))
  have hsame : ∀ x ∈ whole.unitName :: whole.dummyArgs,
      final.collection.table.spelling x = t'.collection.table.spelling x :=
    fun x hx => (hlater.spelling (hspelled x hx)).2
  have hparams : (whole.dummyArgs.map fun x => escaped (final.collection.table.spelling x)) =
      whole.dummyArgs.map fun x => escaped (t'.collection.table.spelling x) :=
    List.map_congr_left (fun x hx => by rw [hsame x (by simp [hx])])
  rw [hparams, hsame whole.unitName (by simp)]
  exact ⟨t', depth, own, .of_extends hrun hlines hlater, hreturns⟩

/-- What is written for a call of a known subroutine, with the spelling of a later state. -/
theorem call_wrote {stmt : Node} (h : stmt.Sound wide) (hlabel : stmt.hasLabel .callStmt)
    {name : String} (hkey : nameKey (childText stmt .subroutineNameUse) = nameKey name)
    {s final : LowerState} (hknown : s.collection.Knows name stmt.passed.length)
    (hfinal : (statement stmt).Does s fun _ t => Extends t final) :
    ∃ t values codes, Wrote final.lines.reverse (statement stmt) s t (codes.map (.code s.depth)) ∧
      List.Forall₂ t.Sends stmt.passed values ∧
      Rebinds codes (.call (escaped (final.collection.table.spelling name)) values)
        (s.rebound stmt.passed values) := by
  obtain ⟨y, hy, hkind, hparams⟩ := hknown
  have hget : s.collection.table.global.get? (childText stmt .subroutineNameUse) = some y := by
    rw [← hy, Scope.get?, Scope.get?, hkey]
  obtain ⟨values, codes, t, hrun, ⟨hrewords, hdepth, hlines⟩, hsends, hspelled, hrebinds⟩ :=
    callStmt_run h hget hkind hparams
  have hstatement : (statement stmt).run s = .ok ((), t.written codes) := by
    cases stmt with
    | leaf => cases hlabel
    | inner k l cs =>
      obtain rfl : l = .callStmt := by simpa [Node.hasLabel, Node.label?] using hlabel
      rw [statement]
      · exact hrun
      · simp
      · simp
  obtain ⟨_, u, hrun', hlater⟩ := hfinal
  obtain rfl : u = t.written codes :=
    congrArg Prod.snd (Except.ok.inj (hrun'.symm.trans hstatement))
  have hwritten : Rewords t (t.written codes) := ⟨rfl, [], t.collection.table.recorded_nil.symm⟩
  have hname : final.collection.table.spelling name =
      t.collection.table.spelling (childText stmt .subroutineNameUse) := by
    obtain ⟨hsome, hsame⟩ := hlater.spelling (x := childText stmt .subroutineNameUse)
      (by rw [show (t.written codes).collection = t.collection from rfl, hspelled]; rfl)
    exact (Table.spelling_congr hkey hsome).symm.trans hsame
  refine ⟨t.written codes, values, codes, .of_extends hstatement ?_ hlater,
    hsends.imp (fun _ _ hv => hv.later hwritten), ?_⟩
  · rw [LowerState.written, hdepth, hlines]
  · rw [hname, ← hrewords.rebound]
    exact hrebinds

end Lower

/-! ## Programs -/

theorem mem_units {root unit : Node} : unit ∈ root.units ↔
    ∃ n ∈ root.children, n.hasLabel .executableProgram ∧ unit ∈ n.children := by
  simp only [Node.units, Node.childrenWith, List.mem_flatMap, List.mem_filter, and_assoc]

theorem units_nodes {root unit : Node} (h : unit ∈ root.units) : unit ∈ root.nodes := by
  obtain ⟨n, hn, -, hmem⟩ := mem_units.1 h
  exact nodes_trans (nodes_child hn) (nodes_child hmem)

namespace Generator

/-- What a generator writes for a tree, and the state that it is left with. -/
theorem run_lines {wide : Prop} {root : Node} (h : root.Sound wide) (o : Options) :
    ∃ s : LowerState, (start root o).run (some root) =
        .ok (o.header ++ Line.render o.indentation s.lines.reverse,
          { start root o with state := { s with diagnostics := Diagnostic.sorted s.diagnostics } }) ∧
      (root.children.forM Lower.sourcePart).run (start root o).state = .ok ((), s) := by
  obtain ⟨_, s, hrun, -⟩ := Lower.sources_spans (fun n hn => h.child hn) (start root o).state
  refine ⟨s, ?_, hrun⟩
  have hall : ((((some root).map (·.children)).getD []).forM Lower.sourcePart).run
      { (start root o).state with lines := [] } = .ok ((), s) := hrun
  rw [run, hall]
  rfl

end Generator

theorem parse_subroutine {name source : String} {p q : Parser} {root whole : Node}
    (hp : Parser.start? name (scan source) = some p) (hq : p.parse = .ok (.ok root, q))
    (hwhole : whole ∈ root.units) (hlabel : whole.hasLabel .subroutineSubprogram) :
    ∃ head rest, whole.children = head :: rest ∧ head.label? = some .subroutineStmt := by
  cases whole with
  | leaf => cases hlabel
  | inner i l cs =>
    obtain rfl : l = .subroutineSubprogram := by simpa [Node.hasLabel, Node.label?] using hlabel
    obtain ⟨head, body, last, hparts⟩ := parse_unit hp hq (units_nodes hwhole) rfl
    obtain ⟨first, rfl⟩ := Option.isSome_iff_exists.1 (hparts.headed (by simp))
    exact ⟨first, _, hparts.children, hparts.headLabel first rfl⟩

/-! ## Main statement -/

/-- The head of a subroutine and all its returns name its dummy arguments in order. Every call with as
many arguments, wherever it stands, passes them in order and binds each to its part of the value
exactly if it can be bound: a variable, or an element of an array without a colon, whose name is
neither a named constant nor the variable of an open loop; a variable must not be a procedure. -/
theorem arguments_line_up {source : String} {o : Options} {p q : Parser} {root whole : Node}
    (hp : Parser.start? o.source (scan source) = some p) (hq : p.parse = .ok (.ok root, q))
    (hwhole : whole ∈ root.units) (hlabel : whole.hasLabel .subroutineSubprogram)
    (hname : whole.unitName ≠ "")
    (hunique : ∀ other ∈ root.units, nameKey other.unitName = nameKey whole.unitName → other = whole) :
    ∃ lines g, (Generator.start root o).run (some root) =
        .ok (o.header ++ Line.render o.indentation lines, g) ∧
      let runs := Lower.sourceRuns root.children (Generator.start root o).state
      let spelled := fun x => Lower.escaped (g.state.collection.table.spelling x)
      let params := whole.dummyArgs.map spelled
      (∀ unit ∈ root.units, ∃ run ∈ runs, run.node = unit) ∧
      (∀ run ∈ runs, run.node = whole → ∃ t depth own,
        Wrote lines (Lower.programUnit whole) run.state t
          (.code depth (.functionHead (spelled whole.unitName) params) :: own) ∧
        ∀ d values, Line.code d (.returns values) ∈ own → values = params) ∧
      ∀ run ∈ runs,
        (∀ stmt ∈ run.node.nodes, stmt.hasLabel .callStmt →
          ∃ call ∈ Lower.unitVisits run, call.node = stmt) ∧
        ∀ call ∈ Lower.unitVisits run, call.node.hasLabel .callStmt →
          nameKey (Lower.childText call.node .subroutineNameUse) = nameKey whole.unitName →
          call.node.passed.length = params.length →
          ∃ t values codes,
            Wrote lines (Lower.statement call.node) call.state t
              (codes.map (.code call.state.depth)) ∧
            List.Forall₂ t.Sends call.node.passed values ∧
            Rebinds codes (.call (spelled whole.unitName) values)
              (call.state.rebound call.node.passed values) := by
  have hsound : root.Sound True := fun n hn => ⟨parse_indexable hp hq hn, fun _ => trivial⟩
  obtain ⟨hroot, hparts⟩ := parse_program hp hq
  obtain ⟨s, hrun, hlowered⟩ := Generator.run_lines hsound o
  obtain ⟨_, s', hlowered', hruns⟩ := Lower.runs_sources (fun n hn => hsound.child hn)
    (Generator.start root o).state
  obtain rfl : s' = s := congrArg Prod.snd (Except.ok.inj (hlowered'.symm.trans hlowered))
  refine ⟨_, _, hrun, ?_, ?_, fun run hmem => ⟨?_, ?_⟩⟩
  · intro unit hunit
    obtain ⟨n, hn, hprogram, hmem⟩ := mem_units.1 hunit
    exact Lower.sourceRuns_nodes hn hprogram hmem _
  · intro run hmem hnode
    obtain ⟨-, hwithin⟩ := hruns run hmem
    obtain ⟨head, rest, hchildren, hhead⟩ := parse_subroutine hp hq hwhole hlabel
    exact Lower.subroutine_wrote (hsound.node (units_nodes hwhole)) hlabel hchildren hhead
      (hnode ▸ hwithin.behind)
  · intro stmt hstmt hcall
    obtain ⟨⟨n, hn, hprogram, hunit⟩, -⟩ := hruns run hmem
    have hnode := nodes_trans (nodes_child hn) (nodes_child hunit)
    rcases hparts n hn with hleaf | ⟨-, hunits⟩
    · cases n with
      | leaf => cases hprogram
      | inner => cases hleaf
    · exact Lower.unit_covers ⟨.callStmt, by decide, eq_of_beq hcall⟩ (hsound.node hnode)
        ((parse_placed hp hq).node hnode) (hunits run.node hunit) hstmt
  · intro call hcall hcallLabel hkey hlength
    obtain ⟨hunit, hwithin⟩ := hruns run hmem
    obtain ⟨_, t, hunitRun, hlater⟩ := hwithin.behind
    obtain ⟨_, t', hunitRun', hvisits⟩ :=
      Lower.visits_unit (hsound.node (units_nodes (mem_units.2 hunit)))
    obtain rfl : t' = t := congrArg Prod.snd (Except.ok.inj (hunitRun'.symm.trans hunitRun))
    obtain ⟨⟨hcallSound, -⟩, hvisit⟩ := hvisits call hcall
    have hglobal : call.state.collection.table.global =
        (Collection.ofTree true (some root) .empty).table.global :=
      (hwithin.before.trans hvisit.before).global
    have hknown : call.state.collection.Knows whole.unitName call.node.passed.length := by
      rw [hlength, List.length_map, Collection.Knows, hglobal, Collection.ofTree_units hroot hparts]
      exact Collection.knows_units hlabel hname hunique rfl (.inr hwhole)
    exact Lower.call_wrote hcallSound hcallLabel hkey hknown
      (hvisit.behind.imp (fun _ _ h => h.trans hlater))

/-- A subroutine that calls itself returns its argument and binds what it gets back. -/
theorem arguments_line_up_recursive :
    ∃ p q root whole stmt lines g, Parser.start? "" (scan "SUBROUTINE S(X)\n CALL S(X)\nEND") = some p ∧
      p.parse = .ok (.ok root, q) ∧ root.units = [whole] ∧
      (stmt ∈ whole.nodes ∧ stmt.hasLabel .callStmt) ∧
      (Generator.start root {}).run (some root) =
        .ok (({} : Options).header ++ Line.render ({} : Options).indentation lines, g) ∧
      ∃ f x v depth codes, ∃ s : LowerState, .code depth (.functionHead f [x]) ∈ lines ∧
        (∀ c ∈ codes, .code s.depth c ∈ lines) ∧
        Rebinds codes (.call f [v]) (s.rebound stmt.passed [v]) := by
  have hstart := start_scan "" "SUBROUTINE S(X)\n CALL S(X)\nEND"
  have hok : ((Parser.matched? { source := "", tokens :=
      (scan "SUBROUTINE S(X)\n CALL S(X)\nEND").toArray }).any fun root =>
        root.units.length == 1 && root.units.any fun whole =>
          (whole.hasLabel .subroutineSubprogram && whole.unitName == "S" &&
            whole.dummyArgs.length == 1) &&
          whole.nodes.any fun stmt => stmt.hasLabel .callStmt &&
            (Lower.childText stmt .subroutineNameUse == "S" && stmt.passed.length == 1)) = true := by
    rw [scan_within]
    decide +kernel
  obtain ⟨root, hmatched, hroot⟩ := (Option.any_eq_true _ _).1 hok
  simp only [Bool.and_eq_true, List.any_eq_true, beq_iff_eq] at hroot
  obtain ⟨hone, whole, hwhole, ⟨⟨hlabel, hname⟩, hparams⟩, stmt, hstmt, hcall, hcallee, hpassed⟩ := hroot
  obtain ⟨q, hq⟩ := parse_of_match (Parser.start_sound hstart) hmatched
  have hunits : root.units = [whole] := by
    obtain ⟨unit, hunit⟩ := List.length_eq_one_iff.1 hone
    rw [hunit] at hwhole ⊢
    rw [List.mem_singleton.1 hwhole]
  have hunique : ∀ other ∈ root.units, nameKey other.unitName = nameKey whole.unitName →
      other = whole := by
    intro other hother _
    rw [hunits] at hother
    exact List.mem_singleton.1 hother
  obtain ⟨lines, g, hrun, hruns, hheads, hcalls⟩ :=
    arguments_line_up (o := {}) hstart hq hwhole hlabel (by rw [hname]; decide) hunique
  obtain ⟨run, hmem, rfl⟩ := hruns whole hwhole
  obtain ⟨_, depth, _, hhead, -⟩ := hheads run hmem rfl
  obtain ⟨hcovers, hcodes⟩ := hcalls run hmem
  obtain ⟨call, hvisit, rfl⟩ := hcovers stmt hstmt hcall
  obtain ⟨_, values, codes, hwrote, hsends, hrebinds⟩ := hcodes call hvisit hcall
    (by rw [hcallee, hname]) (by rw [hpassed, List.length_map, hparams])
  obtain ⟨v, rfl⟩ := List.length_eq_one_iff.1 (hsends.length_eq.symm.trans hpassed)
  obtain ⟨x, hx⟩ := List.length_eq_one_iff.1 hparams
  have hfirst := hhead.mem List.mem_cons_self
  rw [hx] at hfirst
  exact ⟨_, q, root, run.node, call.node, lines, g, hstart, hq, hunits, ⟨hstmt, hcall⟩, hrun, _, _, v,
    depth, codes, call.state, hfirst, fun c hc => hwrote.mem (List.mem_map_of_mem hc), hrebinds⟩

/-- An element of an array whose name is that of the variable of an open loop is passed and not bound:
the call stands alone in its line. -/
theorem element_of_loop_variable_stays :
    ∃ p q root unit call, Parser.start? "" (scan
        "SUBROUTINE S(A)\nREAL A(1)\nDO 1 A=1,1\n1 CALL S(A(1))\nEND") = some p ∧
      p.parse = .ok (.ok root, q) ∧ root.units.length = 1 ∧
      unit ∈ Lower.sourceRuns root.children (Generator.start root {}).state ∧
      unit.node.hasLabel .subroutineSubprogram ∧ unit.node.unitName = "S" ∧
      unit.node.dummyArgs.length = 1 ∧
      call ∈ Lower.unitVisits unit ∧ call.node.hasLabel .callStmt ∧
      Lower.childText call.node .subroutineNameUse = "S" ∧ call.node.passed.length = 1 ∧
      (∀ arg ∈ call.node.passed, arg.argument?.any call.state.isElement) ∧
      (Lower.behind (Lower.statement call.node) call.state).lines.map (Line.text "\t") =
        "\t\tS(A[1])\n" :: call.state.lines.map (Line.text "\t") := by
  have hstart := start_scan "" "SUBROUTINE S(A)\nREAL A(1)\nDO 1 A=1,1\n1 CALL S(A(1))\nEND"
  have hok : ((Parser.matched? { source := "", tokens :=
      (scan "SUBROUTINE S(A)\nREAL A(1)\nDO 1 A=1,1\n1 CALL S(A(1))\nEND").toArray }).any fun root =>
        root.units.length == 1 &&
        (Lower.sourceRuns root.children (Generator.start root {}).state).any fun unit =>
          unit.node.hasLabel .subroutineSubprogram && (unit.node.unitName == "S" &&
          (unit.node.dummyArgs.length == 1 && (Lower.unitVisits unit).any fun call =>
            call.node.hasLabel .callStmt &&
            (Lower.childText call.node .subroutineNameUse == "S" && (call.node.passed.length == 1 &&
            (call.node.passed.all (·.argument?.any call.state.isElement) &&
              (Lower.behind (Lower.statement call.node) call.state).lines.map (Line.text "\t") ==
                "\t\tS(A[1])\n" :: call.state.lines.map (Line.text "\t"))))))) = true := by
    rw [scan_within]
    decide +kernel
  obtain ⟨root, hmatched, hroot⟩ := (Option.any_eq_true _ _).1 hok
  simp only [Bool.and_eq_true, List.any_eq_true, List.all_eq_true, beq_iff_eq] at hroot
  obtain ⟨hone, unit, hunit, hlabel, hname, hparams, call, hcall, hrest⟩ := hroot
  obtain ⟨q, hq⟩ := parse_of_match (Parser.start_sound hstart) hmatched
  exact ⟨_, q, root, unit, call, hstart, hq, hone, hunit, hlabel, hname, hparams, hcall, hrest⟩

end FortranJulia
