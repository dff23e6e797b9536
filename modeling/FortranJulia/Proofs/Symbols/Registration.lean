import FortranJulia.Proofs.Naming.Repetition
import FortranJulia.Proofs.Parsing.UnitNames

/-!
Registration of program units. A routine is registered with its kind and its dummy arguments, and a
second routine of its name is an error; main programs and block data are registered over whatever has
their name. The units are registered before lowering, so that a routine that is defined again is reported,
whatever else the program declares.
-/

namespace FortranJulia

set_option autoImplicit false

/-! ## Routines -/

namespace Node

/-- The kind of symbol that a unit is registered as. -/
def unitKind (unit : Node) : SymbolKind :=
  (({} : Collection).header unit).1.kind

/-- The dummy arguments in the first statement of a unit; alternate returns are left out. -/
def arguments (unit : Node) : List String :=
  (unit.label?.bind fun l => unit.child? l.unitHead).elim [] fun stmt =>
    (stmt.findAll .dummyArgName).map (·.text)

/-- The error that a unit is of the name of a routine. -/
def redefinition (unit : Node) : DeclarationError :=
  .redefined unit.place.1 unit.unitKind unit.unitName

end Node

namespace Collection

theorem header_line (c : Collection) (unit : Node) : (c.header unit).1.line = unit.place.1 := by
  unfold header
  split <;> rfl

theorem header_kind (c : Collection) (unit : Node) : (c.header unit).1.kind = unit.unitKind := by
  unfold Node.unitKind header
  split <;> rfl

/-- A unit is registered as something that is called if and only if it is a routine. -/
theorem unitKind_callable (unit : Node) : unit.unitKind.isCallable = unit.isRoutine := by
  unfold Node.unitKind Node.isRoutine Node.hasLabel header
  split <;> simp_all [SymbolKind.isCallable]

theorem header_arguments (c : Collection) {unit : Node} (h : unit.isRoutine) :
    (c.header unit).1.params.map nameKey = unit.arguments.map nameKey := by
  simp only [Node.isRoutine, Node.hasLabel, Bool.or_eq_true, beq_iff_eq] at h
  rcases h with h | h
  all_goals
    simp only [header, Node.arguments, h, Option.bind_some, Label.unitHead]
    rw [(c.params_spelled _).2.2]
    cases unit.child? _ <;> simp

theorem params_errors (c : Collection) (stmt : Option Node) : (c.params stmt).2.errors = c.errors := by
  cases stmt with
  | none => rfl
  | some n =>
    have hfold : ∀ (args : List Node) (r : List String × Collection),
        (args.foldl addParam r).2.errors = r.2.errors := by
      intro args
      induction args with
      | nil => exact fun _ => rfl
      | cons arg args ih => exact fun r => ih (addParam r arg)
    exact hfold (n.findAll .dummyArgName) ([], c)

theorem header_errors (c : Collection) (unit : Node) : (c.header unit).2.errors = c.errors := by
  unfold header
  split
  · exact c.params_errors _
  · exact c.params_errors _
  · rfl
  · rfl

/-- Is there a routine in the global scope that a unit would define again? -/
def Clashes (c : Collection) (unit : Node) : Prop :=
  unit.unitName ≠ "" ∧ unit.isRoutine ∧ (c.table.global.get? unit.unitName).any (·.kind.isCallable)

instance (c : Collection) (unit : Node) : Decidable (c.Clashes unit) :=
  inferInstanceAs (Decidable (_ ∧ _))

/-- A unit that is registered is reported if it defines a routine again. -/
theorem addUnit_errors (c : Collection) (unit : Node) : (c.addUnit unit).errors =
    c.errors ++ if c.Clashes unit then [unit.redefinition] else [] := by
  obtain ⟨hkin, -⟩ := c.header_spelled unit
  rw [addUnit, register, c.header_name, c.header_kind, c.header_line, hkin.global, unitKind_callable]
  simp only [Clashes, beq_iff_eq, Bool.and_eq_true]
  by_cases hname : unit.unitName = ""
  · simp [hname, c.header_errors]
  · simp only [hname, if_false, ne_eq, not_false_eq_true, true_and, and_comm (a := unit.isRoutine = true)]
    split
    · rw [report, c.header_errors]
      rfl
    · rw [c.header_errors, List.append_nil]

/-! ## Registered routines -/

/-- A routine is known with its kind and its dummy arguments. -/
def Registers (c : Collection) (unit : Node) : Prop :=
  ∃ y, c.table.global.get? unit.unitName = some y ∧ y.kind = unit.unitKind ∧
    y.params.map nameKey = unit.arguments.map nameKey

theorem registers_unit (c : Collection) {unit : Node} (h : unit.isRoutine) (hname : unit.unitName ≠ "") :
    (c.addUnit unit).Registers unit := by
  obtain ⟨y, hkind, hparams, hget⟩ := c.addUnit_get? unit
  refine ⟨y, ?_, hkind.trans (c.header_kind unit), ?_⟩
  · rw [hget, if_pos ⟨rfl, hname⟩]
  · rw [hparams, c.header_arguments h]

/-- A routine stays registered if the next unit neither clashes nor is another kind of unit of its name. -/
theorem registers_other {c : Collection} {unit other : Node} (h : c.Registers unit)
    (hunit : unit.isRoutine) (hclash : ¬ c.Clashes other)
    (hother : nameKey other.unitName = nameKey unit.unitName → other.isRoutine) :
    (c.addUnit other).Registers unit := by
  obtain ⟨y, hy, hkind, hparams⟩ := h
  obtain ⟨z, -, -, hget⟩ := c.addUnit_get? other
  refine ⟨y, ?_, hkind, hparams⟩
  rw [hget, if_neg, hy]
  rintro ⟨hkey, hname⟩
  refine hclash ⟨hname, hother hkey.symm, ?_⟩
  have hsame : c.table.global.get? other.unitName = some y := by
    rw [← hy, Scope.get?, Scope.get?, hkey]
  rw [hsame, Option.any_some, hkind, unitKind_callable]
  exact hunit

/-- Errors stay when further units are registered. -/
theorem errors_units (units : List Node) : ∀ c : Collection,
    c.errors <+: (units.foldl addUnit c).errors := by
  induction units with
  | nil => exact fun c => List.prefix_rfl
  | cons unit units ih =>
    intro c
    rw [List.foldl_cons]
    exact List.IsPrefix.trans (c.addUnit_errors unit ▸ List.prefix_append _ _) (ih (c.addUnit unit))

/-- If no unit is reported, a routine stays registered behind which no other kind of unit has its name. -/
theorem registers_units {unit : Node} (hunit : unit.isRoutine) :
    ∀ {units : List Node} {c : Collection}, c.Registers unit → (units.foldl addUnit c).errors = [] →
      (∀ other ∈ units, nameKey other.unitName = nameKey unit.unitName → other.isRoutine) →
      (units.foldl addUnit c).Registers unit := by
  intro units
  induction units with
  | nil => exact fun h _ _ => h
  | cons other units ih =>
    intro c h herrors hapart
    have hclash : ¬ c.Clashes other := fun hclash => by
      have hprefix := errors_units units (c.addUnit other)
      rw [← List.foldl_cons, herrors, List.prefix_nil, addUnit_errors, if_pos hclash] at hprefix
      simp at hprefix
    exact ih (registers_other h hunit hclash (hapart other (by simp))) herrors
      (fun n hn => hapart n (by simp [hn]))

/-! ## Errors about units -/

/-- The errors that are about program units. -/
def redefinitions (c : Collection) : List DeclarationError :=
  c.errors.filter fun e => e matches .redefined ..

theorem redefinitions_report (c : Collection) {e : DeclarationError} (h : (e matches .redefined ..) = false) :
    (c.report e).redefinitions = c.redefinitions := by
  rw [redefinitions, report, List.filter_append, List.filter_cons_of_neg (by simp [h]), List.filter_nil,
    List.append_nil]
  rfl

theorem redefinitions_each {ns : List Node} {f : Collection → Node → Collection}
    (h : ∀ c n, (f c n).redefinitions = c.redefinitions) (c : Collection) :
    (c.each ns f).redefinitions = c.redefinitions := by
  unfold each
  induction ns generalizing c with
  | nil => rfl
  | cons n ns ih => rw [List.foldl_cons, ih, h]

theorem redefinitions_implicitRange (type : Option TypeName) (c : Collection) (range : Node) :
    (implicitRange type c range).redefinitions = c.redefinitions := by
  unfold implicitRange
  extract_lets letters
  split
  · split
    · split
      · rfl
      · exact c.redefinitions_report rfl
    · exact c.redefinitions_report rfl
  · rfl

/-- No statement redefines a unit. -/
theorem redefinitions_statement {c d : Collection} {n : Node} (h : c.statement? n = some d) :
    d.redefinitions = c.redefinitions := by
  unfold statement? at h
  split at h
  all_goals cases h
  · refine redefinitions_each (fun c k => ?_) c
    dsimp only
    split <;> rfl
  · refine redefinitions_each (fun c k => ?_) c
    rfl
  · refine redefinitions_each (fun c k => ?_) c
    dsimp only
    split <;> rfl
  · refine redefinitions_each (fun c k => ?_) c
    rfl
  · refine redefinitions_each (fun c k => ?_) c
    rfl
  · refine redefinitions_each (fun c k => ?_) c
    rfl
  · unfold implicitTypes
    split
    · rfl
    · exact redefinitions_each (fun c spec => redefinitions_each (redefinitions_implicitRange _) c) c
  · unfold assignment
    split
    · rfl
    · dsimp only
      split <;> rfl
  · rfl
  · rfl
  · rfl

section Units

variable {unit : Node} (h : unit.Placed) (hl : unit.label?.any Label.isUnit)

include h hl

/-- The error that a unit adds to those of the units before it. -/
theorem redefinitions_unit (c : Collection) : (visit false c unit).redefinitions =
    c.redefinitions ++ if c.Clashes unit then [unit.redefinition] else [] := by
  have hinside : ∀ d : Collection, (visitAll false d unit.children).redefinitions = d.redefinitions := by
    intro d
    refine visitAll_keeps (I := fun e _ => e.redefinitions = d.redefinitions) (d := d) unit.children
      (unit_no_unit h hl) (fun n hn m hm e f he => ?_) rfl
    cases hstmt : e.statement? m with
    | none => exact he
    | some e' => exact (redefinitions_statement hstmt).trans he
  calc (visit false c unit).redefinitions
      = (visitAll false ((c.addUnit unit).enter (c.header unit).1) unit.children).redefinitions := by
        rw [visit_whole c hl]
        rfl
    _ = (c.addUnit unit).redefinitions := hinside _
    _ = c.redefinitions ++ if c.Clashes unit then [unit.redefinition] else [] := by
        rw [redefinitions, addUnit_errors, List.filter_append]
        split <;> rfl

/-- The statements of a unit leave the global scope as it is registered. -/
theorem global_unit (c : Collection) :
    (visit false c unit).table.global = (c.addUnit unit).table.global := by
  obtain ⟨-, hspelled⟩ := c.header_spelled unit
  have hopen : ((c.addUnit unit).enter (c.header unit).1).table.opened.isSome := by
    unfold enter
    dsimp only
    split <;> rfl
  have hkin := unit_kin h hl hopen
  rw [visit_whole c hl]
  show (visitAll false _ unit.children).table.global = _
  rw [hkin.global, (enter_frame _ _).2]

end Units

/-- The same names stand for routines in two global scopes. -/
def SameRoutines (c d : Collection) : Prop :=
  ∀ x, (c.table.global.get? x).any (·.kind.isCallable) = (d.table.global.get? x).any (·.kind.isCallable)

theorem SameRoutines.add {c d : Collection} (h : c.SameRoutines d) (unit : Node) :
    (c.addUnit unit).SameRoutines (d.addUnit unit) := by
  intro x
  obtain ⟨y, hy, -, hc⟩ := c.addUnit_get? unit
  obtain ⟨z, hz, -, hd⟩ := d.addUnit_get? unit
  rw [hc, hd]
  split
  · rw [Option.any_some, Option.any_some, hy, hz, header_kind, header_kind]
  · exact h x

/-- A walk through whole units finds the errors about units that their registration finds. -/
theorem redefinitions_units {units : List Node}
    (h : ∀ unit ∈ units, unit.Placed ∧ unit.label?.any Label.isUnit) :
    ∀ {c d : Collection}, c.SameRoutines d → c.redefinitions = d.errors →
      (visitAll false c units).redefinitions = (units.foldl addUnit d).errors := by
  induction units with
  | nil => exact fun _ herrors => herrors
  | cons unit units ih =>
    intro c d hsame herrors
    obtain ⟨hplaced, hl⟩ := h unit (by simp)
    refine ih (fun n hn => h n (by simp [hn])) (fun x => ?_) ?_
    · rw [global_unit hplaced hl]
      exact hsame.add unit x
    · have hclashes : c.Clashes unit ↔ d.Clashes unit := by rw [Clashes, Clashes, hsame]
      rw [redefinitions_unit hplaced hl, herrors, addUnit_errors]
      simp only [hclashes]

theorem visitAll_append (b : Bool) (c : Collection) (ms ns : List Node) :
    visitAll b c (ms ++ ns) = visitAll b (visitAll b c ms) ns := by
  induction ms generalizing c with
  | nil => rfl
  | cons m ms ih => exact ih (visit b c m)

theorem visitAll_leaves (b : Bool) {ns : List Node} (h : ∀ n ∈ ns, n.isLeaf) (c : Collection) :
    visitAll b c ns = c := by
  refine visitAll_unchanged (fun n hn c => ?_) c
  cases n with
  | leaf => rfl
  | inner => cases h _ hn

end Collection

/-! ## Reports -/

theorem part_of_intercalate {α : Type} {sep part : List α} {parts : List (List α)} (h : part ∈ parts) :
    part <:+: sep.intercalate parts := by
  induction parts with
  | nil => cases h
  | cons first parts ih =>
    cases parts with
    | nil =>
      obtain rfl := List.mem_singleton.1 h
      simp [List.intercalate]
    | cons next parts =>
      rw [List.intercalate_cons_cons]
      rcases List.mem_cons.1 h with rfl | h
      · rw [List.append_assoc]
        exact (List.prefix_append _ _).isInfix
      · exact (ih h).trans (List.suffix_append _ _).isInfix

/-- A generator starts with one warning about all errors that the registration of units has found. -/
theorem Generator.start_reports {root : Node} (o : Options) {e : DeclarationError}
    (h : e ∈ (Collection.ofTree true (some root) .empty).errors) :
    ∃ d ∈ (start root o).state.diagnostics, d.severity = .warning ∧ d.rule = Diagnostic.programUnit ∧
      e.message.toList <:+: d.message.toList := by
  unfold start
  dsimp only
  split
  · rename_i hnone
    rw [hnone] at h
    cases h
  · refine ⟨_, List.mem_singleton_self _, rfl, rfl, ?_⟩
    rw [Julia.Expr.separated, String.toList_intercalate, List.map_map]
    exact part_of_intercalate (List.mem_map_of_mem h)

/-! ## Main statements -/

section Programs

variable {source : String} {o : Options} {p q : Parser} {root : Node}

/-- Everything that a parsed program declares has the errors about units that registering its units has. -/
theorem parse_redefinitions (hp : Parser.start? o.source (scan source) = some p)
    (hq : p.parse = .ok (.ok root, q)) :
    (Collection.ofTree false (some root) .empty).redefinitions =
      (Collection.ofTree true (some root) .empty).errors := by
  have hplaced := parse_placed hp hq
  obtain ⟨hroot, hparts⟩ := parse_program hp hq
  have htree : Collection.ofTree false (some root) .empty = Collection.visitAll false {} root.children := by
    cases root with
    | leaf => simp [Node.hasLabel, Node.label?] at hroot
    | inner i l cs =>
      have hl : l = .program ∨ l = .loneName := by simpa [Node.hasLabel, Node.label?] using hroot
      exact Collection.visit_inner (by rcases hl with rfl | rfl <;> simp) _
  have hnone : ∀ ns : List Node, (∀ n ∈ ns, n.isLeaf) → ns.filter (·.hasLabel .executableProgram) = [] := by
    refine fun ns hns => List.filter_eq_nil_iff.2 fun n hn => ?_
    have hleaf := hns n hn
    cases n with
    | leaf => simp [Node.hasLabel, Node.label?]
    | inner => cases hleaf
  rw [Collection.ofTree_units hroot hparts, htree, Node.units, Node.childrenWith]
  rcases parse_source hp hq with ⟨-, hleaves⟩ | ⟨-, front, j, units, back, hchildren, hleaves, hunits⟩
  · rw [Collection.visitAll_leaves false hleaves, hnone _ hleaves]
    rfl
  · have hfront : ∀ n ∈ front, n.isLeaf := fun n hn => hleaves n (List.mem_append_left _ hn)
    have hback : ∀ n ∈ back, n.isLeaf := fun n hn => hleaves n (List.mem_append_right _ hn)
    have hwhole : ∀ unit ∈ units, unit.Placed ∧ unit.label?.any Label.isUnit := by
      refine fun unit hunit => ⟨?_, hunits unit hunit⟩
      have hpart : Node.inner j .executableProgram units ∈ root.children := by simp [hchildren]
      exact (hplaced.child hpart).child hunit
    have hprogram : Collection.visit false {} (.inner j .executableProgram units) =
        Collection.visitAll false {} units := Collection.visit_inner (by simp) _
    rw [hchildren, Collection.visitAll_append, Collection.visitAll_leaves false hfront, Collection.visitAll,
      Collection.visitAll_leaves false hback, hprogram, List.filter_append, hnone _ hfront,
      List.filter_cons_of_pos (by rfl), hnone _ hback]
    simp only [List.nil_append, List.flatMap_cons, List.flatMap_nil, List.append_nil, Node.children]
    exact Collection.redefinitions_units hwhole (fun _ => rfl) rfl

/-- If the registration of the units of a program finds no error, a routine is in the global scope with its
kind and its dummy arguments, unless another kind of unit behind it has its name. -/
theorem routines_registered (hp : Parser.start? o.source (scan source) = some p)
    (hq : p.parse = .ok (.ok root, q)) {before after : List Node} {unit : Node}
    (hunits : root.units = before ++ unit :: after) (hroutine : unit.isRoutine)
    (hlast : ∀ other ∈ after, nameKey other.unitName = nameKey unit.unitName → other.isRoutine)
    (herrors : (Collection.ofTree true (some root) .empty).errors = []) :
    ∃ y, (Collection.ofTree true (some root) .empty).table.global.get? unit.unitName = some y ∧
      (unit.hasLabel .functionSubprogram → y.kind = .function) ∧
      (unit.hasLabel .subroutineSubprogram → y.kind = .subroutine) ∧
      y.params.map nameKey = unit.arguments.map nameKey := by
  obtain ⟨hroot, hparts⟩ := parse_program hp hq
  have hname : unit.unitName ≠ "" := parse_unitName hp hq (by simp [hunits]) hroutine
  rw [Collection.ofTree_units hroot hparts, hunits, List.foldl_append, List.foldl_cons] at herrors ⊢
  obtain ⟨y, hy, hkind, hparams⟩ := Collection.registers_units hroutine
    (Collection.registers_unit _ hroutine hname) herrors hlast
  refine ⟨y, hy, fun hl => hkind.trans ?_, fun hl => hkind.trans ?_, hparams⟩
  · simp [Node.unitKind, Collection.header, eq_of_beq hl]
  · simp [Node.unitKind, Collection.header, eq_of_beq hl]

/-- A subroutine with the name of the main program in front of it. -/
theorem routines_registered_behind_program : ∃ p q root main unit y,
    Parser.start? "" (scan "PROGRAM S\nEND\nSUBROUTINE S(X,*)\nEND") = some p ∧
    p.parse = .ok (.ok root, q) ∧ root.units = [main, unit] ∧ main.unitName = "S" ∧
    (Collection.ofTree true (some root) .empty).table.global.get? unit.unitName = some y ∧
    y.kind = .subroutine ∧ y.params.map nameKey = ["X"] := by
  have hstart := start_scan "" "PROGRAM S\nEND\nSUBROUTINE S(X,*)\nEND"
  have hok : ((Parser.matched? { source := "", tokens :=
      (scan "PROGRAM S\nEND\nSUBROUTINE S(X,*)\nEND").toArray }).any fun root =>
        (Collection.ofTree true (some root) .empty).errors.isEmpty && (root.units.length == 2 &&
          (root.units.head?.any (·.unitName == "S") && root.units.getLast?.any fun unit =>
            unit.hasLabel .subroutineSubprogram && unit.arguments.map nameKey == ["X"]))) = true := by
    rw [scan_within]
    decide +kernel
  obtain ⟨root, hmatched, hroot⟩ := (Option.any_eq_true _ _).1 hok
  obtain ⟨q, hq⟩ := parse_of_match (Parser.start_sound hstart) hmatched
  simp only [Bool.and_eq_true, List.isEmpty_iff, beq_iff_eq] at hroot
  obtain ⟨hquiet, hlength, hmain, hlast⟩ := hroot
  obtain ⟨main, unit, hunits⟩ := List.length_eq_two.1 hlength
  simp only [hunits, List.head?_cons, List.getLast?_cons_cons, List.getLast?_singleton, Option.any_some,
    Bool.and_eq_true, beq_iff_eq] at hmain hlast
  obtain ⟨hlabel, harguments⟩ := hlast
  have hplace : root.units = [main] ++ unit :: [] := hunits
  obtain ⟨y, hy, -, hkind, hparams⟩ := routines_registered (o := {}) hstart hq hplace
    (by rw [Node.isRoutine, hlabel, Bool.or_true]) (by simp) hquiet
  exact ⟨_, q, root, main, unit, y, hstart, hq, hunits, hmain, hy, hkind hlabel, hparams.trans harguments⟩

/-- A main program with the name of the subroutine in front of it takes its place, and no error is found. -/
theorem routine_lost_to_program : ∃ p q root unit main y,
    Parser.start? "" (scan "SUBROUTINE S(X)\nEND\nPROGRAM S\nEND") = some p ∧
    p.parse = .ok (.ok root, q) ∧ root.units = [unit, main] ∧ unit.hasLabel .subroutineSubprogram ∧
    (Collection.ofTree true (some root) .empty).errors = [] ∧
    (Collection.ofTree true (some root) .empty).table.global.get? unit.unitName = some y ∧
    y.kind = .program ∧ y.params = [] ∧ unit.arguments = ["X"] := by
  have hstart := start_scan "" "SUBROUTINE S(X)\nEND\nPROGRAM S\nEND"
  have hok : ((Parser.matched? { source := "", tokens :=
      (scan "SUBROUTINE S(X)\nEND\nPROGRAM S\nEND").toArray }).any fun root =>
        (Collection.ofTree true (some root) .empty).errors.isEmpty && (root.units.length == 2 &&
          root.units.head?.any fun unit => unit.hasLabel .subroutineSubprogram && (unit.arguments == ["X"] &&
            ((Collection.ofTree true (some root) .empty).table.global.get? unit.unitName).any fun y =>
              y.kind == .program && y.params == []))) = true := by
    rw [scan_within]
    decide +kernel
  obtain ⟨root, hmatched, hroot⟩ := (Option.any_eq_true _ _).1 hok
  obtain ⟨q, hq⟩ := parse_of_match (Parser.start_sound hstart) hmatched
  simp only [Bool.and_eq_true, List.isEmpty_iff, beq_iff_eq] at hroot
  obtain ⟨hquiet, hlength, hfirst⟩ := hroot
  obtain ⟨unit, main, hunits⟩ := List.length_eq_two.1 hlength
  rw [hunits, List.head?_cons, Option.any_some] at hfirst
  simp only [Bool.and_eq_true, beq_iff_eq, Option.any_eq_true] at hfirst
  obtain ⟨hlabel, harguments, y, hy, hkind, hparams⟩ := hfirst
  exact ⟨_, q, root, unit, main, y, hstart, hq, hunits, hlabel, hquiet, hy, hkind, hparams, harguments⟩

/-- Every routine that a program defines again is reported, whatever else is wrong with its declarations. -/
theorem redefinitions_reported (hp : Parser.start? o.source (scan source) = some p)
    (hq : p.parse = .ok (.ok root, q)) :
    ∃ text g, (Generator.start root o).run (some root) = .ok (text, g) ∧
      ∀ line kind name,
        .redefined line kind name ∈ (Collection.ofTree false (some root) .empty).errors →
        ∃ d ∈ g.diagnostics, d.severity = .warning ∧ d.rule = Diagnostic.programUnit ∧
          (DeclarationError.redefined line kind name).message.toList <:+: d.message.toList := by
  have hsound : root.Sound True := fun n hn => ⟨parse_indexable hp hq hn, fun _ => trivial⟩
  obtain ⟨hlabel, hparts⟩ := parse_program hp hq
  obtain ⟨keys, hkeys⟩ := parse_blockData hp hq
  obtain ⟨s, added, hrun, hdiagnostics, -⟩ := Lower.sources_again (fun n hn => hsound.child hn) hkeys
    (Generator.start_rests hlabel hparts o) rfl (List.nil_subset _)
  refine ⟨_, _, Generator.run_sources hrun, fun line kind name he => ?_⟩
  have hfound : .redefined line kind name ∈ (Collection.ofTree true (some root) .empty).errors := by
    rw [← parse_redefinitions hp hq]
    exact List.mem_filter.2 ⟨he, rfl⟩
  obtain ⟨d, hd, hsaid⟩ := Generator.start_reports o hfound
  refine ⟨d, (Diagnostic.sorted_perm _).mem_iff.2 ?_, hsaid⟩
  rw [hdiagnostics]
  exact List.mem_append_left _ hd

/-- A subroutine that is defined twice, behind a range of letters that is reversed. -/
theorem redefinitions_reported_twice : ∃ p q root text g,
    Parser.start? "" (scan "SUBROUTINE S\nIMPLICIT REAL(Z-A)\nEND\nSUBROUTINE S\nEND") = some p ∧
    p.parse = .ok (.ok root, q) ∧ (Generator.start root {}).run (some root) = .ok (text, g) ∧
    .redefined 4 .subroutine "S" ∈ (Collection.ofTree false (some root) .empty).errors ∧
    ∃ d ∈ g.diagnostics, d.severity = .warning ∧ d.rule = Diagnostic.programUnit ∧
      "line 4: Subroutine \"S\" redefined".toList <:+: d.message.toList := by
  have hstart := start_scan "" "SUBROUTINE S\nIMPLICIT REAL(Z-A)\nEND\nSUBROUTINE S\nEND"
  have hok : ((Parser.matched? { source := "", tokens :=
      (scan "SUBROUTINE S\nIMPLICIT REAL(Z-A)\nEND\nSUBROUTINE S\nEND").toArray }).any fun root =>
        (Collection.ofTree false (some root) .empty).errors.contains
          (.redefined 4 .subroutine "S")) = true := by
    rw [scan_within]
    decide +kernel
  obtain ⟨root, hmatched, hroot⟩ := (Option.any_eq_true _ _).1 hok
  have herror := List.contains_iff_mem.1 hroot
  obtain ⟨q, hq⟩ := parse_of_match (Parser.start_sound hstart) hmatched
  obtain ⟨text, g, hrun, hreported⟩ := redefinitions_reported (o := {}) hstart hq
  have hmessage : (DeclarationError.redefined 4 .subroutine "S").message =
      "line 4: Subroutine \"S\" redefined" := by decide +kernel
  refine ⟨_, q, root, text, g, hstart, hq, hrun, herror, ?_⟩
  rw [← hmessage]
  exact hreported 4 .subroutine "S" herror

/-- A range of letters that is reversed is an error of the program, and nothing is reported. -/
theorem reversed_range_unreported : ∃ p q root,
    Parser.start? "" (scan "PROGRAM P\nIMPLICIT INTEGER(Z-A)\nX=1\nEND") = some p ∧
    p.parse = .ok (.ok root, q) ∧
    (Collection.ofTree false (some root) .empty).errors.map DeclarationError.message =
      ["line 2: implicit range Z-A is reversed"] ∧
    ((Generator.start root {}).run (some root)).toOption.any (·.2.diagnostics.isEmpty) := by
  have hstart := start_scan "" "PROGRAM P\nIMPLICIT INTEGER(Z-A)\nX=1\nEND"
  have hok : ((Parser.matched? { source := "", tokens :=
      (scan "PROGRAM P\nIMPLICIT INTEGER(Z-A)\nX=1\nEND").toArray }).any fun root =>
        (Collection.ofTree false (some root) .empty).errors.map DeclarationError.message ==
            ["line 2: implicit range Z-A is reversed"] &&
          ((Generator.start root {}).run (some root)).toOption.any (·.2.diagnostics.isEmpty)) = true := by
    rw [scan_within]
    decide +kernel
  obtain ⟨root, hmatched, hroot⟩ := (Option.any_eq_true _ _).1 hok
  obtain ⟨herrors, hquiet⟩ := Bool.and_eq_true_iff.1 hroot
  obtain ⟨q, hq⟩ := parse_of_match (Parser.start_sound hstart) hmatched
  exact ⟨_, q, root, hstart, hq, eq_of_beq herrors, hquiet⟩

end Programs

end FortranJulia
