import FortranJulia.Lowering.Declaration
import FortranJulia.Proofs.Meaning.Translation

/-!
The values of a parsed program. What is written for an expression in the tree of a source has the
value of the expression, and what is written on the right of an assignment to a scalar has that value
as one of the type of the scalar.
-/

namespace FortranJulia

set_option autoImplicit false

open Julia (Expr)

/-! ## Conversions -/

theorem truncate_int (n : Int) : Quantity.truncate n = n := by
  simp [Quantity.truncate]

/-- A converted value is that of a variable of the type. -/
theorem writes_converted {p : Powers} {values : String → Quantity} {e : Expr} {v w : Quantity}
    {type : TypeName} (h : Writes p values 0 e v) (hw : v.storedIn type = some w) :
    Writes p values 0 (convertValue (some type) (some v.type) e) w := by
  cases type with
  | integer =>
    cases v with
    | integer n =>
      simp only [Quantity.storedIn, Quantity.toInteger, Quantity.number?, Option.map_some,
        truncate_int, Option.some.injEq] at hw
      subst hw
      exact h
    | real x => exact (writes_trunc h hw).weaker (by decide)
    | logical => cases hw
  | real =>
    cases v with
    | integer n =>
      cases hw
      exact writes_floatValue h
    | real x =>
      cases hw
      exact h
    | logical => cases hw
  | logical =>
    cases v with
    | logical b =>
      cases hw
      exact h
    | integer | real => cases hw
  | doublePrecision | complex | character | other => cases hw

/-! ## Nodes -/

section Nodes

variable {p : Powers} {names : String → Quantity} {n : Node} {v : Quantity}

/-- The expression of a node is lowered to one of the same value. -/
theorem Node.Reads.yields {k : Nat} (h : n.Reads k)
    (hproper : ∀ lx ∈ n.lexemes, lx.kind ≠ .eof → lx.Proper) {s : LowerState}
    (ht : Typed s.collection.table names (· ∈ n.lexemes)) (hv : n.value p names = some v) :
    Yields (· ∈ n.lexemes) names s (Lower.exprOf n) (fun values e => Writes p values k e v) := by
  obtain ⟨-, e, hpart, hfits, hvalue⟩ := h
  have hexpression : n.expression? = some e := by rw [Node.expression?, hpart]
  rw [exprOf_expression hexpression]
  rw [hvalue p names] at hv
  exact (fits_translates hfits hproper s v ht hv).imp (fun _ _ hw => hw.1)

theorem Node.Reads.typed {k : Nat} (h : n.Reads k) {s : LowerState}
    (ht : Typed s.collection.table names (· ∈ n.lexemes)) (hv : n.value p names = some v) :
    (Lower.typeOfNode n).run s = .ok (some v.type, s) := by
  obtain ⟨-, e, hpart, hfits, hvalue⟩ := h
  have htype : Lower.typeOfNode n = Lower.typeOf e := by
    rw [Lower.typeOfNode, Lower.expressionOf, Node.expression?, hpart]
    exact pure_bind e Lower.typeOf
  rw [hvalue p names] at hv
  rw [htype, ← type_value hfits ht v hv]
  rfl

/-- An expression as a value of a type. -/
theorem Node.Reads.yields_converted {k : Nat} (h : n.Reads k)
    (hproper : ∀ lx ∈ n.lexemes, lx.kind ≠ .eof → lx.Proper) {s : LowerState}
    (ht : Typed s.collection.table names (· ∈ n.lexemes)) (hv : n.value p names = some v)
    {type : TypeName} {w : Quantity} (hw : v.storedIn type = some w) :
    Yields (· ∈ n.lexemes) names s (Lower.converted (some type) n)
      (fun values e => Writes p values 0 e w) := by
  have hmap := yields_map (W := fun values e => Writes p values 0 e w)
    (convertValue (some type) (some v.type)) (h.yields hproper ht hv)
    (fun _ _ he => writes_converted (he.weaker (Nat.zero_le k)) hw)
  obtain ⟨e, more, hrun, he⟩ := hmap
  refine ⟨e, more, ?_, he⟩
  rw [Lower.converted, Lower.run_bind_ok (h.typed ht hv)]
  exact hrun

/-- An assignment to a scalar writes one line. -/
theorem assignment_run {stmt target : Node} (h : n.Reads 0)
    (hproper : ∀ lx ∈ n.lexemes, lx.kind ≠ .eof → lx.Proper) {s : LowerState}
    (ht : Typed s.collection.table names (· ∈ n.lexemes)) (hv : n.value p names = some v)
    (htarget : stmt.child? .variableRef = some target) (hexpr : stmt.child? .expr = some n)
    (hscalar : target.childrenWith .complexDataRefTail = []) {type : TypeName}
    (htype : s.collection.table.typeOf (Lower.childText target .variableName) = some type)
    {w : Quantity} (hw : v.storedIn type = some w) :
    ∃ b right more, (Lower.assignment stmt).run s = .ok ((), { s.recorded more with
        lines := .code s.depth
          (.assign b [.name (s.variableName (Lower.childText target .variableName))] right) ::
            s.lines }) ∧
      (s.recorded more).variableName (Lower.childText target .variableName) =
        s.variableName (Lower.childText target .variableName) ∧
      ∀ values, Answers (s.recorded more) (· ∈ n.lexemes) names values →
        Writes p values 0 right w := by
  obtain ⟨more₁, hident, hlater⟩ := Lower.ident_run s (Lower.childText target .variableName)
  obtain ⟨right, more₂, hright, hwrites⟩ :=
    h.yields_converted (s := s.recorded more₁) hproper ht hv hw
  rw [LowerState.recorded_recorded] at hright
  have hleft : (Lower.target target).run s =
      .ok ((if s.unit.isGlobal then .globally else .plain,
        .name (s.variableName (Lower.childText target .variableName))), s.recorded more₁) := by
    have hbinding : Lower.binding.run s = .ok (if s.unit.isGlobal then .globally else .plain, s) := rfl
    rw [Lower.target, hscalar]
    dsimp only
    rw [Lower.run_bind_ok hbinding, Lower.run_bind_ok hident]
    rfl
  have htable : Lower.table.run s = .ok (s.collection.table, s) := rfl
  -- A statement function has a list in parentheses, which a scalar has not.
  have hfunction : ∀ y : Option Symbol,
      (y.filter fun y => y.kind == .statementFunction && !([] : List Node).isEmpty) = none := by
    intro y
    cases y <;> simp
  refine ⟨if s.unit.isGlobal then .globally else .plain, right, more₁ ++ more₂, ?_,
    by rw [← LowerState.recorded_recorded]; exact hlater more₂, fun values hvalues => ?_⟩
  · rw [Lower.assignment, htarget, hexpr]
    dsimp only
    rw [Lower.run_bind_ok htable, hscalar, hfunction, htype]
    dsimp only
    rw [List.isEmpty_nil, Bool.true_or, if_pos rfl, Lower.run_bind_ok hleft]
    dsimp only
    rw [Lower.run_bind_ok hright]
    rfl
  · refine hwrites [] values ?_
    rwa [LowerState.recorded_nil, LowerState.recorded_recorded]

theorem mem_names {lx : Lexeme} (h : lx ∈ n.lexemes) (hn : Match.isName lx) : lx.text ∈ n.names :=
  List.mem_map.2 ⟨lx, List.mem_filter.2 ⟨h, hn⟩, rfl⟩

end Nodes

/-! ## Main statement -/

/-- Values are kept. In every state in which the names of an expression of a parsed tree have values
of their types, the expression is lowered to a text that Julia reads with the value of the
expression, provided that the words written for the names stand for the same values; and on the right
of an assignment to a scalar stands a text with that value as one of the type of the scalar. -/
theorem lowering_keeps_values {name source : String} {start q : Parser} {root n : Node}
    (hstart : Parser.start? name (scan source) = some start)
    (hparse : start.parse = .ok (.ok root, q)) (hn : n ∈ root.nodes) (hlabel : n.hasLabel .expr)
    (p : Powers) (names : String → Quantity) (s : LowerState)
    (htyped : ∀ x ∈ n.names, s.collection.table.typeOf x = some (names (nameKey x)).type)
    {v : Quantity} (hv : n.value p names = some v) :
    (∃ e s', (Lower.exprOf n).run s = .ok (e, s') ∧
      ∀ values, (∀ x ∈ n.names, values (s'.variableName x) = names (nameKey x)) →
        Julia.valueOf p values e.text = some v) ∧
    ∀ stmt target, stmt.child? .variableRef = some target → stmt.child? .expr = some n →
      target.childrenWith .complexDataRefTail = [] →
      ∀ type, s.collection.table.typeOf (Lower.childText target .variableName) = some type →
      ∀ w, v.storedIn type = some w →
        ∃ b right s', (Lower.assignment stmt).run s = .ok ((), s') ∧
          s'.lines = .code s.depth
            (.assign b [.name (s'.variableName (Lower.childText target .variableName))] right) ::
              s.lines ∧
          ∀ values, (∀ x ∈ n.names, values (s'.variableName x) = names (nameKey x)) →
            Julia.valueOf p values right.text = some w := by
  have hreads := parse_reads hstart hparse hn hlabel
  have hproper : ∀ lx ∈ n.lexemes, lx.kind ≠ .eof → lx.Proper := by
    intro lx hlx
    have hscan := lexemes_of_nodes hn hlx
    rw [parse_lexemes hstart hparse] at hscan
    exact scan_proper hscan
  have ht : Typed s.collection.table names (· ∈ n.lexemes) :=
    fun lx hlx hname => htyped lx.text (mem_names hlx hname)
  refine ⟨?_, fun stmt target htarget hexpr hscalar type htype w hw => ?_⟩
  · obtain ⟨e, more, hrun, he⟩ := hreads.yields hproper ht hv
    refine ⟨e, s.recorded more, hrun, fun values hvalues => (he [] values ?_).valueOf⟩
    rw [LowerState.recorded_nil]
    exact fun lx hlx hname => hvalues lx.text (mem_names hlx hname)
  · obtain ⟨b, right, more, hrun, hlater, hright⟩ :=
      assignment_run hreads hproper ht hv htarget hexpr hscalar htype hw
    refine ⟨b, right, _, hrun, ?_, fun values hvalues => (hright values ?_).valueOf⟩
    · rw [← hlater]
      rfl
    · exact fun lx hlx hname => hvalues lx.text (mem_names hlx hname)

/-- A quotient of integers is cut off, also on its way into a real. -/
theorem lowering_keeps_values_quotient :
    let p : Powers := ⟨fun _ _ => none, fun _ _ => none⟩
    let start : Parser := { source := "", tokens := (scan "X=J/2\nEND").toArray }
    ∃ root q stmt n e s' b right s'', start.parse = .ok (.ok root, q) ∧ stmt ∈ root.nodes ∧
      stmt.child? .expr = some n ∧ n.names = ["J"] ∧ (Lower.exprOf n).run {} = .ok (e, s') ∧
      Julia.valueOf p (fun _ => .integer (-7)) e.text = some (.integer (-3)) ∧
      (Lower.assignment stmt).run {} = .ok ((), s'') ∧
      s''.lines = [.code 0 (.assign b [.name (s''.variableName "X")] right)] ∧
      Julia.valueOf p (fun _ => .integer (-7)) right.text = some (.real (-3)) := by
  intro p start
  have hstart : Parser.start? "" (scan "X=J/2\nEND") = some start := start_scan _ _
  have hok : (start.matched?.any fun root => root.nodes.any fun stmt =>
      ((stmt.child? .variableRef).any fun target =>
        (target.childrenWith .complexDataRefTail).isEmpty &&
          Lower.childText target .variableName == "X") &&
      (stmt.child? .expr).any fun n =>
        n.names == ["J"] && n.value p (fun _ => .integer (-7)) = some (.integer (-3))) = true := by
    rw [show start = { source := "", tokens := (scan "X=J/2\nEND").toArray } from rfl, scan_within]
    decide +kernel
  obtain ⟨root, hmatched, hroot⟩ := (Option.any_eq_true _ _).1 hok
  obtain ⟨q, hparse⟩ := parse_of_match (Parser.start_sound hstart) hmatched
  simp only [List.any_eq_true, Bool.and_eq_true, Option.any_eq_true, beq_iff_eq,
    decide_eq_true_eq, List.isEmpty_iff] at hroot
  obtain ⟨stmt, hstmt, ⟨target, htarget, hscalar, htext⟩, n, hn, hnames, hvalue⟩ := hroot
  have hexpr : n ∈ root.nodes ∧ n.hasLabel .expr := by
    refine ⟨nodes_trans hstmt (nodes_child (List.mem_of_find?_eq_some hn)), ?_⟩
    simpa using List.find?_some hn
  have htyped : ∀ x ∈ n.names, ({} : LowerState).collection.table.typeOf x = some .integer := by
    rw [hnames]
    decide +kernel
  obtain ⟨⟨e, s', hrun, he⟩, hassign⟩ :=
    lowering_keeps_values hstart hparse hexpr.1 hexpr.2 p (fun _ => .integer (-7)) {} htyped hvalue
  obtain ⟨b, right, s'', hrun', hlines, hright⟩ := hassign stmt target htarget hn hscalar .real
    (by rw [htext]; decide +kernel) (.real (-3)) rfl
  rw [htext] at hlines
  exact ⟨root, q, stmt, n, e, s', b, right, s'', hparse, hstmt, hn, hnames, hrun,
    he _ (fun _ _ => rfl), hrun', hlines, hright _ (fun _ _ => rfl)⟩

end FortranJulia
