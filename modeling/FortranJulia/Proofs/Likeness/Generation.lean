import FortranJulia.Proofs.Likeness.Programs

/-!
Whole sources side by side. The digest of a tree shows its parts in a guise, without the line ends that
stand between program units, but for one that the source begins with. A source and its digest are
lowered to programs that read the same, with the same diagnostics at the new numbers of their lines.
-/

namespace FortranJulia

set_option autoImplicit false

open Julia (Line)

/-! ## Digests -/

namespace Node

/-- Is the node more than a line end or the end of the source? -/
def stays (n : Node) : Bool :=
  !(n.hasKind .newline || n.hasKind .eof)

/-- The first of some nodes and those behind it that stay. -/
def kept : List Node → List Node
  | [] => []
  | n :: ns => n :: ns.filter stays

/-- The tree of a source as lowering sees it. -/
def digest (g : Guise) : Node → Node
  | .leaf _ lx => .leaf 0 (g.lexeme lx)
  | .inner _ l cs => .inner 0 l ((kept cs).map (sketch g))

/-- The tree is that of a source: tokens and program units, with a token in the first part. -/
structure Whole (root : Node) : Prop where
  label : root.hasLabel .program ∨ root.hasLabel .loneName
  orderly : root.Orderly
  parts : ∀ n ∈ root.children, n.isLeaf ∨
    n.hasLabel .executableProgram ∧ ∀ unit ∈ n.children, unit.label?.any Label.isUnit
  begins : ∀ n ∈ root.children.head?, n.firstLexeme?.isSome

theorem kept_subset (ns : List Node) : kept ns ⊆ ns := by
  cases ns with
  | nil => exact List.Subset.refl _
  | cons n ns => exact List.cons_subset_cons n (List.filter_subset_self ns)

theorem kept_childrenWith (ns : List Node) (l : Label) :
    (kept ns).filter (·.hasLabel l) = ns.filter (·.hasLabel l) := by
  cases ns with
  | nil => rfl
  | cons n ns =>
    have hrest : (ns.filter stays).filter (·.hasLabel l) = ns.filter (·.hasLabel l) := by
      rw [List.filter_filter]
      refine List.filter_congr fun m _ => ?_
      cases m with
      | leaf => rfl
      | inner => simp [stays, hasKind, lexeme?]
    rw [kept, List.filter_cons, List.filter_cons, hrest]

@[simp] theorem label?_digest (g : Guise) (n : Node) : (n.digest g).label? = n.label? := by
  cases n <;> rfl

theorem children_digest (g : Guise) (n : Node) : (n.digest g).children = (kept n.children).map (sketch g) := by
  cases n <;> rfl

namespace Whole

variable {root n : Node} (h : root.Whole) (g : Guise)

include h

theorem part_inside (hn : n ∈ root.children) : n.hasLabel .endOfStmt = false := by
  rcases h.parts n hn with hleaf | ⟨hlabel, -⟩
  · cases n with
    | leaf => rfl
    | inner => cases hleaf
  · exact not_end_of_label hlabel (by decide)

theorem part (hn : n ∈ root.children) : n.Phrase :=
  ⟨h.orderly.child hn, h.part_inside hn⟩

theorem unit (hn : n ∈ root.children) (hl : n.hasLabel .executableProgram) :
    ∀ u ∈ n.children, u.Phrase := by
  intro u hu
  refine ⟨(h.orderly.child hn).child hu, ?_⟩
  rcases h.parts n hn with hleaf | ⟨-, hunits⟩
  · cases n with
    | leaf => cases hl
    | inner => cases hleaf
  · have hunit := hunits u hu
    cases u with
    | leaf => rfl
    | inner i l cs =>
      have hne : l ≠ .endOfStmt := by
        rintro rfl
        cases hunit
      simpa [hasLabel, label?] using hne

theorem place_digest : (root.digest g).place = (g.line root.place.1, root.place.2) := by
  have hfirst : (root.digest g).firstLexeme? = root.firstLexeme?.map g.lexeme := by
    cases root with
    | leaf => rfl
    | inner i l cs =>
      cases cs with
      | nil => rfl
      | cons c cs =>
        have hc := h.part (n := c) (by simp [children])
        obtain ⟨lx, hlx⟩ := Option.isSome_iff_exists.1 (h.begins c rfl)
        have hsketch := firstLexeme?_sketch g hc.orderly hc.inside
        simp only [digest, kept, List.map_cons, firstLexeme?, firstLexemeOf?, hsketch, hlx, Option.map_some]
  rw [place, hfirst, place]
  cases root.firstLexeme? with
  | none => simp [g.line_zero]
  | some lx => rfl

theorem digest_parts : ∀ n ∈ (root.digest g).children, n.isLeaf ∨
    n.hasLabel .executableProgram ∧ ∀ unit ∈ n.children, unit.label?.any Label.isUnit := by
  rw [children_digest]
  intro m hm
  obtain ⟨n, hn, rfl⟩ := List.mem_map.1 hm
  have hmem := kept_subset _ hn
  rw [isLeaf_sketch, hasLabel_sketch, children_sketch g n (h.part_inside hmem)]
  refine (h.parts n hmem).imp_right fun ⟨hlabel, hunits⟩ => ⟨hlabel, fun u hu => ?_⟩
  obtain ⟨v, hv, rfl⟩ := List.mem_map.1 hu
  rw [label?_sketch]
  exact hunits v hv

theorem units_digest : (root.digest g).units = root.units.map (sketch g) := by
  have hparts : (root.digest g).childrenWith .executableProgram =
      (root.childrenWith .executableProgram).map (sketch g) := by
    rw [childrenWith, children_digest, List.filter_map]
    simp only [Function.comp_def, hasLabel_sketch, kept_childrenWith]
    rfl
  rw [units, hparts, units, List.flatMap_map, List.map_flatMap]
  refine List.flatMap_congr fun n hn => ?_
  exact children_sketch g n (h.part_inside (List.mem_filter.1 hn).1)

end Whole

end Node

namespace Lower

variable {g : Guise}

/-! ## Parts of a source -/

/-- Line ends and the end of the source are lowered to nothing. -/
theorem lowered_to_nothing {n : Node} (h : n.stays = false) :
    sourcePart n = pure () ∧ sourceRemarks n = [] := by
  cases n with
  | leaf i lx =>
    have hkind : lx.kind = .newline ∨ lx.kind = .eof := by
      simpa [Node.stays, Node.hasKind, Node.lexeme?, or_iff_not_imp_left] using h
    rcases hkind with hkind | hkind <;> simp [sourcePart, sourceRemarks, hkind]
  | inner => simp [Node.stays, Node.hasKind, Node.lexeme?] at h

/-- The parts of a source with and without those that do not stay. -/
theorem agrees_stayingParts {ns : List Node} (h : ∀ n ∈ ns, n.Phrase)
    (hunits : ∀ n ∈ ns, n.hasLabel .executableProgram → ∀ u ∈ n.children, u.Phrase) :
    Agrees g (ns.flatMap sourceRemarks) Eq (ns.forM sourcePart)
      (((ns.filter Node.stays).map (Node.sketch g)).forM sourcePart) := by
  induction ns with
  | nil => exact .pure rfl
  | cons n ns ih =>
    have hrest := ih (fun m hm => h m (by simp [hm])) fun m hm => hunits m (by simp [hm])
    cases hn : n.stays with
    | true =>
      rw [List.filter_cons_of_pos hn, List.map_cons, List.flatMap_cons]
      exact (agrees_sourcePart (h n (by simp)) (hunits n (by simp))).follow fun _ _ _ => hrest
    | false =>
      obtain ⟨hpart, hremarks⟩ := lowered_to_nothing hn
      have hforM : (n :: ns).forM sourcePart = ns.forM sourcePart := by
        show (sourcePart n >>= fun _ => ns.forM sourcePart) = _
        rw [hpart, pure_bind]
      rw [List.filter_cons_of_neg (by simp [hn]), List.flatMap_cons, hremarks, hforM]
      exact hrest

theorem agrees_sourceParts {root : Node} (h : root.Whole) :
    Agrees g (root.children.flatMap sourceRemarks) Eq (root.children.forM sourcePart)
      ((root.digest g).children.forM sourcePart) := by
  rw [Node.children_digest]
  have hparts : ∀ n ∈ root.children, n.Phrase := fun n hn => h.part hn
  have hunits := fun n (hn : n ∈ root.children) => h.unit hn
  generalize root.children = cs at hparts hunits ⊢
  cases cs with
  | nil => exact .pure rfl
  | cons c cs =>
    rw [Node.kept, List.map_cons, List.flatMap_cons]
    refine (agrees_sourcePart (hparts c (by simp)) (hunits c (by simp))).follow fun _ _ _ => ?_
    exact agrees_stayingParts (fun n hn => hparts n (by simp [hn])) fun n hn => hunits n (by simp [hn])

end Lower

/-! ## Diagnostics -/

namespace Diagnostic

theorem notAfter_alike {g : Guise} {a b a' b' : Diagnostic} (ha : a.Alike g a') (hb : b.Alike g b') :
    notAfter a' b' = notAfter a b := by
  obtain ⟨k, hk, hk'⟩ := ha.place
  obtain ⟨m, hm, hm'⟩ := hb.place
  have hlt : ((g.line k : Int) < g.line m) ↔ (k : Int) < m := by
    rw [Int.ofNat_lt, Int.ofNat_lt, g.strict.lt_iff_lt]
  have heq : ((g.line k : Int) = g.line m) ↔ (k : Int) = m := by
    rw [Int.ofNat_inj, Int.ofNat_inj, g.strict.injective.eq_iff]
  rw [notAfter, notAfter, hk, hk', hm, hm', ha.col, hb.col, Bool.eq_iff_iff]
  simp only [Bool.or_eq_true, Bool.and_eq_true, decide_eq_true_eq, beq_iff_eq, hlt, heq]

/-- Diagnostics at the new numbers of their lines are put in the same order. -/
theorem sorted_alike {g : Guise} {ds ds' : List Diagnostic} (h : List.Forall₂ (Alike g) ds ds') :
    List.Forall₂ (Alike g) (sorted ds) (sorted ds') := by
  -- The order of the pairs is that of the first diagnostics and that of the second ones.
  obtain ⟨pairs, hall, rfl, rfl⟩ : ∃ pairs : List (Diagnostic × Diagnostic),
      (∀ r ∈ pairs, r.1.Alike g r.2) ∧ pairs.map (·.1) = ds ∧ pairs.map (·.2) = ds' := by
    induction h with
    | nil => exact ⟨[], by simp, rfl, rfl⟩
    | @cons d d' _ _ hd _ ih =>
      obtain ⟨pairs, hall, rfl, rfl⟩ := ih
      exact ⟨(d, d') :: pairs, List.forall_mem_cons.2 ⟨hd, hall⟩, rfl, rfl⟩
  let order : Diagnostic × Diagnostic → Diagnostic × Diagnostic → Bool := fun a b => notAfter a.1 b.1
  have hfirst : sorted (pairs.map (·.1)) = (pairs.mergeSort order).map (·.1) :=
    (List.map_mergeSort (f := Prod.fst) fun _ _ _ _ => rfl).symm
  have hsecond : sorted (pairs.map (·.2)) = (pairs.mergeSort order).map (·.2) :=
    (List.map_mergeSort (f := Prod.snd) fun a ha b hb =>
      (notAfter_alike (hall a ha) (hall b hb)).symm).symm
  rw [hfirst, hsecond, List.forall₂_map_left_iff, List.forall₂_map_right_iff, List.forall₂_same]
  exact fun r hr => hall r (List.mem_mergeSort.1 hr)

end Diagnostic

/-! ## Generators -/

namespace Generator

variable {g : Guise}

/-- What is declared before the first statement is lowered. -/
theorem start_collection {root : Node} (h : root.Whole) :
    Collection.ofTree true (some (root.digest g)) .empty =
      g.collection (Collection.ofTree true (some root) .empty) := by
  have hlabel : (root.digest g).hasLabel .program ∨ (root.digest g).hasLabel .loneName := by
    simp only [Node.hasLabel, Node.label?_digest]
    exact h.label
  have hfold : ∀ (units : List Node) (c : Collection), (∀ u ∈ units, u.Phrase) →
      (units.map (Node.sketch g)).foldl Collection.addUnit (g.collection c) =
        g.collection (units.foldl Collection.addUnit c) := by
    intro units
    induction units with
    | nil => exact fun _ _ => rfl
    | cons u units ih =>
      intro c hunits
      have hu := hunits u (by simp)
      rw [List.map_cons, List.foldl_cons, List.foldl_cons, Collection.addUnit,
        Collection.header_sketch g c hu.orderly hu.inside, Collection.register_header]
      exact ih _ fun v hv => hunits v (by simp [hv])
  have hunits : ∀ u ∈ root.units, u.Phrase := by
    intro u hu
    obtain ⟨n, hn, hu⟩ := List.mem_flatMap.1 hu
    obtain ⟨hn, hl⟩ := List.mem_filter.1 hn
    exact h.unit hn hl u hu
  have hempty : g.collection {} = {} := by
    rw [Guise.collection, g.table_empty]
    rfl
  rw [Collection.ofTree_units hlabel (h.digest_parts g), Collection.ofTree_units h.label h.parts,
    h.units_digest, ← hfold _ _ hunits, hempty]

theorem start_alike {root : Node} (h : root.Whole) (o : Options) :
    (start root o).state.Alike g (start (root.digest g) o).state := by
  have hcollection := start_collection (g := g) h
  have hplace := h.place_digest g
  simp only [start, hcollection, hplace]
  refine ⟨rfl, ?_, rfl, .nil, rfl, .empty g, rfl⟩
  generalize Collection.ofTree true (some root) .empty = c
  cases hc : c.errors with
  | nil =>
    simp only [Guise.collection, hc, List.map_nil]
    exact .nil
  | cons e es =>
    simp only [Guise.collection, hc, List.map_cons]
    refine .cons ⟨rfl, rfl, ⟨root.place.1, rfl, rfl⟩, rfl, ?_⟩ .nil
    exact .errors (e :: es)

/-- What a generator gives for a source and for one that looks like it in a guise. -/
structure Likewise (g : Guise) (r r' : String × Generator) : Prop where
  program : g.text r.1 = g.text r'.1
  diagnostics : List.Forall₂ (Diagnostic.Alike g) r.2.diagnostics r'.2.diagnostics
  overflow : r'.2.state.overflow = r.2.state.overflow

/-- The lines of a program and what comes of lowering its parts. -/
theorem run_eq (gen : Generator) (root : Node) :
    gen.run (some root) = (root.children.forM Lower.sourcePart).run { gen.state with lines := [] } >>=
      fun r => .ok (gen.options.header ++ Line.render gen.options.indentation r.2.lines.reverse,
        { gen with state := { r.2 with diagnostics := Diagnostic.sorted r.2.diagnostics } }) :=
  rfl

/-- The run of a generator on a source and on its digest. -/
theorem run_digest {root : Node} (h : root.Whole) (o : Options) {r : String × Generator}
    (hrun : (start root o).run (some root) = .ok r) :
    ∃ r', (start (root.digest g) o).run (some (root.digest g)) = .ok r' ∧ Likewise g r r' := by
  have hparts := Lower.agrees_sourceParts (g := g) h _ _ (start_alike h o)
  rw [run_eq] at hrun
  have hclear : ∀ root : Node, { (start root o).state with lines := [] } = (start root o).state :=
    fun _ => rfl
  rw [hclear] at hrun
  simp only [run_eq, hclear]
  generalize (root.children.forM Lower.sourcePart).run _ = x at hparts hrun
  generalize ((root.digest g).children.forM Lower.sourcePart).run _ = x' at hparts
  cases hparts with
  | fault f => cases hrun
  | @ok _ _ t t' _ state =>
    obtain rfl := Except.ok.inj hrun
    have hlines : List.Forall₂ (Line.Alike g) t.lines.reverse t'.lines.reverse :=
      List.rel_reverse state.lines
    refine ⟨_, rfl, ?_, Diagnostic.sorted_alike state.diagnostics, state.overflow⟩
    rw [g.text_append, Line.render_alike _ hlines, ← g.text_append]
    rfl

/-- The comments of the program are told by the parts of the source. -/
theorem run_remarks {root : Node} (h : root.Whole) (o : Options) {s : LowerState}
    (hrun : (root.children.forM Lower.sourcePart).run (start root o).state = .ok ((), s)) :
    s.remarks = root.children.flatMap Lower.sourceRemarks := by
  have hparts := Lower.agrees_sourceParts (g := .same) h _ _ (start_alike h o)
  rw [hrun] at hparts
  generalize ((root.digest .same).children.forM Lower.sourcePart).run _ = x' at hparts
  cases hparts with
  | ok _ _ remarks => exact remarks

end Generator

/-! ## Parsed trees -/

theorem Text.letterless_of_digits {s : String} (h : ∀ c ∈ s.toList, Decimal.isDigit c) : Letterless s := by
  refine List.all_eq_true.2 fun c hc => ?_
  have hdigit := h c hc
  simp only [Decimal.isDigit, Bool.and_eq_true, decide_eq_true_eq, Char.le_def, UInt32.le_iff_toNat_le] at hdigit
  have hmost : c.val.toNat ≤ 57 := hdigit.2
  have hupper : 57 < 'A'.val.toNat := by decide
  have hlower : 57 < 'a'.val.toNat := by decide
  have halpha : c.isAlpha = (decide (c.val ≥ 'A'.val ∧ c.val ≤ 'Z'.val) ||
      (decide (c.val ≥ 'a'.val) && decide (c.val ≤ 'z'.val))) := rfl
  simp only [halpha, Bool.not_eq_true', Bool.or_eq_false_iff, Bool.and_eq_false_imp, not_and,
    decide_eq_true_eq, decide_eq_false_iff_not, UInt32.le_iff_toNat_le, ge_iff_le]
  exact ⟨fun hle => by omega, fun hle => by omega⟩

section Parsed

variable {name source : String} {p q : Parser} {root : Node}
  (hp : Parser.start? name (scan source) = some p) (hq : p.parse = .ok (.ok root, q))

include hp hq

/-- The level of program units gives way to the unit. -/
theorem parse_unit_level {k : Node} (hk : k ∈ root.nodes) : k.hasLabel .programUnit = false := by
  cases k with
  | leaf => rfl
  | inner i l cs =>
    rw [Bool.eq_false_iff]
    intro hlabel
    obtain rfl : l = .programUnit := by simpa [Node.hasLabel, Node.label?] using hlabel
    have hall : grammarPatterns.all (Pattern.everyRule fun rule =>
        !decide (rule.label? = some .programUnit) || decide (rule = Grammar.programUnit)) := by
      decide +kernel
    obtain ⟨rule, hrule, body, hbody, hmade⟩ := parse_made hp hq hk
    obtain ⟨hmem, hlabel⟩ := List.mem_filter.1 hrule
    obtain rfl : rule = Grammar.programUnit := by
      simpa [of_decide_eq_true hlabel] using grammar_rule hall hmem
    rcases hmade with hnode | ⟨hlevel, hkept⟩
    · cases hnode
    · cases hlevel
      obtain ⟨j, m, ds, rfl, -⟩ := derives_tops hbody rfl
      exact hkept j m ds rfl

theorem parse_orderly : root.Orderly where
  led i l cs hn hl := (parse_closes hp hq hn).led hl
  tight k hk l hl hlabel := by
    cases k with
    | leaf => cases hlabel
    | inner i l' cs =>
      obtain rfl : l' = l := by simpa [Node.hasLabel, Node.label?] using hlabel
      have hne : l' ≠ .endOfStmt := by
        rintro rfl
        exact absurd hl (by decide)
      exact .inner hne i ((parse_closes hp hq hk).tight hl)
  blocks i l cs hn hl := (parse_closes hp hq hn).block hl
  numbers k hk l hl hlabel := Text.letterless_of_digits (parse_number hp hq hk hl hlabel)
  digits lx hlx hinteger :=
    Text.letterless_of_digits
      ((scan_proper (parse_lexemes hp hq ▸ hlx) (by simp [hinteger])).integer hinteger).2.1
  units k hk := parse_unit_level hp hq hk

/-- A phrase that is not idle has a token. -/
theorem parse_begins {i : Nat} {l : Label} {cs : List Node} (h : .inner i l cs ∈ root.nodes)
    (hl : l ∉ idleLabels) : (Node.inner i l cs).firstLexeme?.isSome := by
  obtain ⟨rule, hrule, body, hbody, hmade⟩ := parse_made hp hq h
  obtain ⟨hmem, hlabel⟩ := List.mem_filter.1 hrule
  have hmoves := rule_moves hmem fun m hm heq => hl (by simp_all)
  refine derives_moves hbody false ?_
  rcases hmade with rfl | ⟨rfl, -⟩ <;> exact hmoves

theorem parse_whole : root.Whole := by
  obtain ⟨hlabel, hparts⟩ := parse_program hp hq
  refine ⟨hlabel, parse_orderly hp hq, hparts, fun n hn => ?_⟩
  have hmem : n ∈ root.children := List.mem_of_head? hn
  cases n with
  | leaf => rfl
  | inner i l cs =>
    obtain ⟨hl, -⟩ := (hparts _ hmem).resolve_left (by simp [Node.isLeaf])
    obtain rfl : l = .executableProgram := by simpa [Node.hasLabel, Node.label?] using hl
    exact parse_begins hp hq (nodes_child hmem) (by decide)

end Parsed

end FortranJulia
