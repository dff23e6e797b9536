import FortranJulia.Lowering.Generator
import FortranJulia.Proofs.Likeness.Statements
import FortranJulia.Proofs.Lowering.Routines

/-!
Program units and programs side by side. The survey of a unit finds the same in a sketch, in the guise,
so that the units are lowered to lines that read the same. Of the parts of a program only the line ends
between the units may differ in number. The comments told are those of the parts, in the order in which
the units are written.
-/

namespace FortranJulia

set_option autoImplicit false

open Julia (Expr Code Line)

namespace Lower

variable {g : Guise}

/-! ## Survey of a unit -/

theorem texts_sketch {ns : List Node} (h : ∀ n ∈ ns, n.Phrase) :
    (ns.map (Node.sketch g)).map (·.text) = (ns.map (·.text)).map g.text := by
  rw [List.map_map, List.map_map]
  exact List.map_congr_left fun n hn => Node.text_sketch g (h n hn).orderly (h n hn).inside

theorem isPlain_sketch (v : Node) : isPlain (v.sketch g) = isPlain v := by
  rw [isPlain, Node.hasChild_sketch, isPlain]

theorem assignedNames_sketch {unit : Node} (h : unit.Phrase) :
    assignedNames (unit.sketch g) = (assignedNames unit).map g.text := by
  have htargets : ((unit.findAll .assignmentStmt).map (Node.sketch g)).filterMap (·.child? .variableRef) =
      ((unit.findAll .assignmentStmt).filterMap (·.child? .variableRef)).map (Node.sketch g) := by
    rw [List.filterMap_map, List.map_filterMap]
    exact List.filterMap_congr fun n _ => Node.child?_sketch g n .variableRef
  have hitems : ((unit.findAll .inputItemList).map (Node.sketch g)).flatMap
      (·.childrenWith .variableRef) =
      ((unit.findAll .inputItemList).flatMap (·.childrenWith .variableRef)).map (Node.sketch g) := by
    rw [List.flatMap_map, List.map_flatMap]
    exact List.flatMap_congr fun n _ => Node.childrenWith_sketch g n .variableRef
  unfold assignedNames
  rw [Node.findAll_sketch, Node.findAll_sketch, htargets, hitems, ← List.map_append, List.filter_map]
  simp only [Function.comp_def, isPlain_sketch]
  refine texts_sketch fun v hv => ?_
  rcases List.mem_append.1 (List.mem_filter.1 hv).1 with hv | hv
  · obtain ⟨stmt, hstmt, hchild⟩ := List.mem_filterMap.1 hv
    exact (h.findAll hstmt (by decide)).child? hchild (by decide)
  · obtain ⟨list, hlist, hchild⟩ := List.mem_flatMap.1 hv
    exact (h.findAll hlist (by decide)).childrenWith hchild (by decide)

theorem argumentName?_sketch {arg : Node} (h : arg.hasLabel .endOfStmt = false) :
    argumentName? (arg.sketch g) = (argumentName? arg).map g.text := by
  unfold argumentName?
  rw [Node.children_sketch g arg h, List.head?_map]
  cases arg.children.head? with
  | none => rfl
  | some n =>
    simp only [Option.map_some, Option.bind_eq_bind, Option.bind_some, Node.isLeaf_sketch,
      Node.expression?_sketch]
    split
    · rfl
    · cases n.expression? with
      | none => rfl
      | some e =>
        simp only [Option.map_some, Option.bind_some, Guise.bareName?_expression]
        cases e.bareName? <;> rfl

theorem passedNames_sketch (unit : Node) :
    passedNames (unit.sketch g) = (passedNames unit).map g.text := by
  unfold passedNames
  rw [Node.findAll_sketch, List.flatMap_map, List.map_flatMap]
  refine List.flatMap_congr fun call _ => ?_
  have hargs : (grandchildren (call.sketch g) .subroutineArgList).filter (·.hasLabel .subroutineArg) =
      ((grandchildren call .subroutineArgList).filter (·.hasLabel .subroutineArg)).map
        (Node.sketch g) := by
    rw [grandchildren_sketch (by decide), List.filter_map]
    exact congrArg _ (List.filter_congr fun n _ => Node.hasLabel_sketch g n .subroutineArg)
  rw [hargs, List.filterMap_map, List.map_filterMap]
  refine List.filterMap_congr fun arg harg => argumentName?_sketch ?_
  exact Node.not_end_of_label (List.mem_filter.1 harg).2 (by decide)

theorem distinctNames_text (names : List String) :
    distinctNames (names.map g.text) = (distinctNames names).map g.text := by
  have hfold : ∀ kept : List String,
      (names.map g.text).foldl (fun kept n => if kept.any (nameKey · == nameKey n) then kept else n :: kept)
        (kept.map g.text) =
      (names.foldl (fun kept n => if kept.any (nameKey · == nameKey n) then kept else n :: kept)
        kept).map g.text := by
    induction names with
    | nil => exact fun kept => rfl
    | cons n names ih =>
      intro kept
      simp only [List.map_cons, List.foldl_cons, List.any_map, Function.comp_def, Guise.nameKey_text]
      split
      · exact ih kept
      · exact ih (n :: kept)
  have hnames := hfold []
  rw [List.map_nil] at hnames
  rw [distinctNames, hnames, distinctNames, List.map_reverse]

theorem jumpTargets_sketch {unit : Node} (h : unit.Phrase) : jumpTargets (unit.sketch g) = jumpTargets unit := by
  unfold jumpTargets
  rw [Node.findAll_sketch, Node.findAll_sketch, ← List.map_append, List.flatMap_map]
  refine List.flatMap_congr fun jump hjump => ?_
  have hphrase : jump.Phrase := by
    rcases List.mem_append.1 hjump with hjump | hjump
    · exact h.findAll hjump (by decide)
    · exact h.findAll hjump (by decide)
  rw [Node.findAll_sketch, List.map_map]
  refine List.map_congr_left fun l hl => ?_
  have hlabel : l.Phrase := hphrase.findAll hl (by decide)
  simp only [Function.comp_apply, Node.text_sketch g hlabel.orderly hlabel.inside,
    g.text_of_letterless (hlabel.number (by decide) (Node.hasLabel_findAll hl))]

theorem keysOf_sketch {unit : Node} (h : unit.Phrase) {l : Label} (hl : l ≠ .endOfStmt) :
    keysOf (unit.sketch g) l = keysOf unit l := by
  unfold keysOf
  rw [Node.findAll_sketch, List.map_map]
  refine List.map_congr_left fun n hn => ?_
  have hphrase := h.findAll hn hl
  simp only [Function.comp_apply, Node.text_sketch g hphrase.orderly hphrase.inside, Guise.nameKey_text]

theorem agrees_formatsOf {stmts : List Node} (h : ∀ n ∈ stmts, n.Phrase)
    {found found' : List (String × Option PrintFormat)}
    (hfound : List.Forall₂ (LabelledAlike g) found found') :
    Agrees g [] (List.Forall₂ (LabelledAlike g)) (formatsOf stmts found)
      (formatsOf (stmts.map (Node.sketch g)) found') := by
  induction stmts generalizing found found' with
  | nil => exact .pure hfound
  | cons stmt rest ih =>
    have hstmt := h stmt (by simp)
    have hspec : ∀ n ∈ stmt.child? .fmtSpec, n.Tight := fun n hn => (hstmt.compact? hn (by decide)).tight
    rw [List.map_cons]
    unfold formatsOf
    rw [Node.child?_sketch, labelOf_sketch hstmt]
    exact (agrees_printFormat hstmt (formatSpec_sketch hspec)).bind fun f f' hf =>
      ih (fun n hn => h n (by simp [hn])) (.cons ⟨rfl, hf⟩ hfound)

theorem agrees_survey {whole : Node} (h : whole.Phrase) :
    Agrees g [] (UnitState.Alike g) (survey whole) (survey (whole.sketch g)) := by
  unfold survey
  rw [Node.label?_sketch, jumpTargets_sketch h, keysOf_sketch h (by decide), keysOf_sketch h (by decide),
    assignedNames_sketch h, passedNames_sketch, Node.findAll_sketch]
  have hformats : ∀ n ∈ whole.findAll .formatStmt, n.Phrase := fun n hn => h.findAll hn (by decide)
  refine (agrees_formatsOf hformats .nil).bind fun fs fs' hfs => .pure ?_
  refine { UnitState.Alike.empty g with
    kind := rfl, formats := hfs, targets := rfl, common := rfl, params := rfl, locals := ?_ }
  rw [← distinctNames_text, List.map_append]
  split <;> rfl

/-! ## Units -/

theorem agrees_routineHead (stmt : Node) :
    Agrees g (trailingRemarks stmt) Eq (routineHead stmt) (routineHead (stmt.sketch g)) := by
  unfold routineHead
  refine agrees_unit.bind fun u u' hu => agrees_table.bind ?_
  rintro t _ rfl
  rw [Guise.current_table, Guise.formals_scope, hu.name, hu.kind]
  refine (agrees_idents _).bind ?_
  rintro params _ rfl
  refine (agrees_callee _).bind ?_
  rintro f _ rfl
  refine (agrees_line rfl .functionHead).bind fun _ _ _ => ?_
  have hdeeper : Agrees g [] Eq (modify fun s => { s with depth := s.depth + 1 } : Lower Unit)
      (modify fun s => { s with depth := s.depth + 1 }) :=
    .modify (fun _ _ hs => { hs with depth := congrArg (· + 1) hs.depth }) fun _ => (List.append_nil _).symm
  refine hdeeper.bind fun _ _ _ => (agrees_trailing stmt).before fun _ _ _ => ?_
  refine .ite Iff.rfl (fun _ => agrees_table.bind ?_) fun _ => .pure rfl
  rintro t _ rfl
  refine (agrees_ident _).bind ?_
  rintro w _ rfl
  rw [Guise.typeOf_table]
  exact agrees_line rfl (.assign _ (.cons (.name (g.text_text w).symm) .nil) (.refl _))

theorem agrees_abandonLoops {stmt : Node} (h : stmt.Phrase) (loops : List OpenLoop) :
    Agrees g [] Eq (abandonLoops stmt loops) (abandonLoops (stmt.sketch g) loops) := by
  induction loops with
  | nil => exact .pure rfl
  | cons loop rest ih =>
    unfold abandonLoops
    exact (agrees_warn (by decide) rfl h).bind fun _ _ _ => agrees_closeLoop.bind fun _ _ _ => ih

theorem endsWithReturn_sketch (unit : Node) : endsWithReturn (unit.sketch g) = endsWithReturn unit := by
  unfold endsWithReturn
  rw [grandchildren_sketch (by decide), List.getLast?_map, Option.any_map]
  exact congrArg (Option.any · _) (funext fun n => Node.hasLabel_sketch g n .returnStmt)

theorem agrees_unitEnd (whole : Node) {stmt : Node} (h : stmt.Phrase) :
    Agrees g (trailingRemarks stmt) Eq (unitEnd whole stmt)
      (unitEnd (whole.sketch g) (stmt.sketch g)) := by
  have hshallower : Agrees g [] Eq (modify fun s => { s with depth := s.depth - 1 } : Lower Unit)
      (modify fun s => { s with depth := s.depth - 1 }) :=
    .modify (fun _ _ hs => { hs with depth := congrArg (· - 1) hs.depth }) fun _ => (List.append_nil _).symm
  have hclosed := hshallower.bind fun _ _ _ => (agrees_line (g := g) rfl (.refl .close)).bind fun _ _ _ =>
    agrees_trailing stmt
  unfold unitEnd
  refine agrees_unit.bind fun u u' hu => ?_
  rw [hu.loops, endsWithReturn_sketch]
  refine (agrees_abandonLoops h u.loops).bind fun _ _ _ => (agrees_labelMark h).bind fun _ _ _ => ?_
  refine agrees_unit.bind fun u u' hu => ?_
  rw [hu.isRoutine]
  refine .ite Iff.rfl (fun _ => ?_) fun _ => agrees_trailing stmt
  refine .ite Iff.rfl (fun _ => ?_) fun _ => hclosed
  exact agrees_returnCode.bind fun _ _ hc => (agrees_line hc.1 hc.2).bind fun _ _ _ => hclosed

/-- What the comments in a part of a unit tell. -/
def partRemarks (part : Node) : List String :=
  match part.label? with
  | some .functionStmt | some .subroutineStmt | some .programStmt | some .blockDataStmt
  | some .endProgramStmt | some .endFunctionStmt | some .endSubroutineStmt
  | some .endBlockDataStmt => trailingRemarks part
  | some .body => statementsRemarks part.children
  | _ => []

theorem agrees_unitPart (whole : Node) {part : Node} (h : part.Orderly) :
    Agrees g (partRemarks part) Eq (unitPart whole part) (unitPart (whole.sketch g) (part.sketch g)) := by
  have hphrase : ∀ {l : Label}, part.label? = some l → l ≠ .endOfStmt → part.Phrase :=
    fun hl hne => ⟨h, Node.not_end_of_label (by simp [Node.hasLabel, hl]) hne⟩
  generalize htold : partRemarks part = told
  rw [partRemarks] at htold
  unfold unitPart
  rw [Node.label?_sketch]
  split
  case h_5 hl =>
    rw [hl] at htold
    rw [Node.children_sketch g part (hphrase hl (by decide)).inside, ← htold]
    exact agrees_statements _ fun c hc =>
      phrase_child h (l := .body) (by simp [Node.hasLabel, hl]) (by decide) hc
  case h_10 =>
    obtain rfl : told = [] := by
      rw [← htold]
      split <;> first | rfl | contradiction
    exact .pure rfl
  all_goals
    rename_i hl
    rw [hl] at htold
    subst htold
    first
    | exact agrees_routineHead part
    | exact agrees_trailing part
    | exact agrees_unitEnd whole (hphrase hl (by decide))

/-- What the comments in a unit tell. -/
def unitRemarks (whole : Node) : List String :=
  whole.children.flatMap partRemarks

theorem agrees_programUnit {whole : Node} (h : whole.Phrase) :
    Agrees g (unitRemarks whole) Eq (programUnit whole) (programUnit (whole.sketch g)) := by
  unfold programUnit
  rw [Node.children_sketch g whole h.inside]
  refine (agrees_survey h).bind fun u u' hu => ?_
  refine Agrees.bind (R := Eq) ?_ fun _ _ _ => ?_
  · refine .modify (fun s s' hs => ?_) fun s => (List.append_nil _).symm
    simp only [hs.collection, Collection.enterUnit_sketch g s.collection h.orderly h.inside]
    refine { hs with collection := rfl, unit := { hu with name := ?_ } }
    simp only [Collection.table_collection, Guise.current_table, Guise.name_scope]
  · refine (Agrees.forM fun part hpart => agrees_unitPart whole (h.orderly.child hpart)).before ?_
    refine fun _ _ _ => .modify (fun s s' hs => ?_) fun s => (List.append_nil _).symm
    exact { hs with
      collection := by simp only [hs.collection, Collection.exitUnit_collection]
      unit := .empty g
      depth := rfl }

/-! ## Programs -/

theorem blockDataKeys_sketch {units : List Node} (h : ∀ n ∈ units, n.Phrase) :
    blockDataKeys (units.map (Node.sketch g)) = blockDataKeys units := by
  unfold blockDataKeys
  rw [List.filter_map, List.flatMap_map]
  simp only [Function.comp_def, Node.hasLabel_sketch]
  refine List.flatMap_congr fun unit hunit => ?_
  rw [Node.findAll_sketch, List.flatMap_map]
  refine List.flatMap_congr fun d hd => keysOf_sketch ?_ (by decide)
  exact (h unit (List.mem_filter.1 hunit).1).findAll hd (by decide)

theorem agrees_programUnits {units : List Node} (h : ∀ n ∈ units, n.Phrase) :
    Agrees g (units.flatMap unitRemarks) Eq (programUnits units)
      (programUnits (units.map (Node.sketch g))) := by
  have hgap : Agrees g [] Eq (modify fun s => { s with lines := .gap :: s.lines } : Lower Unit)
      (modify fun s => { s with lines := .gap :: s.lines }) := by
    refine .modify (fun s s' hs => { hs with lines := .cons .gap hs.lines }) fun s => ?_
    simp [LowerState.remarks, Line.remark?]
  induction units with
  | nil => exact .pure rfl
  | cons u rest ih =>
    have hu := agrees_programUnit (g := g) (h u (by simp))
    have hrest := ih fun n hn => h n (by simp [hn])
    cases rest with
    | nil =>
      rw [List.flatMap_singleton]
      exact hu
    | cons v rest =>
      rw [List.flatMap_cons]
      exact hu.follow fun _ _ _ => hgap.bind fun _ _ _ => hrest

/-- The units in the order in which they are written. -/
def arranged (units : List Node) : List Node :=
  units.filter (!·.hasLabel .mainProgram) ++ units.filter (·.hasLabel .mainProgram)

theorem agrees_wholeProgram {units : List Node} (h : ∀ n ∈ units, n.Phrase) :
    Agrees g ((arranged units).flatMap unitRemarks) Eq (wholeProgram units)
      (wholeProgram (units.map (Node.sketch g))) := by
  have harranged : arranged (units.map (Node.sketch g)) = (arranged units).map (Node.sketch g) := by
    simp only [arranged, List.filter_map, List.map_append, Function.comp_def, Node.hasLabel_sketch]
  have hunits : ∀ n ∈ arranged units, n.Phrase := by
    intro n hn
    rcases List.mem_append.1 hn with hn | hn <;> exact h n (List.mem_filter.1 hn).1
  unfold wholeProgram
  rw [blockDataKeys_sketch h]
  refine Agrees.bind (R := Eq) ?_ fun _ _ _ => ?_
  · refine .modify (fun s s' hs => { hs with blockData := ?_ }) fun _ => (List.append_nil _).symm
    rw [hs.blockData]
  · simp only [List.partition_eq_filter_filter]
    have hprogram := agrees_programUnits (g := g) hunits
    rw [← harranged] at hprogram
    exact hprogram

/-- What the comments in a part of a source tell. -/
def sourceRemarks : Node → List String
  | .leaf _ lx => if lx.kind = .comment then [remark lx.text] else []
  | .inner _ .executableProgram units => (arranged units).flatMap unitRemarks
  | .inner _ _ _ => []

theorem agrees_sourcePart {n : Node} (h : n.Phrase)
    (hunits : n.hasLabel .executableProgram → ∀ u ∈ n.children, u.Phrase) :
    Agrees g (sourceRemarks n) Eq (sourcePart n) (sourcePart (n.sketch g)) := by
  cases n with
  | leaf i lx =>
    have hname : Agrees g [] Eq (do line (.run (.name (← callee lx.text))))
        (do line (.run (.name (← callee (g.text lx.text))))) :=
      (agrees_callee lx.text).bind fun w w' hw => agrees_line rfl (.run (.name (by simp [hw])))
    generalize htold : sourceRemarks (.leaf i lx) = told
    rw [sourceRemarks] at htold
    simp only [Node.sketch_leaf, sourcePart, Guise.kind_lexeme]
    split
    · rename_i hkind
      rw [if_pos hkind] at htold
      subst htold
      exact agrees_comment lx.text
    all_goals
      obtain rfl : told = [] := by simp_all
    · exact hname
    · exact hname
    · exact .pure rfl
  | inner i l cs =>
    have hl : l ≠ .endOfStmt := by simpa [Node.hasLabel, Node.label?] using h.inside
    rw [Node.sketch_inner g hl]
    by_cases hprogram : l = .executableProgram
    · subst hprogram
      rw [sourcePart, sourcePart, sourceRemarks]
      exact agrees_wholeProgram (hunits (by simp [Node.hasLabel, Node.label?]))
    · rw [sourcePart, sourcePart, sourceRemarks]
      · exact .pure rfl
      all_goals assumption

end Lower

end FortranJulia
