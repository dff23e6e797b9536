import FortranJulia.Proofs.Emission.Balance
import FortranJulia.Proofs.Lowering.Brackets
import FortranJulia.Proofs.Parsing.UnitNames

/-!
Nesting of whole units. If no part of an IF block leaves a loop open, the blocks of a unit are nested
in its code as its lists of statements are in the source: a loop ends with the statement of its own
list that carries its label, and a line that divides a block divides an IF block. The loops that a unit
leaves open are closed at its END, each with a warning, and no others are reported.
-/

namespace FortranJulia

set_option autoImplicit false

open Julia (Block Bracket Bracketed Code Line)

/-! ## Units of the source -/

namespace Node

/-- The loops that a unit leaves open, innermost first. -/
def unclosed (unit : Node) : List String :=
  openLoops [] (Lower.grandchildren unit .body)

/-- The warning at the END of a unit that a loop is never closed. -/
def unclosedWarning (last : Node) (label : String) : Diagnostic :=
  ⟨.warning, Label.labelDoStmt.name, last.place.1, last.place.2,
    "DO loop ending at label " ++ label ++ " is never closed"⟩

/-- The warnings about the loops that a unit leaves open. -/
def unclosedWarnings (unit : Node) : List Diagnostic :=
  unit.unclosed.map ((unit.children.getLast?.getD unit).unclosedWarning)

/-- The brackets of a unit. -/
def unitBrackets (unit : Node) : List Bracket :=
  let inside := listBrackets [] (Lower.grandchildren unit .body) ++ closes unit.unclosed
  if unit.isRoutine then .opens .routine :: (inside ++ [.closes .routine]) else inside

end Node

section Parts

variable {l : Label} {unit : Node} {head body : Option Node} {last : Node}

/-- The statements of a unit are those of its body, if it has one. -/
theorem UnitParts.statements (h : UnitParts l unit.children head body last) :
    Lower.grandchildren unit .body = (body.map (·.children)).getD [] := by
  have hhead : ∀ n ∈ head.toList, n.hasLabel .body = false := by
    intro n hn
    rw [Node.hasLabel, h.headLabel n (Option.mem_toList.1 hn)]
    cases l <;> rfl
  have hlast : last.hasLabel .body = false := by
    rw [Node.hasLabel, h.lastLabel]
    cases l <;> rfl
  have hchild : unit.child? .body = body := by
    rw [Node.child?, h.children, List.find?_append, List.find?_eq_none.2 (fun n hn => by simp [hhead n hn]),
      Option.none_or]
    cases body with
    | none => simp [hlast]
    | some n => simp [Node.hasLabel, h.bodyLabel n rfl]
  rw [Lower.grandchildren, hchild]

theorem UnitParts.getLast (h : UnitParts l unit.children head body last) :
    unit.children.getLast?.getD unit = last := by
  rw [h.children, ← List.append_assoc, List.getLast?_concat, Option.getD_some]

end Parts

namespace Lower

variable {wide : Prop}

/-! ## Parts of units -/

/-- The head of a routine opens its block. -/
theorem routineHead_lays (stmt : Node) {s : LowerState} (hs : s.Open) :
    (routineHead stmt).Does s fun _ t => t.Open ∧ Lays [.opens .routine] [] 0 0 s t ∧
      t.depth = s.depth + 1 ∧ t.unit.fixed = s.unit.fixed := by
  obtain ⟨f, params, t, u, hst, hopen, htu, hrun⟩ := routineHead_steps stmt hs
  have hhead : Lays [.opens .routine] [] 0 0 t (inRoutine t f params) :=
    ⟨⟨[.code t.depth (.functionHead f params)], rfl, .line (b := .opens .routine) rfl t.depth⟩, .of_eq rfl⟩
  refine ⟨(), u, hrun, (htu.settled hopen).1, (hst.lays.trans hhead).trans htu.lays, ?_,
    htu.unit.trans hst.unit⟩
  rw [htu.depth, show (inRoutine t f params).depth = t.depth + 1 from rfl, hst.depth]

theorem functionEnd_lays (stmt : Node) {s : LowerState} (hs : s.Open) (hdepth : s.depth = 1) :
    (functionEnd stmt).Does s fun _ t => Lays [.closes .routine] [] 0 0 s t ∧ t.depth = 0 := by
  have htrailing : Moves False 0 0 (trailing stmt) := moves_trailing stmt (Nat.zero_le 1)
  let closed : LowerState := { s with depth := 0, lines := .code 0 .close :: s.lines }
  have hend : Lays [.closes .routine] [] 0 0 s closed := by
    refine ⟨⟨[.code 0 .close], rfl, ?_⟩, .of_eq rfl⟩
    rw [hdepth]
    exact .line (b := .closes .routine) rfl 0
  obtain ⟨a, t, hrun, hct⟩ := htrailing closed ⟨hs.unit, hs.spelled⟩
  refine ⟨a, t, ?_, hend.trans hct.lays, hct.depth⟩
  have hstate : { s with depth := s.depth - 1, lines := .code (s.depth - 1) .close :: s.lines } =
      closed := by simp only [closed, hdepth]
  rw [← hrun, ← hstate]
  rfl

/-- The loops that a list has left open are closed with a warning each. -/
theorem abandonLoops_lays (stmt : Node) {base : Nat} {labels : List String} : ∀ {s : LowerState},
    s.Open → Stands base [] labels s → (abandonLoops stmt s.unit.loops).Does s fun _ t =>
      t.Open ∧ t.unit.kind = s.unit.kind ∧ Stands base [] [] t ∧
        Lays (Node.closes labels) (labels.map stmt.unclosedWarning) 0 0 s t := by
  induction labels with
  | nil =>
    intro s hs hstands
    obtain ⟨own, hloops, hlabels, -⟩ := hstands.loops
    obtain rfl := List.map_eq_nil_iff.1 hlabels
    rw [hloops]
    exact ⟨(), s, rfl, hs, rfl, hstands, .refl s⟩
  | cons label labels ih =>
    intro s hs hstands
    let warned : LowerState := { s with diagnostics := s.diagnostics ++ [stmt.unclosedWarning label] }
    have hwarned : Lays [] [stmt.unclosedWarning label] 0 0 s warned :=
      ⟨⟨[], rfl, .stop rfl⟩, [stmt.unclosedWarning label], rfl, rfl⟩
    have hstands' : Stands base [] (label :: labels) warned := hstands.congr rfl rfl
    obtain ⟨loop, rest, hloops, hlabel, -, hclosed, hlays⟩ := closeLoop_stands hstands'
    have hopen : (warned.closeLoop rest).Open := ⟨hs.unit, hs.spelled⟩
    obtain ⟨_, t, hrun, ht, hkind, hstands'', hlays'⟩ := ih hopen hclosed
    refine ⟨(), t, ?_, ht, hkind, hstands'', (hwarned.trans hlays).trans hlays'⟩
    have hwarn : (warn stmt Label.labelDoStmt.name
        ("DO loop ending at label " ++ loop.label ++ " is never closed")).run s = .ok ((), warned) := by
      rw [hlabel]
      rfl
    rw [show s.unit.loops = loop :: rest from hloops, abandonLoops, run_bind_ok hwarn,
      run_bind_ok (closeLoop_run hloops)]
    exact hrun

/-- The END of a unit closes the loops that are still open, and the block of a routine. -/
theorem unitEnd_lays (whole stmt : Node) {labels : List String} {s : LowerState} (hs : s.Open)
    (hstands : Stands (unitDepth s.unit) [] labels s) :
    (unitEnd whole stmt).Does s fun _ t =>
      Lays (Node.closes labels ++ if s.unit.isRoutine then [.closes .routine] else [])
        (labels.map stmt.unclosedWarning) 0 0 s t ∧ t.depth = 0 := by
  refine unitEnd_steps (abandonLoops_lays stmt hs hstands) (fun t u hmid htu hu => ?_)
  obtain ⟨htstands, hst⟩ := hmid
  have hsu := hst.trans htu.lays
  simp only [List.append_nil] at hsu
  have hdeep : u.depth = unitDepth s.unit := htu.depth.trans htstands.depth
  rw [unitDepth] at hdeep
  split
  · rename_i hroutine
    rw [if_pos hroutine] at hdeep
    refine (functionEnd_lays stmt hu hdeep).imp (fun _ v huv => ⟨?_, huv.2⟩)
    have hsv := hsu.trans huv.1
    simpa only [List.append_nil] using hsv
  · rename_i hroutine
    rw [if_neg hroutine] at hdeep
    have htrailing : Moves False 0 0 (trailing stmt) := moves_trailing stmt (Nat.zero_le 1)
    refine (htrailing u hu).imp (fun _ v huv => ⟨?_, huv.depth.trans hdeep⟩)
    have hsv := hsu.trans huv.lays
    simpa only [List.append_nil] using hsv

/-- The first statement of a unit, if there is one, opens the block of a routine. -/
theorem head_lays {whole : Node} {l : Label} {head : Option Node} {s : LowerState} (hs : s.Open)
    (hdepth : s.depth = 0) (hkind : s.unit.kind = l) (hunit : l.isUnit)
    (hheaded : l ≠ .mainProgram → head.isSome)
    (hlabel : ∀ n, head = some n → n.label? = some l.unitHead) :
    (head.toList.forM (unitPart whole)).Does s fun _ t =>
      t.Open ∧ Lays (if s.unit.isRoutine then [.opens .routine] else []) [] 0 0 s t ∧
        t.depth = unitDepth s.unit ∧ t.unit.fixed = s.unit.fixed := by
  cases head with
  | none =>
    obtain rfl : l = .mainProgram := by_contra (fun hne => nomatch hheaded hne)
    have hmain : s.unit.isRoutine = false := by rw [UnitState.isRoutine, hkind]; rfl
    rw [hmain, unitDepth, hmain]
    exact ⟨(), s, rfl, hs, .refl s, hdepth, rfl⟩
  | some n =>
    have hn := hlabel n rfl
    have htrailing : Moves False 0 0 (trailing n) := moves_trailing n (Nat.zero_le 1)
    refine Does.single ?_
    cases l with
    | mainProgram | blockDataSubprogram =>
      have hplain : s.unit.isRoutine = false := by rw [UnitState.isRoutine, hkind]; rfl
      rw [unitPart, hn, hplain, unitDepth, hplain]
      exact (htrailing s hs).imp (fun _ t hst =>
        ⟨(hst.settled hs).1, hst.lays, hst.depth.trans hdepth, hst.unit⟩)
    | functionSubprogram | subroutineSubprogram =>
      have hroutine : s.unit.isRoutine = true := by rw [UnitState.isRoutine, hkind]; rfl
      rw [unitPart, hn, hroutine, unitDepth, hroutine]
      refine (routineHead_lays n hs).imp (fun _ t ht => ?_)
      obtain ⟨hopen, hst, hdeep, hfixed⟩ := ht
      exact ⟨hopen, hst, by rw [hdeep, hdepth]; rfl, hfixed⟩
    | _ => cases hunit

/-- The statements of a unit, if there are some, do what the brackets of their list say. -/
theorem body_lays {whole : Node} {body : Option Node} {s : LowerState}
    (hsound : ∀ n, body = some n → n.Sound wide ∧ n.Closed)
    (hlabel : ∀ n, body = some n → n.label? = some .body) (hs : s.Open)
    (hdepth : s.depth = unitDepth s.unit) (hloops : s.unit.loops = []) :
    (body.toList.forM (unitPart whole)).Does s fun _ t =>
      let stmts := (body.map (·.children)).getD []
      t.Open ∧ t.unit.kind = s.unit.kind ∧ Stands (unitDepth s.unit) [] (Node.openLoops [] stmts) t ∧
        Lays (Node.listBrackets [] stmts) [] 0 0 s t := by
  have hstands : Stands (unitDepth s.unit) [] [] s :=
    ⟨hdepth, ⟨[], hloops, rfl, trivial⟩, by simp⟩
  cases body with
  | none => exact ⟨(), s, rfl, hs, rfl, hstands, .refl s⟩
  | some n =>
    obtain ⟨hn, hclosed⟩ := hsound n rfl
    have hcs : ∀ c ∈ n.children, c.Sound wide := fun c hc => hn.child hc
    refine Does.single ?_
    rw [unitPart, hlabel n rfl]
    have hboth := ((draws_statements n.children hcs (fun c hc => hclosed.child hc) []).run _ _ s hs
      hstands).and (carries_statements n.children hcs s hs)
    refine hboth.imp (fun _ t ht => ?_)
    obtain ⟨⟨hopen, htstands, hst⟩, hpasses⟩ := ht
    have hkind := congrArg UnitState.kind hpasses.unit
    exact ⟨hopen, hkind, htstands, hst⟩

/-- The parts of a unit do what the brackets of the unit say. -/
theorem parts_lays {unit : Node} {l : Label} {head body : Option Node} {last : Node}
    (h : UnitParts l unit.children head body last) (hlabel : unit.label? = some l)
    (hsound : unit.Sound wide) (hclosed : unit.Closed) (hunit : l.isUnit) {s : LowerState} (hs : s.Open)
    (hdepth : s.depth = 0) (hkind : s.unit.kind = l) (hloops : s.unit.loops = []) :
    (unit.children.forM (unitPart unit)).Does s fun _ t =>
      Lays unit.unitBrackets unit.unclosedWarnings 0 0 s t ∧ t.depth = 0 := by
  have hroutine : unit.isRoutine = s.unit.isRoutine := by
    rw [UnitState.isRoutine, hkind, Node.isRoutine, Node.hasLabel, Node.hasLabel, hlabel]
    rfl
  have hbody : ∀ n, body = some n → n.Sound wide ∧ n.Closed := by
    rintro n rfl
    have hmem : n ∈ unit.children := by simp [h.children]
    exact ⟨hsound.child hmem, hclosed.child hmem⟩
  have hsplit : unit.children.forM (unitPart unit) =
      (head.toList ++ (body.toList ++ [last])).forM (unitPart unit) := by rw [← h.children]
  rw [hsplit]
  refine (head_lays hs hdepth hkind hunit h.headed h.headLabel).append (fun t ht => ?_)
  obtain ⟨htopen, hst, htdepth, hfixed⟩ := ht
  have htkind := congrArg UnitState.kind hfixed
  have htloops := congrArg UnitState.loops hfixed
  have htunit : unitDepth t.unit = unitDepth s.unit := unitDepth_congr htkind
  refine (body_lays hbody h.bodyLabel htopen (htdepth.trans htunit.symm)
    (Eq.trans htloops hloops)).append (fun u hu => ?_)
  obtain ⟨huopen, hukind, hustands, htu⟩ := hu
  have huunit : unitDepth u.unit = unitDepth t.unit := unitDepth_congr hukind
  rw [← huunit] at hustands
  refine Does.single ?_
  rw [h.unitPart_last]
  refine (unitEnd_lays unit last huopen hustands).imp (fun _ v huv => ⟨?_, huv.2⟩)
  have hsv := hst.trans (htu.trans huv.1)
  have huroutine : u.unit.isRoutine = s.unit.isRoutine :=
    UnitState.isRoutine_congr (hukind.trans htkind)
  rw [huroutine] at hsv
  rw [Node.unitBrackets, Node.unclosedWarnings, Node.unclosed, h.statements, h.getLast, hroutine]
  cases hs' : s.unit.isRoutine <;> simpa [hs', List.append_assoc] using hsv

/-- A unit that stands at no depth does what its brackets say. -/
theorem programUnit_lays {unit : Node} (hsound : unit.Sound wide) (hclosed : unit.Closed)
    (hunit : IsProgramUnit unit) {s : LowerState} (hdepth : s.depth = 0) :
    (programUnit unit).Does s fun _ t =>
      Lays unit.unitBrackets unit.unclosedWarnings 0 0 s t ∧ t.depth = 0 := by
  obtain ⟨l, head, body, last, hlabel, hl, hparts⟩ := hunit
  obtain ⟨u, t, v, -, hreports, hsurveyed, hrun, -, hall⟩ := programUnit_run hsound s
  have hkind : u.kind = l := by rw [hsurveyed.kind, hlabel]; rfl
  have hsame : t.depth = s.depth ∧ t.lines = s.lines := by
    obtain ⟨_, _, rfl, -⟩ := hreports
    exact ⟨rfl, rfl⟩
  have hlays : (unit.children.forM (unitPart unit)).Does (t.entered unit u) fun _ v =>
      Lays unit.unitBrackets unit.unclosedWarnings 0 0 (t.entered unit u) v ∧ v.depth = 0 :=
    parts_lays hparts hlabel hsound hclosed hl (t.entered_open unit u).1 (hsame.1.trans hdepth)
      hkind hsurveyed.loops
  obtain ⟨hlays, hout⟩ := hlays.of_run hrun
  obtain ⟨new, hnew, hlines⟩ := hlays.lines
  have hsurvey : Warns [] s t := (hreports.evolves (i := 0)).warns
  refine ⟨(), v.left, hall, ⟨⟨new, hnew.trans (congrArg _ hsame.2), ?_⟩, ?_⟩, rfl⟩
  · rw [← hsame.1]
    rw [hout] at hlines
    exact hlines
  · exact hsurvey.trans hlays.reports

/-- The brackets of a unit are nested. -/
theorem nest_unit {unit : Node} (hsound : unit.Sound wide) (hclosed : unit.Closed) :
    Julia.nest [] unit.unitBrackets = some [] := by
  have hlist : ∀ around, Julia.nest around (Node.listBrackets [] (grandchildren unit .body)) =
      some (unit.unclosed.map .loop ++ around) :=
    (draws_statements (grandchildren unit .body) (fun n hn => hsound.grandchildren hn)
      (fun n hn => hclosed.grandchildren hn) []).nests
  have hcloses : ∀ (labels : List String) (around : List Block),
      Julia.nest (labels.map .loop ++ around) (Node.closes labels) = some around := by
    intro labels around
    induction labels with
    | nil => rfl
    | cons label labels ih => simpa [Node.closes, Julia.nest, Bracket.nest] using ih
  have hinside : ∀ around, Julia.nest around (Node.listBrackets [] (grandchildren unit .body) ++
      Node.closes unit.unclosed) = some around := by
    intro around
    rw [Julia.nest, List.foldlM_append]
    exact Option.bind_eq_some_iff.2 ⟨_, hlist around, hcloses _ around⟩
  unfold Node.unitBrackets
  split
  · rw [Julia.nest, List.foldlM_cons]
    refine Option.bind_eq_some_iff.2 ⟨_, rfl, ?_⟩
    rw [List.foldlM_append]
    exact Option.bind_eq_some_iff.2 ⟨_, hinside _, rfl⟩
  · exact hinside []

/-! ## Programs -/

theorem programUnits_warns {units : List Node}
    (h : ∀ n ∈ units, n.Sound wide ∧ n.Closed ∧ IsProgramUnit n) : ∀ {s : LowerState}, s.depth = 0 →
    (programUnits units).Does s fun _ t =>
      Warns (units.flatMap Node.unclosedWarnings) s t ∧ t.depth = 0 := by
  induction units with
  | nil => exact fun {s} hdepth => ⟨(), s, rfl, .of_eq rfl, hdepth⟩
  | cons unit rest ih =>
    intro s hdepth
    obtain ⟨hsound, hclosed, hunit⟩ := h unit (by simp)
    obtain ⟨_, t, hrun, hst, ht⟩ := programUnit_lays hsound hclosed hunit hdepth
    cases rest with
    | nil => exact ⟨(), t, hrun, by simpa using hst.reports, ht⟩
    | cons next rest =>
      have hgap : Warns [] t { t with lines := .gap :: t.lines } := .of_eq rfl
      obtain ⟨_, u, hrest, htu, hu⟩ :=
        ih (fun n hn => h n (by simp [hn])) (s := { t with lines := .gap :: t.lines }) ht
      refine ⟨(), u, ?_, hst.reports.trans (hgap.trans htu), hu⟩
      rw [programUnits, run_bind_ok hrun]
      · exact hrest
      · simp

/-- What stands in a source beside its units reports no loops. -/
theorem leaf_warns (i : Nat) (lx : Lexeme) (s : LowerState) :
    (sourcePart (.leaf i lx)).Does s fun _ t => t.depth = s.depth ∧ Warns [] s t := by
  have hname : (callee lx.text >>= fun w => line (.run (.name w))).Does s fun _ t =>
      t.depth = s.depth ∧ Warns [] s t := by
    obtain ⟨more, hrun, -⟩ := spell_run s lx.text
    have hcallee : (callee lx.text).run s =
        .ok (escaped (s.collection.table.spelling lx.text), s.recorded more) := run_bind_ok hrun
    exact ⟨(), _, run_bind_ok hcallee, rfl, .of_eq rfl⟩
  unfold sourcePart
  simp only
  split
  · unfold comment
    split
    · exact ⟨(), _, rfl, rfl, .of_eq rfl⟩
    · rename_i hne
      have hlen : 1 ≤ (Text.trimChars lx.text.toList).length := List.length_pos_iff.2 hne
      rw [itemsFrom, if_pos hlen]
      exact ⟨(), _, rfl, rfl, .of_eq rfl⟩
  · exact hname
  · exact hname
  · exact ⟨(), s, rfl, rfl, .of_eq rfl⟩

/-- The units that stand in some parts of a source. -/
def unitsOf (parts : List Node) : List Node :=
  (parts.filter (·.hasLabel .executableProgram)).flatMap (·.children)

theorem sourcePart_warns {part : Node} (hsound : part.Sound wide) (hclosed : part.Closed)
    (hpart : IsSourcePart part) {s : LowerState} (hdepth : s.depth = 0) :
    (sourcePart part).Does s fun _ t => t.depth = 0 ∧ ∃ ws, Warns ws s t ∧
      ws.Perm ((unitsOf [part]).flatMap Node.unclosedWarnings) := by
  cases part with
  | leaf i lx =>
    refine (leaf_warns i lx s).imp (fun _ t ht => ⟨ht.1.trans hdepth, [], ht.2, ?_⟩)
    simp [unitsOf, Node.hasLabel, Node.label?]
  | inner i l units =>
    obtain ⟨hl, hunits⟩ := hpart.resolve_left (by simp [Node.isLeaf])
    obtain rfl : l = .executableProgram := by simpa [Node.hasLabel, Node.label?] using hl
    have hall : ∀ n ∈ (units.partition (·.hasLabel .mainProgram)).2 ++
        (units.partition (·.hasLabel .mainProgram)).1, n.Sound wide ∧ n.Closed ∧ IsProgramUnit n :=
      fun n hn => ⟨hsound.child (mem_ordered.1 hn), hclosed.child (mem_ordered.1 hn),
        hunits n (mem_ordered.1 hn)⟩
    obtain ⟨_, t, hrun, hst, ht⟩ := programUnits_warns hall
      (s := { s with blockData := blockDataKeys units ++ s.blockData }) hdepth
    refine ⟨(), t, hrun, ht, _, hst, ?_⟩
    -- Main programs come last, but no unit is added or lost.
    have hordered : ((units.partition (·.hasLabel .mainProgram)).2 ++
        (units.partition (·.hasLabel .mainProgram)).1).Perm units := by
      rw [List.partition_eq_filter_filter]
      exact List.perm_append_comm.trans (List.filter_append_perm _ _)
    have hparts : unitsOf [Node.inner i .executableProgram units] = units := by
      simp [unitsOf, Node.hasLabel, Node.label?, Node.children]
    rw [hparts]
    exact hordered.flatMap_right _

/-- The loops that are reported in a source are those that its units leave open. -/
theorem sources_warns {parts : List Node}
    (h : ∀ n ∈ parts, n.Sound wide ∧ n.Closed ∧ IsSourcePart n) : ∀ {s : LowerState}, s.depth = 0 →
    (parts.forM sourcePart).Does s fun _ t => t.depth = 0 ∧ ∃ ws, Warns ws s t ∧
      ws.Perm ((unitsOf parts).flatMap Node.unclosedWarnings) := by
  induction parts with
  | nil => exact fun {s} hdepth => ⟨(), s, rfl, hdepth, [], .of_eq rfl, .refl _⟩
  | cons part parts ih =>
    intro s hdepth
    obtain ⟨hsound, hclosed, hpart⟩ := h part (by simp)
    refine (sourcePart_warns hsound hclosed hpart hdepth).bind (fun _ t ht => ?_)
    obtain ⟨htdepth, ws, hws, hperm⟩ := ht
    refine (ih (fun n hn => h n (by simp [hn])) htdepth).imp (fun _ u hu => ?_)
    obtain ⟨hudepth, vs, hvs, hperm'⟩ := hu
    refine ⟨hudepth, ws ++ vs, hws.trans hvs, ?_⟩
    have hboth := hperm.append hperm'
    rwa [← List.flatMap_append, unitsOf, unitsOf, ← List.flatMap_append, ← List.filter_append] at hboth

end Lower

/-! ## Main statement -/

section Programs

variable {source : String} {o : Options} {p q : Parser} {root : Node}

/-- A generator has nothing to report about loops before it runs. -/
theorem Generator.start_warns (root : Node) (o : Options) :
    (start root o).diagnostics.filter (·.rule == Label.labelDoStmt.name) = [] := by
  have hrule : (Diagnostic.programUnit == Label.labelDoStmt.name) = false := by decide
  unfold start diagnostics
  simp only
  split
  · rfl
  · rw [List.filter_cons_of_neg (by simp [hrule]), List.filter_nil]

/-- If no part of an IF block leaves a loop open, the code of each unit opens, divides and closes blocks
as its brackets say: each loop ends behind the statement of its own list that carries its label, or at
the END of the unit with a warning, and each block that is divided is an IF block. No other loops are
reported, so that a program without a warning closes each loop in its own list. -/
theorem blocks_nest (hp : Parser.start? o.source (scan source) = some p)
    (hq : p.parse = .ok (.ok root, q))
    (hclosed : ∀ part ∈ root.findAll .conditionalBody, Node.openLoops [] part.children = []) :
    ∃ lines g, (Generator.start root o).run (some root) =
        .ok (o.header ++ Line.render o.indentation lines, g) ∧
      (g.diagnostics.filter (·.rule == Label.labelDoStmt.name)).Perm
        (root.units.flatMap Node.unclosedWarnings) ∧
      let runs := Lower.sourceRuns root.children (Generator.start root o).state
      (∀ unit ∈ root.units, ∃ run ∈ runs, run.node = unit) ∧
      ∀ run ∈ runs, Julia.nest [] run.node.unitBrackets = some [] ∧
        ∃ t own, Wrote lines (Lower.programUnit run.node) run.state t own ∧
          Bracketed 0 run.node.unitBrackets own 0 := by
  have hsound : root.Sound True := fun n hn => ⟨parse_indexable hp hq hn, fun _ => trivial⟩
  have hall : root.Closed := hclosed
  have hsource := parse_sourcePart hp hq
  obtain ⟨s, hrun, hlowered⟩ := Generator.run_lines hsound o
  -- What is known of the run of the whole source and of the states in which its units are lowered.
  obtain ⟨-, ws, ⟨found, hfound, hws⟩, hperm⟩ := (Lower.sources_warns
    (fun n hn => ⟨hsound.child hn, hall.child hn, hsource n hn⟩) rfl).of_run hlowered
  obtain ⟨-, hstarts⟩ :=
    (Lower.sources_levelled (fun n hn => ⟨hsound.child hn, hsource n hn⟩) rfl).of_run hlowered
  have hruns := (Lower.runs_sources (fun n hn => hsound.child hn) _).of_run hlowered
  refine ⟨_, _, hrun, ?_, fun unit hunit => ?_, fun run hmem => ?_⟩
  · calc
      List.Perm _ (s.diagnostics.filter (·.rule == Label.labelDoStmt.name)) :=
        (List.mergeSort_perm _ _).filter _
      _ = (Generator.start root o).diagnostics.filter (·.rule == Label.labelDoStmt.name) ++ ws := by
        rw [hfound, List.filter_append, hws]
        rfl
      _ = ws := by rw [Generator.start_warns, List.nil_append]
      List.Perm _ (root.units.flatMap Node.unclosedWarnings) := hperm
  · obtain ⟨n, hn, hprogram, hmem⟩ := mem_units.1 hunit
    exact Lower.sourceRuns_nodes hn hprogram hmem _
  · obtain ⟨⟨n, hn, hprogram, hunit⟩, hwithin⟩ := hruns run hmem
    have hunitSound := (hsound.child hn).child hunit
    have hunitClosed := (hall.child hn).child hunit
    have hparted : Lower.IsProgramUnit run.node := by
      rcases hsource n hn with hleaf | ⟨-, hunits⟩
      · cases n with
        | leaf => cases hprogram
        | inner => cases hleaf
      · exact hunits run.node hunit
    obtain ⟨_, t, hunitRun, hlater⟩ := hwithin.behind
    obtain ⟨hlays, hdepth⟩ :=
      (Lower.programUnit_lays hunitSound hunitClosed hparted (hstarts run hmem)).of_run hunitRun
    obtain ⟨own, hown, hlines⟩ := hlays.lines
    rw [hstarts run hmem, hdepth] at hlines
    exact ⟨Lower.nest_unit hunitSound hunitClosed, t, own, .of_extends hunitRun hown hlater, hlines⟩

end Programs

/-- A loop around an IF block, which closes it and has a loop in its first part, and a loop that is never
closed. -/
theorem blocks_nest_loops :
    ∃ p q root lines g run t own, Parser.start? "" (scan
        "PROGRAM P\nDO 1 I=1,2\nIF (L) THEN\nDO 2 J=1,3\n2 X=1\nELSE\n1 ENDIF\nDO 3 K=1,2\nEND") =
        some p ∧
      p.parse = .ok (.ok root, q) ∧
      (Generator.start root {}).run (some root) =
        .ok (({} : Options).header ++ Line.render ({} : Options).indentation lines, g) ∧
      (g.diagnostics.filter (·.rule == Label.labelDoStmt.name)).map (·.message) =
        ["DO loop ending at label 3 is never closed"] ∧
      run ∈ Lower.sourceRuns root.children (Generator.start root {}).state ∧
      Wrote lines (Lower.programUnit run.node) run.state t own ∧
      Bracketed 0 [.opens (.loop "1"), .opens .branch, .opens (.loop "2"), .closes (.loop "2"), .resumes,
        .closes .branch, .closes (.loop "1"), .opens (.loop "3"), .closes (.loop "3")] own 0 := by
  have hstart := start_scan ""
    "PROGRAM P\nDO 1 I=1,2\nIF (L) THEN\nDO 2 J=1,3\n2 X=1\nELSE\n1 ENDIF\nDO 3 K=1,2\nEND"
  have hok : ((Parser.matched? { source := "", tokens := (scan
      "PROGRAM P\nDO 1 I=1,2\nIF (L) THEN\nDO 2 J=1,3\n2 X=1\nELSE\n1 ENDIF\nDO 3 K=1,2\nEND").toArray }).any
        fun root =>
          (root.findAll .conditionalBody).all (fun part => (Node.openLoops [] part.children).isEmpty) &&
          ((root.units.flatMap Node.unclosedWarnings).map (·.message) ==
            ["DO loop ending at label 3 is never closed"] &&
          root.units.map Node.unitBrackets == [[.opens (.loop "1"), .opens .branch, .opens (.loop "2"),
            .closes (.loop "2"), .resumes, .closes .branch, .closes (.loop "1"), .opens (.loop "3"),
            .closes (.loop "3")]])) = true := by
    rw [scan_within]
    decide +kernel
  obtain ⟨root, hmatched, hroot⟩ := (Option.any_eq_true _ _).1 hok
  simp only [Bool.and_eq_true, List.all_eq_true, List.isEmpty_iff, beq_iff_eq] at hroot
  obtain ⟨hclosed, hwarnings, hbrackets⟩ := hroot
  obtain ⟨q, hq⟩ := parse_of_match (Parser.start_sound hstart) hmatched
  obtain ⟨lines, g, hrun, hperm, hunits, hruns⟩ := blocks_nest (o := {}) hstart hq hclosed
  obtain ⟨unit, hunit, hown⟩ : ∃ unit ∈ root.units, unit.unitBrackets = _ :=
    List.mem_map.1 (by rw [hbrackets]; exact List.mem_singleton_self _)
  obtain ⟨run, hmem, rfl⟩ := hunits unit hunit
  obtain ⟨-, t, own, hwrote, hlines⟩ := hruns run hmem
  rw [hown] at hlines
  refine ⟨_, q, root, lines, g, run, t, own, hstart, hq, hrun, ?_, hmem, hwrote, hlines⟩
  have hmessages := hperm.map (·.message)
  rw [hwarnings] at hmessages
  exact List.perm_singleton.1 hmessages

/-- A loop that the first part of an IF block leaves open is closed in the second part, behind the line
between them, and nothing is reported. -/
theorem loop_closed_in_other_part :
    ∃ p q root lines g, Parser.start? "" (scan
        "PROGRAM P\nIF (A.GT.0) THEN\nDO 1 I=1,3\nELSE\n1 CONTINUE\nENDIF\nEND") = some p ∧
      p.parse = .ok (.ok root, q) ∧
      (Generator.start root { indent := "  " }).run (some root) =
        .ok (({} : Options).header ++ Line.render "  " lines, g) ∧
      Line.render "  " lines = "if A > 0\n  for I in 1:3\n  else\n  end\nend\n" ∧
      g.diagnostics = [] := by
  have hstart := start_scan "" "PROGRAM P\nIF (A.GT.0) THEN\nDO 1 I=1,3\nELSE\n1 CONTINUE\nENDIF\nEND"
  have hok : ((Parser.matched? { source := "", tokens := (scan
      "PROGRAM P\nIF (A.GT.0) THEN\nDO 1 I=1,3\nELSE\n1 CONTINUE\nENDIF\nEND").toArray }).any fun root =>
        ((Generator.start root { indent := "  " }).run (some root)).toOption.any fun r =>
          r.1 == ({} : Options).header ++ "if A > 0\n  for I in 1:3\n  else\n  end\nend\n" &&
            r.2.diagnostics.isEmpty) = true := by
    rw [scan_within]
    decide +kernel
  obtain ⟨root, hmatched, hroot⟩ := (Option.any_eq_true _ _).1 hok
  obtain ⟨q, hq⟩ := parse_of_match (Parser.start_sound hstart) hmatched
  have hsound : root.Sound True := fun n hn => ⟨parse_indexable hstart hq hn, fun _ => trivial⟩
  obtain ⟨s, hrun, -⟩ := Generator.run_lines hsound { indent := "  " }
  rw [hrun] at hroot
  obtain ⟨r, hsome, hr⟩ := (Option.any_eq_true _ _).1 hroot
  obtain rfl := Option.some.inj hsome
  obtain ⟨htext, hquiet⟩ := Bool.and_eq_true_iff.1 hr
  exact ⟨_, q, root, _, _, hstart, hq, hrun, (String.append_right_inj _).1 (eq_of_beq htext),
    List.isEmpty_iff.1 hquiet⟩

end FortranJulia
