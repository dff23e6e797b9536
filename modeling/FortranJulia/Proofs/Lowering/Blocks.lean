import FortranJulia.Proofs.Lowering.Visits

/-!
Blocks of whole units. The depth of a line is that of its unit plus the number of open loops and of
open IF blocks. A list of statements may leave loops open and close loops that were open before it,
and a loop that is still open at the END of its unit is closed there. So the lines of a unit open and
close blocks evenly, however the loops and IF blocks of the source overlap.
-/

namespace FortranJulia

set_option autoImplicit false

open Julia (Expr Code Line)

/-! ## Steps that open and close loops -/

/-- A step that may open and close loops, of which `i` other blocks are open before and `j` behind
it. Without its loops the unit is at the depth `base`. -/
structure Nests (base i j : Nat) (s t : LowerState) : Prop where
  depth : t.depth = base + t.unit.loops.length
  lines : ∃ new, t.lines = new.reverse ++ s.lines ∧
    Julia.levels base (s.depth + i) new = some (t.depth + j)

namespace Nests

variable {base i j k : Nat} {s t u : LowerState}

theorem refl (h : s.depth = base + s.unit.loops.length) : Nests base i i s s :=
  ⟨h, [], rfl, rfl⟩

theorem trans (h : Nests base i j s t) (h' : Nests base j k t u) : Nests base i k s u := by
  obtain ⟨new, hnew, hlevels⟩ := h.lines
  obtain ⟨new', hnew', hlevels'⟩ := h'.lines
  refine ⟨h'.depth, new ++ new', ?_, ?_⟩
  · rw [hnew', hnew, List.reverse_append, List.append_assoc]
  · rw [Julia.levels_append, hlevels]
    exact hlevels'

end Nests

/-- A step inside a statement opens and closes no loop. -/
theorem Evolves.nests {wide : Prop} {base i j : Nat} {s t : LowerState} (h : Evolves wide i j s t)
    (hs : s.depth = base + s.unit.loops.length) : Nests base i j s t := by
  obtain ⟨new, hnew, hlevels, -⟩ := h.lines
  have hfloor : base ≤ s.depth := by omega
  refine ⟨by rw [h.depth, h.loops, hs], new, hnew, ?_⟩
  rw [h.depth]
  exact Julia.levels_floor hfloor hlevels

namespace Lower

variable {wide : Prop} {i j k : Nat}

/-- Whenever a unit is open, the action succeeds and makes a step that may open and close loops. -/
def Keeps (i j : Nat) {α : Type} (act : Lower α) : Prop :=
  ∀ base (s : LowerState), s.Open → s.depth = base + s.unit.loops.length →
    act.Does s fun _ t => t.Open ∧ Nests base i j s t

theorem Moves.keeps {α : Type} {act : Lower α} (h : Moves wide i j act) : Keeps i j act :=
  fun _ s hs hdepth => (h s hs).imp (fun _ _ hst => ⟨(hst.settled hs).1, hst.nests hdepth⟩)

namespace Keeps

variable {α β : Type}

theorem bind {act : Lower α} {f : α → Lower β} (h : Keeps i j act) (h' : ∀ a, Keeps j k (f a)) :
    Keeps i k (act >>= f) := by
  intro base s hs hdepth
  refine (h base s hs hdepth).bind (fun a t hst => ?_)
  exact (h' a base t hst.1 hst.2.depth).imp (fun _ _ htu => ⟨htu.1, hst.2.trans htu.2⟩)

/-- What is done one level deeper, seen from the block around it. -/
theorem nested {act : Lower Unit} (h : Keeps 0 0 act) : Keeps 1 1 (nested act) := by
  intro base s hs hdepth
  have hdeeper : (deeper s).depth = base + 1 + (deeper s).unit.loops.length := by
    show s.depth + 1 = base + 1 + s.unit.loops.length
    omega
  obtain ⟨_, t, hrun, ht, hst⟩ := h (base + 1) (deeper s) ⟨hs.unit, hs.spelled⟩ hdeeper
  obtain ⟨new, hnew, hlevels⟩ := hst.lines
  have hout : t.depth - 1 + 1 = t.depth := by have := hst.depth; omega
  refine ⟨(), { t with depth := t.depth - 1 }, ?_, ⟨ht.unit, ht.spelled⟩, ?_, new, hnew, ?_⟩
  · show (act >>= fun _ => _).run (deeper s) = _
    rw [run_bind_ok hrun]
    rfl
  · show t.depth - 1 = base + t.unit.loops.length
    have := hst.depth
    omega
  · show Julia.levels base (s.depth + 1) new = some (t.depth - 1 + 1)
    rw [hout]
    exact Julia.levels_floor (Nat.le_succ base) hlevels

end Keeps

/-! ## Loops -/

theorem keeps_doStmt {stmt : Node} (h : stmt.Sound wide) : Keeps 0 0 (doStmt stmt) := by
  intro base s hs hdepth
  cases hcontrol : stmt.child? .loopControl with
  | none =>
    refine ⟨(), s, ?_, hs, .refl hdepth⟩
    rw [doStmt, hcontrol]
    rfl
  | some control =>
    obtain ⟨t, v, r, hst, hrun⟩ := doStmt_run h hcontrol hs
    have hopen : Passes wide t (t.openLoop v r (loopOf stmt t.depth)) := passes_openLoop t v r _
    have hhead : Nests base 0 0 t (t.openLoop v r (loopOf stmt t.depth)) := by
      refine ⟨?_, [.code t.depth (.forHead v r)], rfl, ?_⟩
      · show t.depth + 1 = base + (t.unit.loops.length + 1)
        rw [hst.depth, hst.loops, hdepth]
        omega
      · simp [Julia.levels, Line.level, Code.opens, LowerState.openLoop]
    exact ⟨(), _, hrun, (hopen.settled (hst.settled hs).1).1, (hst.nests hdepth).trans hhead⟩

theorem nests_closeLoop {base : Nat} {s : LowerState} {loop : OpenLoop} {rest : List OpenLoop}
    (hloops : s.unit.loops = loop :: rest) (hdepth : s.depth = base + s.unit.loops.length) :
    Nests base 0 0 s (s.closeLoop rest) := by
  have hlast : s.depth - 1 = base + rest.length := by
    rw [hdepth, hloops, List.length_cons]
    omega
  have hback : s.depth - 1 + 1 = s.depth := by
    rw [hdepth, hloops, List.length_cons]
    omega
  refine ⟨hlast, [.code (s.depth - 1) .close], rfl, ?_⟩
  have hfloor : base ≤ s.depth - 1 := by omega
  simp [Julia.levels, Line.level, Code.opens, Code.resumes, Code.closes, LowerState.closeLoop, hback,
    hfloor]

theorem closeLoops_nests (label : String) {base : Nat} {loops : List OpenLoop} :
    ∀ {s : LowerState}, s.Open → s.unit.loops = loops → s.depth = base + s.unit.loops.length →
      (closeLoops label loops).Does s fun _ t => t.Open ∧ Nests base 0 0 s t := by
  induction loops with
  | nil => exact fun {s} hs _ hdepth => ⟨(), s, rfl, hs, .refl hdepth⟩
  | cons loop rest ih =>
    intro s hs hloops hdepth
    unfold Does
    rw [closeLoops_cons label hloops]
    split
    · have hclose := nests_closeLoop hloops hdepth
      have hpasses : Passes False s (s.closeLoop rest) := passes_closeLoop s rest
      have hopen := (hpasses.settled hs).1
      exact (ih hopen rfl hclose.depth).imp (fun _ _ hst => ⟨hst.1, hclose.trans hst.2⟩)
    · exact ⟨(), s, rfl, hs, .refl hdepth⟩

theorem keeps_after {stmt : Node} (h : stmt.Sound wide) : Keeps 0 0 (after stmt) := by
  have htrailing : Moves wide 0 0 (trailing stmt) := moves_trailing stmt (Nat.zero_le 1)
  have hnone : Moves wide 0 0 (pure () : Lower Unit) := .pure ()
  refine htrailing.keeps.bind (fun _ => ?_)
  refine (moves_closingLabel (i := 0) h).keeps.bind (fun label => ?_)
  split
  · exact fun base s hs hdepth => closeLoops_nests label hs rfl hdepth
  · exact hnone.keeps

/-- All loops that are still open are closed. -/
theorem abandonLoops_nests (stmt : Node) {base : Nat} {loops : List OpenLoop} :
    ∀ {s : LowerState}, s.Open → s.unit.loops = loops → s.depth = base + s.unit.loops.length →
      (abandonLoops stmt loops).Does s fun _ t =>
        t.Open ∧ Nests base 0 0 s t ∧ t.unit.loops = [] ∧ t.unit.kind = s.unit.kind := by
  induction loops with
  | nil => exact fun {s} hs hloops hdepth => ⟨(), s, rfl, hs, .refl hdepth, hloops, rfl⟩
  | cons loop rest ih =>
    intro s hs hloops hdepth
    let warned : LowerState := { s with
      diagnostics := s.diagnostics ++ [⟨.warning, Label.labelDoStmt.name, stmt.place.1, stmt.place.2,
        "DO loop ending at label " ++ loop.label ++ " is never closed"⟩] }
    have hwarned : (warn stmt Label.labelDoStmt.name
        ("DO loop ending at label " ++ loop.label ++ " is never closed")).run s =
        .ok ((), warned) := rfl
    have hloops' : warned.unit.loops = loop :: rest := hloops
    have hreport : Nests base 0 0 s warned := ⟨hdepth, [], rfl, rfl⟩
    have hclose := hreport.trans (nests_closeLoop hloops' hdepth)
    have hopen : (warned.closeLoop rest).Open := ⟨hs.unit, hs.spelled⟩
    obtain ⟨a, t, hrun, ht, hst, hnone, hkind⟩ := ih (s := warned.closeLoop rest) hopen rfl hclose.depth
    refine ⟨a, t, ?_, ht, hclose.trans hst, hnone, hkind⟩
    rw [abandonLoops, run_bind_ok hwarned, run_bind_ok (closeLoop_run hloops'), hrun]

/-! ## Statements -/

theorem keeps_trailing (stmt : Node) (hi : i ≤ 1) : Keeps i i (trailing stmt) := by
  have hmoves : Moves False i i (trailing stmt) := moves_trailing stmt hi
  exact hmoves.keeps

theorem keeps_simple {stmt : Node} (h : stmt.Sound wide) : Keeps 0 0 (simple stmt) := by
  by_cases hl : stmt.label? = some .labelDoStmt
  · rw [simple, hl]
    exact keeps_doStmt h
  · exact (moves_simple h hl).keeps

section Marks

variable {stmt : Node} (h : stmt.Sound wide)

include h

/-- The line with the first condition of an IF block opens it. -/
theorem keeps_ifThen (hl : stmt.label? = some .ifThenStmt) : Keeps 0 1 (blockMark stmt) := by
  have hmark : Moves wide 0 0 (labelMark stmt) := moves_labelMark stmt
  have hopen : ∀ c, Moves wide 0 1 (line (.ifHead c)) := fun _ => moves_open rfl rfl
  unfold blockMark
  rw [hl]
  refine hmark.keeps.bind (fun _ => (moves_condition (i := 0) h).keeps.bind (fun c => ?_))
  exact (hopen c).keeps.bind (fun _ => keeps_trailing stmt (Nat.le_refl 1))

theorem keeps_else (hl : stmt.label? = some .elseIfStmt ∨ stmt.label? = some .elseStmt) :
    Keeps 1 1 (blockMark stmt) := by
  have hline : ∀ {c : Code}, c.isOrdinary → c.resumes → Keeps 1 1 (line c) := by
    intro c hordinary hresumes
    have hmoves : Moves wide 1 1 (line c) := moves_resume hordinary hresumes
    exact hmoves.keeps
  unfold blockMark
  rcases hl with hl | hl
  · rw [hl]
    refine (moves_condition (i := 1) h).keeps.bind (fun c => (hline rfl rfl).bind (fun _ => ?_))
    exact keeps_trailing stmt (Nat.le_refl 1)
  · rw [hl]
    exact (hline rfl rfl).bind (fun _ => keeps_trailing stmt (Nat.le_refl 1))

omit h in
/-- The END IF closes its block. -/
theorem keeps_endIf (hl : stmt.label? = some .endIfStmt) : Keeps 1 0 (blockMark stmt) := by
  have hmark : Moves False 1 1 (nested (labelMark stmt)) := .nested (moves_labelMark stmt)
  have hclose : Moves False 1 0 (line .close) := moves_close
  unfold blockMark
  rw [hl]
  refine hmark.keeps.bind (fun _ => hclose.keeps.bind (fun _ => ?_))
  exact keeps_trailing stmt (Nat.zero_le 1)

end Marks

/-- A label that is not that of a body is that of a mark. -/
theorem blocks_mark {part : Node} (hl : part.label? ≠ some .conditionalBody) (rest : List Node) :
    blocks (part :: rest) = blockMark part >>= fun _ => blocks rest := by
  cases part with
  | leaf k lx => rw [blocks]
  | inner k l cs =>
    have hne : (l == .conditionalBody) = false := by simpa [Node.label?] using hl
    rw [blocks, if_neg (by simp [hne])]

theorem blocks_body {part : Node} (hl : part.hasLabel .conditionalBody) (rest : List Node) :
    blocks (part :: rest) = nested (statements part.children) >>= fun _ => blocks rest := by
  cases part with
  | leaf => cases hl
  | inner k l cs =>
    obtain rfl : l = .conditionalBody := by simpa [Node.hasLabel, Node.label?] using hl
    rw [blocks, if_pos (beq_self_eq_true _)]
    rfl

mutual

theorem keeps_statement : ∀ n : Node, n.Sound wide → Keeps 0 0 (statement n)
  | .leaf k lx, h => by
    rw [statement]
    exact keeps_simple h
  | .inner k l cs, h => by
    have hcs : ∀ n ∈ cs, n.Sound wide := fun n hn => h.child hn
    unfold statement
    split
    · have hparts : (cs.head?.any (·.hasLabel .ifThenStmt) && Node.armed cs.tail) = true :=
        (h _ (nodes_self _)).1
      match cs, hcs, hparts with
      | first :: rest, hcs, hparts =>
        obtain ⟨hfirst, hrest⟩ := Bool.and_eq_true_iff.1 hparts
        have hlabel : first.label? = some .ifThenStmt := eq_of_beq hfirst
        rw [blocks_mark (by simp [hlabel])]
        refine (keeps_ifThen (hcs first (by simp)) hlabel).bind (fun _ => ?_)
        exact keeps_arms rest (fun n hn => hcs n (by simp [hn])) hrest
    · refine (moves_condition (i := 0) h).keeps.bind (fun c => ?_)
      have hopen : Moves wide 0 1 (line (.ifHead c)) := moves_open rfl rfl
      have hclose : Moves wide 1 0 (line .close) := moves_close
      refine hopen.keeps.bind (fun _ => ?_)
      exact (keeps_action cs (ifStmt_ne_nil h) hcs).nested.bind (fun _ => hclose.keeps)
    · exact keeps_simple h

/-- What follows a condition of an IF block closes it. -/
theorem keeps_arms : ∀ ns : List Node, (∀ n ∈ ns, n.Sound wide) → Node.armed ns →
    Keeps 1 0 (blocks ns)
  | [], _, h => by cases h
  | [_], _, h => by cases h
  | .leaf k lx :: [_], _, h => by cases h
  | .leaf k lx :: _ :: _ :: _, _, h => by cases h
  | .inner k l cs :: [last], hns, h => by
    obtain ⟨hbody, hlast⟩ := Bool.and_eq_true_iff.1 h
    have hlabel : last.label? = some .endIfStmt := eq_of_beq hlast
    have hpure : Moves wide 0 0 (pure () : Lower Unit) := .pure ()
    have hthis := hns (.inner k l cs) (by simp)
    rw [blocks_body hbody, blocks_mark (by simp [hlabel]), blocks]
    refine (keeps_statements cs (fun n hn => hthis.child hn)).nested.bind (fun _ => ?_)
    exact (keeps_endIf hlabel).bind (fun _ => hpure.keeps)
  | .inner k l cs :: next :: third :: rest, hns, h => by
    simp only [Node.armed, Bool.and_eq_true, Bool.or_eq_true] at h
    obtain ⟨⟨hbody, hnext⟩, hrest⟩ := h
    have hlabel : next.label? = some .elseIfStmt ∨ next.label? = some .elseStmt :=
      hnext.imp eq_of_beq eq_of_beq
    have hthis := hns (.inner k l cs) (by simp)
    rw [blocks_body hbody, blocks_mark (by rcases hlabel with hl | hl <;> simp [hl])]
    refine (keeps_statements cs (fun n hn => hthis.child hn)).nested.bind (fun _ => ?_)
    refine (keeps_else (hns next (by simp)) hlabel).bind (fun _ => ?_)
    exact keeps_arms (third :: rest) (fun n hn => hns n (by simp_all)) hrest

theorem keeps_action : ∀ ns : List Node, ns ≠ [] → (∀ n ∈ ns, n.Sound wide) → Keeps 0 0 (action ns)
  | [], hne, _ => absurd rfl hne
  | [stmt], _, h => by
    have hcollect : Moves wide 0 0 (collect stmt) := moves_collect stmt
    rw [action]
    refine hcollect.keeps.bind (fun _ => ?_)
    refine (keeps_statement stmt (h stmt (by simp))).bind (fun _ => ?_)
    exact keeps_trailing stmt (Nat.zero_le 1)
  | n :: m :: rest, _, h => by
    rw [action]
    · exact keeps_action (m :: rest) (by simp) (fun k hk => h k (by simp [hk]))
    · simp

theorem keeps_statements : ∀ ns : List Node, (∀ n ∈ ns, n.Sound wide) → Keeps 0 0 (statements ns)
  | [], _ => by
    have hpure : Moves wide 0 0 (pure () : Lower Unit) := .pure ()
    rw [statements]
    exact hpure.keeps
  | stmt :: rest, h => by
    have hstmt := h stmt (by simp)
    have hbefore : Moves wide 0 0 (before stmt) := moves_before stmt
    rw [statements]
    refine hbefore.keeps.bind (fun _ => ?_)
    refine (keeps_statement stmt hstmt).bind (fun _ => (keeps_after hstmt).bind (fun _ => ?_))
    exact keeps_statements rest (fun n hn => h n (by simp [hn]))

end

end Lower

/-! ## Units -/

/-- The lines of a step take the depth of the state along. -/
def Levelled (s t : LowerState) : Prop :=
  ∃ new, t.lines = new.reverse ++ s.lines ∧ Julia.levels 0 s.depth new = some t.depth

namespace Levelled

variable {s t u : LowerState}

theorem refl (s : LowerState) : Levelled s s :=
  ⟨[], rfl, rfl⟩

theorem trans (h : Levelled s t) (h' : Levelled t u) : Levelled s u := by
  obtain ⟨new, hnew, hlevels⟩ := h
  obtain ⟨new', hnew', hlevels'⟩ := h'
  refine ⟨new ++ new', ?_, ?_⟩
  · rw [hnew', hnew, List.reverse_append, List.append_assoc]
  · rw [Julia.levels_append, hlevels]
    exact hlevels'

end Levelled

theorem Nests.levelled {base : Nat} {s t : LowerState} (h : Nests base 0 0 s t) : Levelled s t := by
  obtain ⟨new, hnew, hlevels⟩ := h.lines
  exact ⟨new, hnew, Julia.levels_floor (Nat.zero_le base) hlevels⟩

theorem Evolves.levelled {wide : Prop} {s t : LowerState} (h : Evolves wide 0 0 s t) :
    Levelled s t := by
  obtain ⟨new, hnew, hlevels, -⟩ := h.lines
  refine ⟨new, hnew, ?_⟩
  rw [h.depth]
  exact Julia.levels_floor (Nat.zero_le s.depth) hlevels

theorem UnitState.isRoutine_congr {u v : UnitState} (h : v.kind = u.kind) : v.isRoutine = u.isRoutine := by
  rw [isRoutine, isRoutine, h]

/-- The last statement of a unit is its END. -/
theorem UnitParts.unitPart_last {l : Label} {cs : List Node} {head body : Option Node} {last : Node}
    (h : UnitParts l cs head body last) (whole : Node) :
    Lower.unitPart whole last = Lower.unitEnd whole last := by
  rw [Lower.unitPart, h.lastLabel]
  cases l <;> rfl

namespace Lower

variable {wide : Prop}

/-- The state inside a routine whose head was just written. -/
def inRoutine (s : LowerState) (f : String) (params : List String) : LowerState :=
  { s with depth := s.depth + 1, lines := .code s.depth (.functionHead f params) :: s.lines }

/-- The names in the head of a routine are spelled, the head is written, and the rest stands inside. -/
theorem routineHead_steps (stmt : Node) {s : LowerState} (hs : s.Open) :
    ∃ f params t u, Evolves False 0 0 s t ∧ (inRoutine t f params).Open ∧
      Evolves False 0 0 (inRoutine t f params) u ∧ (routineHead stmt).run s = .ok ((), u) := by
  have hunit : Lower.unit.run s = .ok (s.unit, s) := rfl
  have htable : Lower.table.run s = .ok (s.collection.table, s) := rfl
  have hidents : Moves False 0 0 (idents s.collection.table.current.formals) := moves_idents _
  have hcallee : Moves False 0 0 (callee s.unit.name) := moves_callee _
  have hrest : Moves False 0 0 (do
      trailing stmt
      if s.unit.kind == .functionSubprogram then
        let type := (← Lower.table).typeOf s.unit.name
        line (.assign .plain [.name (← ident s.unit.name)] (zeroValue type))) := by
    refine .bind (moves_trailing stmt (Nat.zero_le 1)) (fun _ => ?_)
    split
    · exact .bind .table (fun t => .bind (moves_ident _) (fun v => moves_line rfl rfl))
    · exact .pure _
  obtain ⟨params, t, hrun, hst⟩ := hidents s hs
  obtain ⟨f, u, hrun', htu⟩ := hcallee t (hst.settled hs).1
  have hsu := hst.trans hs htu
  have hopen : (inRoutine u f params).Open := ⟨(hsu.settled hs).1.unit, (hsu.settled hs).1.spelled⟩
  obtain ⟨a, v, hrun'', huv⟩ := hrest (inRoutine u f params) hopen
  refine ⟨f, params, u, v, hsu, hopen, huv, ?_⟩
  rw [routineHead, run_bind_ok hunit, run_bind_ok htable, run_bind_ok hrun, run_bind_ok hrun']
  exact hrun''

/-- The head of a routine opens a block, and its body stands inside. -/
theorem routineHead_levelled (stmt : Node) {s : LowerState} (hs : s.Open) :
    (routineHead stmt).Does s fun _ t => t.Open ∧ Levelled s t ∧ t.depth = s.depth + 1 ∧
      t.unit.fixed = s.unit.fixed := by
  obtain ⟨f, params, t, u, hst, hopen, htu, hrun⟩ := routineHead_steps stmt hs
  have hhead : Levelled t (inRoutine t f params) :=
    ⟨[.code t.depth (.functionHead f params)], rfl,
      by simp [Julia.levels, Line.level, Code.opens, inRoutine]⟩
  refine ⟨(), u, hrun, (htu.settled hopen).1, hst.levelled.trans (hhead.trans htu.levelled), ?_,
    htu.unit.trans hst.unit⟩
  rw [htu.depth, show (inRoutine t f params).depth = t.depth + 1 from rfl, hst.depth]

/-- The end of a function stands one level further out than its body. -/
def functionEnd (stmt : Node) : Lower Unit := do
  modify fun s => { s with depth := s.depth - 1 }
  line .close
  trailing stmt

theorem functionEnd_levelled (stmt : Node) {s : LowerState} (hs : s.Open) (hdepth : s.depth = 1) :
    (functionEnd stmt).Does s fun _ t => Levelled s t ∧ t.depth = 0 := by
  have htrailing : Moves False 0 0 (trailing stmt) := moves_trailing stmt (Nat.zero_le 1)
  let closed : LowerState := { s with depth := 0, lines := .code 0 .close :: s.lines }
  have hclosed : closed.Open := ⟨hs.unit, hs.spelled⟩
  have hend : Levelled s closed := by
    refine ⟨[.code 0 .close], rfl, ?_⟩
    simp [Julia.levels, Line.level, Code.opens, Code.resumes, Code.closes, hdepth, closed]
  obtain ⟨a, t, hrun, hct⟩ := htrailing closed hclosed
  refine ⟨a, t, ?_, hend.trans hct.levelled, hct.depth⟩
  have hstate : { s with depth := s.depth - 1, lines := .code (s.depth - 1) .close :: s.lines } =
      closed := by simp only [closed, hdepth]
  rw [← hrun, ← hstate]
  rfl

/-- The END of a unit gives up the loops that are still open. What it writes before the end of the block
of a routine opens and closes no block. -/
theorem unitEnd_steps {whole stmt : Node} {s : LowerState} {mid post : LowerState → Prop}
    (hgiven : (abandonLoops stmt s.unit.loops).Does s fun _ t =>
      t.Open ∧ t.unit.kind = s.unit.kind ∧ mid t)
    (hrest : ∀ t u, mid t → Evolves False 0 0 t u → u.Open →
      (if s.unit.isRoutine then functionEnd stmt else trailing stmt).Does u fun _ v => post v) :
    (unitEnd whole stmt).Does s fun _ v => post v := by
  have hmark : Moves False 0 0 (labelMark stmt) := moves_labelMark stmt
  have hreturn : Moves False 0 0 (returnCode >>= line) := moves_returnLine
  unfold unitEnd
  refine Does.unit (hgiven.bind (fun _ t ht => ?_))
  obtain ⟨hopen, hkind, hmid⟩ := ht
  refine (hmark t hopen).bind (fun _ u htu => Does.unit ?_)
  have hu := (htu.settled hopen).1
  have hukind := congrArg UnitState.kind htu.unit
  have hsame : u.unit.isRoutine = s.unit.isRoutine :=
    UnitState.isRoutine_congr (Eq.trans hukind hkind)
  rw [hsame]
  cases hroutine : s.unit.isRoutine with
  | true =>
    simp only [hroutine, if_true] at hrest ⊢
    split
    · have hlast : ((returnCode >>= line) >>= fun _ => functionEnd stmt).Does u fun _ v => post v := by
        refine (hreturn u hu).bind (fun _ v huv => ?_)
        exact hrest t v hmid (htu.trans hopen huv) (huv.settled hu).1
      rwa [bind_assoc] at hlast
    · exact hrest t u hmid htu hu
  | false =>
    simp only [hroutine] at hrest ⊢
    exact hrest t u hmid htu hu

/-- The END of a unit closes the loops that are still open, and the block of a routine. -/
theorem unitEnd_levelled (whole stmt : Node) {s : LowerState} (hs : s.Open)
    (hdepth : s.depth = (if s.unit.isRoutine then 1 else 0) + s.unit.loops.length) :
    (unitEnd whole stmt).Does s fun _ t => Levelled s t ∧ t.depth = 0 := by
  have hgiven : (abandonLoops stmt s.unit.loops).Does s fun _ t => t.Open ∧
      t.unit.kind = s.unit.kind ∧ Levelled s t ∧ t.depth = if s.unit.isRoutine then 1 else 0 := by
    refine (abandonLoops_nests stmt hs rfl hdepth).imp (fun _ t ht => ?_)
    obtain ⟨hopen, hst, hloops, hkind⟩ := ht
    exact ⟨hopen, hkind, hst.levelled, by rw [hst.depth, hloops]; rfl⟩
  refine unitEnd_steps hgiven (fun t u hst htu hu => ?_)
  have hsu := hst.1.trans htu.levelled
  have hdeep := htu.depth.trans hst.2
  split
  · rename_i hroutine
    rw [if_pos hroutine] at hdeep
    exact (functionEnd_levelled stmt hu hdeep).imp (fun _ _ huv => ⟨hsu.trans huv.1, huv.2⟩)
  · rename_i hroutine
    rw [if_neg hroutine] at hdeep
    have htrailing : Moves False 0 0 (trailing stmt) := moves_trailing stmt (Nat.zero_le 1)
    exact (htrailing u hu).imp (fun _ _ huv => ⟨hsu.trans huv.levelled, huv.depth.trans hdeep⟩)

/-- What an action does in a state is what is known of its run. -/
theorem Does.of_run {α : Type} {act : Lower α} {s t : LowerState} {a : α}
    {post : α → LowerState → Prop} (h : act.Does s post) (hrun : act.run s = .ok (a, t)) : post a t := by
  obtain ⟨b, u, hrun', hpost⟩ := h
  obtain ⟨rfl, rfl⟩ := Prod.mk.inj (Except.ok.inj (hrun'.symm.trans hrun))
  exact hpost

/-- Two statements about one action. -/
theorem Does.and {α : Type} {act : Lower α} {s : LowerState} {pre post : α → LowerState → Prop}
    (h : act.Does s pre) (h' : act.Does s post) : act.Does s fun a t => pre a t ∧ post a t := by
  obtain ⟨a, t, hrun, hpre⟩ := h
  exact ⟨a, t, hrun, hpre, h'.of_run hrun⟩

theorem Does.append {α : Type} {xs ys : List α} {f : α → Lower Unit} {s : LowerState}
    {mid post : LowerState → Prop} (h : (xs.forM f).Does s fun _ t => mid t)
    (h' : ∀ t, mid t → (ys.forM f).Does t fun _ u => post u) :
    ((xs ++ ys).forM f).Does s fun _ u => post u := by
  have hsplit : (xs ++ ys).forM f = xs.forM f >>= fun _ => ys.forM f := List.forM_append
  rw [hsplit]
  exact h.bind (fun _ t ht => h' t ht)

/-- The only part. -/
theorem Does.single {α : Type} {x : α} {f : α → Lower Unit} {s : LowerState}
    {post : LowerState → Prop} (h : (f x).Does s fun _ t => post t) :
    ([x].forM f).Does s fun _ t => post t := by
  show (f x >>= fun _ => Pure.pure ()).Does s _
  exact h.bind (fun _ t ht => ⟨(), t, rfl, ht⟩)

section Parts

variable {whole : Node} {l : Label} {s : LowerState}

/-- The depth of the statements of a unit, of which no loops are open. -/
def unitDepth (u : UnitState) : Nat :=
  if u.isRoutine then 1 else 0

theorem unitDepth_congr {u v : UnitState} (h : v.kind = u.kind) : unitDepth v = unitDepth u := by
  rw [unitDepth, unitDepth, UnitState.isRoutine_congr h]

/-- The first statement of a unit, if there is one. -/
theorem head_levelled {head : Option Node} (hs : s.Open) (hdepth : s.depth = 0)
    (hkind : s.unit.kind = l) (hunit : l.isUnit) (hheaded : l ≠ .mainProgram → head.isSome)
    (hlabel : ∀ n, head = some n → n.label? = some l.unitHead) :
    (head.toList.forM (unitPart whole)).Does s fun _ t =>
      t.Open ∧ Levelled s t ∧ t.depth = unitDepth t.unit ∧ t.unit.fixed = s.unit.fixed := by
  cases head with
  | none =>
    obtain rfl : l = .mainProgram := by_contra (fun hne => nomatch hheaded hne)
    refine ⟨(), s, rfl, hs, .refl s, ?_, rfl⟩
    rw [hdepth, unitDepth, UnitState.isRoutine, hkind]
    rfl
  | some n =>
    have hn := hlabel n rfl
    have htrailing : Moves False 0 0 (trailing n) := moves_trailing n (Nat.zero_le 1)
    have hkept : ∀ {t : LowerState}, t.unit.fixed = s.unit.fixed → t.unit.kind = l :=
      fun hfixed => (congrArg UnitState.kind hfixed).trans hkind
    refine Does.single ?_
    cases l with
    | mainProgram | blockDataSubprogram =>
      rw [unitPart, hn]
      refine (htrailing s hs).imp (fun _ t hst => ⟨(hst.settled hs).1, hst.levelled, ?_, hst.unit⟩)
      rw [hst.depth, hdepth, unitDepth, UnitState.isRoutine, hkept hst.unit]
      rfl
    | functionSubprogram | subroutineSubprogram =>
      rw [unitPart, hn]
      refine (routineHead_levelled n hs).imp (fun _ t ht => ?_)
      obtain ⟨hopen, hst, hdeep, hfixed⟩ := ht
      refine ⟨hopen, hst, ?_, hfixed⟩
      rw [hdeep, hdepth, unitDepth, UnitState.isRoutine, hkept hfixed]
      rfl
    | _ => cases hunit

/-- The statements of a unit, if there are some. -/
theorem body_levelled {body : Option Node} (hsound : ∀ n, body = some n → n.Sound wide)
    (hlabel : ∀ n, body = some n → n.label? = some .body) (hs : s.Open)
    (hdepth : s.depth = unitDepth s.unit) (hloops : s.unit.loops = []) :
    (body.toList.forM (unitPart whole)).Does s fun _ t => t.Open ∧ Levelled s t ∧
      t.depth = unitDepth t.unit + t.unit.loops.length ∧ t.unit.kind = s.unit.kind := by
  have hbase : s.depth = unitDepth s.unit + s.unit.loops.length := by rw [hloops, hdepth]; rfl
  cases body with
  | none => exact ⟨(), s, rfl, hs, .refl s, hbase, rfl⟩
  | some n =>
    have hn : ∀ c ∈ n.children, c.Sound wide := fun c hc => (hsound n rfl).child hc
    refine Does.single ?_
    rw [unitPart, hlabel n rfl]
    have hboth := (keeps_statements n.children hn (unitDepth s.unit) s hs hbase).and
      (carries_statements n.children hn s hs)
    refine hboth.imp (fun _ t ht => ?_)
    obtain ⟨⟨hopen, hst⟩, hpasses⟩ := ht
    have hkind : t.unit.kind = s.unit.kind := by
      have hsame := congrArg UnitState.kind hpasses.unit
      exact hsame
    refine ⟨hopen, hst.levelled, ?_, hkind⟩
    rw [unitDepth_congr hkind]
    exact hst.depth

/-- The parts of a unit open and close blocks evenly. -/
theorem parts_levelled {cs : List Node} {head body : Option Node} {last : Node}
    (h : UnitParts l cs head body last) (hsound : ∀ n ∈ cs, n.Sound wide) (hunit : l.isUnit)
    (hs : s.Open) (hdepth : s.depth = 0) (hkind : s.unit.kind = l) (hloops : s.unit.loops = []) :
    (cs.forM (unitPart whole)).Does s fun _ t => Levelled s t ∧ t.depth = 0 := by
  have hcs := h.children
  subst hcs
  refine (head_levelled hs hdepth hkind hunit h.headed h.headLabel).append (fun t ht => ?_)
  obtain ⟨htopen, hst, htdepth, hfixed⟩ := ht
  have htloops : t.unit.loops = [] := (congrArg UnitState.loops hfixed).trans hloops
  have hbody : ∀ n, body = some n → n.Sound wide := by
    rintro n rfl
    exact hsound n (by simp)
  refine (body_levelled hbody h.bodyLabel htopen htdepth htloops).append (fun u hu => ?_)
  obtain ⟨huopen, htu, hudepth, -⟩ := hu
  refine Does.single ?_
  have hend := unitEnd_levelled whole last huopen hudepth
  rw [h.unitPart_last]
  exact hend.imp (fun _ v huv => ⟨hst.trans (htu.trans huv.1), huv.2⟩)

end Parts

/-- A unit that stands at no depth opens and closes blocks evenly. -/
theorem programUnit_levelled {whole : Node} {l : Label} {head body : Option Node} {last : Node}
    (h : whole.Sound wide) (hlabel : whole.label? = some l) (hunit : l.isUnit)
    (hparts : UnitParts l whole.children head body last) {s : LowerState} (hdepth : s.depth = 0) :
    (programUnit whole).Does s fun _ t => Levelled s t ∧ t.depth = 0 := by
  obtain ⟨u, t, v, -, hreports, hsurveyed, hrun, -, hall⟩ := programUnit_run h s
  have hkind : u.kind = l := by rw [hsurveyed.kind, hlabel]; rfl
  have hsame : t.depth = s.depth ∧ t.lines = s.lines := by
    obtain ⟨_, _, rfl, -⟩ := hreports
    exact ⟨rfl, rfl⟩
  have hlevelled : (whole.children.forM (unitPart whole)).Does (t.entered whole u) fun _ v =>
      Levelled (t.entered whole u) v ∧ v.depth = 0 :=
    parts_levelled hparts (fun n hn => h.child hn) hunit (t.entered_open whole u).1
      (hsame.1.trans hdepth) hkind hsurveyed.loops
  obtain ⟨_, v', hrun', hlevels, hout⟩ := hlevelled
  obtain rfl : v' = v := congrArg Prod.snd (Except.ok.inj (hrun'.symm.trans hrun))
  obtain ⟨new, hnew, hlevels⟩ := hlevels
  refine ⟨(), v'.left, hall, ⟨new, hnew.trans (congrArg _ hsame.2), ?_⟩, rfl⟩
  rw [← hsame.1]
  exact hlevels.trans (congrArg some hout)

/-! ## Programs -/

/-- The unit has the parts of a unit. -/
def IsProgramUnit (unit : Node) : Prop :=
  ∃ l head body last, unit.label? = some l ∧ l.isUnit ∧ UnitParts l unit.children head body last

theorem unit_levelled {unit : Node} (h : unit.Sound wide) (hunit : IsProgramUnit unit) {s : LowerState}
    (hdepth : s.depth = 0) :
    (programUnit unit).Does s fun _ t => Levelled s t ∧ t.depth = 0 := by
  obtain ⟨l, head, body, last, hlabel, hl, hparts⟩ := hunit
  exact programUnit_levelled h hlabel hl hparts hdepth

theorem programUnits_levelled {units : List Node}
    (h : ∀ n ∈ units, n.Sound wide ∧ IsProgramUnit n) : ∀ {s : LowerState}, s.depth = 0 →
    (programUnits units).Does s fun _ t => (Levelled s t ∧ t.depth = 0) ∧
      ∀ run ∈ programRuns units s, run.state.depth = 0 := by
  induction units with
  | nil => exact fun {s} hdepth => ⟨(), s, rfl, ⟨.refl s, hdepth⟩, by simp [programRuns]⟩
  | cons unit rest ih =>
    intro s hdepth
    obtain ⟨hsound, hunit⟩ := h unit (by simp)
    obtain ⟨_, t, hrun, hst, ht⟩ := unit_levelled hsound hunit hdepth
    rw [programRuns, behind_eq hrun]
    cases rest with
    | nil =>
      refine ⟨(), t, hrun, ⟨hst, ht⟩, ?_⟩
      simpa [programRuns] using hdepth
    | cons next rest =>
      let gapped : LowerState := { t with lines := .gap :: t.lines }
      have hgap : Levelled t gapped := ⟨[.gap], rfl, rfl⟩
      obtain ⟨_, u, hrest, ⟨hlevels, hu⟩, hruns⟩ :=
        ih (fun n hn => h n (by simp [hn])) (s := gapped) ht
      refine ⟨(), u, ?_, ⟨hst.trans (hgap.trans hlevels), hu⟩, ?_⟩
      · rw [programUnits, run_bind_ok hrun]
        · exact hrest
        · simp
      · exact List.forall_mem_cons.2 ⟨hdepth, hruns⟩

theorem comment_levelled (text : String) (s : LowerState) :
    (comment text).Does s fun _ t => Levelled s t ∧ t.depth = s.depth := by
  have hline : ∀ c : String, Levelled s { s with lines := .code s.depth (.comment c) :: s.lines } :=
    fun c => ⟨[.code s.depth (.comment c)], rfl, by
      simp [Julia.levels, Line.level, Code.opens, Code.resumes, Code.closes]⟩
  unfold comment
  split
  · exact ⟨(), _, rfl, hline _, rfl⟩
  · rename_i hne
    have hlen : 1 ≤ (Text.trimChars text.toList).length := List.length_pos_iff.2 hne
    rw [itemsFrom, if_pos hlen]
    exact ⟨(), _, rfl, hline _, rfl⟩

theorem lone_levelled (name : String) (s : LowerState) :
    (callee name >>= fun w => line (.run (.name w))).Does s fun _ t =>
      Levelled s t ∧ t.depth = s.depth := by
  obtain ⟨more, hrun, -⟩ := spell_run s name
  have hcallee : (callee name).run s =
      .ok (escaped (s.collection.table.spelling name), s.recorded more) := run_bind_ok hrun
  refine ⟨(), _, run_bind_ok hcallee, ⟨[_], rfl, ?_⟩, rfl⟩
  simp [Julia.levels, Line.level, Code.opens, Code.resumes, Code.closes, LowerState.recorded]

/-- What stands in a source: tokens, and units under one node. -/
def IsSourcePart (part : Node) : Prop :=
  part.isLeaf ∨ part.hasLabel .executableProgram ∧ ∀ unit ∈ part.children, IsProgramUnit unit

theorem sourcePart_levelled {part : Node} (h : part.Sound wide) (hpart : IsSourcePart part)
    {s : LowerState} (hdepth : s.depth = 0) :
    (sourcePart part).Does s fun _ t => (Levelled s t ∧ t.depth = 0) ∧
      ∀ run ∈ sourceRuns [part] s, run.state.depth = 0 := by
  cases part with
  | leaf i lx =>
    have hnone : ∀ run ∈ sourceRuns [Node.leaf i lx] s, run.state.depth = 0 := by
      simp [sourceRuns, Node.hasLabel, Node.label?]
    have hkept : ∀ {t : LowerState}, Levelled s t ∧ t.depth = s.depth →
        (Levelled s t ∧ t.depth = 0) ∧ ∀ run ∈ sourceRuns [Node.leaf i lx] s, run.state.depth = 0 :=
      fun ht => ⟨⟨ht.1, ht.2.trans hdepth⟩, hnone⟩
    unfold sourcePart
    simp only
    split
    · exact (comment_levelled _ s).imp (fun _ _ => hkept)
    · exact (lone_levelled _ s).imp (fun _ _ => hkept)
    · exact (lone_levelled _ s).imp (fun _ _ => hkept)
    · exact ⟨(), s, rfl, hkept ⟨.refl s, rfl⟩⟩
  | inner i l units =>
    obtain ⟨hl, hunits⟩ := hpart.resolve_left (by simp [Node.isLeaf])
    obtain rfl : l = .executableProgram := by simpa [Node.hasLabel, Node.label?] using hl
    have hall : ∀ n ∈ (units.partition (·.hasLabel .mainProgram)).2 ++
        (units.partition (·.hasLabel .mainProgram)).1, n.Sound wide ∧ IsProgramUnit n :=
      fun n hn => ⟨h.child (mem_ordered.1 hn), hunits n (mem_ordered.1 hn)⟩
    obtain ⟨_, t, hrun, hst, hruns⟩ := programUnits_levelled hall
      (s := { s with blockData := blockDataKeys units ++ s.blockData }) hdepth
    refine ⟨(), t, hrun, hst, ?_⟩
    rw [sourceRuns, sourceRuns, if_pos hl, List.append_nil]
    exact hruns

/-- A source opens and closes blocks evenly, and each of its units starts at no depth. -/
theorem sources_levelled {parts : List Node} (h : ∀ n ∈ parts, n.Sound wide ∧ IsSourcePart n) :
    ∀ {s : LowerState}, s.depth = 0 →
      (parts.forM sourcePart).Does s fun _ t => (Levelled s t ∧ t.depth = 0) ∧
        ∀ run ∈ sourceRuns parts s, run.state.depth = 0 := by
  induction parts with
  | nil => exact fun {s} hdepth => ⟨(), s, rfl, ⟨.refl s, hdepth⟩, by simp [sourceRuns]⟩
  | cons part parts ih =>
    intro s hdepth
    obtain ⟨hsound, hpart⟩ := h part (by simp)
    obtain ⟨_, t, hrun, ⟨hst, ht⟩, hruns⟩ := sourcePart_levelled hsound hpart hdepth
    obtain ⟨_, u, hrest, ⟨htu, hu⟩, hothers⟩ := ih (fun n hn => h n (by simp [hn])) ht
    refine ⟨(), u, ?_, ⟨hst.trans htu, hu⟩, fun run hmem => ?_⟩
    · show (sourcePart part >>= fun _ => parts.forM sourcePart).run s = _
      rw [run_bind_ok hrun, hrest]
    · rw [sourceRuns, behind_eq hrun] at hmem
      rw [sourceRuns, sourceRuns, List.append_nil] at hruns
      exact (List.mem_append.1 hmem).elim (hruns run) (hothers run)

end Lower

end FortranJulia
