import FortranJulia.Proofs.Lowering.Units
import FortranJulia.Proofs.Parsing.Programs

/-!
What the lowering of a program comes by on its way. `visits` lists the statements of a statement,
those inside it included, each with the state in which it is lowered, and `sourceRuns` the units of a
source with theirs. Whatever is lowered on the way starts with the global scope, the spellings and
the lines of what came before it, and all its lines are kept to the end.
-/

namespace FortranJulia

set_option autoImplicit false

open Julia (Expr Code Line)

/-! ## Visits -/

/-- A node and the state in which it is lowered. -/
structure Visit where
  node : Node
  state : LowerState

namespace Lower

/-- The state behind an action. -/
def behind {α : Type} (act : Lower α) (s : LowerState) : LowerState :=
  (act.run s).toOption.elim s (·.2)

theorem behind_eq {α : Type} {act : Lower α} {s t : LowerState} {a : α}
    (h : act.run s = .ok (a, t)) : behind act s = t := by
  rw [behind, h]
  rfl

/-- The state one level deeper. -/
def deeper (s : LowerState) : LowerState :=
  { s with depth := s.depth + 1 }

/-- The first line of a logical IF. -/
def ifLine (stmt : Node) : Lower Unit := do
  line (.ifHead (← condition stmt))

mutual

/-- The statement and all statements inside it. -/
def visits : Node → LowerState → List Visit
  | .leaf i lx, s => [⟨.leaf i lx, s⟩]
  | .inner i l cs, s =>
    ⟨.inner i l cs, s⟩ ::
      (if l == .ifConstruct then blockVisits cs s
        else if l == .ifStmt then actionVisits cs (deeper (behind (ifLine (.inner i l cs)) s))
        else [])

/-- The statements in the parts of an IF block. -/
def blockVisits : List Node → LowerState → List Visit
  | [], _ => []
  | .leaf i lx :: rest, s => blockVisits rest (behind (blocks [.leaf i lx]) s)
  | .inner i l cs :: rest, s =>
    (if l == .conditionalBody then listVisits cs (deeper s) else []) ++
      blockVisits rest (behind (blocks [.inner i l cs]) s)

/-- The statements of a logical IF. -/
def actionVisits : List Node → LowerState → List Visit
  | [], _ => []
  | [stmt], s => visits stmt (behind (collect stmt) s)
  | _ :: rest, s => actionVisits rest s

def listVisits : List Node → LowerState → List Visit
  | [], _ => []
  | stmt :: rest, s =>
    visits stmt (behind (before stmt) s) ++ listVisits rest (behind (statements [stmt]) s)

end

/-- The statements of the parts of a unit. -/
def partVisits (whole : Node) : List Node → LowerState → List Visit
  | [], _ => []
  | part :: rest, s =>
    (if part.hasLabel .body then listVisits part.children s else []) ++
      partVisits whole rest (behind (unitPart whole part) s)

/-- The statements of a unit. -/
def unitVisits (unit : Visit) : List Visit :=
  ((survey unit.node).run unit.state).toOption.elim [] fun r =>
    partVisits unit.node unit.node.children (r.2.entered unit.node r.1)

/-- The units of a program in the order in which they are lowered. -/
def programRuns : List Node → LowerState → List Visit
  | [], _ => []
  | unit :: rest, s =>
    let t := behind (programUnit unit) s
    ⟨unit, s⟩ :: programRuns rest { t with lines := .gap :: t.lines }

/-- The units of a source. -/
def sourceRuns : List Node → LowerState → List Visit
  | [], _ => []
  | part :: rest, s =>
    (if part.hasLabel .executableProgram then
        programRuns
          ((part.children.partition (·.hasLabel .mainProgram)).2 ++
            (part.children.partition (·.hasLabel .mainProgram)).1)
          { s with blockData := blockDataKeys part.children ++ s.blockData }
      else []) ++
      sourceRuns rest (behind (sourcePart part) s)

/-! ## What is visited -/

/-- The part of an action that lowers a node does so between the states of the action. -/
structure Within (part : Node → Lower Unit) (s t : LowerState) (v : Visit) : Prop where
  before : Extends s v.state
  behind : (part v.node).Does v.state fun _ u => Extends u t

theorem Within.weaken {part : Node → Lower Unit} {s s' t t' : LowerState} {v : Visit}
    (h : Within part s t v) (hs : Extends s' s) (ht : Extends t t') : Within part s' t' v :=
  ⟨hs.trans h.before, h.behind.imp (fun _ _ hu => hu.trans ht)⟩

variable {wide : Prop}

/-- The action succeeds, and the nodes are met by it while a unit is open, each with a part of the action. -/
def Visits (wide : Prop) (part : Node → Lower Unit) (act : Lower Unit) (s : LowerState)
    (vs : List Visit) : Prop :=
  act.Does s fun _ t => Passes wide s t ∧
    ∀ v ∈ vs, (v.node.Sound wide ∧ v.state.Open) ∧ Passes wide s v.state ∧ Within part s t v

namespace Visits

variable {part : Node → Lower Unit} {act : Lower Unit} {s : LowerState} {vs ws : List Visit}

theorem none (h : Carries wide act) (hs : s.Open) : Visits wide part act s [] :=
  (h s hs).imp (fun _ _ hst => ⟨hst, by simp⟩)

/-- Visits of a step and of what follows it. -/
theorem bind {f : Unit → Lower Unit} (hs : s.Open) (h : Visits wide part act s vs)
    (h' : (behind act s).Open → Visits wide part (f ()) (behind act s) ws) :
    Visits wide part (act >>= f) s (vs ++ ws) := by
  obtain ⟨_, t, hrun, hst, hvs⟩ := h
  rw [behind_eq hrun] at h'
  obtain ⟨_, u, hrest, htu, hws⟩ := h' (hst.settled hs).1
  refine ⟨(), u, by rw [run_bind_ok hrun, hrest], hst.trans hs htu, fun v hv => ?_⟩
  rcases List.mem_append.1 hv with hv | hv
  · obtain ⟨hopen, hbefore, hwithin⟩ := hvs v hv
    exact ⟨hopen, hbefore, hwithin.weaken (.refl s) htu.extends⟩
  · obtain ⟨hopen, hbefore, hwithin⟩ := hws v hv
    exact ⟨hopen, hst.trans hs hbefore, hwithin.weaken hst.extends (.refl u)⟩

/-- A step without visits comes first. -/
theorem after {f : Unit → Lower Unit} (hs : s.Open) (h : Carries wide act)
    (h' : (behind act s).Open → Visits wide part (f ()) (behind act s) ws) :
    Visits wide part (act >>= f) s ws := by
  have hall := bind hs (none h hs) h'
  rwa [List.nil_append] at hall

/-- A step without visits follows. -/
theorem before {f : Unit → Lower Unit} (hs : s.Open) (h : Visits wide part act s vs)
    (h' : Carries wide (f ())) : Visits wide part (act >>= f) s vs := by
  have hall := bind hs h (none h')
  rwa [List.append_nil] at hall

theorem nested (hs : s.Open) (h : (deeper s).Open → Visits wide part act (deeper s) vs) :
    Visits wide part (nested act) s vs := by
  obtain ⟨_, t, hrun, hst, hvs⟩ := h ⟨hs.unit, hs.spelled⟩
  have hin : Extends s (deeper s) := .of_lines [] rfl rfl
  have hout : Extends t { t with depth := t.depth - 1 } := .of_lines [] rfl rfl
  have hdeeper : Passes wide s (deeper s) := ⟨rfl, rfl, .refl _, ⟨[], rfl, by simp⟩, .inl, id⟩
  refine ⟨(), { t with depth := t.depth - 1 }, ?_, ⟨hst.unit, hst.blockData, hst.table, hst.lines,
    hst.overflow, hst.localsDone⟩, fun v hv => ?_⟩
  · show (act >>= fun _ => _).run (deeper s) = _
    rw [run_bind_ok hrun]
    rfl
  · obtain ⟨hopen, hbefore, hwithin⟩ := hvs v hv
    exact ⟨hopen, hdeeper.trans hs hbefore, hwithin.weaken hin hout⟩

/-- The action itself is the part that meets a node. -/
theorem itself {n : Node} (hn : n.Sound wide) (hs : s.Open) (h : Visits wide part (part n) s vs) :
    Visits wide part (part n) s (⟨n, s⟩ :: vs) := by
  obtain ⟨_, t, hrun, hst, hvs⟩ := h
  refine ⟨(), t, hrun, hst, fun v hv => ?_⟩
  rcases List.mem_cons.1 hv with rfl | hv
  · exact ⟨⟨hn, hs⟩, .refl s, .refl s, (), t, hrun, .refl t⟩
  · exact hvs v hv

end Visits

theorem statements_cons (stmt : Node) (rest : List Node) :
    statements (stmt :: rest) = statements [stmt] >>= fun _ => statements rest := by
  rw [statements, statements, statements]
  simp only [bind_assoc, pure_bind]

theorem blocks_cons (part : Node) (rest : List Node) :
    blocks (part :: rest) = blocks [part] >>= fun _ => blocks rest := by
  cases part with
  | leaf i lx =>
    rw [blocks, blocks, blocks]
    simp only [bind_assoc, pure_bind]
  | inner i l cs =>
    rw [blocks, blocks, blocks]
    split <;> simp only [bind_assoc, pure_bind]

mutual

theorem visits_statement : ∀ n : Node, n.Sound wide → ∀ s : LowerState, s.Open →
    Visits wide statement (statement n) s (visits n s)
  | .leaf k lx, h, s, hs => by
    rw [visits]
    exact Visits.itself h hs (.none (carries_statement _ h) hs)
  | .inner k l cs, h, s, hs => by
    have hcs : ∀ m ∈ cs, m.Sound wide := fun m hm => h.child hm
    rw [visits]
    refine Visits.itself h hs ?_
    split
    · rename_i hl
      obtain rfl := eq_of_beq hl
      rw [statement]
      exact visits_blocks cs hcs s hs
    · split
      · rename_i hl
        obtain rfl := eq_of_beq hl
        have hsplit : statement (.inner k .ifStmt cs) =
            ifLine (.inner k .ifStmt cs) >>= fun _ => nested (action cs) >>= fun _ => line .close := by
          rw [statement, ifLine, bind_assoc]
        have hline : Carries wide (ifLine (.inner k .ifStmt cs)) :=
          (moves_condition (i := 0) h).carries.bind (fun c => (moves_open rfl rfl).carries)
        rw [hsplit]
        refine .after hs hline (fun ht => .before ht (.nested ht (fun hu => ?_)) moves_close.carries)
        exact visits_action cs (ifStmt_ne_nil h) hcs _ hu
      · exact .none (carries_statement _ h) hs

theorem visits_blocks : ∀ ns : List Node, (∀ n ∈ ns, n.Sound wide) → ∀ s : LowerState, s.Open →
    Visits wide statement (blocks ns) s (blockVisits ns s)
  | [], _, s, hs => by
    rw [blocks, blockVisits]
    exact .none (Moves.pure (i := 0) ()).carries hs
  | .leaf k lx :: rest, h, s, hs => by
    have hfirst : Visits wide statement (blocks [.leaf k lx]) s [] :=
      .none (carries_blocks _ (fun n hn => h n (by simp_all))) hs
    rw [blocks_cons, blockVisits]
    exact .bind hs hfirst (fun ht => visits_blocks rest (fun n hn => h n (by simp [hn])) _ ht)
  | .inner k l cs :: rest, h, s, hs => by
    have hthis := h (.inner k l cs) (by simp)
    have hfirst : Visits wide statement (blocks [.inner k l cs]) s
        (if l == .conditionalBody then listVisits cs (deeper s) else []) := by
      rw [blocks, blocks]
      split
      · refine .before hs (.nested hs (fun ht => ?_)) (Moves.pure (i := 0) ()).carries
        exact visits_statements cs (fun m hm => hthis.child hm) _ ht
      · exact .none ((carries_blockMark hthis).bind (fun _ => (Moves.pure (i := 0) ()).carries)) hs
    rw [blocks_cons, blockVisits]
    exact .bind hs hfirst (fun ht => visits_blocks rest (fun n hn => h n (by simp [hn])) _ ht)

theorem visits_action : ∀ ns : List Node, ns ≠ [] → (∀ n ∈ ns, n.Sound wide) →
    ∀ s : LowerState, s.Open → Visits wide statement (action ns) s (actionVisits ns s)
  | [], hne, _, _, _ => absurd rfl hne
  | [stmt], _, h, s, hs => by
    have htrailing : Carries wide (trailing stmt) := (moves_trailing stmt (Nat.zero_le 1)).carries
    rw [action, actionVisits]
    refine .after hs (moves_collect (i := 0) stmt).carries (fun ht => ?_)
    exact .before ht (visits_statement stmt (h stmt (by simp)) _ ht) htrailing
  | n :: m :: rest, _, h, s, hs => by
    rw [action, actionVisits]
    · exact visits_action (m :: rest) (by simp) (fun k hk => h k (by simp [hk])) s hs
    · simp
    · simp

theorem visits_statements : ∀ ns : List Node, (∀ n ∈ ns, n.Sound wide) → ∀ s : LowerState, s.Open →
    Visits wide statement (statements ns) s (listVisits ns s)
  | [], _, s, hs => by
    rw [statements, listVisits]
    exact .none (Moves.pure (i := 0) ()).carries hs
  | stmt :: rest, h, s, hs => by
    have hstmt := h stmt (by simp)
    have hfirst : Visits wide statement (statements [stmt]) s (visits stmt (behind (before stmt) s)) := by
      have hafter : Carries wide (after stmt >>= fun _ => statements []) :=
        (carries_after hstmt).bind (fun _ => carries_statements [] (by simp))
      rw [statements]
      refine .after hs (moves_before stmt).carries (fun ht => ?_)
      exact .before ht (visits_statement stmt hstmt _ ht) hafter
    rw [statements_cons, listVisits]
    exact .bind hs hfirst (fun ht => visits_statements rest (fun n hn => h n (by simp [hn])) _ ht)

end

/-! ## Units and programs -/

theorem visits_parts (whole : Node) {parts : List Node} (h : ∀ n ∈ parts, n.Sound wide) :
    ∀ s : LowerState, s.Open →
      Visits wide statement (parts.forM (unitPart whole)) s (partVisits whole parts s) := by
  induction parts with
  | nil => exact fun s hs => .none (Moves.pure (i := 0) ()).carries hs
  | cons part parts ih =>
    intro s hs
    have hpart := h part (by simp)
    have hfirst : Visits wide statement (unitPart whole part) s
        (if part.hasLabel .body then listVisits part.children s else []) := by
      split
      · rename_i hl
        rw [unitPart, eq_of_beq hl]
        exact visits_statements part.children (fun n hn => hpart.child hn) s hs
      · exact .none (carries_unitPart whole hpart) hs
    show Visits wide statement (unitPart whole part >>= fun _ => parts.forM (unitPart whole)) s _
    exact .bind hs hfirst (fun ht => ih (fun n hn => h n (by simp [hn])) _ ht)

/-- The statements of a unit are lowered while it is. -/
theorem visits_unit {unit : Visit} (h : unit.node.Sound wide) :
    (programUnit unit.node).Does unit.state fun _ t =>
      ∀ v ∈ unitVisits unit, (v.node.Sound wide ∧ v.state.Open) ∧
        Within statement unit.state t v := by
  obtain ⟨u, t, v, hsurvey, hreports, -, hparts, -, hrun⟩ := programUnit_run h unit.state
  obtain ⟨_, v', hparts', -, hvisits⟩ :=
    visits_parts unit.node (fun n hn => h.child hn) _ (t.entered_open unit.node u).1
  obtain rfl : v' = v := congrArg Prod.snd (Except.ok.inj (hparts'.symm.trans hparts))
  refine ⟨(), v'.left, hrun, fun w hw => ?_⟩
  rw [unitVisits, hsurvey] at hw
  obtain ⟨hopen, -, hwithin⟩ := hvisits w hw
  exact ⟨hopen, hwithin.weaken (hreports.extends.trans (t.entered_extends unit.node u)) v'.left_extends⟩

theorem runs_units {units : List Node} (h : ∀ n ∈ units, n.Sound wide) : ∀ s : LowerState,
    (programUnits units).Does s fun _ t =>
      ∀ v ∈ programRuns units s, v.node ∈ units ∧ Within programUnit s t v := by
  induction units with
  | nil => exact fun s => ⟨(), s, rfl, by simp [programRuns]⟩
  | cons unit rest ih =>
    intro s
    obtain ⟨_, t, hrun, hst⟩ := programUnit_spans (h unit (by simp)) s
    have hsound : ∀ n ∈ rest, n.Sound wide := fun n hn => h n (by simp [hn])
    have hgap : Extends t { t with lines := .gap :: t.lines } := .of_lines [.gap] rfl rfl
    rw [programRuns, behind_eq hrun]
    simp only [List.mem_cons]
    cases rest with
    | nil =>
      refine ⟨(), t, hrun, fun v hv => ?_⟩
      obtain rfl := hv.resolve_right (by simp [programRuns])
      exact ⟨.inl rfl, .refl s, (), t, hrun, .refl t⟩
    | cons next rest =>
      obtain ⟨_, u, hrest, hruns⟩ := ih hsound { t with lines := .gap :: t.lines }
      obtain ⟨_, u', hrest', hspans⟩ := programUnits_spans hsound { t with lines := .gap :: t.lines }
      obtain rfl : u' = u := congrArg Prod.snd (Except.ok.inj (hrest'.symm.trans hrest))
      refine ⟨(), u', ?_, fun v hv => ?_⟩
      · rw [programUnits, run_bind_ok hrun]
        · exact hrest
        · simp
      · rcases hv with rfl | hv
        · exact ⟨.inl rfl, .refl s, (), t, hrun, hgap.trans hspans.toExtends⟩
        · obtain ⟨hmem, hwithin⟩ := hruns v hv
          exact ⟨.inr hmem, hwithin.weaken (hst.toExtends.trans hgap) (.refl u')⟩

theorem runs_program {units : List Node} (h : ∀ n ∈ units, n.Sound wide) (s : LowerState) :
    (wholeProgram units).Does s fun _ t =>
      ∀ v ∈ programRuns ((units.partition (·.hasLabel .mainProgram)).2 ++
          (units.partition (·.hasLabel .mainProgram)).1)
          { s with blockData := blockDataKeys units ++ s.blockData },
        v.node ∈ units ∧ Within programUnit s t v := by
  have hkeys : Extends s { s with blockData := blockDataKeys units ++ s.blockData } :=
    .of_lines [] rfl rfl
  obtain ⟨a, t, hrun, hruns⟩ := runs_units (fun n hn => h n (mem_ordered.1 hn))
    { s with blockData := blockDataKeys units ++ s.blockData }
  refine ⟨a, t, hrun, fun v hv => ?_⟩
  obtain ⟨hmem, hwithin⟩ := hruns v hv
  exact ⟨mem_ordered.1 hmem, hwithin.weaken hkeys (.refl t)⟩

/-- The units of a source are lowered while it is. -/
theorem runs_sources {parts : List Node} (h : ∀ n ∈ parts, n.Sound wide) : ∀ s : LowerState,
    (parts.forM sourcePart).Does s fun _ t => ∀ v ∈ sourceRuns parts s,
      (∃ n ∈ parts, n.hasLabel .executableProgram ∧ v.node ∈ n.children) ∧
        Within programUnit s t v := by
  induction parts with
  | nil => exact fun s => ⟨(), s, rfl, by simp [sourceRuns]⟩
  | cons part parts ih =>
    intro s
    have hpart := h part (by simp)
    have hrest : ∀ n ∈ parts, n.Sound wide := fun n hn => h n (by simp [hn])
    obtain ⟨_, t, hrun, hst⟩ := sourcePart_spans hpart s
    obtain ⟨_, u, hrun', htu⟩ := sources_spans hrest t
    obtain ⟨_, u', hlater, hruns⟩ := ih hrest t
    obtain rfl : u' = u := congrArg Prod.snd (Except.ok.inj (hlater.symm.trans hrun'))
    rw [sourceRuns, behind_eq hrun]
    refine ⟨(), u', ?_, fun v hv => ?_⟩
    · show (sourcePart part >>= fun _ => parts.forM sourcePart).run s = _
      rw [run_bind_ok hrun, hlater]
    · rcases List.mem_append.1 hv with hhere | hthere
      · split at hhere
        · rename_i hl
          cases part with
          | leaf => cases hl
          | inner k l units =>
            obtain rfl : l = .executableProgram := by simpa [Node.hasLabel, Node.label?] using hl
            obtain ⟨_, t', hrun'', hthis⟩ := runs_program (fun m hm => hpart.child hm) s
            have hsame : (sourcePart (.inner k .executableProgram units)).run s = .ok ((), t') := hrun''
            obtain rfl : t' = t := congrArg Prod.snd (Except.ok.inj (hsame.symm.trans hrun))
            obtain ⟨hmem, hwithin⟩ := hthis v hhere
            exact ⟨⟨_, by simp, rfl, hmem⟩, hwithin.weaken (.refl s) htu.toExtends⟩
        · cases hhere
      · obtain ⟨⟨n, hn, hl, hmem⟩, hwithin⟩ := hruns v hthere
        exact ⟨⟨n, by simp [hn], hl, hmem⟩, hwithin.weaken hst.toExtends (.refl u')⟩

theorem programRuns_nodes (units : List Node) : ∀ s : LowerState,
    (programRuns units s).map (·.node) = units := by
  induction units with
  | nil => exact fun _ => rfl
  | cons unit rest ih =>
    intro s
    rw [programRuns, List.map_cons, ih]

/-- Every unit of a source is run. -/
theorem sourceRuns_nodes {parts : List Node} {part unit : Node} (hpart : part ∈ parts)
    (hl : part.hasLabel .executableProgram) (hunit : unit ∈ part.children) : ∀ s : LowerState,
    ∃ v ∈ sourceRuns parts s, v.node = unit := by
  induction parts with
  | nil => cases hpart
  | cons first parts ih =>
    intro s
    rw [sourceRuns]
    rcases List.mem_cons.1 hpart with rfl | hpart
    · have hmem : ∀ t, unit ∈ (programRuns ((part.children.partition (·.hasLabel .mainProgram)).2 ++
          (part.children.partition (·.hasLabel .mainProgram)).1) t).map (·.node) := by
        intro t
        rw [programRuns_nodes]
        exact mem_ordered.2 hunit
      rw [if_pos hl]
      obtain ⟨v, hv, rfl⟩ := List.mem_map.1 (hmem _)
      exact ⟨v, List.mem_append_left _ hv, rfl⟩
    · obtain ⟨v, hv, rfl⟩ := ih hpart (behind (sourcePart first) s)
      exact ⟨v, List.mem_append_right _ hv, rfl⟩

/-! ## Every statement is visited -/

/-- The statement is among those that are visited. -/
def Visited (stmt : Node) (vs : List Visit) : Prop :=
  ∃ v ∈ vs, v.node = stmt

theorem Visited.left {stmt : Node} {vs : List Visit} (h : Visited stmt vs) (ws : List Visit) :
    Visited stmt (vs ++ ws) := by
  obtain ⟨v, hv, rfl⟩ := h
  exact ⟨v, List.mem_append_left ws hv, rfl⟩

theorem Visited.right {stmt : Node} {ws : List Visit} (vs : List Visit) (h : Visited stmt ws) :
    Visited stmt (vs ++ ws) := by
  obtain ⟨v, hv, rfl⟩ := h
  exact ⟨v, List.mem_append_right vs hv, rfl⟩

theorem Visited.cons {stmt : Node} {vs : List Visit} (v : Visit) (h : Visited stmt vs) :
    Visited stmt (v :: vs) := by
  obtain ⟨w, hw, rfl⟩ := h
  exact ⟨w, List.mem_cons_of_mem v hw, rfl⟩

section Covered

variable {stmt : Node}

/-- A statement inside a list of statements is in one of them. -/
theorem mem_list (hstmt : stmt.IsStatement) {n : Node} (h : n.Placed)
    (hlabel : n.hasLabel .body ∨ n.hasLabel .conditionalBody) (hmem : stmt ∈ n.nodes) :
    ∃ c ∈ n.children, stmt ∈ c.nodes ∧ c.IsStatement := by
  cases n with
  | leaf => simp [Node.hasLabel, Node.label?] at hlabel
  | inner i l cs =>
    have hl : l = .body ∨ l = .conditionalBody := by simpa [Node.hasLabel, Node.label?] using hlabel
    rw [Node.nodes, List.mem_cons, mem_nodesOf] at hmem
    rcases hmem with rfl | ⟨c, hc, hmem⟩
    · obtain ⟨m, hm, hlabel⟩ := hstmt
      obtain rfl := Option.some.inj hlabel
      rcases hl with rfl | rfl <;> exact absurd hm (by decide)
    · obtain ⟨m, hm, hlabel⟩ := (h.child hc).label hmem hstmt
      have hplace := h.place (nodes_self _) c hc m hm hlabel
      exact ⟨c, hc, hmem, m, Label.places_list hm hplace hl, hlabel⟩

mutual

theorem visits_covers (hstmt : stmt.IsStatement) : ∀ (n : Node) (s : LowerState), n.Placed → stmt ∈ n.nodes →
    n.IsStatement → Visited stmt (visits n s)
  | .leaf k lx, s, _, _, hn => by
    obtain ⟨_, _, hl⟩ := hn
    cases hl
  | .inner k l cs, s, h, hmem, hn => by
    obtain ⟨_, hl, heq⟩ := hn
    obtain rfl := Option.some.inj heq
    rw [Node.nodes, List.mem_cons, mem_nodesOf] at hmem
    rw [visits]
    rcases hmem with rfl | ⟨c, hc, hmem⟩
    · exact ⟨_, List.mem_cons_self, rfl⟩
    · refine Visited.cons _ ?_
      have hcs : ∀ n ∈ cs, n.Placed := fun n hn => h.child hn
      obtain ⟨m, hm, hlabel⟩ := (hcs c hc).label hmem hstmt
      have hplace := h.place (nodes_self _) c hc m hm hlabel
      rcases Label.places_statement hm hplace hl with ⟨rfl, hstatement⟩ | ⟨rfl, rfl⟩
      · rw [if_neg (by decide), if_pos (beq_self_eq_true _)]
        -- Whatever has a label of a statement comes last in a logical IF.
        have hne : cs ≠ [] := List.ne_nil_of_mem hc
        have hlast : cs.getLast? = some c := by
          rw [← List.dropLast_append_getLast hne] at hc
          rcases List.mem_append.1 hc with hc | hc
          · exact absurd hlabel (h.action (nodes_self _) c hc m hm)
          · rw [List.mem_singleton.1 hc, List.getLast?_eq_some_getLast hne]
        exact action_covers hstmt cs _ hcs hmem ⟨m, hstatement, hlabel⟩ hlast
      · rw [if_pos (beq_self_eq_true _)]
        exact blocks_covers hstmt cs _ hcs hc hmem (by simp [Node.hasLabel, hlabel])

theorem blocks_covers (hstmt : stmt.IsStatement) : ∀ (ns : List Node) (s : LowerState),
    (∀ n ∈ ns, n.Placed) → ∀ {c : Node}, c ∈ ns → stmt ∈ c.nodes → c.hasLabel .conditionalBody →
      Visited stmt (blockVisits ns s)
  | [], _, _, _, hc, _, _ => by cases hc
  | .leaf k lx :: rest, s, h, c, hc, hmem, hlabel => by
    rw [blockVisits]
    rcases List.mem_cons.1 hc with rfl | hc
    · cases hlabel
    · exact blocks_covers hstmt rest _ (fun n hn => h n (by simp [hn])) hc hmem hlabel
  | .inner k l cs :: rest, s, h, c, hc, hmem, hlabel => by
    rw [blockVisits]
    rcases List.mem_cons.1 hc with rfl | hc
    · have hthis := h _ List.mem_cons_self
      obtain ⟨d, hd, hin, hstatement⟩ := mem_list hstmt hthis (.inr hlabel) hmem
      refine Visited.left ?_ _
      rw [if_pos (by simpa [Node.hasLabel, Node.label?] using hlabel)]
      exact list_covers hstmt cs _ (fun n hn => hthis.child hn) hd hin hstatement
    · exact Visited.right _ (blocks_covers hstmt rest _ (fun n hn => h n (by simp [hn])) hc hmem hlabel)

theorem action_covers (hstmt : stmt.IsStatement) : ∀ (ns : List Node) (s : LowerState),
    (∀ n ∈ ns, n.Placed) → ∀ {c : Node}, stmt ∈ c.nodes → c.IsStatement → ns.getLast? = some c →
      Visited stmt (actionVisits ns s)
  | [], _, _, _, _, _, hlast => by cases hlast
  | [n], s, h, c, hmem, hlabel, hlast => by
    obtain rfl : n = c := by simpa using hlast
    rw [actionVisits]
    exact visits_covers hstmt n _ (h n List.mem_cons_self) hmem hlabel
  | n :: m :: rest, s, h, c, hmem, hlabel, hlast => by
    rw [actionVisits]
    · exact action_covers hstmt (m :: rest) s (fun k hk => h k (by simp [hk])) hmem hlabel
        (by simpa using hlast)
    · simp

theorem list_covers (hstmt : stmt.IsStatement) : ∀ (ns : List Node) (s : LowerState),
    (∀ n ∈ ns, n.Placed) → ∀ {c : Node}, c ∈ ns → stmt ∈ c.nodes → c.IsStatement →
      Visited stmt (listVisits ns s)
  | [], _, _, _, hc, _, _ => by cases hc
  | n :: rest, s, h, c, hc, hmem, hlabel => by
    rw [listVisits]
    rcases List.mem_cons.1 hc with heq | hc
    · rw [heq] at hmem hlabel
      exact (visits_covers hstmt n _ (h n List.mem_cons_self) hmem hlabel).left _
    · exact Visited.right _ (list_covers hstmt rest _ (fun k hk => h k (by simp [hk])) hc hmem hlabel)

end

theorem parts_covers (hstmt : stmt.IsStatement) (whole : Node) {parts : List Node}
    (h : ∀ n ∈ parts, n.Placed) {c : Node} (hc : c ∈ parts) (hlabel : c.hasLabel .body)
    (hmem : stmt ∈ c.nodes) : ∀ s : LowerState, Visited stmt (partVisits whole parts s) := by
  induction parts with
  | nil => cases hc
  | cons part parts ih =>
    intro s
    rw [partVisits]
    rcases List.mem_cons.1 hc with rfl | hc
    · have hthis := h c List.mem_cons_self
      obtain ⟨d, hd, hin, hstatement⟩ := mem_list hstmt hthis (.inl hlabel) hmem
      refine Visited.left ?_ _
      rw [if_pos hlabel]
      exact list_covers hstmt c.children s (fun n hn => hthis.child hn) hd hin hstatement
    · exact Visited.right _ (ih (fun n hn => h n (by simp [hn])) hc _)

/-- The statements of a unit are visited. -/
theorem unit_covers (hstmt : stmt.IsStatement) {unit : Visit} (h : unit.node.Sound wide)
    (hplaced : unit.node.Placed) (hunit : unit.node.label?.any Label.isUnit)
    (hmem : stmt ∈ unit.node.nodes) :
    Visited stmt (unitVisits unit) := by
  obtain ⟨u, t, v, hsurvey, -⟩ := programUnit_run h unit.state
  rw [unitVisits, hsurvey]
  obtain ⟨node, s⟩ := unit
  cases node with
  | leaf => cases hunit
  | inner k l cs =>
    rw [Node.nodes, List.mem_cons, mem_nodesOf] at hmem
    rcases hmem with rfl | ⟨c, hc, hmem⟩
    · obtain ⟨m, hm, hlabel⟩ := hstmt
      obtain rfl := Option.some.inj hlabel
      have hall : ∀ l ∈ Label.statements, l.isUnit = false := by decide
      rw [Node.label?, Option.any_some, hall l hm] at hunit
      cases hunit
    · obtain ⟨m, hm, hlabel⟩ := (hplaced.child hc).label hmem hstmt
      obtain rfl := Label.places_unit hm (hplaced.place (nodes_self _) c hc m hm hlabel) hunit
      exact parts_covers hstmt _ (fun n hn => hplaced.child hn) hc (by simp [Node.hasLabel, hlabel])
        hmem _

end Covered

end Lower

/-- The units of a program. -/
def Node.units (root : Node) : List Node :=
  (root.childrenWith .executableProgram).flatMap (·.children)

/-- In a state, an action writes some lines, which stand in the program behind those written before. -/
structure Wrote (program : List Line) (act : Lower Unit) (s t : LowerState) (own : List Line) :
    Prop where
  run : act.run s = .ok ((), t)
  lines : t.lines = own.reverse ++ s.lines
  place : ∃ behind, program = s.lines.reverse ++ own ++ behind

theorem Wrote.mem {program own : List Line} {act : Lower Unit} {s t : LowerState} {l : Line}
    (h : Wrote program act s t own) (hl : l ∈ own) : l ∈ program := by
  obtain ⟨behind, hplace⟩ := h.place
  rw [hplace]
  exact List.mem_append_left _ (List.mem_append_right _ hl)

/-- What is written within a program stands in it. -/
theorem Wrote.of_extends {act : Lower Unit} {s t u : LowerState} {own : List Line}
    (hrun : act.run s = .ok ((), t)) (hlines : t.lines = own.reverse ++ s.lines) (h : Extends t u) :
    Wrote u.lines.reverse act s t own := by
  obtain ⟨new, hnew⟩ := h.lines
  refine ⟨hrun, hlines, new.reverse, ?_⟩
  rw [hnew, hlines, List.reverse_append, List.reverse_append, List.reverse_reverse]

end FortranJulia
