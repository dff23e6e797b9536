import FortranJulia.Proofs.Lowering.Visits

/-!
Statements of blocks. `unitEntries` lists the statements that stand in the blocks of a unit, each with the
state in front of it. What comes before a statement is lowered there: the mark of its label and, before the
first executable statement of the unit, the values of its local variables. Once these have been given, they
are not given again.
-/

namespace FortranJulia

set_option autoImplicit false

open Julia (Expr Code Line)

namespace Lower

/-! ## Entries -/

mutual

/-- The statements in the blocks of a statement. The statement of a logical IF stands in no block. -/
def entries : Node → LowerState → List Visit
  | .leaf _ _, _ => []
  | .inner _ l cs, s => if l == .ifConstruct then blockEntries cs s else []

/-- The statements in the parts of an IF block. -/
def blockEntries : List Node → LowerState → List Visit
  | [], _ => []
  | .leaf i lx :: rest, s => blockEntries rest (behind (blocks [.leaf i lx]) s)
  | .inner i l cs :: rest, s =>
    (if l == .conditionalBody then listEntries cs (deeper s) else []) ++
      blockEntries rest (behind (blocks [.inner i l cs]) s)

/-- The statements of a block and of the blocks in them. -/
def listEntries : List Node → LowerState → List Visit
  | [], _ => []
  | stmt :: rest, s =>
    ⟨stmt, s⟩ :: entries stmt (behind (before stmt) s) ++
      listEntries rest (behind (statements [stmt]) s)

end

/-- The statements in the blocks of the parts of a unit. -/
def partEntries (whole : Node) : List Node → LowerState → List Visit
  | [], _ => []
  | part :: rest, s =>
    (if part.hasLabel .body then listEntries part.children s else []) ++
      partEntries whole rest (behind (unitPart whole part) s)

/-- The statements in the blocks of a unit. -/
def unitEntries (unit : Visit) : List Visit :=
  ((survey unit.node).run unit.state).toOption.elim [] fun r =>
    partEntries unit.node unit.node.children (r.2.entered unit.node r.1)

end Lower

/-- May the statement stand before the executable statements of a unit, once what it declares is known? -/
def Visit.isSpecification (e : Visit) : Bool :=
  Lower.isSpecification ((e.state.collection.statement? e.node).getD e.state.collection).table e.node

/-- A statement of a block is visited behind what comes before it. -/
def Visit.next (f : Visit) : Visit :=
  ⟨f.node, Lower.behind (Lower.before f.node) f.state⟩

namespace Lower

/-! ## What is entered -/

variable {wide : Prop}

mutual

theorem entries_statement : ∀ n : Node, n.Sound wide → ∀ s : LowerState, s.Open →
    Visits wide before (statement n) s (entries n s)
  | .leaf k lx, h, s, hs => by
    rw [entries]
    exact .none (carries_statement _ h) hs
  | .inner k l cs, h, s, hs => by
    rw [entries]
    split
    · rename_i hl
      obtain rfl := eq_of_beq hl
      rw [statement]
      exact entries_blocks cs (fun m hm => h.child hm) s hs
    · exact .none (carries_statement _ h) hs

theorem entries_blocks : ∀ ns : List Node, (∀ n ∈ ns, n.Sound wide) → ∀ s : LowerState, s.Open →
    Visits wide before (blocks ns) s (blockEntries ns s)
  | [], _, s, hs => by
    rw [blocks, blockEntries]
    exact .none (Moves.pure (i := 0) ()).carries hs
  | .leaf k lx :: rest, h, s, hs => by
    have hfirst : Visits wide before (blocks [.leaf k lx]) s [] :=
      .none (carries_blocks _ (fun n hn => h n (by simp_all))) hs
    rw [blocks_cons, blockEntries]
    exact .bind hs hfirst (fun ht => entries_blocks rest (fun n hn => h n (by simp [hn])) _ ht)
  | .inner k l cs :: rest, h, s, hs => by
    have hthis := h (.inner k l cs) (by simp)
    have hfirst : Visits wide before (blocks [.inner k l cs]) s
        (if l == .conditionalBody then listEntries cs (deeper s) else []) := by
      rw [blocks, blocks]
      split
      · refine .before hs (.nested hs (fun ht => ?_)) (Moves.pure (i := 0) ()).carries
        exact entries_statements cs (fun m hm => hthis.child hm) _ ht
      · exact .none ((carries_blockMark hthis).bind (fun _ => (Moves.pure (i := 0) ()).carries)) hs
    rw [blocks_cons, blockEntries]
    exact .bind hs hfirst (fun ht => entries_blocks rest (fun n hn => h n (by simp [hn])) _ ht)

theorem entries_statements : ∀ ns : List Node, (∀ n ∈ ns, n.Sound wide) → ∀ s : LowerState, s.Open →
    Visits wide before (statements ns) s (listEntries ns s)
  | [], _, s, hs => by
    rw [statements, listEntries]
    exact .none (Moves.pure (i := 0) ()).carries hs
  | stmt :: rest, h, s, hs => by
    have hstmt := h stmt (by simp)
    have hbefore : Visits wide before (before stmt) s [⟨stmt, s⟩] :=
      .itself hstmt hs (.none (moves_before stmt).carries hs)
    have hfirst : Visits wide before (statements [stmt]) s
        (⟨stmt, s⟩ :: entries stmt (behind (before stmt) s)) := by
      have hafter : Carries wide (after stmt >>= fun _ => statements []) :=
        (carries_after hstmt).bind (fun _ => carries_statements [] (by simp))
      rw [statements]
      refine .bind hs hbefore (fun ht => ?_)
      exact .before ht (entries_statement stmt hstmt _ ht) hafter
    rw [statements_cons, listEntries]
    exact .bind hs hfirst (fun ht => entries_statements rest (fun n hn => h n (by simp [hn])) _ ht)

end

theorem entries_parts (whole : Node) {parts : List Node} (h : ∀ n ∈ parts, n.Sound wide) :
    ∀ s : LowerState, s.Open →
      Visits wide before (parts.forM (unitPart whole)) s (partEntries whole parts s) := by
  induction parts with
  | nil => exact fun s hs => .none (Moves.pure (i := 0) ()).carries hs
  | cons part parts ih =>
    intro s hs
    have hpart := h part (by simp)
    have hfirst : Visits wide before (unitPart whole part) s
        (if part.hasLabel .body then listEntries part.children s else []) := by
      split
      · rename_i hl
        rw [unitPart, eq_of_beq hl]
        exact entries_statements part.children (fun n hn => hpart.child hn) s hs
      · exact .none (carries_unitPart whole hpart) hs
    show Visits wide before (unitPart whole part >>= fun _ => parts.forM (unitPart whole)) s _
    exact .bind hs hfirst (fun ht => ih (fun n hn => h n (by simp [hn])) _ ht)

/-- What comes before the statements of the blocks of a unit is lowered while the unit is. -/
theorem entries_unit {unit : Visit} (h : unit.node.Sound wide) :
    (programUnit unit.node).Does unit.state fun _ t =>
      ∀ e ∈ unitEntries unit, (e.node.Sound wide ∧ e.state.Open) ∧ Within before unit.state t e := by
  obtain ⟨u, t, v, hsurvey, hreports, -, hparts, -, hrun⟩ := programUnit_run h unit.state
  obtain ⟨_, v', hparts', -, hentries⟩ :=
    entries_parts unit.node (fun n hn => h.child hn) _ (t.entered_open unit.node u).1
  obtain rfl : v' = v := congrArg Prod.snd (Except.ok.inj (hparts'.symm.trans hparts))
  refine ⟨(), v'.left, hrun, fun e he => ?_⟩
  rw [unitEntries, hsurvey] at he
  obtain ⟨hopen, -, hwithin⟩ := hentries e he
  exact ⟨hopen, hwithin.weaken (hreports.extends.trans (t.entered_extends unit.node u)) v'.left_extends⟩

/-- The first statement of a unit and its END have no blocks. -/
theorem partEntries_body {l : Label} {whole last : Node} {cs : List Node} {head body : Option Node}
    (h : UnitParts l cs head body last) (s : LowerState) :
    partEntries whole cs s = body.elim [] fun n =>
      listEntries n.children (head.elim s fun first => behind (unitPart whole first) s) := by
  have hskipped : ∀ {n : Node} {m : Label}, n.label? = some m → m ≠ .body → ∀ rest t,
      partEntries whole (n :: rest) t = partEntries whole rest (behind (unitPart whole n) t) := by
    intro n m hn hm rest t
    rw [partEntries, if_neg (by simp [Node.hasLabel, hn, hm]), List.nil_append]
  have hhead : ∀ rest t, partEntries whole (head.toList ++ rest) t =
      partEntries whole rest (head.elim t fun first => behind (unitPart whole first) t) := by
    intro rest t
    cases head with
    | none => rfl
    | some first => exact hskipped (h.headLabel first rfl) (by cases l <;> decide) rest t
  have hlast : ∀ t, partEntries whole [last] t = [] := fun t =>
    hskipped h.lastLabel (by cases l <;> decide) [] t
  rw [h.children, hhead]
  cases body with
  | none => exact hlast _
  | some n =>
    have hbody : n.hasLabel .body := by rw [Node.hasLabel, h.bodyLabel n rfl]; rfl
    rw [Option.toList_some, List.singleton_append, partEntries, if_pos hbody, hlast, List.append_nil]
    rfl

/-- The statements in the blocks of a unit are those of its body, behind the first statement of the unit. -/
theorem unitEntries_body {run : Visit} (h : run.node.Sound wide) {l : Label} {head body : Option Node}
    {last : Node} (hparts : UnitParts l run.node.children head body last) :
    ∃ u t, (survey run.node).run run.state = .ok (u, t) ∧ Reports wide run.state t ∧
      Surveyed run.node u ∧ unitEntries run = body.elim [] fun n => listEntries n.children
        (head.elim (t.entered run.node u) fun first =>
          behind (unitPart run.node first) (t.entered run.node u)) := by
  obtain ⟨u, t, -, hsurvey, hreports, hsurveyed, -⟩ := programUnit_run h run.state
  refine ⟨u, t, hsurvey, hreports, hsurveyed, ?_⟩
  rw [unitEntries, hsurvey]
  exact partEntries_body hparts _

/-! ## Entries and visits -/

theorem visits_head (n : Node) (s : LowerState) : ⟨n, s⟩ ∈ visits n s := by
  cases n with
  | leaf => rw [visits]; exact List.mem_singleton_self _
  | inner => rw [visits]; exact List.mem_cons_self

mutual

theorem entries_next : ∀ (n : Node) (s : LowerState), ∀ f ∈ entries n s, f.next ∈ visits n s
  | .leaf k lx, s, f, hf => by
    rw [entries] at hf
    cases hf
  | .inner k l cs, s, f, hf => by
    rw [entries] at hf
    rw [visits]
    split at hf
    · rename_i hl
      rw [if_pos hl]
      exact List.mem_cons_of_mem _ (blockEntries_next cs s f hf)
    · cases hf

theorem blockEntries_next : ∀ (ns : List Node) (s : LowerState), ∀ f ∈ blockEntries ns s,
    f.next ∈ blockVisits ns s
  | [], s, f, hf => by
    rw [blockEntries] at hf
    cases hf
  | .leaf k lx :: rest, s, f, hf => by
    rw [blockEntries] at hf
    rw [blockVisits]
    exact blockEntries_next rest _ f hf
  | .inner k l cs :: rest, s, f, hf => by
    rw [blockEntries] at hf
    rw [blockVisits]
    rcases List.mem_append.1 hf with hf | hf
    · refine List.mem_append_left _ ?_
      split at hf
      · rename_i hl
        rw [if_pos hl]
        exact listEntries_next cs _ f hf
      · cases hf
    · exact List.mem_append_right _ (blockEntries_next rest _ f hf)

theorem listEntries_next : ∀ (ns : List Node) (s : LowerState), ∀ f ∈ listEntries ns s,
    f.next ∈ listVisits ns s
  | [], s, f, hf => by
    rw [listEntries] at hf
    cases hf
  | stmt :: rest, s, f, hf => by
    rw [listEntries] at hf
    rw [listVisits]
    rcases List.mem_append.1 hf with hf | hf
    · refine List.mem_append_left _ ?_
      rcases List.mem_cons.1 hf with rfl | hf
      · exact visits_head stmt _
      · exact entries_next stmt _ f hf
    · exact List.mem_append_right _ (listEntries_next rest _ f hf)

end

theorem partEntries_next (whole : Node) (parts : List Node) : ∀ s : LowerState,
    ∀ f ∈ partEntries whole parts s, f.next ∈ partVisits whole parts s := by
  induction parts with
  | nil => exact fun _ _ hf => absurd hf (by simp [partEntries])
  | cons part parts ih =>
    intro s f hf
    rw [partEntries] at hf
    rw [partVisits]
    rcases List.mem_append.1 hf with hf | hf
    · refine List.mem_append_left _ ?_
      split at hf
      · rename_i hl
        rw [if_pos hl]
        exact listEntries_next part.children s f hf
      · cases hf
    · exact List.mem_append_right _ (ih _ f hf)

theorem unitEntries_next {unit f : Visit} (hf : f ∈ unitEntries unit) : f.next ∈ unitVisits unit := by
  unfold unitEntries at hf
  unfold unitVisits
  cases h : (survey unit.node).run unit.state with
  | error => rw [h] at hf; cases hf
  | ok r =>
    rw [h] at hf
    exact partEntries_next unit.node unit.node.children _ f hf

/-! ## What is written before a statement -/

variable {n : Node} {s t : LowerState}

/-- The state in which what a statement declares is known. -/
def collected (n : Node) (s : LowerState) : LowerState :=
  { s with collection := (s.collection.statement? n).getD s.collection }

theorem labelMark_writes {a : Unit} (h : (labelMark n).run s = .ok (a, t)) :
    ∃ own : List Line, t = { s with lines := own.reverse ++ s.lines } ∧
      ∀ l ∈ own, l = .code s.depth (.label (labelName (labelOf n))) := by
  have hunit : Lower.unit.run s = .ok (s.unit, s) := rfl
  rw [labelMark, run_bind_ok hunit] at h
  split at h
  · obtain ⟨-, rfl⟩ := Prod.mk.inj (Except.ok.inj h)
    exact ⟨[_], rfl, by simp⟩
  · obtain ⟨-, rfl⟩ := Prod.mk.inj (Except.ok.inj h)
    exact ⟨[], rfl, by simp⟩

/-- Before a statement the local variables get values unless they have some or the statement is a
specification. -/
theorem before_run (n : Node) (s : LowerState) : (before n).run s =
    ((if !s.unit.localsDone && !Visit.isSpecification ⟨n, s⟩ then bindLocals else pure ()) >>=
      fun _ => labelMark n).run (collected n s) := by
  have hcollect : (collect n).run s = .ok ((), collected n s) := rfl
  have hunit : Lower.unit.run (collected n s) = .ok (s.unit, collected n s) := rfl
  have htable : Lower.table.run (collected n s) = .ok ((collected n s).collection.table, collected n s) := rfl
  rw [before, run_bind_ok hcollect, run_bind_ok hunit, run_bind_ok htable]
  show StateT.run (if (!s.unit.localsDone && !Visit.isSpecification ⟨n, s⟩) = true then _ else _) _ = _
  split <;> rfl

/-- A specification, and a statement behind the first executable one, has only the mark of its label
before it. -/
theorem before_quiet (hquiet : s.unit.localsDone ∨ Visit.isSpecification ⟨n, s⟩) :
    (before n).run s = (labelMark n).run (collected n s) := by
  have hno : (!s.unit.localsDone && !Visit.isSpecification ⟨n, s⟩) = false := by
    rcases hquiet with hdone | hspec
    · rw [hdone]
      rfl
    · rw [hspec, Bool.not_true, Bool.and_false]
  rw [before_run, hno]
  rfl

end Lower

end FortranJulia
