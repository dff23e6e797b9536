import FortranJulia.Proofs.Naming.Collecting
import FortranJulia.Proofs.Symbols.Folding

/-!
Two ways through the statements of a unit. A collection walks the tree and records what it comes by,
however deep it stands; a lowering records each statement when its turn comes, and spells further names
in between. In a parsed tree declarations stand in lists of statements and in logical IFs only, which is
where a lowering looks for them, so that `Tracks` relates the two from statement to statement.
-/

namespace FortranJulia

set_option autoImplicit false

open Julia (Expr Code Line)

/-! ## Walks -/

namespace Node

/-- The node is neither a statement nor something that statements stand in. -/
def Unplaced (n : Node) : Prop :=
  ∀ l ∈ Label.placed, n.label? ≠ some l

theorem unplaced_or (n : Node) : (∃ l ∈ Label.placed, n.label? = some l) ∨ n.Unplaced := by
  by_cases h : ∃ l ∈ Label.placed, n.label? = some l
  · exact .inl h
  · exact .inr fun l hl hlabel => h ⟨l, hl, hlabel⟩

section Children

variable {i : Nat} {l : Label} {cs : List Node}

theorem Placed.children_list (h : (inner i l cs).Placed) (hl : l = .body ∨ l = .conditionalBody) :
    ∀ n ∈ cs, n.IsStatement ∨ n.Unplaced := by
  intro n hn
  rcases n.unplaced_or with ⟨m, hm, hlabel⟩ | hn'
  · exact .inl ⟨m, Label.places_list hm (h.place (nodes_self _) n hn m hm hlabel) hl, hlabel⟩
  · exact .inr hn'

theorem Placed.children_block (h : (inner i .ifConstruct cs).Placed) :
    ∀ n ∈ cs, n.hasLabel .conditionalBody ∨ n.Unplaced := by
  intro n hn
  rcases n.unplaced_or with ⟨m, hm, hlabel⟩ | hn'
  · rcases Label.places_statement hm (h.place (nodes_self _) n hn m hm hlabel) (by decide) with
      ⟨hif, -⟩ | ⟨-, rfl⟩
    · cases hif
    · exact .inl (hasLabel_of_label? hlabel)
  · exact .inr hn'

theorem Placed.children_action (h : (inner i .ifStmt cs).Placed) :
    ∀ n ∈ cs, n.IsStatement ∨ n.Unplaced := by
  intro n hn
  rcases n.unplaced_or with ⟨m, hm, hlabel⟩ | hn'
  · rcases Label.places_statement hm (h.place (nodes_self _) n hn m hm hlabel) (by decide) with
      ⟨-, hstmt⟩ | ⟨hif, -⟩
    · exact .inl ⟨m, hstmt, hlabel⟩
    · cases hif
  · exact .inr hn'

theorem Placed.children_unit (h : (inner i l cs).Placed) (hl : l.isUnit) :
    ∀ n ∈ cs, n.hasLabel .body ∨ n.Unplaced := by
  intro n hn
  rcases n.unplaced_or with ⟨m, hm, hlabel⟩ | hn'
  · obtain rfl := Label.places_unit hm (h.place (nodes_self _) n hn m hm hlabel) hl
    exact .inl (hasLabel_of_label? hlabel)
  · exact .inr hn'

end Children

end Node

namespace Collection

variable {n : Node} {c : Collection}

theorem visitAll_unchanged {b : Bool} {ns : List Node} (h : ∀ n ∈ ns, ∀ c, visit b c n = c) :
    ∀ c, visitAll b c ns = c := by
  induction ns with
  | nil => exact fun _ => rfl
  | cons n ns ih =>
    intro c
    rw [visitAll, h n (by simp), ih (fun m hm => h m (by simp [hm]))]

/-- A statement that declares something has its place. -/
theorem statement?_placed {d : Collection} (h : c.statement? n = some d) :
    d = c ∨ ∃ l ∈ Label.statements, n.label? = some l := by
  cases hlabel : n.label? with
  | none => simp [statement?, hlabel] at h
  | some l =>
    cases l with
    | endOfStmt =>
      rw [statement?, hlabel] at h
      exact .inl (Option.some.inj h).symm
    | typeDeclarationStmt | dimensionStmt | commonStmt | parameterStmt | externalStmt | intrinsicStmt
    | implicitStmt | assignmentStmt | formatStmt | dataStmt => exact .inr ⟨_, by decide, rfl⟩
    | _ => simp [statement?, hlabel] at h

/-- Nothing is declared where no statement can stand. -/
theorem visit_unplaced (b : Bool) : ∀ {n : Node}, n.Placed → n.Unplaced → ∀ c, visit b c n = c := by
  intro n
  induction n using Node.induction with
  | leaf i lx => exact fun _ _ _ => rfl
  | inner i l cs ih =>
    intro hplaced hn c
    have hl : l ∉ Label.placed := fun hl => hn l hl rfl
    have hunit : l.isUnit = false := by
      cases l with
      | mainProgram | functionSubprogram | subroutineSubprogram | blockDataSubprogram =>
        exact absurd (by decide) hl
      | _ => rfl
    have hchildren : ∀ m ∈ cs, ∀ c, visit b c m = c := by
      refine fun m hm => ih m hm (hplaced.child hm) fun k hk hlabel => hl ?_
      exact Label.places_placed hk (hplaced.place (nodes_self _) m hm k hk hlabel)
    rw [visit, hunit, if_neg (by simp)]
    cases hstmt : c.statement? (.inner i l cs) with
    | none => exact visitAll_unchanged hchildren c
    | some d =>
      rcases statement?_placed hstmt with rfl | ⟨k, hk, hlabel⟩
      · rfl
      · exact absurd hlabel (hn k (Label.statement_placed hk))

/-- A statement without other statements in it is recorded and that is all. -/
theorem visit_simple (hplaced : n.Placed) (hn : n.IsStatement ∨ n.Unplaced)
    (hif : n.label? ≠ some .ifStmt) (hblock : n.label? ≠ some .ifConstruct) (c : Collection) :
    visit false c n = (c.statement? n).getD c := by
  rcases hn with ⟨l, hl, hlabel⟩ | hn
  · cases n with
    | leaf => cases hlabel
    | inner i m cs =>
      obtain rfl := Option.some.inj hlabel
      have hunit : ∀ l ∈ Label.statements, l.isUnit = false := by decide
      have hchildren : ∀ k ∈ cs, ∀ c, visit false c k = c := by
        refine fun k hk => visit_unplaced false (hplaced.child hk) fun a ha hlabel => ?_
        rcases Label.places_statement ha (hplaced.place (nodes_self _) k hk a ha hlabel) hl with
          ⟨rfl, -⟩ | ⟨rfl, -⟩
        · exact hif rfl
        · exact hblock rfl
      rw [visit, hunit m hl, if_neg (by simp)]
      cases c.statement? (.inner i m cs) with
      | some d => rfl
      | none => exact visitAll_unchanged hchildren c
  · rw [visit_unplaced false hplaced hn]
    cases hstmt : c.statement? n with
    | none => rfl
    | some d =>
      rcases statement?_placed hstmt with rfl | ⟨k, hk, hlabel⟩
      · rfl
      · exact absurd hlabel (hn k (Label.statement_placed hk))

/-- A part of a program that declares nothing itself. -/
theorem visit_inner {b : Bool} {i : Nat} {l : Label} {cs : List Node}
    (hl : l ∈ [Label.ifStmt, .ifConstruct, .conditionalBody, .body, .executableProgram, .program, .loneName])
    (c : Collection) : visit b c (.inner i l cs) = visitAll b c cs := by
  simp only [List.mem_cons, List.not_mem_nil, or_false] at hl
  rcases hl with rfl | rfl | rfl | rfl | rfl | rfl | rfl <;> rfl

end Collection

/-! ## Steps of a lowering -/

theorem Table.Tidy.recorded {t : Table} {more : List String} (h : t.Tidy)
    (hmore : ∀ w ∈ (t.recorded more).spellings, Text.Word w) : (t.recorded more).Tidy :=
  ⟨hmore, h.global, h.opened⟩

/-- The tree is such as a source can have, and no statement in it has the form of a statement function. -/
structure Node.Usual (n : Node) : Prop where
  worded : n.Worded
  placed : n.Placed
  functions : ∀ m ∈ n.nodes, ¬ m.hasLabel .stmtFunctionStmt

namespace Node.Usual

variable {n m : Node}

theorem node (h : n.Usual) (hm : m ∈ n.nodes) : m.Usual :=
  ⟨h.worded.node hm, h.placed.node hm, fun k hk => h.functions k (nodes_trans hm hk)⟩

theorem child (h : n.Usual) (hm : m ∈ n.children) : m.Usual :=
  h.node (nodes_child hm)

end Node.Usual

namespace Lower

/-- The table follows what a collection goes through, if all names that are spelled are words. -/
def Tracks (act : Lower Unit) (g : Collection → Collection) : Prop :=
  ∀ s a t, act.run s = .ok (a, t) →
    s.collection.table.spellings <+: t.collection.table.spellings ∧
      ((∀ w ∈ t.collection.table.spellings, Text.Word w) →
        ∀ c : Collection, s.collection.table.Alike c.table → t.collection.table.Alike (g c).table)

namespace Tracks

variable {act : Lower Unit} {g g' : Collection → Collection}

/-- Names may be spelled in between. -/
theorem of_spells {post : Unit → Prop}
    (h : Spells ⟨.empty, fun _ => false⟩ .recorded True act post) : Tracks act id := by
  intro s a t hrun
  obtain ⟨more, hmore⟩ := (h s a t hrun).1
  rw [hmore]
  refine ⟨List.prefix_append _ _, fun hwords c hc => ?_⟩
  exact ⟨hc.left.recorded hwords, hc.right, hc.agrees.congr rfl rfl⟩

theorem bind {f : Unit → Lower Unit} {k : Collection → Collection} (h : Tracks act g)
    (h' : ∀ r, Tracks (f r) g') (heq : ∀ c, k c = g' (g c)) : Tracks (act >>= f) k := by
  intro s b u hrun
  obtain ⟨a, t, hact, hrest⟩ := run_bind_inv hrun
  obtain ⟨hst, hfirst⟩ := h s a t hact
  obtain ⟨htu, hsecond⟩ := h' a t b u hrest
  refine ⟨hst.trans htu, fun hwords c hc => ?_⟩
  rw [heq]
  exact hsecond hwords _ (hfirst (fun w hw => hwords w (htu.subset hw)) c hc)

theorem after {f : Unit → Lower Unit} (h : Tracks act id) (h' : ∀ r, Tracks (f r) g) :
    Tracks (act >>= f) g :=
  h.bind h' fun _ => rfl

theorem before {f : Unit → Lower Unit} (h : Tracks act g) (h' : ∀ r, Tracks (f r) id) :
    Tracks (act >>= f) g :=
  h.bind h' fun _ => rfl

theorem congr (h : Tracks act g) (heq : ∀ c, g' c = g c) : Tracks act g' := by
  intro s a t hrun
  obtain ⟨hst, halike⟩ := h s a t hrun
  exact ⟨hst, fun hwords c hc => heq c ▸ halike hwords c hc⟩

theorem nested (h : Tracks act g) : Tracks (nested act) g :=
  .after (.of_spells (spells_depth (· + 1))) fun _ =>
    .before h fun _ => .of_spells (spells_depth (· - 1))

theorem collect {stmt : Node} (h : stmt.Worded) :
    Tracks (collect stmt) fun c => (c.statement? stmt).getD c := by
  intro s a t hrun
  obtain ⟨-, rfl⟩ := Prod.mk.inj (Except.ok.inj hrun)
  exact ⟨(Collection.steady_statement? stmt s.collection).1,
    fun _ c hc => Collection.statement?_alike h hc⟩

end Tracks

section Statements

theorem tracks_before {stmt : Node} (h : stmt.Worded) :
    Tracks (before stmt) fun c => (c.statement? stmt).getD c :=
  (Tracks.collect h).before fun _ => .of_spells (spells_opening stmt)

theorem tracks_simple {stmt : Node} (h : stmt.Usual) : Tracks (simple stmt) id :=
  .of_spells (spells_simple fun hl => absurd hl (h.functions stmt (nodes_self stmt)))

/-- What a walk finds in a statement once the statement itself is recorded. -/
def inside (n : Node) (c : Collection) : Collection :=
  if n.hasLabel .ifStmt || n.hasLabel .ifConstruct then Collection.visitAll false c n.children else c

/-- A statement is recorded and then its parts are walked through. -/
theorem visit_inside {n : Node} (h : n.Placed) (hn : n.IsStatement ∨ n.Unplaced) (c : Collection) :
    Collection.visit false c n = inside n ((c.statement? n).getD c) := by
  unfold inside
  split
  · rename_i hl
    cases n with
    | leaf => simp [Node.hasLabel, Node.label?] at hl
    | inner i l cs =>
      have hcases : l = .ifStmt ∨ l = .ifConstruct := by simpa [Node.hasLabel, Node.label?] using hl
      rcases hcases with rfl | rfl <;> rfl
  · rename_i hl
    simp only [Node.hasLabel, Bool.or_eq_true, beq_iff_eq, not_or] at hl
    exact Collection.visit_simple h hn hl.1 hl.2 c

mutual

theorem tracks_statement : ∀ n : Node, n.Usual → Tracks (statement n) (inside n)
  | .leaf i lx, h => by
    rw [statement]
    exact tracks_simple h
  | .inner i l cs, h => by
    by_cases hblock : l = .ifConstruct
    · subst hblock
      rw [statement]
      exact tracks_blocks cs (fun m hm => h.child hm) h.placed.children_block
    · by_cases hif : l = .ifStmt
      · subst hif
        have hlast : ∀ n ∈ cs.dropLast, n.Unplaced := fun n hn => h.placed.action (nodes_self _) n hn
        have haction := tracks_action cs (fun m hm => h.child hm) hlast h.placed.children_action
        have hopen : Tracks (ifLine (.inner i .ifStmt cs)) id :=
          .of_spells ((spells_condition _).bind fun _ => spells_line fun hc => hc.2)
        have hclose : Tracks (line .close) id := .of_spells (spells_line fun _ => by simp)
        have hsplit : statement (.inner i .ifStmt cs) =
            ifLine (.inner i .ifStmt cs) >>= fun _ => nested (action cs) >>= fun _ => line .close := by
          rw [statement, ifLine, bind_assoc]
        rw [hsplit]
        exact hopen.after fun _ => haction.nested.before fun _ => hclose
      · have hinside : ∀ c, inside (.inner i l cs) c = c := by
          intro c
          rw [inside, if_neg]
          simp [Node.hasLabel, Node.label?, hblock, hif]
        rw [statement]
        · exact (tracks_simple h).congr hinside
        · exact hblock
        · exact hif

theorem tracks_blocks : ∀ ns : List Node, (∀ n ∈ ns, n.Usual) →
    (∀ n ∈ ns, n.hasLabel .conditionalBody ∨ n.Unplaced) →
    Tracks (blocks ns) (Collection.visitAll false · ns)
  | [], _, _ => by
    rw [blocks]
    exact .of_spells .skip
  | .leaf i lx :: rest, h, hns => by
    rw [blocks]
    refine (Tracks.of_spells (spells_blockMark _)).after fun _ => ?_
    exact tracks_blocks rest (fun m hm => h m (by simp [hm])) fun m hm => hns m (by simp [hm])
  | .inner i l cs :: rest, h, hns => by
    have hthis := h (.inner i l cs) (by simp)
    have hrest := tracks_blocks rest (fun m hm => h m (by simp [hm])) fun m hm => hns m (by simp [hm])
    rw [blocks]
    split
    · rename_i hl
      obtain rfl := eq_of_beq hl
      refine Tracks.bind (Tracks.nested ?_) (fun _ => hrest) fun _ => rfl
      exact tracks_statements cs (fun m hm => hthis.child hm) (hthis.placed.children_list (.inr rfl))
    · rename_i hl
      have hunplaced : (Node.inner i l cs).Unplaced := by
        refine (hns _ (by simp)).resolve_left fun hlabel => hl ?_
        simpa [Node.hasLabel, Node.label?] using hlabel
      refine (Tracks.of_spells (spells_blockMark _)).bind (fun _ => hrest) fun c => ?_
      rw [Collection.visitAll, Collection.visit_unplaced false hthis.placed hunplaced]
      rfl

theorem tracks_action : ∀ ns : List Node, (∀ n ∈ ns, n.Usual) → (∀ n ∈ ns.dropLast, n.Unplaced) →
    (∀ n ∈ ns, n.IsStatement ∨ n.Unplaced) → Tracks (action ns) (Collection.visitAll false · ns)
  | [], _, _, _ => by
    rw [action]
    exact .of_spells (.throw _ fun _ => True)
  | [stmt], h, _, hn => by
    have hthis := h stmt (by simp)
    rw [action]
    refine (Tracks.collect hthis.worded).bind (fun _ => (tracks_statement stmt hthis).before fun _ =>
      .of_spells (spells_trailing stmt)) fun c => ?_
    rw [Collection.visitAll, Collection.visitAll, visit_inside hthis.placed (hn stmt (by simp))]
  | n :: m :: rest, h, hns, hn => by
    have hthis := h n (by simp)
    rw [action]
    · refine (tracks_action (m :: rest) (fun k hk => h k (by simp [hk]))
        (fun k hk => hns k (by simp [hk])) (fun k hk => hn k (by simp [hk]))).congr fun c => ?_
      rw [Collection.visitAll, Collection.visit_unplaced false hthis.placed (hns n (by simp))]
    · simp

theorem tracks_statements : ∀ ns : List Node, (∀ n ∈ ns, n.Usual) →
    (∀ n ∈ ns, n.IsStatement ∨ n.Unplaced) → Tracks (statements ns) (Collection.visitAll false · ns)
  | [], _, _ => by
    rw [statements]
    exact .of_spells .skip
  | stmt :: rest, h, hns => by
    have hthis := h stmt (by simp)
    rw [statements]
    have hrest := tracks_statements rest (fun m hm => h m (by simp [hm])) fun m hm => hns m (by simp [hm])
    have hafter : ∀ _ : Unit, Tracks (after stmt >>= fun _ => statements rest)
        (Collection.visitAll false · rest) :=
      fun _ => (Tracks.of_spells (spells_after stmt)).after fun _ => hrest
    refine (tracks_before hthis.worded).bind (fun _ => (tracks_statement stmt hthis).bind hafter
      fun _ => rfl) fun c => ?_
    rw [Collection.visitAll, visit_inside hthis.placed (hns stmt (by simp))]

end

theorem tracks_unitPart (whole : Node) {part : Node} (h : part.Usual)
    (hpart : part.hasLabel .body ∨ part.Unplaced) :
    Tracks (unitPart whole part) (Collection.visit false · part) := by
  rcases hpart with hbody | hpart
  · cases part with
    | leaf => cases hbody
    | inner i l cs =>
      obtain rfl : l = .body := by simpa [Node.hasLabel, Node.label?] using hbody
      exact tracks_statements cs (fun m hm => h.child hm) (h.placed.children_list (.inl rfl))
  · refine Tracks.congr (g := id) ?_ (Collection.visit_unplaced false h.placed hpart)
    unfold unitPart
    split
    · exact .of_spells (spells_routineHead part)
    · exact .of_spells (spells_routineHead part)
    · exact .of_spells (spells_trailing part)
    · exact .of_spells (spells_trailing part)
    · exact absurd ‹part.label? = _› (hpart .body (by decide))
    · exact .of_spells (spells_unitEnd whole part)
    · exact .of_spells (spells_unitEnd whole part)
    · exact .of_spells (spells_unitEnd whole part)
    · exact .of_spells (spells_unitEnd whole part)
    · exact .of_spells .skip

theorem tracks_parts (whole : Node) {parts : List Node} (h : ∀ n ∈ parts, n.Usual)
    (hparts : ∀ n ∈ parts, n.hasLabel .body ∨ n.Unplaced) :
    Tracks (parts.forM (unitPart whole)) (Collection.visitAll false · parts) := by
  induction parts with
  | nil => exact .of_spells .skip
  | cons part parts ih =>
    have hrest := ih (fun n hn => h n (by simp [hn])) fun n hn => hparts n (by simp [hn])
    exact (tracks_unitPart whole (h part (by simp)) (hparts part (by simp))).bind (fun _ => hrest)
      fun _ => rfl

end Statements

end Lower

end FortranJulia
