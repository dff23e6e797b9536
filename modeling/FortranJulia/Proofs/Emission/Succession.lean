import FortranJulia.Proofs.Emission.Resolution

/-!
The statements of a unit in succession. They are lowered in the order in which they stand in the source,
and what is known of the names of the unit is kept from one to the next. When a statement is lowered, the
names to which it gives dimensions are arrays already, so that a later one finds all arrays of those
before it.
-/

namespace FortranJulia

set_option autoImplicit false

open Material (Resolved)

namespace Lower

/-! ## Order of the source -/

mutual

/-- The statements that are visited stand in this order. -/
theorem visits_sublist : ∀ (n : Node) (s : LowerState),
    List.Sublist ((visits n s).map (·.node)) n.nodes
  | .leaf i lx, s => by
    rw [visits, Node.nodes]
    exact .refl _
  | .inner i l cs, s => by
    rw [visits, Node.nodes, List.map_cons]
    refine .cons_cons _ ?_
    split
    · exact blockVisits_sublist cs s
    · split
      · exact actionVisits_sublist cs _
      · exact List.nil_sublist _

theorem blockVisits_sublist : ∀ (ns : List Node) (s : LowerState),
    List.Sublist ((blockVisits ns s).map (·.node)) (Node.nodesOf ns)
  | [], _ => by
    rw [blockVisits]
    exact List.nil_sublist _
  | .leaf i lx :: rest, s => by
    rw [blockVisits, Node.nodesOf]
    exact (blockVisits_sublist rest _).trans (List.sublist_append_right _ _)
  | .inner i l cs :: rest, s => by
    rw [blockVisits, Node.nodesOf, List.map_append]
    refine .append ?_ (blockVisits_sublist rest _)
    split
    · rw [Node.nodes]
      exact (listVisits_sublist cs _).trans (List.sublist_cons_self _ _)
    · exact List.nil_sublist _

theorem actionVisits_sublist : ∀ (ns : List Node) (s : LowerState),
    List.Sublist ((actionVisits ns s).map (·.node)) (Node.nodesOf ns)
  | [], _ => by
    rw [actionVisits]
    exact List.nil_sublist _
  | [stmt], s => by
    rw [actionVisits, Node.nodesOf]
    exact (visits_sublist stmt _).trans (List.sublist_append_left _ _)
  | n :: m :: rest, s => by
    rw [actionVisits, Node.nodesOf]
    · exact (actionVisits_sublist (m :: rest) s).trans (List.sublist_append_right _ _)
    · simp

theorem listVisits_sublist : ∀ (ns : List Node) (s : LowerState),
    List.Sublist ((listVisits ns s).map (·.node)) (Node.nodesOf ns)
  | [], _ => by
    rw [listVisits]
    exact List.nil_sublist _
  | stmt :: rest, s => by
    rw [listVisits, Node.nodesOf, List.map_append]
    exact .append (visits_sublist stmt _) (listVisits_sublist rest _)

end

theorem partVisits_sublist (whole : Node) (parts : List Node) : ∀ s : LowerState,
    List.Sublist ((partVisits whole parts s).map (·.node)) (Node.nodesOf parts) := by
  induction parts with
  | nil => exact fun _ => List.nil_sublist _
  | cons part parts ih =>
    intro s
    rw [partVisits, Node.nodesOf, List.map_append]
    refine .append ?_ (ih _)
    split
    · cases part with
      | leaf => exact List.nil_sublist _
      | inner i l cs =>
        rw [Node.nodes]
        exact (listVisits_sublist cs s).trans (List.sublist_cons_self _ _)
    · exact List.nil_sublist _

/-- The statements of a unit are lowered in the order of the source. -/
theorem unitVisits_sublist (run : Visit) :
    List.Sublist ((unitVisits run).map (·.node)) run.node.nodes := by
  unfold unitVisits
  cases (survey run.node).run run.state with
  | error => exact List.nil_sublist _
  | ok r =>
    obtain ⟨node, s⟩ := run
    cases node with
    | leaf => exact List.nil_sublist _
    | inner i l cs =>
      rw [Node.nodes]
      exact (partVisits_sublist _ cs _).trans (List.sublist_cons_self _ _)

/-! ## What is kept -/

/-- What is known of the names in a state is known in a later one. -/
def Retains (unit : Node) (procedures : String → Prop) (s t : LowerState) : Prop :=
  ∀ arrays kept written, (∀ x, kept x → procedures x) →
    Resolved unit arrays kept written s.collection s.unit →
    Resolved unit arrays kept written t.collection t.unit

/-- A unit is open in the state. -/
def Ready (unit : Node) (s : LowerState) : Prop :=
  ∃ written, Resolved unit (fun _ => False) (fun _ => False) written s.collection s.unit

/-- The names to which the statement gives dimensions are arrays in the state in which it is lowered. -/
def Dimensioned (unit : Node) (v : Visit) : Prop :=
  ∀ x, v.node.Dimensions x → ∃ w, Resolved unit (fun y => nameKey y = nameKey x) (fun _ => False)
    (fun _ => w) v.state.collection v.state.unit

/-- From one state to another, the statements are lowered one after the other. -/
inductive Along (unit : Node) (procedures : String → Prop) :
    LowerState → List Visit → LowerState → Prop
  | stop {s t : LowerState} (last : Retains unit procedures s t) : Along unit procedures s [] t
  | visit {s t : LowerState} {v : Visit} {vs : List Visit} (next : Retains unit procedures s v.state)
    (arrays : Dimensioned unit v) (rest : Along unit procedures v.state vs t) :
    Along unit procedures s (v :: vs) t

section Succession

variable {unit : Node} {procedures : String → Prop} {s t u : LowerState} {vs ws : List Visit}

namespace Retains

theorem refl (s : LowerState) : Retains unit procedures s s :=
  fun _ _ _ _ h => h

theorem trans (h : Retains unit procedures s t) (h' : Retains unit procedures t u) :
    Retains unit procedures s u :=
  fun arrays kept written hkept hs => h' arrays kept written hkept (h arrays kept written hkept hs)

theorem ready (h : Retains unit procedures s t) (hs : Ready unit s) : Ready unit t := by
  obtain ⟨written, hs⟩ := hs
  exact ⟨written, h _ _ written (fun _ hx => hx.elim) hs⟩

end Retains

namespace Along

theorem before (h : Along unit procedures t vs u) (hst : Retains unit procedures s t) :
    Along unit procedures s vs u := by
  cases h with
  | stop hlast => exact .stop (hst.trans hlast)
  | visit hnext harrays hrest => exact .visit (hst.trans hnext) harrays hrest

theorem append (h : Along unit procedures s vs t) (h' : Along unit procedures t ws u) :
    Along unit procedures s (vs ++ ws) u := by
  induction h with
  | stop hlast => exact h'.before hlast
  | visit hnext harrays _ ih => exact .visit hnext harrays (ih h')

theorem behind (h : Along unit procedures s vs t) (htu : Retains unit procedures t u) :
    Along unit procedures s vs u := by
  have hall := h.append (.stop htu)
  rwa [List.append_nil] at hall

theorem retains (h : Along unit procedures s vs t) : Retains unit procedures s t := by
  induction h with
  | stop hlast => exact hlast
  | visit hnext _ _ ih => exact hnext.trans ih

/-- What is known before a statement: what was known at the start, and the arrays of all statements
before it. -/
theorem split {before behind : List Visit} {v : Visit}
    (h : Along unit procedures s (before ++ v :: behind) t) :
    Retains unit procedures s v.state ∧
      ∀ d ∈ before, Dimensioned unit d ∧ Retains unit procedures d.state v.state := by
  induction before generalizing s with
  | nil =>
    cases h with
    | visit hnext _ _ => exact ⟨hnext, by simp⟩
  | cons first before ih =>
    cases h with
    | visit hnext harrays hrest =>
      obtain ⟨hkept, hbefore⟩ := ih hrest
      exact ⟨hnext.trans hkept, List.forall_mem_cons.2 ⟨⟨harrays, hkept⟩, hbefore⟩⟩

end Along

/-! ## Statements -/

theorem nested_inv {act : Lower Unit} (h : (nested act).run s = .ok ((), t)) :
    ∃ u, act.run (deeper s) = .ok ((), u) ∧ t = { u with depth := u.depth - 1 } := by
  obtain ⟨_, _, hin, h⟩ := run_bind_inv h
  obtain ⟨-, rfl⟩ := Prod.mk.inj (Except.ok.inj hin)
  obtain ⟨_, u, hact, hout⟩ := run_bind_inv h
  obtain ⟨-, rfl⟩ := Prod.mk.inj (Except.ok.inj hout)
  exact ⟨u, hact, rfl⟩

variable (hspares : ∀ k ∈ unit.nodes, k.Spares procedures)

include hspares

/-- What writes for parts of a unit keeps what is known of its names. -/
theorem retains_makes {act : Lower Unit}
    (h : ∀ {m : Material} {known : Collection → UnitState → Prop} {base : LowerState},
      m.Lawful known → m.Fits known unit → m.helper "exit" → Makes m known base act fun _ => True)
    (hrun : act.run s = .ok ((), t)) : Retains unit procedures s t := by
  intro arrays kept written hkept hs
  have hfits : (Material.ofStatement unit (.ofUnit unit arrays kept written) fun _ => True).Fits
      (Resolved unit arrays kept written) unit :=
    Material.resolved_fits (fun k hk x hx => hspares k hk x (hkept x hx)) (fun _ _ => trivial)
  exact (h Material.resolved_lawful hfits trivial s (.start hs) () t hrun).1.known

omit hspares in
/-- Recording the declarations of a statement makes its names arrays. -/
theorem collect_dimensioned {n : Node} (hs : Ready unit s) (hrun : (collect n).run s = .ok ((), t)) :
    Dimensioned unit ⟨n, t⟩ := by
  obtain ⟨-, rfl⟩ := Prod.mk.inj (Except.ok.inj hrun)
  obtain ⟨written, hs⟩ := hs
  intro x hx
  have hsome : (s.collection.statement? n).isSome := by
    unfold Collection.statement?
    rcases hx with ⟨hl, -⟩ | ⟨hl, -⟩ | ⟨hl, -⟩ <;> rw [eq_of_beq hl] <;> rfl
  obtain ⟨d, hd⟩ := Option.isSome_iff_exists.1 hsome
  obtain ⟨w, hw⟩ := Collection.statement?_resolves hs.table hx hd
  refine ⟨w, ?_, hs.kind, hs.name⟩
  show ((s.collection.statement? n).getD s.collection).table.Resolves _ _ _
  rw [hd]
  exact hw

theorem before_dimensioned {n : Node} (hn : n ∈ unit.nodes) (hs : Ready unit s)
    (hrun : (before n).run s = .ok ((), t)) : Dimensioned unit ⟨n, t⟩ := by
  obtain ⟨_, u, hcollect, hrest⟩ := run_bind_inv hrun
  have hkept : Retains unit procedures u t :=
    retains_makes hspares (fun law fits _ => makes_recorded law (fits.node hn)) hrest
  intro x hx
  obtain ⟨w, hw⟩ := collect_dimensioned hs hcollect x hx
  exact ⟨w, hkept _ _ _ (fun _ hy => hy.elim) hw⟩

mutual

theorem along_statement : ∀ n ∈ unit.nodes, ∀ {s t : LowerState}, Ready unit s →
    Dimensioned unit ⟨n, s⟩ → (statement n).run s = .ok ((), t) →
    Along unit procedures s (visits n s) t
  | .leaf i lx, hn, s, t, _, hdims, hrun => by
    rw [visits]
    refine .visit (.refl s) hdims (.stop ?_)
    exact retains_makes hspares (fun law fits _ => makes_statement law _ (fits.node hn)) hrun
  | .inner i l cs, hn, s, t, hs, hdims, hrun => by
    have hcs : ∀ m ∈ cs, m ∈ unit.nodes := fun m hm => nodes_trans hn (nodes_child hm)
    have hplain : Retains unit procedures s t :=
      retains_makes hspares (fun law fits _ => makes_statement law _ (fits.node hn)) hrun
    rw [visits]
    refine .visit (.refl s) hdims ?_
    split
    · rename_i hl
      obtain rfl := eq_of_beq hl
      rw [statement] at hrun
      exact along_blocks cs hcs hs hrun
    · split
      · rename_i hl
        obtain rfl := eq_of_beq hl
        have hsplit : statement (.inner i .ifStmt cs) =
            ifLine (.inner i .ifStmt cs) >>= fun _ => nested (action cs) >>= fun _ => line .close := by
          rw [statement, ifLine, bind_assoc]
        rw [hsplit] at hrun
        obtain ⟨_, u, hline, hrun⟩ := run_bind_inv hrun
        obtain ⟨_, v, hnested, hclose⟩ := run_bind_inv hrun
        obtain ⟨w, haction, rfl⟩ := nested_inv hnested
        have hfirst : Retains unit procedures s u :=
          retains_makes hspares (fun law fits _ => (makes_condition law (fits.node hn)).bind
            (fun _ hc => makes_line (.ifHead hc))) hline
        have hlast : Retains unit procedures { w with depth := w.depth - 1 } t :=
          retains_makes hspares (fun _ _ _ => makes_line .close) hclose
        rw [behind_eq hline]
        have haction := along_action cs hcs (s := deeper u) (hfirst.ready hs) haction
        exact (haction.behind hlast).before hfirst
      · exact .stop hplain

theorem along_blocks : ∀ ns : List Node, (∀ n ∈ ns, n ∈ unit.nodes) → ∀ {s t : LowerState},
    Ready unit s → (blocks ns).run s = .ok ((), t) → Along unit procedures s (blockVisits ns s) t
  | [], _, s, t, _, hrun => by
    rw [blocks] at hrun
    rw [blockVisits]
    exact .stop (retains_makes hspares (fun _ _ _ => .pure trivial) hrun)
  | .leaf i lx :: rest, hns, s, t, hs, hrun => by
    rw [blocks_cons] at hrun
    obtain ⟨_, u, hfirst, hrun⟩ := run_bind_inv hrun
    have hkept : Retains unit procedures s u := retains_makes hspares
      (fun law fits _ => makes_blocks law _ (fun n hn => fits.node (hns n (by simp_all)))) hfirst
    rw [blockVisits, behind_eq hfirst]
    exact (along_blocks rest (fun n hn => hns n (by simp [hn])) (hkept.ready hs) hrun).before hkept
  | .inner i l cs :: rest, hns, s, t, hs, hrun => by
    have hthis : Node.inner i l cs ∈ unit.nodes := hns _ (by simp)
    rw [blocks_cons] at hrun
    obtain ⟨_, u, hfirst, hrun⟩ := run_bind_inv hrun
    have hkept : Retains unit procedures s u := retains_makes hspares
      (fun law fits _ => makes_blocks law _ (fun n hn => fits.node (hns n (by simp_all)))) hfirst
    have hbody : Along unit procedures s
        (if l == .conditionalBody then listVisits cs (deeper s) else []) u := by
      split
      · rename_i hl
        rw [blocks, if_pos hl] at hfirst
        obtain ⟨_, v, hnested, hpure⟩ := run_bind_inv hfirst
        obtain ⟨w, hstatements, rfl⟩ := nested_inv hnested
        have hlast : Retains unit procedures { w with depth := w.depth - 1 } u := by
          rw [blocks] at hpure
          exact retains_makes hspares (fun _ _ _ => .pure trivial) hpure
        have hlist := along_statements cs (fun m hm => nodes_trans hthis (nodes_child hm))
          (s := deeper s) hs hstatements
        exact (hlist.behind hlast).before (Retains.refl s)
      · exact .stop hkept
    rw [blockVisits, behind_eq hfirst]
    exact hbody.append (along_blocks rest (fun n hn => hns n (by simp [hn])) (hkept.ready hs) hrun)

theorem along_action : ∀ ns : List Node, (∀ n ∈ ns, n ∈ unit.nodes) → ∀ {s t : LowerState},
    Ready unit s → (action ns).run s = .ok ((), t) → Along unit procedures s (actionVisits ns s) t
  | [], _, s, t, _, hrun => by
    rw [action] at hrun
    cases hrun
  | [stmt], hns, s, t, hs, hrun => by
    have hn := hns stmt (by simp)
    rw [action] at hrun
    obtain ⟨_, u, hcollect, hrun⟩ := run_bind_inv hrun
    obtain ⟨_, v, hstatement, htrailing⟩ := run_bind_inv hrun
    have hkept : Retains unit procedures s u :=
      retains_makes hspares (fun _ fits _ => makes_collect (fits.node hn)) hcollect
    have hlast : Retains unit procedures v t :=
      retains_makes hspares (fun _ fits _ => makes_trailing (fits.node hn)) htrailing
    have hthis := along_statement stmt hn (hkept.ready hs) (collect_dimensioned hs hcollect) hstatement
    rw [actionVisits, behind_eq hcollect]
    exact (hthis.behind hlast).before hkept
  | n :: m :: rest, hns, s, t, hs, hrun => by
    rw [action] at hrun
    · rw [actionVisits]
      · exact along_action (m :: rest) (fun k hk => hns k (by simp [hk])) hs hrun
      · simp
    · simp

theorem along_statements : ∀ ns : List Node, (∀ n ∈ ns, n ∈ unit.nodes) → ∀ {s t : LowerState},
    Ready unit s → (statements ns).run s = .ok ((), t) → Along unit procedures s (listVisits ns s) t
  | [], _, s, t, _, hrun => by
    rw [statements] at hrun
    rw [listVisits]
    exact .stop (retains_makes hspares (fun _ _ _ => .pure trivial) hrun)
  | stmt :: rest, hns, s, t, hs, hrun => by
    have hn := hns stmt (by simp)
    rw [statements_cons] at hrun
    obtain ⟨_, u, hfirst, hrun⟩ := run_bind_inv hrun
    have hone := hfirst
    rw [statements] at hone
    obtain ⟨_, v, hbefore, hone⟩ := run_bind_inv hone
    obtain ⟨_, w, hstatement, hafter⟩ := run_bind_inv hone
    have hkept : Retains unit procedures s v :=
      retains_makes hspares (fun law fits _ => makes_before law (fits.node hn)) hbefore
    have hlast : Retains unit procedures w u :=
      retains_makes hspares (fun law fits _ => (makes_after law (fits.node hn)).bind
        (fun _ _ => makes_statements law [] (by simp))) hafter
    have hthis := along_statement stmt hn (hkept.ready hs) (before_dimensioned hspares hn hs hbefore)
      hstatement
    have hall := (hthis.behind hlast).before hkept
    rw [listVisits, behind_eq hbefore, behind_eq hfirst]
    exact hall.append (along_statements rest (fun k hk => hns k (by simp [hk]))
      (hall.retains.ready hs) hrun)

end

theorem along_parts (whole : Node) (parts : List Node) (hparts : ∀ n ∈ parts, n ∈ unit.nodes) :
    ∀ {s t : LowerState}, Ready unit s → (parts.forM (unitPart whole)).run s = .ok ((), t) →
      Along unit procedures s (partVisits whole parts s) t := by
  induction parts with
  | nil =>
    intro s t _ hrun
    exact .stop (retains_makes hspares (fun _ _ _ => .pure trivial) hrun)
  | cons part parts ih =>
    intro s t hs hrun
    have hn := hparts part (by simp)
    obtain ⟨_, u, hfirst, hrun⟩ := run_bind_inv
      (show (unitPart whole part >>= fun _ => parts.forM (unitPart whole)).run s = _ from hrun)
    have hkept : Retains unit procedures s u := retains_makes hspares
      (fun law fits hexit => makes_unitPart law hexit whole (fits.node hn)) hfirst
    have hbody : Along unit procedures s
        (if part.hasLabel .body then listVisits part.children s else []) u := by
      split
      · rename_i hl
        rw [unitPart, eq_of_beq hl] at hfirst
        exact along_statements hspares part.children
          (fun m hm => nodes_trans hn (nodes_child hm)) hs hfirst
      · exact .stop hkept
    rw [partVisits, behind_eq hfirst]
    exact hbody.append (ih (fun n hn => hparts n (by simp [hn])) (hkept.ready hs) hrun)

end Succession

end Lower

end FortranJulia
