import FortranJulia.Proofs.Parsing.Productions

/-!
Matches are determined by where they begin, and they go the same way whether or not a level gives
way to its only child. So the whole derivation tree of an expression can be read off a match with
patterns in which no level does.
-/

namespace FortranJulia

set_option autoImplicit false

open Match (Outcome)
open Bnf (Tree)

namespace TreeMatch

variable {tokens : Array Lexeme}

/-! ## Two matches from one state -/

/-- Two matches of a pattern from one state that both end before their bound end alike. -/
theorem Runs.unique {grammar : Nonterminal → Pattern} {p : Pattern} {s t : State} {o : Outcome}
    (h : Runs grammar tokens p s o t) : o ≠ .exhausted →
    ∀ {o' : Outcome} {t' : State}, Runs grammar tokens p s o' t' → o' ≠ .exhausted →
      o = o' ∧ t = t' := by
  induction h with
  | exhausted => exact fun h => absurd rfl h
  | take ht =>
    intro _ o' t' h' ho'
    cases h' <;> simp_all [accepts?]
  | miss ht =>
    intro _ o' t' h' ho'
    cases h' <;> simp_all [accepts?]
  | check hg | check_fails hg | while_end hg =>
    intro _ o' t' h' ho'
    cases h' <;> simp_all [accepts?]
  | branch _ ih =>
    intro ho o' t' h' ho'
    cases h' with
    | branch h => exact ih ho h ho'
    | exhausted => exact absurd rfl ho'
    | take h | miss h => simp [accepts?] at h
  | seq _ _ ih₁ ih₂ =>
    intro ho o' t' h' ho'
    cases h' with
    | seq h₁ h₂ =>
      obtain ⟨-, rfl⟩ := ih₁ (by simp) h₁ (by simp)
      exact ih₂ ho h₂ ho'
    | seq_stop h hne => exact absurd (ih₁ (by simp) h ho').1.symm hne
    | exhausted => exact absurd rfl ho'
    | take h | miss h => simp [accepts?] at h
  | seq_stop _ hne ih =>
    intro ho o' t' h' ho'
    cases h' with
    | seq h₁ _ => exact absurd (ih ho h₁ (by simp)).1 hne
    | seq_stop h _ => exact ih ho h ho'
    | exhausted => exact absurd rfl ho'
    | take h | miss h => simp [accepts?] at h
  | alt_first _ hne ih =>
    intro ho o' t' h' ho'
    cases h' with
    | alt_first h _ => exact ih ho h ho'
    | alt_second h₁ _ => exact absurd (ih ho h₁ (by simp)).1 hne
    | exhausted => exact absurd rfl ho'
    | take h | miss h => simp [accepts?] at h
  | alt_second _ _ ih₁ ih₂ =>
    intro ho o' t' h' ho'
    cases h' with
    | alt_first h hne => exact absurd (ih₁ (by simp) h ho').1.symm hne
    | alt_second h₁ h₂ =>
      obtain ⟨-, rfl⟩ := ih₁ (by simp) h₁ (by simp)
      exact ih₂ ho h₂ ho'
    | exhausted => exact absurd rfl ho'
    | take h | miss h => simp [accepts?] at h
  | star_more _ _ ih₁ ih₂ =>
    intro ho o' t' h' ho'
    cases h' with
    | star_more h₁ h₂ =>
      obtain ⟨-, rfl⟩ := ih₁ (by simp) h₁ (by simp)
      exact ih₂ ho h₂ ho'
    | star_end h => exact absurd (ih₁ (by simp) h (by simp)).1 (by simp)
    | star_stop | exhausted => exact absurd rfl ho'
    | take h | miss h => simp [accepts?] at h
  | star_end _ ih =>
    intro ho o' t' h' ho'
    cases h' with
    | star_more h₁ h₂ => exact absurd (ih (by simp) h₁ (by simp)).1 (by simp)
    | star_end h => exact ⟨rfl, (ih (by simp) h (by simp)).2⟩
    | star_stop | exhausted => exact absurd rfl ho'
    | take h | miss h => simp [accepts?] at h
  | star_stop => exact fun h => absurd rfl h
  | opt _ hne ih =>
    intro ho o' t' h' ho'
    cases h' with
    | opt h _ => exact ih ho h ho'
    | opt_none h => exact absurd (ih ho h (by simp)).1 hne
    | exhausted => exact absurd rfl ho'
    | take h | miss h => simp [accepts?] at h
  | opt_none _ ih =>
    intro ho o' t' h' ho'
    cases h' with
    | opt h hne => exact absurd (ih (by simp) h ho').1.symm hne
    | opt_none h => exact ⟨rfl, (ih (by simp) h (by simp)).2⟩
    | exhausted => exact absurd rfl ho'
    | take h | miss h => simp [accepts?] at h
  | attempt _ hne ih =>
    intro ho o' t' h' ho'
    cases h' with
    | attempt h _ => exact ih ho h ho'
    | attempt_back h => exact absurd (ih ho h (by simp)).1 hne
    | exhausted => exact absurd rfl ho'
    | take h | miss h => simp [accepts?] at h
  | attempt_back _ ih =>
    intro ho o' t' h' ho'
    cases h' with
    | attempt h hne => exact absurd (ih (by simp) h ho').1.symm hne
    | attempt_back h =>
      obtain ⟨-, rfl⟩ := ih (by simp) h (by simp)
      exact ⟨rfl, rfl⟩
    | exhausted => exact absurd rfl ho'
    | take h | miss h => simp [accepts?] at h
  | while_more hg _ _ ih₁ ih₂ =>
    intro ho o' t' h' ho'
    cases h' with
    | while_more _ h₁ h₂ =>
      obtain ⟨-, rfl⟩ := ih₁ (by simp) h₁ (by simp)
      exact ih₂ ho h₂ ho'
    | while_stop _ h hne => exact absurd (ih₁ (by simp) h ho').1.symm hne
    | while_end hg' => simp [hg] at hg'
    | exhausted => exact absurd rfl ho'
    | take h | miss h => simp [accepts?] at h
  | while_stop hg _ hne ih =>
    intro ho o' t' h' ho'
    cases h' with
    | while_more _ h₁ _ => exact absurd (ih ho h₁ (by simp)).1 hne
    | while_stop _ h _ => exact ih ho h ho'
    | while_end hg' => simp [hg] at hg'
    | exhausted => exact absurd rfl ho'
    | take h | miss h => simp [accepts?] at h
  | node _ ih =>
    intro ho o' t' h' ho'
    cases h' with
    | node h =>
      obtain ⟨-, rfl⟩ := ih (by simp) h (by simp)
      exact ⟨rfl, rfl⟩
    | node_back h hne => exact absurd (ih (by simp) h ho').1.symm hne
    | exhausted => exact absurd rfl ho'
    | take h | miss h => simp [accepts?] at h
  | node_back _ hne ih =>
    intro ho o' t' h' ho'
    cases h' with
    | node h => exact absurd (ih ho h (by simp)).1 hne
    | node_back h _ =>
      obtain ⟨rfl, rfl⟩ := ih ho h ho'
      exact ⟨rfl, rfl⟩
    | exhausted => exact absurd rfl ho'
    | take h | miss h => simp [accepts?] at h
  | level _ ih =>
    intro ho o' t' h' ho'
    cases h' with
    | level h =>
      obtain ⟨-, rfl⟩ := ih (by simp) h (by simp)
      exact ⟨rfl, rfl⟩
    | level_back h hne => exact absurd (ih (by simp) h ho').1.symm hne
    | exhausted => exact absurd rfl ho'
    | take h | miss h => simp [accepts?] at h
  | level_back _ hne ih =>
    intro ho o' t' h' ho'
    cases h' with
    | level h => exact absurd (ih ho h (by simp)).1 hne
    | level_back h _ =>
      obtain ⟨rfl, rfl⟩ := ih ho h ho'
      exact ⟨rfl, rfl⟩
    | exhausted => exact absurd rfl ho'
    | take h | miss h => simp [accepts?] at h
  | call _ ih =>
    intro ho o' t' h' ho'
    cases h' with
    | call h => exact ih ho h ho'
    | exhausted => exact absurd rfl ho'
    | take h | miss h => simp [accepts?] at h

end TreeMatch

/-! ## Patterns without levels -/

/-- The pattern with every level made a node that stays. -/
def Pattern.unfolded : Pattern → Pattern
  | .branch g yes no => .branch g yes.unfolded no.unfolded
  | .seq p₁ p₂ => .seq p₁.unfolded p₂.unfolded
  | .alt p₁ p₂ => .alt p₁.unfolded p₂.unfolded
  | .star body => .star body.unfolded
  | .opt body => .opt body.unfolded
  | .attempt body => .attempt body.unfolded
  | .whileDo g body => .whileDo g body.unfolded
  | .node l body | .level l body => .node l body.unfolded
  | p => p

def unfoldedGrammar (phrase : Nonterminal) : Pattern :=
  (grammar phrase).unfolded

namespace TreeMatch

variable {tokens : Array Lexeme}

/-- A state at the same token whose nodes are those of the other with their levels in place. -/
structure Unfolds (u s : State) : Prop where
  pos : u.pos = s.pos
  kids : Tree.collapsedAll (Node.shapes u.kids) = Node.shapes s.kids

theorem collapsedAll_reverse (ts : List Tree) :
    Tree.collapsedAll ts.reverse = (Tree.collapsedAll ts).reverse := by
  induction ts with
  | nil => rfl
  | cons t ts ih => simp [Tree.collapsedAll, ih]

theorem shapes_reverse (ns : List Node) : Node.shapes ns.reverse = (Node.shapes ns).reverse := by
  rw [Node.shapes_eq_map, Node.shapes_eq_map, List.map_reverse]

theorem Unfolds.enter {u s : State} (h : Unfolds u s) : Unfolds u.enter s.enter :=
  ⟨h.pos, rfl⟩

theorem Unfolds.backTo {u s u' s' : State} (h : Unfolds u s) : Unfolds (u.backTo u') (s.backTo s') :=
  ⟨h.pos, h.kids⟩

theorem Unfolds.take {u s : State} (h : Unfolds u s) : Unfolds (u.take tokens) (s.take tokens) := by
  refine ⟨?_, ?_⟩
  · simp only [State.take, h.pos]
  · simp only [State.take, Node.shapes, Node.shape, Tree.collapsedAll, Tree.collapsed, h.pos, h.kids]

/-- A node around children that unfold those of another node. -/
theorem Unfolds.leave {u s u' s' : State} {finish : Node → Node} {l : Label} (h : Unfolds u s)
    (h' : Unfolds u' s')
    (hfinish : ∀ i kids, (finish (.inner i l kids)).shape = Tree.giveWay l (Node.shapes kids)) :
    Unfolds (u.leave u' id l) (s.leave s' finish l) := by
  refine ⟨h'.pos, ?_⟩
  have hkids : Tree.collapsedAll (Node.shapes u'.kids.reverse) = Node.shapes s'.kids.reverse := by
    rw [shapes_reverse, shapes_reverse, collapsedAll_reverse, h'.kids]
  simp only [State.leave, Node.shapes, Node.shape, Tree.collapsedAll, Tree.collapsed, id_eq, hkids,
    hfinish, h.kids]

/-- A match of a pattern for expressions goes the same way without levels. -/
theorem Runs.unfolds {p : Pattern} {s t : State} {o : Outcome} (h : Runs grammar tokens p s o t) :
    p.inExpr → ∀ {u : State}, Unfolds u s →
      ∃ v, Runs unfoldedGrammar tokens p.unfolded u o v ∧ Unfolds v t := by
  induction h with
  | exhausted p s => exact fun _ u hu => ⟨u, .exhausted _ u, hu⟩
  | @take p s ht =>
    intro hp u hu
    have haccepts : accepts? p.unfolded (tokenAt tokens u.pos) = some true := by
      rw [hu.pos, ← ht]
      cases p <;> rfl
    exact ⟨_, .take haccepts, hu.take⟩
  | @miss p s ht =>
    intro hp u hu
    have haccepts : accepts? p.unfolded (tokenAt tokens u.pos) = some false := by
      rw [hu.pos, ← ht]
      cases p <;> rfl
    refine ⟨_, .miss haccepts, ?_⟩
    cases p <;> exact ⟨hu.pos, hu.kids⟩
  | seq _ _ ih₁ ih₂ =>
    intro hp u hu
    simp only [Pattern.inExpr, Bool.and_eq_true] at hp
    obtain ⟨v, hv, huv⟩ := ih₁ hp.1 hu
    obtain ⟨w, hw, huw⟩ := ih₂ hp.2 huv
    exact ⟨w, .seq hv hw, huw⟩
  | seq_stop _ ho ih =>
    intro hp u hu
    simp only [Pattern.inExpr, Bool.and_eq_true] at hp
    obtain ⟨v, hv, huv⟩ := ih hp.1 hu
    exact ⟨v, .seq_stop hv ho, huv⟩
  | alt_first _ ho ih =>
    intro hp u hu
    simp only [Pattern.inExpr, Bool.and_eq_true] at hp
    obtain ⟨v, hv, huv⟩ := ih hp.1 hu
    exact ⟨v, .alt_first hv ho, huv⟩
  | alt_second _ _ ih₁ ih₂ =>
    intro hp u hu
    simp only [Pattern.inExpr, Bool.and_eq_true] at hp
    obtain ⟨v, hv, huv⟩ := ih₁ hp.1 hu
    obtain ⟨w, hw, huw⟩ := ih₂ hp.2 hu.backTo
    exact ⟨w, .alt_second hv hw, huw⟩
  | star_more _ _ ih₁ ih₂ =>
    intro hp u hu
    obtain ⟨v, hv, huv⟩ := ih₁ hp hu
    obtain ⟨w, hw, huw⟩ := ih₂ hp huv
    exact ⟨w, .star_more hv hw, huw⟩
  | star_end _ ih =>
    intro hp u hu
    obtain ⟨v, hv, huv⟩ := ih hp hu
    exact ⟨v, .star_end hv, huv⟩
  | star_stop _ ih =>
    intro hp u hu
    obtain ⟨v, hv, huv⟩ := ih hp hu
    exact ⟨v, .star_stop hv, huv⟩
  | opt _ ho ih =>
    intro hp u hu
    obtain ⟨v, hv, huv⟩ := ih hp hu
    exact ⟨v, .opt hv ho, huv⟩
  | opt_none _ ih =>
    intro hp u hu
    obtain ⟨v, hv, huv⟩ := ih hp hu
    exact ⟨v, .opt_none hv, huv⟩
  | attempt _ ho ih =>
    intro hp u hu
    obtain ⟨v, hv, huv⟩ := ih hp hu
    exact ⟨v, .attempt hv ho, huv⟩
  | attempt_back _ ih =>
    intro hp u hu
    obtain ⟨v, hv, -⟩ := ih hp hu
    exact ⟨_, .attempt_back hv, hu.backTo⟩
  | node _ ih =>
    intro hp u hu
    simp only [Pattern.inExpr, Bool.and_eq_true, Bool.not_eq_true', List.contains_eq_mem,
      decide_eq_false_iff_not] at hp
    obtain ⟨v, hv, huv⟩ := ih hp.2 hu.enter
    exact ⟨_, .node hv, hu.leave huv (Node.shape_inner hp.1.2)⟩
  | node_back _ ho ih =>
    intro hp u hu
    simp only [Pattern.inExpr, Bool.and_eq_true] at hp
    obtain ⟨v, hv, -⟩ := ih hp.2 hu.enter
    exact ⟨_, .node_back hv ho, hu.backTo⟩
  | level _ ih =>
    intro hp u hu
    simp only [Pattern.inExpr, Bool.and_eq_true, List.contains_eq_mem, decide_eq_true_eq] at hp
    obtain ⟨v, hv, huv⟩ := ih hp.2 hu.enter
    exact ⟨_, .node hv, hu.leave huv (Node.shape_collapse hp.1.2)⟩
  | level_back _ ho ih =>
    intro hp u hu
    simp only [Pattern.inExpr, Bool.and_eq_true] at hp
    obtain ⟨v, hv, -⟩ := ih hp.2 hu.enter
    exact ⟨_, .node_back hv ho, hu.backTo⟩
  | call _ ih =>
    intro hp u hu
    obtain ⟨l, hl⟩ := Option.isSome_iff_exists.1 hp
    obtain ⟨v, hv, huv⟩ := ih (grammar_inExpr hl).1 hu
    exact ⟨v, .call hv, huv⟩
  | _ => simp [Pattern.inExpr]

end TreeMatch

end FortranJulia
