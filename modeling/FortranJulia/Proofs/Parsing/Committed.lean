import FortranJulia.Proofs.Parsing.Backtracking
import Mathlib.Data.List.Forall2

/-!
The tree that stands in cells is the tree that is read from them: its nodes are numbered in the order
in which they are listed, and its leaves carry the lexemes of the tree. So a parser that succeeds
returns the tree of a match of one of the patterns for a whole source.
-/

namespace FortranJulia

set_option autoImplicit false

/-! ## Lists of steps that succeed -/

theorem mapM_map_ok {ε α β γ : Type} {f : β → Except ε γ} {key : α → β} {g : α → γ} {xs : List α}
    (h : ∀ x ∈ xs, f (key x) = .ok (g x)) : (xs.map key).mapM f = .ok (xs.map g) := by
  induction xs with
  | nil => rfl
  | cons x xs ih =>
    have hx := h x (by simp)
    have hxs := ih (fun y hy => h y (by simp [hy]))
    rw [List.map_cons, List.mapM_cons, hx, hxs]
    rfl

theorem filterM_map_ok {ε α β : Type} {f : β → Except ε Bool} {key : α → β} {g : α → Bool}
    {xs : List α} (h : ∀ x ∈ xs, f (key x) = .ok (g x)) :
    (xs.map key).filterM f = .ok ((xs.filter g).map key) := by
  have haux : ∀ acc, List.filterAuxM f (xs.map key) acc =
      .ok (((xs.filter g).map key).reverse ++ acc) := by
    induction xs with
    | nil => exact fun _ => rfl
    | cons x xs ih =>
      intro acc
      have hx := h x (by simp)
      have hxs := ih (fun y hy => h y (by simp [hy]))
      simp only [List.map_cons, List.filterAuxM, hx, bind, Except.bind, hxs]
      cases hg : g x <;> simp [hg]
  simp [List.filterM, haux, bind, Except.bind, pure, Except.pure]

/-! ## Reading -/

section Reading

variable {a : Arena} {low : Nat} {parent : Option Nat} {n : Node}

theorem get_leaf (ha : a.Sound) {id : Nat} {lx : Lexeme}
    (cell : a.contents[id]? = some ((Cell.ofLexeme lx).under parent)) :
    ∃ c, a.get id = .ok c ∧ c.kind = some lx.kind ∧ c.text = lx.text ∧ c.value = lx.value ∧
      c.line = lx.line ∧ c.col = lx.col ∧ c.children = [] := by
  obtain ⟨c, hget, hcontent, -⟩ := Arena.get_of_contents ha cell
  have hchildren := Cell.children_content c
  rw [hcontent] at hchildren
  refine ⟨c, hget, ?_⟩
  simp only [Cell.content, Cell.ofLexeme, Cell.leaf, Cell.under, Cell.mk.injEq] at hcontent
  obtain ⟨-, hkind, htext, hvalue, hline, hcol, -⟩ := hcontent
  exact ⟨hkind, htext, hvalue, hline, hcol, hchildren.symm⟩

theorem get_inner (ha : a.Sound) {id : Nat} {l : Label} {ids : List Nat}
    (cell : a.contents[id]? = some (((Cell.phrase l).grow ids).under parent)) :
    ∃ c, a.get id = .ok c ∧ c.kind = none ∧ c.tag = .phrase l ∧ c.children = ids := by
  obtain ⟨c, hget, hcontent, -⟩ := Arena.get_of_contents ha cell
  have hchildren := Cell.children_content c
  rw [hcontent] at hchildren
  refine ⟨c, hget, ?_, ?_, ?_⟩
  · rw [← Cell.content_kind c, hcontent]
    rfl
  · exact congrArg Cell.tag hcontent
  · rw [← hchildren]
    exact Cell.children_grow ids (Cell.phrase l)

/-- The tree read from the cells is the one that stands in them. -/
theorem treeFrom_shown (ha : a.Sound) (h : Shown a.contents low parent n) :
    ∀ fuel, a.length ≤ n.id + fuel → a.treeFrom fuel n.id = .ok n := by
  have hlen := Arena.contents_length ha
  induction h with
  | leaf _ cell =>
    intro fuel hfuel
    have hlt := (List.getElem?_eq_some_iff.1 cell).1
    obtain ⟨c, hget, hkind, htext, hvalue, hline, hcol, -⟩ := get_leaf ha cell
    cases fuel with
    | zero => simp only [Node.id] at hfuel; omega
    | succ fuel =>
      simp [Arena.treeFrom, Node.id, hget, hkind, htext, hvalue, hline, hcol, bind, Except.bind,
        pure, Except.pure]
  | @inner _ id _ l kids _ cell below ih =>
    intro fuel hfuel
    have hlt := (List.getElem?_eq_some_iff.1 cell).1
    obtain ⟨c, hget, hkind, htag, hchildren⟩ := get_inner ha cell
    cases fuel with
    | zero => simp only [Node.id] at hfuel; omega
    | succ fuel =>
      have hkids : (kids.map Node.id).mapM (a.treeFrom fuel) = .ok (kids.map (fun k => k)) := by
        refine mapM_map_ok (fun k hk => ih k hk fuel ?_)
        have hlow := (below k hk).low_le
        simp only [Node.id] at hfuel
        omega
      simp [Arena.treeFrom, Node.id, hget, hkind, htag, hchildren, hkids, bind, Except.bind, pure,
        Except.pure]

/-- The numbers listed below a node are those of the nodes of its tree. -/
theorem nodesFrom_shown (ha : a.Sound) (h : Shown a.contents low parent n) :
    ∀ fuel, a.length ≤ n.id + fuel → a.nodesFrom fuel n.id = .ok (n.nodes.map Node.id) := by
  have hlen := Arena.contents_length ha
  induction h with
  | leaf _ cell =>
    intro fuel hfuel
    have hlt := (List.getElem?_eq_some_iff.1 cell).1
    obtain ⟨c, hget, -, -, -, -, -, hchildren⟩ := get_leaf ha cell
    cases fuel with
    | zero => simp only [Node.id] at hfuel; omega
    | succ fuel =>
      simp [Arena.nodesFrom, Node.id, Node.nodes, hget, hchildren, bind, Except.bind, pure,
        Except.pure]
  | @inner _ id _ l kids _ cell below ih =>
    intro fuel hfuel
    have hlt := (List.getElem?_eq_some_iff.1 cell).1
    obtain ⟨c, hget, -, -, hchildren⟩ := get_inner ha cell
    cases fuel with
    | zero => simp only [Node.id] at hfuel; omega
    | succ fuel =>
      have hkids : (kids.map Node.id).mapM (a.nodesFrom fuel) =
          .ok (kids.map (fun k => k.nodes.map Node.id)) := by
        refine mapM_map_ok (fun k hk => ih k hk fuel ?_)
        have hlow := (below k hk).low_le
        simp only [Node.id] at hfuel
        omega
      have hflat : (kids.map (fun k => k.nodes.map Node.id)).flatten =
          (Node.nodesOf kids).map Node.id := by
        rw [nodesOf_map, List.map_flatten, List.map_map]
        rfl
      simp [Arena.nodesFrom, Node.id, Node.nodes, hget, hchildren, hkids, hflat, bind, Except.bind,
        pure, Except.pure]

/-! ## Leaves -/

/-- The node of a number is a leaf that carries the lexeme. -/
def Carries (a : Arena) (id : Nat) (lx : Lexeme) : Prop :=
  ∃ c, a.get id = .ok c ∧ c.kind = some lx.kind ∧ c.text = lx.text ∧ c.value = lx.value ∧
    c.line = lx.line ∧ c.col = lx.col

/-- The cell of a node of the tree says whether it is a leaf. -/
theorem isLeaf_shown (ha : a.Sound) (h : Shown a.contents low parent n) :
    ∀ m ∈ n.nodes, ∃ c, a.get m.id = .ok c ∧ c.isLeaf = m.isLeaf := by
  induction h with
  | leaf _ cell =>
    intro m hm
    obtain ⟨c, hget, hkind, -⟩ := get_leaf ha cell
    obtain rfl := List.mem_singleton.1 (by simpa [Node.nodes] using hm)
    exact ⟨c, hget, by simp [Cell.isLeaf, hkind, Node.isLeaf]⟩
  | @inner _ id _ l kids _ cell below ih =>
    intro m hm
    obtain ⟨c, hget, hkind, -⟩ := get_inner ha cell
    rw [Node.nodes, nodesOf_map] at hm
    rcases List.mem_cons.1 hm with rfl | hm
    · exact ⟨c, hget, by simp [Cell.isLeaf, hkind, Node.isLeaf]⟩
    · obtain ⟨ms, hms, hm⟩ := List.mem_flatten.1 hm
      obtain ⟨k, hk, rfl⟩ := List.mem_map.1 hms
      exact ih k hk m hm

theorem carries_leaves (ha : a.Sound) (h : Shown a.contents low parent n) :
    List.Forall₂ (Carries a) ((n.nodes.filter Node.isLeaf).map Node.id) n.lexemes := by
  induction h with
  | @leaf _ id _ lx _ cell =>
    obtain ⟨c, hget, hkind, htext, hvalue, hline, hcol, -⟩ := get_leaf ha cell
    have hnodes : ((Node.leaf id lx).nodes.filter Node.isLeaf).map Node.id = [id] := by
      rw [Node.nodes]
      rfl
    rw [hnodes, Node.lexemes]
    exact .cons ⟨c, hget, hkind, htext, hvalue, hline, hcol⟩ .nil
  | @inner _ id _ l kids _ cell below ih =>
    have hnodes : ((Node.inner id l kids).nodes.filter Node.isLeaf) =
        (Node.nodesOf kids).filter Node.isLeaf := by
      rw [Node.nodes]
      rfl
    rw [hnodes, Node.lexemes]
    clear hnodes below cell
    induction kids with
    | nil => exact .nil
    | cons k kids ihk =>
      rw [Node.nodesOf, Node.lexemesOf, List.filter_append, List.map_append]
      exact List.rel_append (ih k (by simp)) (ihk (fun m hm => ih m (by simp [hm])))

/-- The leaves of a tree in an arena, in order, carry the lexemes of the tree. -/
theorem leaves_shown (ha : a.Sound) (h : Shown a.contents low parent n) :
    ∃ ids, a.leaves (some n.id) = .ok ids ∧ List.Forall₂ (Carries a) ids n.lexemes := by
  refine ⟨_, ?_, carries_leaves ha h⟩
  have hnodes := nodesFrom_shown ha h (a.length + 1) (by omega)
  have hpick : a.pick (·.isLeaf) (n.nodes.map Node.id) =
      .ok ((n.nodes.filter Node.isLeaf).map Node.id) := by
    refine filterM_map_ok (fun m hm => ?_)
    obtain ⟨c, hget, hleaf⟩ := isLeaf_shown ha h m hm
    simp [hget, hleaf, bind, Except.bind, pure, Except.pure]
  simp [Arena.leaves, Arena.nodes, hnodes, hpick, bind, Except.bind]

end Reading

/-! ## Parsers -/

namespace Parser

/-- The root that a pattern leaves is the tree that it matched. -/
theorem tryRoot_found {p q : Parser} {pattern : Pattern} (hp : p.state.Sound p.tokens)
    (hrule : pattern.isRule) (h : p.tryRoot pattern = .ok (true, q)) :
    ∃ (n : Node) (t : TreeMatch.State),
      TreeMatch.run grammar p.tokens (depthBound p.tokens) pattern p.state.bare =
        (.matched, { t with kids := [n] }) ∧
      q.state.tree.Sound ∧ q.state.tree.root = some n.id ∧
      Shown q.state.tree.contents p.state.tree.contents.length none n := by
  rcases rule_follows grammar (depthBound p.tokens) hrule hp.agree with
    ⟨b, n, t, hout, hready, hrun⟩ | ⟨o, b, t, ho, -, -, -, -, hrun⟩
  · simp only [tryRoot, hrun none, Match.State.commit, bind, Except.bind, pure, Except.pure] at h
    cases h
    have hsound := hready.agree.sound
    exact ⟨n, t, hout, ⟨hsound.length_le, hsound.cells⟩, rfl, hready.shown⟩
  · simp only [tryRoot, hrun none, bind, Except.bind, pure, Except.pure] at h
    cases o with
    | matched => exact absurd rfl ho
    | _ => cases h

theorem tryRoot_missed {p q : Parser} {pattern : Pattern} (hp : p.state.Sound p.tokens)
    (hrule : pattern.isRule) (h : p.tryRoot pattern = .ok (false, q)) :
    q.tokens = p.tokens ∧ q.state.pos = p.state.pos := by
  rcases rule_follows grammar (depthBound p.tokens) hrule hp.agree with
    ⟨b, n, t, -, -, hrun⟩ | ⟨o, b, t, -, -, hagree, -, -, hrun⟩
  · simp only [tryRoot, hrun none, Match.State.commit, bind, Except.bind, pure, Except.pure] at h
    cases h
  · simp only [tryRoot, hrun none, bind, Except.bind, pure, Except.pure] at h
    obtain ⟨-, rfl⟩ := Prod.mk.inj (Except.ok.inj h)
    exact ⟨rfl, hagree.pos⟩

theorem rootTree_shown {a : Arena} (ha : a.Sound) {low : Nat} {n : Node}
    (hroot : a.root = some n.id) (h : Shown a.contents low none n) : a.rootTree = .ok n := by
  simp [Arena.rootTree, hroot, treeFrom_shown ha h (a.length + 1) (by omega)]

/-- A parser that succeeds returns the tree of a match of a whole source from where it stood, and
that tree is the one below the root of its arena. -/
theorem parse_tree {p q : Parser} {n : Node} (hp : p.state.Sound p.tokens)
    (h : p.parse = .ok (.ok n, q)) :
    ∃ entry ∈ [Grammar.program, Grammar.loneName], ∃ (s t : TreeMatch.State) (low : Nat),
      s.pos = p.state.pos ∧ s.kids = [] ∧
      TreeMatch.Runs grammar p.tokens entry s .matched { t with kids := [n] } ∧
      q.state.tree.Sound ∧ q.state.tree.root = some n.id ∧
      Shown q.state.tree.contents low none n := by
  have hread : ∀ m low, q.finish = .ok (.ok n, q) → q.state.tree.Sound →
      q.state.tree.root = some m.id → Shown q.state.tree.contents low none m → n = m := by
    intro m low hfinish hsound hroot hshown
    obtain ⟨-, n', heq, htree⟩ := finish_eq hfinish
    rw [rootTree_shown hsound hroot hshown] at htree
    cases heq
    cases htree
    rfl
  rcases parse_cases h with ⟨hprogram, hfinish⟩ | ⟨q', hprogram, ⟨hname, hfinish⟩ | ⟨-, heq⟩⟩
  · obtain ⟨m, t, hout, hsound, hroot, hshown⟩ := tryRoot_found hp rfl hprogram
    obtain rfl := hread m _ hfinish hsound hroot hshown
    exact ⟨Grammar.program, by simp, p.state.bare, t, _, rfl, rfl, TreeMatch.run_runs hout, hsound,
      hroot, hshown⟩
  · obtain ⟨htokens, hpos⟩ := tryRoot_missed hp rfl hprogram
    have hq' := tryRoot_sound hp rfl hprogram
    obtain ⟨m, t, hout, hsound, hroot, hshown⟩ := tryRoot_found hq' rfl hname
    obtain rfl := hread m _ hfinish hsound hroot hshown
    have hruns := TreeMatch.run_runs hout
    rw [htokens] at hruns
    exact ⟨Grammar.loneName, by simp, q'.state.bare, t, _, hpos, rfl, hruns, hsound, hroot, hshown⟩
  · cases heq

end Parser

end FortranJulia
