import FortranJulia.Proofs.Parsing.Derivation
import Mathlib.Data.List.Nodup
import Mathlib.Logic.Relation

/-!
The numbers in a parsed tree. A match numbers the nodes it adds in the order in which they are listed,
each before its children, and the numbers of nodes that it gives up are used again. So what hangs
together with the root of the arena of a parser is a tree, and nothing of what was given up is in it.
-/

namespace FortranJulia

set_option autoImplicit false

open Match (Outcome)

/-! ## Growing numbers -/

theorem nodesOf_append (ms ns : List Node) :
    Node.nodesOf (ms ++ ns) = Node.nodesOf ms ++ Node.nodesOf ns := by
  simp [nodesOf_map]

theorem nodesOf_singleton (n : Node) : Node.nodesOf [n] = n.nodes :=
  List.append_nil _

theorem nodes_sublist {m n : Node} (h : m ∈ n.nodes) : m.nodes.Sublist n.nodes := by
  induction n using Node.induction with
  | leaf i lx =>
    rw [Node.nodes, List.mem_singleton] at h
    rw [h]
  | inner i l cs ih =>
    rw [Node.nodes, List.mem_cons, mem_nodesOf] at h
    rcases h with rfl | ⟨c, hc, hm⟩
    · exact .refl _
    · refine .cons _ ((ih c hc hm).trans ?_)
      rw [nodesOf_map]
      exact List.sublist_flatten_of_mem (List.mem_map_of_mem hc)

theorem sublist_nodesOf (ns : List Node) : ns.Sublist (Node.nodesOf ns) := by
  induction ns with
  | nil => exact .refl _
  | cons n ns ih =>
    have hself : [n].Sublist n.nodes := List.singleton_sublist.2 (nodes_self n)
    exact hself.append ih

namespace Node

/-- Listed one after the other, the nodes of some trees have growing numbers from `low` on that stay
below `high`. -/
structure Numbered (low high : Nat) (ns : List Node) : Prop where
  grows : (nodesOf ns).Pairwise (fun m n => m.id < n.id)
  within : ∀ m ∈ nodesOf ns, low ≤ m.id ∧ m.id < high

namespace Numbered

variable {low mid high : Nat} {ms ns : List Node}

theorem nil (low high : Nat) : Numbered low high [] :=
  ⟨.nil, nofun⟩

theorem sublist (h : Numbered low high ns) (hs : (nodesOf ms).Sublist (nodesOf ns)) :
    Numbered low high ms :=
  ⟨h.grows.sublist hs, fun m hm => h.within m (hs.subset hm)⟩

theorem append (h : Numbered low mid ms) (h' : Numbered mid high ns) (hlow : low ≤ mid)
    (hhigh : mid ≤ high) : Numbered low high (ms ++ ns) := by
  refine ⟨?_, fun m hm => ?_⟩
  · rw [nodesOf_append]
    refine List.pairwise_append.2 ⟨h.grows, h'.grows, fun m hm n hn => ?_⟩
    exact Nat.lt_of_lt_of_le (h.within m hm).2 (h'.within n hn).1
  · rw [nodesOf_append] at hm
    rcases List.mem_append.1 hm with hm | hm
    · have hwithin := h.within m hm
      omega
    · have hwithin := h'.within m hm
      omega

theorem leaf {i : Nat} (lx : Lexeme) : Numbered i (i + 1) [.leaf i lx] := by
  refine ⟨by simp [nodesOf, nodes], fun m hm => ?_⟩
  obtain rfl : m = .leaf i lx := by simpa [nodesOf, nodes] using hm
  exact ⟨Nat.le_refl i, Nat.lt_succ_self i⟩

/-- The number of a new node comes before those of its children. -/
theorem inner {i : Nat} (h : Numbered (i + 1) high ns) (hi : i < high) (l : Label) :
    Numbered i high [.inner i l ns] := by
  rw [← Nat.add_one_le_iff] at hi
  refine ⟨?_, fun m hm => ?_⟩
  · rw [nodesOf_singleton, nodes]
    exact List.pairwise_cons.2 ⟨fun m hm => (h.within m hm).1, h.grows⟩
  · rw [nodesOf_singleton, nodes, List.mem_cons] at hm
    rcases hm with rfl | hm
    · exact ⟨Nat.le_refl i, hi⟩
    · have hwithin := h.within m hm
      omega

theorem collapse {n : Node} (h : Numbered low high [n]) : Numbered low high [n.collapse] := by
  unfold Node.collapse
  split
  · exact h.sublist (List.sublist_append_of_sublist_left (List.sublist_cons_self _ _))
  · exact h

/-- Among the children of a node of the tree the numbers grow. -/
theorem children {m n : Node} (h : Numbered low high [n]) (hm : m ∈ n.nodes) :
    (m.children.map Node.id).Pairwise (· < ·) := by
  have hnodes : m.nodes.Pairwise (fun m n => m.id < n.id) :=
    (nodesOf_singleton n ▸ h.grows).sublist (nodes_sublist hm)
  refine List.pairwise_map.2 (hnodes.sublist ?_)
  cases m with
  | leaf i lx => exact List.nil_sublist _
  | inner i l cs => exact .cons _ (sublist_nodesOf cs)

end Numbered

end Node

/-! ## Numbers that a match gives -/

namespace TreeMatch

variable {grammar : Nonterminal → Pattern} {tokens : Array Lexeme}

/-- From one state to another the open node got nodes with the numbers in between. -/
def Numbers (s t : State) : Prop :=
  s.count ≤ t.count ∧ ∃ news, t.kids = news.reverse ++ s.kids ∧ Node.Numbered s.count t.count news

namespace Numbers

variable {s t u : State}

theorem still (hcount : t.count = s.count) (hkids : t.kids = s.kids) : Numbers s t :=
  ⟨Nat.le_of_eq hcount.symm, [], hkids, .nil _ _⟩

theorem trans (h : Numbers s t) (h' : Numbers t u) : Numbers s u := by
  obtain ⟨hle, ms, hms, hnumbered⟩ := h
  obtain ⟨hle', ns, hns, hnumbered'⟩ := h'
  refine ⟨Nat.le_trans hle hle', ms ++ ns, ?_, hnumbered.append hnumbered' hle hle'⟩
  rw [hns, hms, List.reverse_append, List.append_assoc]

theorem take (tokens : Array Lexeme) (s : State) : Numbers s (s.take tokens) :=
  ⟨Nat.le_succ _, [_], rfl, .leaf _⟩

theorem leave {finish : Node → Node} (h : Numbers s.enter t) (l : Label)
    (hfinish : ∀ {low high n}, Node.Numbered low high [n] → Node.Numbered low high [finish n]) :
    Numbers s (s.leave t finish l) := by
  obtain ⟨hle, news, hkids, hnumbered⟩ := h
  have hchildren : t.kids.reverse = news := by
    rw [hkids]
    simp [State.enter]
  refine ⟨Nat.le_of_succ_le hle, [finish (.inner s.count l t.kids.reverse)], rfl, ?_⟩
  rw [hchildren]
  exact hfinish (hnumbered.inner hle l)

end Numbers

theorem missed_count (p : Pattern) (s : State) : (missed p s).count = s.count := by
  cases p <;> rfl

/-- Whatever comes of a match, the nodes it adds are numbered in the order in which they are listed. -/
theorem Runs.numbers {p : Pattern} {s t : State} {o : Outcome} (h : Runs grammar tokens p s o t) :
    Numbers s t := by
  induction h with
  | exhausted | check | check_fails | while_end => exact .still rfl rfl
  | take => exact .take tokens _
  | miss => exact .still (missed_count _ _) (missed_kids _ _)
  | seq _ _ ih₁ ih₂ | star_more _ _ ih₁ ih₂ | while_more _ _ _ ih₁ ih₂ => exact ih₁.trans ih₂
  -- The second pattern starts from the number and the children that stood before the first.
  | alt_second _ _ _ ih => exact ih
  | attempt_back | node_back | level_back => exact .still rfl rfl
  | branch _ ih | star_end _ ih | star_stop _ ih | opt_none _ ih | call _ ih => exact ih
  | seq_stop _ _ ih | alt_first _ _ ih | opt _ _ ih | attempt _ _ ih | while_stop _ _ _ ih =>
    exact ih
  | node _ ih => exact ih.leave _ fun h => h
  | level _ ih => exact ih.leave _ .collapse

end TreeMatch

/-- The nodes of the tree that a parser returns are numbered in the order in which they are listed. -/
theorem Parser.parse_numbered {p q : Parser} {n : Node} (hp : p.state.Sound p.tokens)
    (h : p.parse = .ok (.ok n, q)) : ∃ low high, Node.Numbered low high [n] := by
  obtain ⟨entry, -, s, t, low, -, hkids, hruns, -⟩ := parse_tree hp h
  obtain ⟨-, news, hnews, hnumbered⟩ := hruns.numbers
  obtain rfl : [n] = news := by
    rw [hkids, List.append_nil] at hnews
    simpa using congrArg List.reverse hnews
  exact ⟨_, _, hnumbered⟩

/-! ## Nodes of an arena -/

namespace Arena

/-- The one node is in the list of children of the other. -/
def Lists (a : Arena) (owner id : Nat) : Prop :=
  ∃ c, a.get owner = .ok c ∧ id ∈ c.children

/-- A node hangs together with a root. -/
def Below (a : Arena) (root id : Nat) : Prop :=
  Relation.ReflTransGen a.Lists root id

/-- What hangs together with a root is a tree: every other node is in one list, once, and names the
owner of that list as its parent, and numbers grow downwards and from child to child. -/
structure IsTree (a : Arena) (root : Nat) : Prop where
  top : ∃ c, a.get root = .ok c ∧ c.parent = none
  present : ∀ id, a.Below root id → id < a.length ∧ ∃ c, a.get id = .ok c
  ordered : ∀ id c, a.Below root id → a.get id = .ok c →
    c.children.Pairwise (· < ·) ∧ ∀ k ∈ c.children, id < k
  owned : ∀ id c, a.Below root id → id ≠ root → a.get id = .ok c →
    ∃ owner d, a.Below root owner ∧ a.get owner = .ok d ∧ d.children.count id = 1 ∧
      c.parent = some owner ∧ ∀ other, a.Below root other → a.Lists other id → other = owner
  unlisted : ∀ owner, a.Below root owner → ¬a.Lists owner root
  acyclic : ∀ id, a.Below root id → ¬Relation.TransGen a.Lists id id

end Arena

section Shown

variable {a : Arena} {cells : List Cell} {low : Nat} {parent : Option Nat} {m n : Node}

theorem Shown.child (h : Shown cells low parent n) (hm : m ∈ n.children) :
    Shown cells (n.id + 1) (some n.id) m := by
  cases h with
  | leaf => cases hm
  | inner _ _ below => exact below m hm

/-- The nodes of a tree in cells are in cells themselves. -/
theorem Shown.node (h : Shown cells low parent n) (hm : m ∈ n.nodes) :
    ∃ low' parent', Shown cells low' parent' m := by
  induction h with
  | leaf from_low cell =>
    rw [Node.nodes, List.mem_singleton] at hm
    subst hm
    exact ⟨_, _, .leaf from_low cell⟩
  | inner from_low cell below ih =>
    rw [Node.nodes, List.mem_cons, mem_nodesOf] at hm
    rcases hm with rfl | ⟨k, hk, hm⟩
    · exact ⟨_, _, .inner from_low cell below⟩
    · exact ih k hk hm

/-- What the cell of the top of a tree tells of it. -/
theorem get_shown (ha : a.Sound) (h : Shown a.contents low parent n) :
    ∃ c, a.get n.id = .ok c ∧ c.parent = parent ∧ c.children = n.children.map Node.id ∧
      ∀ l, c.tag = .phrase l → n.label? = some l := by
  cases h with
  | leaf _ cell =>
    obtain ⟨c, hget, hcontent, -⟩ := Arena.get_of_contents ha cell
    refine ⟨c, hget, ?_, ?_, fun l hl => ?_⟩
    · rw [← Cell.content_parent c, hcontent]
      rfl
    · rw [← Cell.children_content c, hcontent]
      rfl
    · have htag : c.content.tag = .named _ := congrArg Cell.tag hcontent
      cases hl.symm.trans htag
  | @inner _ id _ m kids _ cell below =>
    obtain ⟨c, hget, hcontent, -⟩ := Arena.get_of_contents ha cell
    refine ⟨c, hget, ?_, ?_, fun l hl => ?_⟩
    · rw [← Cell.content_parent c, hcontent]
      rfl
    · rw [← Cell.children_content c, hcontent]
      exact Cell.children_grow _ (Cell.phrase m)
    · have htag : c.content.tag = .phrase m := congrArg Cell.tag hcontent
      cases hl.symm.trans htag
      rfl

theorem get_lt {id : Nat} {c : Cell} (h : a.get id = .ok c) : id < a.length := by
  by_contra hlt
  rw [Arena.get, if_neg hlt] at h
  cases h

/-- The list of a node of the tree holds the numbers of its children. -/
theorem lists_shown (ha : a.Sound) (h : Shown a.contents low parent n) {id : Nat} :
    a.Lists n.id id ↔ ∃ m ∈ n.children, m.id = id := by
  obtain ⟨c, hget, -, hchildren, -⟩ := get_shown ha h
  constructor
  · rintro ⟨d, hd, hid⟩
    cases hget.symm.trans hd
    rw [hchildren] at hid
    exact List.mem_map.1 hid
  · rintro ⟨m, hm, rfl⟩
    exact ⟨c, hget, hchildren ▸ List.mem_map_of_mem hm⟩

/-- What hangs together with the top of a tree in cells are the nodes of the tree. -/
theorem below_shown (ha : a.Sound) (h : Shown a.contents low parent n) {id : Nat}
    (hid : a.Below n.id id) : ∃ m ∈ n.nodes, m.id = id := by
  induction hid with
  | refl => exact ⟨n, nodes_self n, rfl⟩
  | tail _ hlists ih =>
    obtain ⟨m, hm, rfl⟩ := ih
    obtain ⟨low', parent', hshown⟩ := h.node hm
    obtain ⟨k, hk, rfl⟩ := (lists_shown ha hshown).1 hlists
    exact ⟨k, nodes_trans hm (nodes_child hk), rfl⟩

/-- A node in a list of the tree has a greater number and names the owner of the list. -/
theorem listed_shown (ha : a.Sound) (h : Shown a.contents low parent n) {owner id : Nat}
    (howner : a.Below n.id owner) (hlists : a.Lists owner id) :
    owner < id ∧ ∃ c, a.get id = .ok c ∧ c.parent = some owner := by
  obtain ⟨m, hm, rfl⟩ := below_shown ha h howner
  obtain ⟨low', parent', hshown⟩ := h.node hm
  obtain ⟨k, hk, rfl⟩ := (lists_shown ha hshown).1 hlists
  obtain ⟨c, hget, hparent, -⟩ := get_shown ha (hshown.child hk)
  exact ⟨(hshown.child hk).low_le, c, hget, hparent⟩

theorem isTree_shown (ha : a.Sound) (h : Shown a.contents low none n) {first last : Nat}
    (hn : Node.Numbered first last [n]) : a.IsTree n.id := by
  obtain ⟨top, htop, hnone, -⟩ := get_shown ha h
  have hcell : ∀ id, a.Below n.id id → ∃ c, a.get id = .ok c ∧ c.children.Pairwise (· < ·) := by
    intro id hid
    obtain ⟨m, hm, rfl⟩ := below_shown ha h hid
    obtain ⟨low', parent', hshown⟩ := h.node hm
    obtain ⟨c, hget, -, hchildren, -⟩ := get_shown ha hshown
    exact ⟨c, hget, hchildren ▸ hn.children hm⟩
  have hdown : ∀ id k, a.Below n.id id → Relation.TransGen a.Lists id k → id < k := by
    intro id k hid hk
    induction hk with
    | single hlists => exact (listed_shown ha h hid hlists).1
    | tail hpath hlists ih =>
      exact ih.trans (listed_shown ha h (hid.trans hpath.to_reflTransGen) hlists).1
  refine ⟨⟨top, htop, hnone⟩, ?_, ?_, ?_, ?_, ?_⟩
  · intro id hid
    obtain ⟨c, hget, -⟩ := hcell id hid
    exact ⟨get_lt hget, c, hget⟩
  · intro id c hid hget
    obtain ⟨d, hget', hordered⟩ := hcell id hid
    cases hget.symm.trans hget'
    exact ⟨hordered, fun k hk => (listed_shown ha h hid ⟨c, hget, hk⟩).1⟩
  · intro id c hid hne hget
    obtain heq | ⟨owner, howner, hlists⟩ := Relation.ReflTransGen.cases_tail hid
    · exact absurd heq hne
    obtain ⟨d, hd, hmem⟩ := hlists
    obtain ⟨d', hd', hordered⟩ := hcell owner howner
    cases hd.symm.trans hd'
    obtain ⟨-, c', hget', hparent⟩ := listed_shown ha h howner ⟨d, hd, hmem⟩
    cases hget.symm.trans hget'
    have hnodup : d.children.Nodup := hordered.imp Nat.ne_of_lt
    refine ⟨owner, d, howner, hd, List.count_eq_one_of_mem hnodup hmem, hparent, ?_⟩
    intro other hother hlists
    obtain ⟨-, c', hget', hparent'⟩ := listed_shown ha h hother hlists
    cases hget.symm.trans hget'
    exact (Option.some.inj (hparent.symm.trans hparent')).symm
  · intro owner howner hlists
    obtain ⟨-, c, hget, hparent⟩ := listed_shown ha h howner hlists
    cases htop.symm.trans hget
    cases hnone.symm.trans hparent
  · exact fun id hid hcycle => Nat.lt_irrefl id (hdown id id hid hcycle)

end Shown

/-! ## Levels -/

/-- The labels of the levels in the grammar. -/
def levelLabels : List Label :=
  (grammarPatterns.flatMap Pattern.rules).filterMap fun
    | .level l _ => some l
    | _ => none

/-- Does a rule make nodes of some labels just if it is a level? -/
def Pattern.levelOf (ls : List Label) : Pattern → Bool
  | .level l _ => ls.contains l
  | .node l _ => !ls.contains l
  | _ => true

theorem not_levelOf_node {ls : List Label} {l : Label} {level : Pattern}
    (h : (Pattern.level l level).levelOf ls) (body : Pattern) :
    (Pattern.node l body).levelOf ls = false :=
  (congrArg (! ·) h :)

/-- No other rule makes nodes with the label of a level. -/
theorem rule_level {l : Label} (hl : l ∈ levelLabels) {rule : Pattern}
    (h : rule ∈ rulesFor grammarPatterns l) (body : Pattern) : rule ≠ .node l body := by
  have hall : grammarPatterns.all (Pattern.everyRule (Pattern.levelOf
      [.programUnit, .bodyConstruct, .specificationPartConstruct, .declarationConstruct,
        .specificationStmt, .orOperand, .andOperand, .level4Expr, .level3Expr, .level2Expr,
        .addOperand, .multOperand, .outputItem, .inputItem, .dataStmtObject, .actionStmt,
        .executableConstruct, .doConstruct, .executionPartConstruct])) := by
    decide +kernel
  rintro rfl
  have hnode := grammar_rule hall (List.mem_filter.1 h).1
  obtain ⟨level, hmem, hlabel⟩ := List.mem_filterMap.1 hl
  have hlevel := grammar_rule hall hmem
  split at hlabel
  · cases hlabel
    exact Bool.false_ne_true ((not_levelOf_node hlevel body).symm.trans hnode)
  · cases hlabel

/-! ## Main statement -/

/-- What a parser that succeeds has committed is a tree, and none of its nodes that come of a level has
a single child that is an inner node. -/
theorem committed_is_tree {p q : Parser} {n : Node} (hp : p.Used) (hq : p.parse = .ok (.ok n, q)) :
    ∃ root, q.state.tree.root = some root ∧ q.state.tree.IsTree root ∧
      ∀ id c l, q.state.tree.Below root id → q.state.tree.get id = .ok c → c.tag = .phrase l →
        l ∈ levelLabels → ∀ only k, c.children = [only] → q.state.tree.get only = .ok k →
          k.isLeaf := by
  have hsound := Parser.used_sound hp
  obtain ⟨entry, -, s, t, low, -, -, -, htree, hroot, hshown⟩ := Parser.parse_tree hsound hq
  obtain ⟨first, last, hnumbered⟩ := Parser.parse_numbered hsound hq
  refine ⟨n.id, hroot, isTree_shown htree hshown hnumbered, ?_⟩
  intro id c l hid hget hlabel hlevel only k honly hk
  obtain ⟨m, hm, rfl⟩ := below_shown htree hshown hid
  obtain ⟨low', parent', hshown'⟩ := hshown.node hm
  obtain ⟨c', hget', -, hchildren, htag⟩ := get_shown htree hshown'
  cases hget.symm.trans hget'
  have hlabel' := htag l hlabel
  rw [hchildren] at honly
  obtain ⟨child, hchild, rfl⟩ := List.map_eq_singleton_iff.1 honly
  cases m with
  | leaf => cases hlabel'
  | inner i l' cs =>
    obtain rfl : l' = l := Option.some.inj hlabel'
    obtain rfl : cs = [child] := hchild
    obtain ⟨d, hd, hleaf⟩ := isLeaf_shown htree hshown child
      (nodes_trans hm (nodes_child (List.mem_singleton_self child)))
    cases hk.symm.trans hd
    obtain ⟨rule, hrule, body, -, hnode | ⟨-, hkept⟩⟩ := Parser.parse_made hsound hq hm
    · exact absurd hnode (rule_level hlevel hrule body)
    · cases child with
      | leaf => exact hleaf
      | inner i m ds => exact absurd rfl (hkept i m ds)

/-- The tree of an assignment of one name to another. -/
theorem committed_is_tree_assignment :
    let tokens : List Lexeme := [⟨.name, "X", none, 1, 7⟩, ⟨.equal, "=", none, 1, 9⟩,
      ⟨.name, "A", none, 1, 11⟩, ⟨.newline, "\n", none, 1, 12⟩, ⟨.keyword .END, "END", none, 2, 7⟩,
      .endOfSource 2 10]
    let p : Parser := { source := "", tokens := tokens.toArray }
    p.Used ∧ ∃ n q root, p.parse = .ok (.ok n, q) ∧ q.state.tree.root = some root ∧
      q.state.tree.IsTree root ∧
      ∀ id c l, q.state.tree.Below root id → q.state.tree.get id = .ok c → c.tag = .phrase l →
        l ∈ levelLabels → ∀ only k, c.children = [only] → q.state.tree.get only = .ok k →
          k.isLeaf := by
  intro tokens p
  have hstart : Parser.start? "" tokens = some p := rfl
  have hp : p.Used := .start hstart
  have hsome : p.matched?.isSome = true := by decide +kernel
  obtain ⟨n, hn⟩ := Option.isSome_iff_exists.1 hsome
  obtain ⟨q, hq⟩ := parse_of_match (Parser.used_sound hp) hn
  obtain ⟨root, hroot, htree⟩ := committed_is_tree hp hq
  exact ⟨hp, n, q, root, hq, hroot, htree⟩

end FortranJulia
