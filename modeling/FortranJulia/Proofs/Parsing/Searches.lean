import FortranJulia.Proofs.Parsing.Numbering

/-!
Searches in parsed trees. The arena of a parser is a forest: every node in it, be it a rule that has given way
to its child, stands in one tree whose numbers grow in the order in which its nodes are listed. So a search
that stops early finds the first of the nodes that a full one lists, and the parents of a node are the nodes
above it. Main statement: `searches_agree`.
-/

namespace FortranJulia

set_option autoImplicit false

open Match (Outcome)

/-! ## Walks -/

namespace Arena

/-- Whether the cell of a node has a property. -/
def satisfies (a : Arena) (p : Cell → Bool) (id : Nat) : Bool :=
  (a.get id).toOption.any p

/-- Walks through a subtree with a visitor that remembers. It is called for each node before its children, which
are left out if it says no, and for no node behind them. -/
def inspectFrom {σ : Type} (a : Arena) (visit : Option Nat → σ → Result (Bool × σ)) :
    Nat → Nat → σ → Result σ
  | 0, _, _ => .error .outOfRange
  | fuel + 1, id, s => do
    let (more, s) ← visit (some id) s
    if !more then return s
    let s ← (← a.get id).children.foldlM (fun s k => a.inspectFrom visit fuel k s) s
    return (← visit none s).2

/-- Remembers the first node with a label. -/
def finder (a : Arena) (label : String) : Option Nat → Option Nat → Result (Bool × Option Nat)
  | none, found => return (false, found)
  | some id, found => do
    if found.isSome then return (false, found)
    if (← a.get id).label == label then return (false, some id)
    return (true, found)

/-- Remembers all nodes with a property. -/
def collector (a : Arena) (p : Cell → Bool) : Option Nat → List Nat → Result (Bool × List Nat)
  | none, out => return (true, out)
  | some id, out => do return (true, if p (← a.get id) then out ++ [id] else out)

end Arena

section Walks

variable {a : Arena} {low : Nat} {parent : Option Nat} {n : Node}

theorem satisfies_get {p : Cell → Bool} {id : Nat} {c : Cell} (h : a.get id = .ok c) :
    a.satisfies p id = p c := by
  simp [Arena.satisfies, h, Except.toOption]

theorem findSomeM_map_ok {ε α β γ : Type} {f : β → Except ε (Option γ)} {key : α → β} {g : α → Option γ}
    {xs : List α} (h : ∀ x ∈ xs, f (key x) = .ok (g x)) :
    (xs.map key).findSomeM? f = .ok (xs.findSome? g) := by
  induction xs with
  | nil => rfl
  | cons x xs ih =>
    have hxs := ih fun y hy => h y (List.mem_cons_of_mem x hy)
    rw [List.map_cons, List.findSomeM?, h x List.mem_cons_self, List.findSome?_cons]
    cases g x with
    | none => exact hxs
    | some y => rfl

/-- The cell of the top of a tree has the tops below it as children. -/
theorem get_children (ha : a.Sound) (h : Shown a.contents low parent n) :
    ∃ c, a.get n.id = .ok c ∧ c.children = n.children.map Node.id := by
  obtain ⟨c, hget, -, hchildren, -⟩ := get_shown ha h
  exact ⟨c, hget, hchildren⟩

theorem ids_eq (n : Node) :
    n.nodes.map Node.id = n.id :: (n.children.map fun k => k.nodes.map Node.id).flatten := by
  cases n with
  | leaf => rfl
  | inner i l cs =>
    rw [Node.nodes, nodesOf_map, List.map_cons, List.map_flatten, List.map_map]
    rfl

/-- A search that stops at the first node with a property finds the first of those listed. -/
theorem search_shown {f : Nat → Nat → Arena.Result (Option Nat)} {p : Cell → Bool} (ha : a.Sound)
    (hf : ∀ fuel id, f (fuel + 1) id = do
      let c ← a.get id
      if p c then return some id
      c.children.findSomeM? (f fuel))
    (fuel : Nat) (h : Shown a.contents low parent n) (hfuel : a.length ≤ n.id + fuel) :
    f fuel n.id = .ok ((n.nodes.map Node.id).find? (a.satisfies p)) := by
  obtain ⟨c, hget, hchildren⟩ := get_children ha h
  have hlt := get_lt hget
  induction fuel generalizing low parent n c with
  | zero => omega
  | succ fuel ih =>
    have hbelow : ∀ k ∈ n.children, f fuel k.id = .ok ((k.nodes.map Node.id).find? (a.satisfies p)) := by
      intro k hk
      have hkid := h.child hk
      have hlow := hkid.low_le
      obtain ⟨d, hd, hchildren'⟩ := get_children ha hkid
      exact ih hkid (by omega) d hd hchildren' (get_lt hd)
    rw [hf, hget, ids_eq, List.find?_cons, satisfies_get hget, List.find?_flatten, List.findSome?_map]
    simp only [bind, Except.bind, hchildren, findSomeM_map_ok hbelow]
    cases p c <;> rfl

theorem find_shown (ha : a.Sound) (h : Shown a.contents low parent n) (label : String) :
    a.find (some n.id) label = .ok ((n.nodes.map Node.id).find? (a.satisfies (·.label == label))) :=
  search_shown (f := a.findFrom label) ha (fun _ _ => rfl) (a.length + 1) h (by omega)

theorem firstLeaf_shown (ha : a.Sound) (h : Shown a.contents low parent n) :
    a.firstLeaf (some n.id) = .ok ((n.nodes.map Node.id).find? (a.satisfies Cell.isLeaf)) :=
  search_shown (f := a.firstLeafFrom) ha (fun _ _ => rfl) (a.length + 1) h (by omega)

/-- All nodes of a tree are present. -/
theorem get_node (ha : a.Sound) (h : Shown a.contents low parent n) :
    ∀ i ∈ n.nodes.map Node.id, ∃ c, a.get i = .ok c := by
  intro i hi
  obtain ⟨m, hm, rfl⟩ := List.mem_map.1 hi
  obtain ⟨_, _, hshown⟩ := h.node hm
  obtain ⟨c, hget, -⟩ := get_children ha hshown
  exact ⟨c, hget⟩

theorem pick_shown (ha : a.Sound) (h : Shown a.contents low parent n) (p : Cell → Bool) :
    a.pick p (n.nodes.map Node.id) = .ok ((n.nodes.map Node.id).filter (a.satisfies p)) := by
  have hsame : ∀ i ∈ n.nodes.map Node.id,
      (do return p (← a.get i) : Arena.Result Bool) = .ok (a.satisfies p i) := by
    intro i hi
    obtain ⟨c, hget⟩ := get_node ha h i hi
    simp [satisfies_get hget, hget, bind, Except.bind, pure, Except.pure]
  have hpick := @filterM_map_ok _ _ _ (fun i => do return p (← a.get i)) id (a.satisfies p) _ hsame
  simpa [Arena.pick] using hpick

/-- What a visitor remembers at the end of a walk, where it goes on from node to node by `g` and says no only
if nothing more can be added. -/
theorem inspect_shown {σ : Type} {visit : Option Nat → σ → Arena.Result (Bool × σ)} {g : σ → List Nat → σ}
    (ha : a.Sound) (hnil : ∀ s, g s [] = s) (happend : ∀ s ids more, g s (ids ++ more) = g (g s ids) more)
    (hvisit : ∀ id c s, a.get id = .ok c → ∃ more, visit (some id) s = .ok (more, g s [id]) ∧
      (more = false → ∀ ids, g (g s [id]) ids = g s [id]))
    (hend : ∀ s, ∃ more, visit none s = .ok (more, s))
    (fuel : Nat) (h : Shown a.contents low parent n) (hfuel : a.length ≤ n.id + fuel) (s : σ) :
    a.inspectFrom visit fuel n.id s = .ok (g s (n.nodes.map Node.id)) := by
  obtain ⟨c, hget, hchildren⟩ := get_children ha h
  have hlt := get_lt hget
  induction fuel generalizing low parent n c s with
  | zero => omega
  | succ fuel ih =>
    have hbelow : ∀ (kids : List Node), (∀ k ∈ kids, k ∈ n.children) → ∀ s,
        (kids.map Node.id).foldlM (fun s k => a.inspectFrom visit fuel k s) s =
          .ok (g s (kids.map fun k => k.nodes.map Node.id).flatten) := by
      intro kids hkids
      induction kids with
      | nil => exact fun s => congrArg _ (hnil s).symm
      | cons k kids ihk =>
        intro s
        have hkid := h.child (hkids k List.mem_cons_self)
        have hlow := hkid.low_le
        obtain ⟨d, hd, hchildren'⟩ := get_children ha hkid
        rw [List.map_cons, List.foldlM_cons, ih hkid (by omega) s d hd hchildren' (get_lt hd)]
        rw [List.map_cons, List.flatten_cons, happend]
        exact ihk (fun m hm => hkids m (List.mem_cons_of_mem k hm)) _
    obtain ⟨more, hrun, hstop⟩ := hvisit n.id c s hget
    rw [ids_eq, ← List.singleton_append, happend]
    cases more with
    | false => simp [Arena.inspectFrom, hrun, hstop rfl, bind, Except.bind, pure, Except.pure]
    | true =>
      obtain ⟨last, hlast⟩ := hend (g (g s [n.id]) (n.children.map fun k => k.nodes.map Node.id).flatten)
      simp [Arena.inspectFrom, hrun, hget, hchildren, hbelow n.children (fun _ hk => hk), hlast, bind,
        Except.bind, pure, Except.pure]

theorem finder_shown (ha : a.Sound) (h : Shown a.contents low parent n) (label : String) :
    a.inspectFrom (a.finder label) (a.length + 1) n.id none =
      .ok ((n.nodes.map Node.id).find? (a.satisfies (·.label == label))) := by
  refine inspect_shown (g := fun found ids => found.or (ids.find? (a.satisfies (·.label == label)))) ha
    (fun s => by simp) (fun s ids more => by simp [List.find?_append, Option.or_assoc])
    (fun id c s hget => ?_) (fun s => ?_) (a.length + 1) h (by omega) none
  · have hsat := satisfies_get (p := (·.label == label)) hget
    cases s with
    | some found => exact ⟨false, rfl, fun _ ids => by simp⟩
    | none =>
      by_cases hlabel : c.label == label
      · refine ⟨false, ?_, fun _ ids => ?_⟩
        · simp [Arena.finder, hget, hlabel, hsat, bind, Except.bind, pure, Except.pure]
        · simp [hsat, hlabel]
      · refine ⟨true, ?_, nofun⟩
        simp [Arena.finder, hget, hlabel, hsat, bind, Except.bind, pure, Except.pure]
  · exact ⟨false, rfl⟩

theorem collector_shown (ha : a.Sound) (h : Shown a.contents low parent n) (p : Cell → Bool) :
    a.inspectFrom (a.collector p) (a.length + 1) n.id [] =
      .ok ((n.nodes.map Node.id).filter (a.satisfies p)) := by
  refine inspect_shown (g := fun out ids => out ++ ids.filter (a.satisfies p)) ha
    (fun s => by simp) (fun s ids more => by simp) (fun id c s hget => ?_) (fun s => ?_)
    (a.length + 1) h (by omega) []
  · refine ⟨true, ?_, nofun⟩
    cases hp : p c <;>
      simp [Arena.collector, hget, hp, satisfies_get hget, bind, Except.bind, pure, Except.pure]
  · exact ⟨true, rfl⟩

end Walks

/-! ## Forests -/

namespace Arena

/-- Every node stands in a tree without a parent. -/
def Forest (a : Arena) : Prop :=
  ∀ i < a.length, ∃ n low first last, Shown a.contents low none n ∧ Node.Numbered first last [n] ∧
    ∃ m ∈ n.nodes, m.id = i

end Arena

/-- A node of a tree is its top or a child of another node. -/
theorem nodes_owner {m n : Node} (h : m ∈ n.nodes) : m = n ∨ ∃ owner ∈ n.nodes, m ∈ owner.children := by
  induction n using Node.induction with
  | leaf i lx => exact .inl (List.mem_singleton.1 h)
  | inner i l cs ih =>
    rw [Node.nodes, List.mem_cons, mem_nodesOf] at h
    rcases h with rfl | ⟨c, hc, hm⟩
    · exact .inl rfl
    · have hchild : c ∈ (Node.inner i l cs).nodes := nodes_child hc
      rcases ih c hc hm with rfl | ⟨owner, howner, hlisted⟩
      · exact .inr ⟨_, nodes_self _, hc⟩
      · exact .inr ⟨owner, nodes_trans hchild howner, hlisted⟩

section Forests

variable {a : Arena}

/-- The subtree of a node. -/
theorem forest_subtree (h : a.Forest) {i : Nat} (hi : i < a.length) :
    ∃ m low parent first last, Shown a.contents low parent m ∧ Node.Numbered first last [m] ∧ m.id = i := by
  obtain ⟨n, _, first, last, hshown, hnumbered, m, hm, rfl⟩ := h i hi
  obtain ⟨low, parent, hsub⟩ := hshown.node hm
  refine ⟨m, low, parent, first, last, hsub, hnumbered.sublist ?_, rfl⟩
  rw [nodesOf_singleton, nodesOf_singleton]
  exact nodes_sublist hm

/-- A node is in the list of another just if it names that as its parent, and comes after it. -/
theorem forest_lists (ha : a.Sound) (h : a.Forest) {owner i : Nat} :
    a.Lists owner i ↔ ∃ c, a.get i = .ok c ∧ c.parent = some owner := by
  constructor
  · intro hlists
    obtain ⟨d, hd, -⟩ := id hlists
    obtain ⟨m, _, _, _, _, hshown, -, rfl⟩ := forest_subtree h (get_lt hd)
    obtain ⟨k, hk, rfl⟩ := (lists_shown ha hshown).1 hlists
    obtain ⟨c, hget, hparent, -⟩ := get_shown ha (hshown.child hk)
    exact ⟨c, hget, hparent⟩
  · rintro ⟨c, hget, hparent⟩
    obtain ⟨n, _, _, _, hshown, -, m, hm, rfl⟩ := h i (get_lt hget)
    rcases nodes_owner hm with rfl | ⟨k, hk, hchild⟩
    · obtain ⟨d, hd, hnone, -⟩ := get_shown ha hshown
      cases hget.symm.trans hd
      cases hnone.symm.trans hparent
    · obtain ⟨_, _, hsub⟩ := hshown.node hk
      obtain ⟨d, hd, hparent', -⟩ := get_shown ha (hsub.child hchild)
      cases hget.symm.trans hd
      obtain rfl := Option.some.inj (hparent.symm.trans hparent')
      exact (lists_shown ha hsub).2 ⟨m, hchild, rfl⟩

theorem forest_lt (ha : a.Sound) (h : a.Forest) {owner i : Nat} (hlists : a.Lists owner i) : owner < i := by
  obtain ⟨d, hd, -⟩ := id hlists
  obtain ⟨m, _, _, _, _, hshown, -, rfl⟩ := forest_subtree h (get_lt hd)
  obtain ⟨k, hk, rfl⟩ := (lists_shown ha hshown).1 hlists
  exact (hshown.child hk).low_le

/-- The nodes listed below a node are those that hang together with it. -/
theorem mem_ids {low : Nat} {parent : Option Nat} {n : Node} (ha : a.Sound)
    (h : Shown a.contents low parent n) {i : Nat} : i ∈ n.nodes.map Node.id ↔ a.Below n.id i := by
  constructor
  · intro hi
    obtain ⟨m, hm, rfl⟩ := List.mem_map.1 hi
    clear hi
    induction n using Node.induction generalizing low parent with
    | leaf j lx =>
      obtain rfl := List.mem_singleton.1 hm
      exact .refl
    | inner j l cs ih =>
      rw [Node.nodes, List.mem_cons, mem_nodesOf] at hm
      rcases hm with rfl | ⟨c, hc, hm⟩
      · exact .refl
      · have hbelow := ih c hc (h.child hc) hm
        exact .head ((lists_shown ha h).2 ⟨c, hc, rfl⟩) hbelow
  · intro hi
    obtain ⟨m, hm, rfl⟩ := below_shown ha h hi
    exact List.mem_map_of_mem hm

end Forests

/-! ## Ancestors -/

namespace Arena

/-- One of two nodes is a proper ancestor of the other. -/
def Above (a : Arena) (upper id : Nat) : Prop :=
  Relation.TransGen a.Lists upper id

def HasLabel (a : Arena) (label : String) (id : Nat) : Prop :=
  ∃ c, a.get id = .ok c ∧ c.label = label

/-- The nearest proper ancestor with a label, if there is one. -/
def NearestAbove (a : Arena) (label : String) (id : Nat) : Option Nat → Prop
  | none => ∀ upper, a.Above upper id → ¬a.HasLabel label upper
  | some near => a.Above near id ∧ a.HasLabel label near ∧
    ∀ upper, a.Above near upper → a.Above upper id → ¬a.HasLabel label upper

end Arena

section Ancestors

variable {a : Arena}

theorem above_lt (ha : a.Sound) (h : a.Forest) {upper i : Nat} (habove : a.Above upper i) : upper < i := by
  induction habove with
  | single hlists => exact forest_lt ha h hlists
  | tail _ hlists ih => exact ih.trans (forest_lt ha h hlists)

/-- What is above a node is its parent or above that. -/
theorem above_iff (ha : a.Sound) (h : a.Forest) {i p : Nat} {c : Cell} (hget : a.get i = .ok c)
    (hp : c.parent = some p) {upper : Nat} : a.Above upper i ↔ upper = p ∨ a.Above upper p := by
  have hlists := (forest_lists ha h).2 ⟨c, hget, hp⟩
  have honly : ∀ owner, a.Lists owner i → owner = p := by
    intro owner howner
    obtain ⟨d, hd, hparent⟩ := (forest_lists ha h).1 howner
    cases hget.symm.trans hd
    exact Option.some.inj (hparent.symm.trans hp)
  constructor
  · intro habove
    cases habove with
    | single howner => exact .inl (honly _ howner)
    | tail habove howner => exact .inr (honly _ howner ▸ habove)
  · rintro (rfl | habove)
    · exact .single hlists
    · exact .tail habove hlists

/-- Going up from parent to parent finds the nearest ancestor with a label. -/
theorem ancestorFrom_nearest (ha : a.Sound) (h : a.Forest) (label : String) (fuel : Nat) {i : Nat}
    (hfuel : i < fuel) (hi : i < a.length) :
    ∃ near, a.ancestorFrom label fuel i = .ok near ∧ a.NearestAbove label i near := by
  induction fuel generalizing i with
  | zero => omega
  | succ fuel ih =>
    obtain ⟨m, _, _, _, _, hshown, -, rfl⟩ := forest_subtree h hi
    obtain ⟨c, hget, -⟩ := get_children ha hshown
    cases hp : c.parent with
    | none =>
      refine ⟨none, by simp [Arena.ancestorFrom, hget, hp, bind, Except.bind, pure, Except.pure], ?_⟩
      intro upper habove
      obtain ⟨owner, -, howner⟩ := Relation.TransGen.tail'_iff.1 habove
      obtain ⟨d, hd, hparent⟩ := (forest_lists ha h).1 howner
      cases hget.symm.trans hd
      cases hp.symm.trans hparent
    | some p =>
      have hlists := (forest_lists ha h).2 ⟨c, hget, hp⟩
      have hlt := forest_lt ha h hlists
      obtain ⟨d, hd, -⟩ := id hlists
      by_cases hlabel : d.label = label
      · refine ⟨some p, ?_, .single hlists, ⟨d, hd, hlabel⟩, fun upper hnear habove => ?_⟩
        · simp [Arena.ancestorFrom, hget, hp, hd, hlabel, bind, Except.bind, pure, Except.pure]
        · have hup := above_lt ha h hnear
          rcases (above_iff ha h hget hp).1 habove with rfl | habove
          · omega
          · have := above_lt ha h habove
            omega
      · obtain ⟨near, hrun, hnear⟩ := ih (i := p) (by omega) (get_lt hd)
        have hnot : ¬a.HasLabel label p := by
          rintro ⟨e, he, hsame⟩
          cases hd.symm.trans he
          exact hlabel hsame
        refine ⟨near, ?_, ?_⟩
        · simp [Arena.ancestorFrom, hget, hp, hd, hlabel, hrun, bind, Except.bind]
        · cases near with
          | none =>
            intro upper habove
            rcases (above_iff ha h hget hp).1 habove with rfl | habove
            · exact hnot
            · exact hnear upper habove
          | some near =>
            obtain ⟨habove, hhas, hbetween⟩ := hnear
            refine ⟨(above_iff ha h hget hp).2 (.inr habove), hhas, fun upper hfrom hto => ?_⟩
            rcases (above_iff ha h hget hp).1 hto with rfl | hto
            · exact hnot
            · exact hbetween upper hfrom hto

end Ancestors

/-! ## Parsers -/

/-- A rule with nothing above and below it is a tree. -/
theorem shown_phrase {cells : List Cell} {i : Nat} {l : Label} (h : cells[i]? = some (.phrase l)) :
    Shown cells 0 none (.inner i l []) :=
  .inner (Nat.zero_le i) h (by simp)

theorem numbered_phrase (i : Nat) (l : Label) : Node.Numbered i (i + 1) [.inner i l []] :=
  (Node.Numbered.nil (i + 1) (i + 1)).inner (Nat.lt_succ_self i) l

/-- A tree that was made and all that was made for it join a forest. -/
theorem forest_grows {a b : Arena} (ha : a.Sound) (hb : b.Sound) (h : a.Forest) (hkeeps : Keeps a b) {n : Node}
    (hshown : Shown b.contents a.contents.length none n) {first last : Nat}
    (hnumbered : Node.Numbered first last [n]) (hmade : Inventory b.contents a.contents.length [n]) :
    b.Forest := by
  have hlen := Arena.contents_length ha
  have hlen' := Arena.contents_length hb
  intro i hi
  by_cases hold : i < a.length
  · obtain ⟨m, low, first, last, hm, hnumbered, hi⟩ := h i hold
    exact ⟨m, low, first, last, hm.frame fun j _ hj => hkeeps.same j hj, hnumbered, hi⟩
  · rcases hmade i (by omega) (by omega) with ⟨m, hm, hi⟩ | ⟨l, hl⟩
    · obtain rfl := List.mem_singleton.1 hm
      exact ⟨m, _, first, last, hshown, hnumbered, hi⟩
    · exact ⟨_, 0, i, i + 1, shown_phrase hl, numbered_phrase i l, _, nodes_self _, rfl⟩

theorem forest_same {a b : Arena} (ha : a.Sound) (hb : b.Sound) (h : a.Forest)
    (hcells : b.contents = a.contents) : b.Forest := by
  have hlen : b.length = a.length := by
    rw [← Arena.contents_length hb, hcells, Arena.contents_length ha]
  intro i hi
  rw [hcells]
  exact h i (hlen ▸ hi)

namespace Parser

theorem tryRoot_forest {p q : Parser} {pattern : Pattern} {found : Bool} (hp : p.state.Sound p.tokens)
    (hforest : p.state.tree.Forest) (hrule : pattern.isRule) (h : p.tryRoot pattern = .ok (found, q)) :
    q.state.tree.Forest := by
  have hq := (tryRoot_sound hp hrule h).tree
  rcases rule_follows grammar (depthBound p.tokens) hrule hp.agree with
    ⟨b, n, t, hout, hready, hrun⟩ | ⟨o, b, t, -, -, hagree, hcells, -, hrun⟩
  · simp only [tryRoot, hrun none, Match.State.commit, bind, Except.bind, pure, Except.pure] at h
    obtain ⟨-, rfl⟩ := Prod.mk.inj (Except.ok.inj h)
    obtain ⟨-, news, hnews, hnumbered⟩ := (TreeMatch.run_runs hout).numbers
    obtain rfl : [n] = news := by simpa [Match.State.bare] using congrArg List.reverse hnews
    have hsound := hready.agree.sound
    have hgrown : b.tree.Forest :=
      forest_grows hp.tree hsound hforest hready.keeps hready.shown hnumbered hready.made
    exact hgrown
  · simp only [tryRoot, hrun none, bind, Except.bind, pure, Except.pure] at h
    obtain ⟨-, rfl⟩ := Prod.mk.inj (Except.ok.inj h)
    exact forest_same hp.tree hq hforest hcells

/-- Whatever a parser has parsed, its arena is a forest. -/
theorem used_forest {p : Parser} (h : Used p) : p.state.tree.Forest := by
  induction h with
  | @start source tokens p h =>
    have hempty : p.state.tree.length = 0 := by
      unfold start? at h
      split at h
      · split at h
        · cases h
          rfl
        · cases h
      · cases h
    intro i hi
    omega
  | again hp hq ih =>
    have hsound := used_sound hp
    rcases parse_cases hq with ⟨hprogram, -⟩ | ⟨q', hprogram, ⟨hname, -⟩ | ⟨hname, -⟩⟩
    · exact tryRoot_forest hsound ih rfl hprogram
    · exact tryRoot_forest (tryRoot_sound hsound rfl hprogram) (tryRoot_forest hsound ih rfl hprogram) rfl hname
    · exact tryRoot_forest (tryRoot_sound hsound rfl hprogram) (tryRoot_forest hsound ih rfl hprogram) rfl hname

end Parser

/-! ## Main statement -/

/-- A full search for a property lists, each once and in the order of their numbers, the nodes that have it and
hang together with one; so does a walk that remembers them. -/
structure Arena.Searched (a : Arena) (id : Option Nat) (p : Cell → Bool) (found : List Nat) : Prop where
  grows : found.Pairwise (· < ·)
  mem : ∀ k, k ∈ found ↔ ∃ i c, id = some i ∧ a.Below i k ∧ a.get k = .ok c ∧ p c
  walked : ∀ i, id = some i → a.inspectFrom (a.collector p) (a.length + 1) i [] = .ok found

theorem searched_none (a : Arena) (p : Cell → Bool) : a.Searched none p [] where
  grows := .nil
  mem := by simp
  walked := by simp

theorem searched_shown {a : Arena} (ha : a.Sound) {low : Nat} {parent : Option Nat} {n : Node}
    (h : Shown a.contents low parent n) {first last : Nat} (hn : Node.Numbered first last [n])
    (p : Cell → Bool) : a.Searched (some n.id) p ((n.nodes.map Node.id).filter (a.satisfies p)) where
  grows := by
    have hnodes : n.nodes.Pairwise (fun m k => m.id < k.id) := nodesOf_singleton n ▸ hn.grows
    exact (List.pairwise_map.2 hnodes).filter _
  mem k := by
    rw [List.mem_filter, mem_ids ha h]
    constructor
    · rintro ⟨hbelow, hp⟩
      obtain ⟨c, hget⟩ := get_node ha h k ((mem_ids ha h).2 hbelow)
      exact ⟨_, c, rfl, hbelow, hget, (satisfies_get hget).symm.trans hp⟩
    · rintro ⟨i, c, hi, hbelow, hget, hp⟩
      obtain rfl := Option.some.inj hi
      exact ⟨hbelow, (satisfies_get hget).trans hp⟩
  walked i hi := by
    obtain rfl := Option.some.inj hi
    exact collector_shown ha h p

theorem findAll_shown {a : Arena} (ha : a.Sound) {low : Nat} {parent : Option Nat} {n : Node}
    (h : Shown a.contents low parent n) (label : String) :
    a.findAll (some n.id) label = .ok ((n.nodes.map Node.id).filter (a.satisfies (·.label == label))) := by
  have hnodes := nodesFrom_shown ha h (a.length + 1) (by omega)
  simp [Arena.findAll, Arena.nodes, hnodes, pick_shown ha h, bind, Except.bind]

theorem allLeaves_shown {a : Arena} (ha : a.Sound) {low : Nat} {parent : Option Nat} {n : Node}
    (h : Shown a.contents low parent n) :
    a.leaves (some n.id) = .ok ((n.nodes.map Node.id).filter (a.satisfies Cell.isLeaf)) := by
  have hnodes := nodesFrom_shown ha h (a.length + 1) (by omega)
  simp [Arena.leaves, Arena.nodes, hnodes, pick_shown ha h, bind, Except.bind]

/-- The text and the place of a subtree are those of its first leaf. -/
theorem text_place {a : Arena} {id leaf : Option Nat} (h : a.firstLeaf id = .ok leaf) :
    (leaf = none → a.text id = .ok "" ∧ a.place id = .ok (0, 0)) ∧
      ∀ l c, leaf = some l → a.get l = .ok c → a.text id = .ok c.text ∧ a.place id = .ok (c.line, c.col) := by
  constructor
  · rintro rfl
    simp [Arena.text, Arena.place, h, bind, Except.bind, pure, Except.pure]
  · rintro l c rfl hget
    simp [Arena.text, Arena.place, h, hget, bind, Except.bind, pure, Except.pure]

/-- In the tree that a parser leaves, below every node and for every label, the search that stops early and the
walk that remembers what it found find the first of the nodes that the full search lists; the first leaf is the
first of the leaves and gives the text and the place; and going up from a node below finds the nearest of its
proper ancestors. -/
theorem searches_agree {p q : Parser} {n : Node} (hp : p.Used) (hq : p.parse = .ok (.ok n, q)) :
    let a := q.state.tree
    ∀ id : Option Nat, (∀ i, id = some i → i < a.length) →
      (∀ label, ∃ found, a.findAll id label = .ok found ∧ a.Searched id (·.label == label) found ∧
        a.find id label = .ok found.head? ∧
        ∀ i, id = some i → a.inspectFrom (a.finder label) (a.length + 1) i none = .ok found.head?) ∧
      (∃ found, a.leaves id = .ok found ∧ a.Searched id Cell.isLeaf found ∧
        a.firstLeaf id = .ok found.head? ∧
        (found = [] → a.text id = .ok "" ∧ a.place id = .ok (0, 0)) ∧
        ∀ l rest, found = l :: rest → ∃ c, a.get l = .ok c ∧ a.text id = .ok c.text ∧
          a.place id = .ok (c.line, c.col)) ∧
      ∀ i k label, id = some i → a.Below i k →
        ∃ near, a.ancestor k label = .ok near ∧ a.NearestAbove label k near := by
  intro a id hid
  have hagain : q.Used := .again hp hq
  have ha : a.Sound := (Parser.used_sound hagain).tree
  have hforest : a.Forest := Parser.used_forest hagain
  cases id with
  | none =>
    refine ⟨fun label => ⟨[], rfl, searched_none a _, rfl, by simp⟩,
      ⟨[], rfl, searched_none a _, rfl, fun _ => ⟨rfl, rfl⟩, by simp⟩, by simp⟩
  | some i =>
    obtain ⟨m, _, _, _, _, hshown, hnumbered, rfl⟩ := forest_subtree hforest (hid i rfl)
    refine ⟨fun label => ?_, ?_, fun i k label hi hbelow => ?_⟩
    · refine ⟨_, findAll_shown ha hshown label, searched_shown ha hshown hnumbered _, ?_, fun i hi => ?_⟩
      · rw [List.head?_filter]
        exact find_shown ha hshown label
      · obtain rfl := Option.some.inj hi
        rw [List.head?_filter]
        exact finder_shown ha hshown label
    · have hsearched := searched_shown ha hshown hnumbered Cell.isLeaf
      have hfirst := firstLeaf_shown ha hshown
      rw [← List.head?_filter] at hfirst
      obtain ⟨hnone, hsome⟩ := text_place hfirst
      refine ⟨_, allLeaves_shown ha hshown, hsearched, hfirst, fun hempty => hnone ?_, fun l rest hl => ?_⟩
      · rw [hempty]
        rfl
      · have hmem : l ∈ (m.nodes.map Node.id).filter (a.satisfies Cell.isLeaf) := hl ▸ List.mem_cons_self
        obtain ⟨_, c, -, -, hget, -⟩ := (hsearched.mem l).1 hmem
        exact ⟨c, hget, hsome l c (by rw [hl]; rfl) hget⟩
    · obtain rfl := Option.some.inj hi
      obtain ⟨k, hk, rfl⟩ := below_shown ha hshown hbelow
      obtain ⟨c, hget⟩ := get_node ha hshown _ (List.mem_map_of_mem hk)
      exact ancestorFrom_nearest ha hforest label _ (Nat.lt_succ_of_lt (get_lt hget)) (get_lt hget)

/-- In the tree of an assignment, whose first leaf is the name assigned to. -/
theorem searches_agree_assignment :
    let tokens : List Lexeme := [⟨.name, "X", none, 1, 7⟩, ⟨.equal, "=", none, 1, 9⟩,
      ⟨.name, "A", none, 1, 11⟩, ⟨.newline, "\n", none, 1, 12⟩, ⟨.keyword .END, "END", none, 2, 7⟩,
      .endOfSource 2 10]
    let p : Parser := { source := "", tokens := tokens.toArray }
    p.Used ∧ ∃ n q, p.parse = .ok (.ok n, q) ∧ n.id < q.state.tree.length ∧
      (∃ found, q.state.tree.findAll (some n.id) "Expr" = .ok found ∧ found.Pairwise (· < ·) ∧
        q.state.tree.find (some n.id) "Expr" = .ok found.head?) ∧
      ∃ found, q.state.tree.leaves (some n.id) = .ok found ∧ found.Pairwise (· < ·) ∧
        q.state.tree.firstLeaf (some n.id) = .ok found.head? := by
  intro tokens p
  have hstart : Parser.start? "" tokens = some p := rfl
  have hp : p.Used := .start hstart
  have hsome : p.matched?.isSome = true := by decide +kernel
  obtain ⟨n, hn⟩ := Option.isSome_iff_exists.1 hsome
  obtain ⟨q, hq⟩ := parse_of_match (Parser.used_sound hp) hn
  obtain ⟨_, -, _, _, _, -, -, -, htree, -, hshown⟩ := Parser.parse_tree (Parser.used_sound hp) hq
  obtain ⟨c, hget, -⟩ := get_children htree hshown
  obtain ⟨hfind, ⟨leaves, hleaves, hall, hfirst, -⟩, -⟩ :=
    searches_agree hp hq (some n.id) (fun i hi => Option.some.inj hi ▸ get_lt hget)
  obtain ⟨found, hfound, hgrows, hfirst', -⟩ := hfind "Expr"
  exact ⟨hp, n, q, hq, get_lt hget, ⟨found, hfound, hgrows.grows, hfirst'⟩,
    leaves, hleaves, hall.grows, hfirst⟩

end FortranJulia
