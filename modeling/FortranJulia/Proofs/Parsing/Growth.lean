import FortranJulia.Proofs.Arena.Contents
import FortranJulia.Proofs.Parsing.TreeMatch

/-!
How a tree grows in an arena. `Shown` says that a tree stands in cells below a node, with numbers
that grow on the way down. `Grows` says what a piece of a match does to an arena: the open node gets
more children, which stand in cells made since, and no other cell changes. `Inventory` says that nothing
else was made but rules that have given way to their child. All are kept by what comes later and are
composed piece by piece.
-/

namespace FortranJulia

set_option autoImplicit false

/-! ## Nodes of a tree -/

theorem nodesOf_map (kids : List Node) : Node.nodesOf kids = (kids.map Node.nodes).flatten := by
  induction kids with
  | nil => rfl
  | cons k kids ih => simp [Node.nodesOf, ih]

theorem mem_nodesOf {n : Node} {ns : List Node} : n ∈ Node.nodesOf ns ↔ ∃ m ∈ ns, n ∈ m.nodes := by
  simp [nodesOf_map]

theorem nodes_self (n : Node) : n ∈ n.nodes := by
  cases n <;> simp [Node.nodes]

/-! ## Trees in cells -/

/-- The tree stands in the cells from a number on, its top below `parent`. -/
inductive Shown (cells : List Cell) : Nat → Option Nat → Node → Prop where
  | leaf {low id : Nat} {parent : Option Nat} {lx : Lexeme} (from_low : low ≤ id)
      (cell : cells[id]? = some ((Cell.ofLexeme lx).under parent)) :
      Shown cells low parent (.leaf id lx)
  | inner {low id : Nat} {parent : Option Nat} {l : Label} {kids : List Node} (from_low : low ≤ id)
      (cell : cells[id]? = some (((Cell.phrase l).grow (kids.map Node.id)).under parent))
      (below : ∀ k ∈ kids, Shown cells (id + 1) (some id) k) :
      Shown cells low parent (.inner id l kids)

namespace Shown

variable {cells other : List Cell} {low : Nat} {parent : Option Nat} {n : Node}

/-- A tree does not see changes outside its cells. -/
theorem frame (h : Shown cells low parent n)
    (same : ∀ i, low ≤ i → i < cells.length → other[i]? = cells[i]?) :
    Shown other low parent n := by
  induction h with
  | leaf from_low cell =>
    have hi := (List.getElem?_eq_some_iff.1 cell).1
    exact .leaf from_low (by rw [same _ from_low hi, cell])
  | inner from_low cell below ih =>
    have hi := (List.getElem?_eq_some_iff.1 cell).1
    refine .inner from_low (by rw [same _ from_low hi, cell]) ?_
    intro k hk
    exact ih k hk (fun i hlow hlen => same i (by omega) hlen)

theorem lower (h : Shown cells low parent n) {less : Nat} (hle : less ≤ low) :
    Shown cells less parent n := by
  cases h with
  | leaf from_low cell => exact .leaf (Nat.le_trans hle from_low) cell
  | inner from_low cell below => exact .inner (Nat.le_trans hle from_low) cell below

theorem low_le (h : Shown cells low parent n) : low ≤ n.id := by
  cases h with
  | leaf from_low _ => exact from_low
  | inner from_low _ _ => exact from_low

/-- The cell of the top of the tree. -/
theorem top (h : Shown cells low parent n) :
    ∃ c, cells[n.id]? = some c ∧ c.parent = parent ∧ (c.kind = none ↔ n.isLeaf = false) := by
  cases h with
  | leaf _ cell => exact ⟨_, cell, rfl, by simp [Cell.ofLexeme, Cell.leaf, Cell.under, Node.isLeaf]⟩
  | inner _ cell _ => exact ⟨_, cell, rfl, by simp [Cell.phrase, Cell.grow, Cell.under, Node.isLeaf]⟩

/-- The tree below another node, once its top says so. -/
theorem move (h : Shown cells low parent n) {c : Cell} (hc : cells[n.id]? = some c)
    (owner : Option Nat) : Shown (cells.set n.id (c.under owner)) low owner n := by
  cases h with
  | leaf from_low cell =>
    have hlen := (List.getElem?_eq_some_iff.1 cell).1
    simp only [Node.id] at hc ⊢
    obtain rfl := Option.some.inj (hc.symm.trans cell)
    exact .leaf from_low (by rw [List.getElem?_set_self hlen]; rfl)
  | @inner _ id _ l kids from_low cell below =>
    have hlen := (List.getElem?_eq_some_iff.1 cell).1
    simp only [Node.id] at hc ⊢
    obtain rfl := Option.some.inj (hc.symm.trans cell)
    refine .inner from_low (by rw [List.getElem?_set_self hlen]; rfl) ?_
    intro k hk
    refine (below k hk).frame (fun i hi _ => ?_)
    rw [List.getElem?_set_ne (by omega)]

end Shown

/-! ## Growth -/

/-- Every cell that can be seen is its own content. -/
theorem content_of_contents {a : Arena} {i : Nat} {c : Cell} (h : a.contents[i]? = some c) :
    c.content = c := by
  obtain ⟨d, -, rfl⟩ := List.mem_map.1 (List.mem_of_getElem? h)
  exact Cell.content_content d

/-- Between two states of an arena the open node `q` got the children `news`. -/
structure Grows (q : Nat) (a b : Arena) (news : List Node) : Prop where
  root : b.root = a.root
  length_le : a.contents.length ≤ b.contents.length
  others : ∀ i, i < a.contents.length → i ≠ q → b.contents[i]? = a.contents[i]?
  own : ∀ p, a.contents[q]? = some p → b.contents[q]? = some (p.grow (news.map Node.id))
  shown : ∀ n ∈ news, Shown b.contents a.contents.length (some q) n

namespace Grows

variable {q : Nat} {a b c : Arena} {news more : List Node}

theorem refl (q : Nat) (a : Arena) : Grows q a a [] := by
  refine ⟨rfl, Nat.le_refl _, fun _ _ _ => rfl, ?_, by simp⟩
  intro p hp
  rw [hp, List.map_nil, Cell.grow_nil, content_of_contents hp]

theorem trans (h : Grows q a b news) (h' : Grows q b c more) (hq : q < a.contents.length) :
    Grows q a c (news ++ more) := by
  have hlen := h.length_le
  refine ⟨h'.root.trans h.root, Nat.le_trans hlen h'.length_le, ?_, ?_, ?_⟩
  · intro i hi hne
    rw [h'.others i (by omega) hne, h.others i hi hne]
  · intro p hp
    rw [h'.own _ (h.own p hp), Cell.grow_grow, List.map_append]
  · intro n hn
    rcases List.mem_append.1 hn with hn | hn
    · refine (h.shown n hn).frame (fun i hi hlt => ?_)
      exact h'.others i hlt (by omega)
    · exact (h'.shown n hn).lower hlen

/-- Cut back to its old length, an arena has its old cells but for the open node. -/
theorem take_set (h : Grows q a b news) {p : Cell} (hp : a.contents[q]? = some p) :
    (b.contents.take a.contents.length).set q p = a.contents := by
  have hq := (List.getElem?_eq_some_iff.1 hp).1
  have hlen := h.length_le
  apply List.ext_getElem?
  intro i
  by_cases hi : i < a.contents.length
  · by_cases hne : i = q
    · subst hne
      rw [List.getElem?_set_self (by simp; omega), hp]
    · rw [List.getElem?_set_ne (Ne.symm hne), List.getElem?_take_of_lt hi, h.others i hi hne]
  · rw [List.getElem?_eq_none (by simp; omega), List.getElem?_eq_none (by omega)]

end Grows

/-! ## Inventories -/

/-- The cells from a number on are those of the trees, and rules with nothing above and below them. -/
def Inventory (cells : List Cell) (low : Nat) (ns : List Node) : Prop :=
  ∀ i, low ≤ i → i < cells.length →
    (∃ n ∈ ns, ∃ m ∈ n.nodes, m.id = i) ∨ ∃ l, cells[i]? = some (.phrase l)

namespace Inventory

variable {cells other : List Cell} {low : Nat} {ms ns : List Node}

theorem of_le (h : cells.length ≤ low) (ns : List Node) : Inventory cells low ns :=
  fun _ hlow hlt => absurd (Nat.lt_of_lt_of_le hlt h) (Nat.not_lt.2 hlow)

theorem append (h : Inventory cells low ms) (h' : Inventory other cells.length ns)
    (same : ∀ i, low ≤ i → i < cells.length → other[i]? = cells[i]?) :
    Inventory other low (ms ++ ns) := by
  intro i hlow hlt
  by_cases hi : i < cells.length
  · rw [same i hlow hi]
    refine (h i hlow hi).imp_left ?_
    exact fun ⟨m, hm, hnode⟩ => ⟨m, List.mem_append_left _ hm, hnode⟩
  · refine (h' i (Nat.not_lt.1 hi) hlt).imp_left ?_
    exact fun ⟨n, hn, hnode⟩ => ⟨n, List.mem_append_right _ hn, hnode⟩

/-- The top of a tree may change. -/
theorem change {n : Node} (h : Inventory cells low [n]) (hlen : other.length = cells.length)
    (same : ∀ i, low ≤ i → i ≠ n.id → other[i]? = cells[i]?) : Inventory other low [n] := by
  intro i hlow hlt
  by_cases hi : i = n.id
  · exact .inl ⟨n, List.mem_singleton_self n, n, nodes_self n, hi.symm⟩
  · rw [same i hlow hi]
    exact h i hlow (hlen ▸ hlt)

/-- A node becomes the top of the trees made after it. -/
theorem inner {id : Nat} (h : Inventory cells (id + 1) ns) (l : Label) :
    Inventory cells id [.inner id l ns] := by
  intro i hlow hlt
  rcases Nat.eq_or_lt_of_le hlow with rfl | hlow
  · exact .inl ⟨_, List.mem_singleton_self _, _, nodes_self _, rfl⟩
  · refine (h i hlow hlt).imp_left ?_
    rintro ⟨n, hn, m, hm, hi⟩
    exact ⟨_, List.mem_singleton_self _, m, List.mem_cons_of_mem _ (mem_nodesOf.2 ⟨n, hn, hm⟩), hi⟩

/-- The top of a tree gives way to its only child. -/
theorem only {id : Nat} {l : Label} {k : Node} (h : Inventory cells low [.inner id l [k]])
    (hlen : other.length = cells.length) (hid : other[id]? = some (.phrase l))
    (same : ∀ i, low ≤ i → i ≠ id → i ≠ k.id → other[i]? = cells[i]?) : Inventory other low [k] := by
  intro i hlow hlt
  by_cases hi : i = id
  · exact .inr ⟨l, hi ▸ hid⟩
  by_cases hk : i = k.id
  · exact .inl ⟨k, List.mem_singleton_self k, k, nodes_self k, hk.symm⟩
  rw [same i hlow hi hk]
  refine (h i hlow (hlen ▸ hlt)).imp_left ?_
  rintro ⟨n, hn, m, hm, rfl⟩
  obtain rfl := List.mem_singleton.1 hn
  rw [Node.nodes, List.mem_cons, mem_nodesOf] at hm
  rcases hm with rfl | ⟨n, hn, hm⟩
  · exact absurd rfl hi
  · exact ⟨n, hn, m, hm, rfl⟩

end Inventory

/-! ## Nodes under construction -/

/-- Nothing of an arena has changed in a later one. -/
structure Keeps (a b : Arena) : Prop where
  root : b.root = a.root
  length_le : a.contents.length ≤ b.contents.length
  same : ∀ i, i < a.contents.length → b.contents[i]? = a.contents[i]?

theorem keeps_push {a : Arena} (ha : a.Sound) (c : Cell) : Keeps a (a.push c).2 := by
  have hcells := Arena.contents_push ha c
  refine ⟨rfl, by rw [hcells]; simp, ?_⟩
  intro i hi
  rw [hcells, List.getElem?_append_left hi]

/-- Growth of a node made since an arena leaves that arena alone. -/
theorem Keeps.grows {a b c : Arena} {q : Nat} {news : List Node} (h : Keeps a b)
    (h' : Grows q b c news) (hq : a.contents.length ≤ q) : Keeps a c := by
  have hlen := h.length_le
  refine ⟨h'.root.trans h.root, Nat.le_trans hlen h'.length_le, ?_⟩
  intro i hi
  rw [h'.others i (by omega) (by omega), h.same i hi]

/-- A tree without a parent, made since an arena, becomes the last child of one of its nodes. -/
theorem attach_grows {a b : Arena} (hb : b.Sound) (h : Keeps a b) {n : Node}
    (hn : Shown b.contents a.contents.length none n)
    (hmade : Inventory b.contents a.contents.length [n]) {q : Nat} (hq : q < a.contents.length) :
    ∃ k c, b.attach q n.id = .ok (k, c) ∧ c.Sound ∧ c.length = b.length ∧ Grows q a c [n] ∧
      Inventory c.contents a.contents.length [n] := by
  obtain ⟨top, htop, hnone, -⟩ := hn.top
  have hlow := hn.low_le
  have hlen := h.length_le
  have hown : b.contents[q]? = some a.contents[q] := by
    rw [h.same q hq, List.getElem?_eq_getElem hq]
  have hne : q ≠ n.id := by omega
  obtain ⟨k, c, hattach, hcs, hclen, hcroot, hcells⟩ := Arena.attach_spec hb htop hnone hown hne
  have hother : ∀ i, i ≠ q → i ≠ n.id → c.contents[i]? = b.contents[i]? := by
    intro i hiq hin
    rw [hcells, List.getElem?_set_ne (Ne.symm hiq), List.getElem?_set_ne (Ne.symm hin)]
  have hmade' : Inventory c.contents a.contents.length [n] :=
    hmade.change (by simp [hcells]) fun i hlow hin => hother i (by omega) hin
  refine ⟨k, c, hattach, hcs, hclen, ⟨hcroot.trans h.root, ?_, ?_, ?_, ?_⟩, hmade'⟩
  · rw [hcells]
    simpa using hlen
  · intro i hi hiq
    rw [hother i hiq (by omega), h.same i hi]
  · intro p hp
    obtain rfl : a.contents[q] = p := by
      rw [List.getElem?_eq_getElem hq] at hp
      exact Option.some.inj hp
    rw [hcells, List.getElem?_set_self (by simp; omega)]
    rfl
  · intro m hm
    obtain rfl := List.mem_singleton.1 hm
    refine (hn.move htop (some q)).frame (fun i hi _ => ?_)
    rw [hcells, List.getElem?_set_ne (by omega)]

/-- A leaf stands where it was pushed. -/
theorem shown_leaf {a : Arena} (ha : a.Sound) (lx : Lexeme) :
    Shown (a.push (.ofLexeme lx)).2.contents a.contents.length none (.leaf a.length lx) := by
  have hlen := Arena.contents_length ha
  refine .leaf (Nat.le_of_eq hlen) ?_
  rw [Arena.contents_push ha, ← hlen, List.getElem?_concat_length]
  rfl

theorem inventory_leaf {a : Arena} (ha : a.Sound) (lx : Lexeme) :
    Inventory (a.push (.ofLexeme lx)).2.contents a.contents.length [.leaf a.length lx] := by
  intro i hlow hlt
  rw [Arena.contents_push ha, List.length_append] at hlt
  have hi : a.length = i := by
    rw [← Arena.contents_length ha]
    exact Nat.le_antisymm hlow (Nat.le_of_lt_succ hlt)
  exact .inl ⟨_, List.mem_singleton_self _, _, nodes_self _, hi⟩

/-- A node that grew after it was pushed stands with what it got. -/
theorem shown_inner {a b : Arena} (ha : a.Sound) (l : Label) {news : List Node}
    (h : Grows a.length (a.push (.phrase l)).2 b news) :
    Shown b.contents a.contents.length none (.inner a.length l news) := by
  have hlen := Arena.contents_length ha
  have hcells := Arena.contents_push ha (.phrase l)
  have hown : (a.push (.phrase l)).2.contents[a.length]? = some (.phrase l) := by
    rw [hcells, ← hlen, List.getElem?_concat_length, Cell.content_phrase]
  refine .inner (Nat.le_of_eq hlen) (h.own _ hown) ?_
  intro k hk
  have hshown := h.shown k hk
  rwa [hcells, List.length_append, hlen] at hshown

/-- A node with a single inner node below it gives way to that. -/
theorem unwrap_only {a b : Arena} (hb : b.Sound) (h : Keeps a b) {id : Nat} {l : Label} {k : Node}
    (hk : k.isLeaf = false) (hn : Shown b.contents a.contents.length none (.inner id l [k]))
    (hmade : Inventory b.contents a.contents.length [.inner id l [k]]) :
    ∃ c, b.unwrap id = .ok (k.id, c) ∧ c.Sound ∧ c.length = b.length ∧ Keeps a c ∧
      Shown c.contents a.contents.length none k ∧ Inventory c.contents a.contents.length [k] := by
  have hlow : a.contents.length ≤ id := hn.low_le
  cases hn with
  | inner _ cell below =>
    have hkid := below k (by simp)
    have hklow := hkid.low_le
    obtain ⟨top, htop, -, hrule⟩ := hkid.top
    have honly : (((Cell.phrase l).grow [k.id]).under none).children = [k.id] := rfl
    obtain ⟨c, hunwrap, hcs, hclen, hcroot, hcells⟩ :=
      Arena.unwrap_rule hb cell honly htop (hrule.2 hk) (by omega)
    refine ⟨c, hunwrap, hcs, hclen, ⟨hcroot.trans h.root, ?_, ?_⟩, ?_, ?_⟩
    · rw [hcells]
      simpa using h.length_le
    · intro i hi
      rw [hcells, List.getElem?_set_ne (by omega), List.getElem?_set_ne (by omega), h.same i hi]
    · have hother : ∀ i, id + 1 ≤ i →
          (b.contents.set id ((((Cell.phrase l).grow [k.id]).under none).keep 0))[i]? =
            b.contents[i]? :=
        fun i hi => List.getElem?_set_ne (by omega)
      have hcut := hkid.frame (fun i hi _ => hother i hi)
      rw [hcells]
      exact (hcut.move ((hother k.id hklow).trans htop) none).lower (Nat.le_succ_of_le hlow)
    · have hid := (List.getElem?_eq_some_iff.1 cell).1
      refine hmade.only (by simp [hcells]) ?_ fun i _ hi hik => ?_
      · rw [hcells, List.getElem?_set_ne (by omega), List.getElem?_set_self hid]
        rfl
      · rw [hcells, List.getElem?_set_ne (Ne.symm hik), List.getElem?_set_ne (Ne.symm hi)]

/-- Unwrapping a node in its cells is collapsing it as a tree. -/
theorem unwrap_shown {a b : Arena} (hb : b.Sound) (h : Keeps a b) {id : Nat} {l : Label}
    {kids : List Node} (hn : Shown b.contents a.contents.length none (.inner id l kids))
    (hmade : Inventory b.contents a.contents.length [.inner id l kids]) :
    ∃ c, b.unwrap id = .ok ((Node.collapse (.inner id l kids)).id, c) ∧ c.Sound ∧
      c.length = b.length ∧ Keeps a c ∧
      Shown c.contents a.contents.length none (Node.collapse (.inner id l kids)) ∧
      Inventory c.contents a.contents.length [Node.collapse (.inner id l kids)] := by
  by_cases hone : ∃ k, kids = [k] ∧ k.isLeaf = false
  · obtain ⟨k, rfl, hk⟩ := hone
    have hcollapse : Node.collapse (.inner id l [k]) = k := by
      cases k with
      | leaf => simp [Node.isLeaf] at hk
      | inner => rfl
    rw [hcollapse]
    exact unwrap_only hb h hk hn hmade
  · have hcollapse : Node.collapse (.inner id l kids) = .inner id l kids := by
      unfold Node.collapse
      split
      · rename_i i m cs heq
        cases heq
        exact absurd ⟨_, rfl, rfl⟩ hone
      · rfl
    rw [hcollapse]
    refine ⟨b, ?_, hb, rfl, h, hn, hmade⟩
    cases hn with
    | inner _ cell below =>
      refine Arena.unwrap_stays hb cell (fun only honly => ?_)
      have hids : kids.map Node.id = [only] :=
        (Cell.children_grow (kids.map Node.id) (Cell.phrase l)).symm.trans honly
      obtain ⟨k, rfl, rfl⟩ := List.map_eq_singleton_iff.1 hids
      obtain ⟨top, htop, -, hrule⟩ := (below k (by simp)).top
      refine ⟨top, htop, fun hnone => hone ⟨k, rfl, hrule.1 hnone⟩⟩

end FortranJulia
