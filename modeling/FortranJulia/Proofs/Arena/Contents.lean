import FortranJulia.Tree.Arena
import Mathlib.Data.List.Basic

/-!
What can be seen of an arena: the cells of the nodes up to its length, each with the children up to
its count. In a sound arena every step has an equation on these cells alone, and what an arena keeps
beyond its length or a cell beyond its count plays no part in it.
-/

namespace FortranJulia

set_option autoImplicit false

/-! ## Cells -/

namespace Cell

/-- The cell without what its list of children once held. -/
def content (c : Cell) : Cell :=
  { c with slots := c.children, count := c.children.length }

/-- The cell with more children. -/
def grow (ids : List Nat) (c : Cell) : Cell :=
  { c with slots := c.children ++ ids, count := c.children.length + ids.length }

/-- The cell with only so many of its children. -/
def keep (n : Nat) (c : Cell) : Cell :=
  { c with slots := c.children.take n, count := (c.children.take n).length }

/-- The count does not exceed the children there are. -/
def Sound (c : Cell) : Prop :=
  c.count ≤ c.slots.length

theorem children_length {c : Cell} (h : c.Sound) : c.children.length = c.count := by
  rw [children, List.length_take]
  exact Nat.min_eq_left h

@[simp] theorem children_content (c : Cell) : c.content.children = c.children :=
  List.take_length

@[simp] theorem content_content (c : Cell) : c.content.content = c.content := by
  have h := children_content c
  simp only [content] at h ⊢
  rw [h]

@[simp] theorem content_parent (c : Cell) : c.content.parent = c.parent := rfl

@[simp] theorem content_kind (c : Cell) : c.content.kind = c.kind := rfl

@[simp] theorem content_phrase (l : Label) : (phrase l).content = phrase l := rfl

@[simp] theorem content_ofLexeme (lx : Lexeme) : (ofLexeme lx).content = ofLexeme lx := rfl

theorem grow_nil (c : Cell) : c.grow [] = c.content := by
  simp [grow, content]

theorem children_grow (ids : List Nat) (c : Cell) : (c.grow ids).children = c.children ++ ids := by
  simp [grow, children, List.take_of_length_le]

theorem grow_grow (ids more : List Nat) (c : Cell) :
    (c.grow ids).grow more = c.grow (ids ++ more) := by
  have h := children_grow ids c
  simp only [grow] at h ⊢
  rw [h]
  simp [Nat.add_assoc]

theorem grow_content (ids : List Nat) (c : Cell) : c.content.grow ids = c.grow ids := by
  have h := children_content c
  simp only [content, grow] at h ⊢
  rw [h]

theorem content_under (parent : Option Nat) (c : Cell) :
    (c.under parent).content = c.content.under parent := rfl

theorem content_adopt {c : Cell} (h : c.Sound) (i : Nat) : (c.adopt i).content = c.grow [i] := by
  have hlen := children_length h
  have htake : (c.adopt i).children = c.children ++ [i] := by
    rw [children, adopt, ← hlen, List.take_length_add_append]
    rfl
  simp only [content, htake]
  simp [adopt, grow]

theorem content_cut {c : Cell} {n : Nat} (h : n ≤ c.children.length) :
    (c.cut n).content = c.content.keep n := by
  have hn : n ≤ c.count := Nat.le_trans h (List.length_take_le ..)
  have htake : (c.cut n).children = c.children.take n := by
    rw [children, children, List.take_take, Nat.min_eq_left hn]
    rfl
  have hsame := children_content c
  simp only [content, keep, htake] at hsame ⊢
  rw [hsame]
  rfl

/-- A cell that has grown and is cut back has the children it had. -/
theorem keep_grow (ids : List Nat) (c : Cell) :
    (c.grow ids).keep c.children.length = c.content := by
  have h := children_grow ids c
  simp only [keep, h, List.take_left']
  rfl

theorem sound_cut {c : Cell} {n : Nat} (h : n ≤ c.children.length) : (c.cut n).Sound := by
  have hle : c.children.length ≤ c.slots.length := List.length_take_le' ..
  exact Nat.le_trans h hle

theorem sound_adopt {c : Cell} (h : c.Sound) (i : Nat) : (c.adopt i).Sound := by
  have hlen := children_length h
  simp only [Sound, adopt, List.length_append, List.length_cons, hlen]
  omega

theorem sound_phrase (l : Label) : (phrase l).Sound := Nat.le_refl 0

theorem sound_ofLexeme (lx : Lexeme) : (ofLexeme lx).Sound := Nat.le_refl 0

end Cell

namespace Arena

/-! ## Contents -/

/-- The cells of the present nodes. -/
def contents (a : Arena) : List Cell :=
  (a.cells.toList.take a.length).map Cell.content

/-- There is a cell for every node, and all cells are sound. -/
structure Sound (a : Arena) : Prop where
  length_le : a.length ≤ a.cells.size
  cells : ∀ c ∈ a.cells, c.Sound

theorem sound_empty : Sound {} :=
  ⟨Nat.le_refl 0, by simp⟩

theorem contents_length {a : Arena} (h : a.Sound) : a.contents.length = a.length := by
  rw [contents, List.length_map, List.length_take, Array.length_toList]
  exact Nat.min_eq_left h.length_le

/-- A cell that can be seen is the content of the cell of that number. -/
theorem get_of_contents {a : Arena} (h : a.Sound) {i : Nat} {k : Cell}
    (hk : a.contents[i]? = some k) : ∃ c, a.get i = .ok c ∧ c.content = k ∧ c.Sound := by
  rw [contents, List.getElem?_map, List.getElem?_take] at hk
  by_cases hi : i < a.length
  · rw [if_pos hi, Array.getElem?_toList] at hk
    obtain ⟨c, hc, hck⟩ := Option.map_eq_some_iff.1 hk
    refine ⟨c, ?_, hck, h.cells c (Array.mem_of_getElem? hc)⟩
    simp [get, hi, hc]
  · simp [hi] at hk

/-! ## Steps -/

theorem set_sound {a : Arena} (h : a.Sound) (i : Nat) {c : Cell} (hc : c.Sound) :
    (a.set i c).Sound := by
  refine ⟨by simpa [set] using h.length_le, ?_⟩
  intro d hd
  rcases Array.mem_or_eq_of_mem_setIfInBounds hd with hd | rfl
  · exact h.cells d hd
  · exact hc

theorem contents_set (a : Arena) (i : Nat) (c : Cell) :
    (a.set i c).contents = a.contents.set i c.content := by
  simp [contents, set, List.take_set]

theorem push_sound {a : Arena} (h : a.Sound) {c : Cell} (hc : c.Sound) : (a.push c).2.Sound := by
  have hle := h.length_le
  by_cases hi : a.length < a.cells.size
  · refine ⟨?_, ?_⟩
    · simp only [push, hi, if_true, Array.size_setIfInBounds]
      exact hi
    intro d hd
    simp only [push, hi, if_true] at hd
    rcases Array.mem_or_eq_of_mem_setIfInBounds hd with hd | rfl
    · exact h.cells d hd
    · exact hc
  · refine ⟨by simpa only [push, hi, if_false, Array.size_push] using Nat.succ_le_succ hle, ?_⟩
    intro d hd
    simp only [push, hi, if_false, Array.mem_push] at hd
    rcases hd with hd | rfl
    · exact h.cells d hd
    · exact hc

theorem contents_push {a : Arena} (h : a.Sound) (c : Cell) :
    (a.push c).2.contents = a.contents ++ [c.content] := by
  have hle := h.length_le
  by_cases hi : a.length < a.cells.size
  · simp only [contents, push, hi, if_true, Array.toList_setIfInBounds]
    rw [List.take_add_one, List.take_set, List.set_eq_of_length_le (List.length_take_le ..)]
    simp [hi]
  · have heq : a.cells.size = a.length := by omega
    simp only [contents, push, hi, if_false, Array.toList_push]
    rw [List.take_of_length_le (by simp [heq]), List.take_of_length_le (by simp [heq])]
    simp

/-- A node without a parent becomes the last child of another. -/
theorem attach_spec {a : Arena} (h : a.Sound) {q i : Nat} {k p : Cell}
    (hi : a.contents[i]? = some k) (hk : k.parent = none) (hq : a.contents[q]? = some p)
    (hne : q ≠ i) :
    ∃ n b, a.attach q i = .ok (n, b) ∧ b.Sound ∧ b.length = a.length ∧ b.root = a.root ∧
      b.contents = (a.contents.set i (k.under (some q))).set q (p.grow [i]) := by
  obtain ⟨c, hc, rfl, hcs⟩ := get_of_contents h hi
  have ha1 : (a.set i (c.under (some q))).Sound := set_sound h i hcs
  have hq1 : (a.set i (c.under (some q))).contents[q]? = some p := by
    rw [contents_set, List.getElem?_set_ne hne.symm, hq]
  obtain ⟨d, hd, rfl, hds⟩ := get_of_contents ha1 hq1
  have hnone : c.parent = none := hk
  refine ⟨d.count + 1, (a.set i (c.under (some q))).set q (d.adopt i), ?_,
    set_sound ha1 q (Cell.sound_adopt hds i), rfl, rfl, ?_⟩
  · simp [attach, hc, hd, hnone, bind, Except.bind, pure, Except.pure]
  · rw [contents_set, contents_set, Cell.content_adopt hds, Cell.grow_content, Cell.content_under]

/-- A node whose only child is a rule gives way to it. -/
theorem unwrap_rule {a : Arena} (h : a.Sound) {i only : Nat} {c k : Cell}
    (hi : a.contents[i]? = some c) (hc : c.children = [only]) (ho : a.contents[only]? = some k)
    (hk : k.kind = none) (hne : i ≠ only) :
    ∃ b, a.unwrap i = .ok (only, b) ∧ b.Sound ∧ b.length = a.length ∧ b.root = a.root ∧
      b.contents = (a.contents.set i (c.keep 0)).set only (k.under none) := by
  obtain ⟨d, hd, rfl, -⟩ := get_of_contents h hi
  rw [Cell.children_content] at hc
  obtain ⟨e, he, hek, -⟩ := get_of_contents h ho
  have hleaf : e.isLeaf = false := by
    rw [← hek, Cell.content_kind] at hk
    simp [Cell.isLeaf, hk]
  have ha1 : (a.set i (d.cut 0)).Sound := set_sound h i (Cell.sound_cut (Nat.zero_le _))
  have ho1 : (a.set i (d.cut 0)).contents[only]? = some k := by
    rw [contents_set, List.getElem?_set_ne hne, ho]
  obtain ⟨f, hf, rfl, hfs⟩ := get_of_contents ha1 ho1
  refine ⟨(a.set i (d.cut 0)).set only (f.under none), ?_, set_sound ha1 only hfs, rfl, rfl, ?_⟩
  · simp [unwrap, hd, hc, he, hleaf, hf, bind, Except.bind, pure, Except.pure]
  · rw [contents_set, contents_set, Cell.content_cut (Nat.zero_le _), Cell.content_under]

/-- A node with no or several children, or with a leaf alone, stays. -/
theorem unwrap_stays {a : Arena} (h : a.Sound) {i : Nat} {c : Cell} (hi : a.contents[i]? = some c)
    (hc : ∀ only, c.children = [only] → ∃ k, a.contents[only]? = some k ∧ k.kind ≠ none) :
    a.unwrap i = .ok (i, a) := by
  obtain ⟨d, hd, rfl, -⟩ := get_of_contents h hi
  rw [Cell.children_content] at hc
  simp only [unwrap, hd, bind, Except.bind]
  split
  · rename_i only honly
    obtain ⟨k, hk, hkind⟩ := hc only honly
    obtain ⟨e, he, rfl, -⟩ := get_of_contents h hk
    have hleaf : e.isLeaf = true := by
      rw [Cell.content_kind] at hkind
      simpa [Cell.isLeaf] using Option.isSome_iff_ne_none.2 hkind
    simp [he, hleaf, pure, Except.pure]
  · rfl

theorem mark_some {a : Arena} (h : a.Sound) {q : Nat} {p : Cell} (hq : a.contents[q]? = some p) :
    a.mark (some q) = .ok ⟨a.length, some q, p.children.length⟩ := by
  obtain ⟨c, hc, rfl, hcs⟩ := get_of_contents h hq
  rw [Cell.children_content, Cell.children_length hcs]
  simp [mark, hc, bind, Except.bind, pure, Except.pure]

theorem truncate_sound {a : Arena} (h : a.Sound) {n : Nat} (hn : n ≤ a.length) :
    ({ a with length := n } : Arena).Sound :=
  ⟨Nat.le_trans hn h.length_le, h.cells⟩

theorem contents_truncate {a : Arena} {n : Nat} (hn : n ≤ a.length) :
    ({ a with length := n } : Arena).contents = a.contents.take n := by
  simp [contents, ← List.map_take, List.take_take, Nat.min_eq_left hn]

theorem rollback_none {a : Arena} (h : a.Sound) {n c : Nat} (hn : n ≤ a.length) :
    ∃ b, a.rollback ⟨n, none, c⟩ = .ok b ∧ b.Sound ∧ b.length = n ∧ b.root = a.root ∧
      b.contents = a.contents.take n :=
  ⟨{ a with length := n }, rfl, truncate_sound h hn, rfl, rfl, contents_truncate hn⟩

theorem rollback_some {a : Arena} (h : a.Sound) {n c q : Nat} {p : Cell} (hn : n ≤ a.length)
    (hq : (a.contents.take n)[q]? = some p) (hc : c ≤ p.children.length) :
    ∃ b, a.rollback ⟨n, some q, c⟩ = .ok b ∧ b.Sound ∧ b.length = n ∧ b.root = a.root ∧
      b.contents = (a.contents.take n).set q (p.keep c) := by
  have ha1 := truncate_sound h hn
  rw [← contents_truncate hn] at hq
  obtain ⟨d, hd, rfl, -⟩ := get_of_contents ha1 hq
  rw [Cell.children_content] at hc
  have hslots : ¬ d.slots.length < c := by
    have := List.length_take_le' d.count d.slots
    rw [← Cell.children] at this
    omega
  refine ⟨({ a with length := n } : Arena).set q (d.cut c), ?_,
    set_sound ha1 q (Cell.sound_cut hc), rfl, rfl, ?_⟩
  · simp [rollback, hd, hslots, bind, Except.bind, pure, Except.pure]
  · rw [contents_set, contents_truncate hn, Cell.content_cut hc]

end Arena

end FortranJulia
