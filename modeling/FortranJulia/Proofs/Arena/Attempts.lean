import FortranJulia.Proofs.Arena.Contents

/-!
Attempts that are given up. A mark holds two lengths only, so going back to it restores an arena just if what
was there at the mark has been left alone: since then, nodes that were there get no other parent and give way to
no child, and of them the owner of the mark alone gets children or is marked again. Under that discipline a
step keeps `Arena.Attempt`, whatever marks it goes back to, and the end of any run can be undone.
-/

namespace FortranJulia

set_option autoImplicit false

/-! ## Operations -/

/-- An operation on an arena and the marks taken so far, which are named by their places. -/
inductive ArenaOp where
  | rule (tag : Tag)
  | leaf (kind : Option Kind) (text : String) (value : Option Literal) (line col : Int)
  | attach (parent child : Nat)
  | unwrap (id : Nat)
  | mark (owner : Option Nat)
  | rollback (place : Nat)

namespace ArenaOp

def run : ArenaOp → Arena × List Mark → Arena.Result (Arena × List Mark)
  | .rule tag, (a, marks) => return ((a.push { tag }).2, marks)
  | .leaf kind text value line col, (a, marks) =>
    return ((a.push (.leaf kind text value line col)).2, marks)
  | .attach parent child, (a, marks) => return ((← a.attach parent child).2, marks)
  | .unwrap id, (a, marks) => return ((← a.unwrap id).2, marks)
  | .mark owner, (a, marks) => return (a, marks ++ [← a.mark owner])
  | .rollback place, (a, marks) =>
    match marks[place]? with
    | some m => return (← a.rollback m, marks)
    | none => throw .outOfRange

/-- The operation respects a mark. The nodes made since the mark are those from its length on: only these
are attached and unwrapped, and only they and the owner of the mark get children and are marked. -/
def Respects (m : Mark) : ArenaOp → Prop
  | .attach parent child => m.length ≤ child ∧ (m.owner = some parent ∨ m.length ≤ parent)
  | .unwrap id => m.length ≤ id
  | .mark owner => ∀ q, owner = some q → m.owner = some q ∨ m.length ≤ q
  | .rule _ | .leaf .. | .rollback _ => True

end ArenaOp

/-! ## Cells -/

namespace Cell

/-- The cell has the children it had, perhaps with others behind them, and is otherwise the same. -/
structure Extends (c d : Cell) : Prop where
  same : d = { c with slots := d.slots, count := d.count }
  count_le : c.count ≤ d.count
  children : d.slots.take c.count = c.children

theorem Extends.refl (c : Cell) : c.Extends c :=
  ⟨rfl, Nat.le_refl _, rfl⟩

theorem Extends.adopt {c d : Cell} (h : c.Extends d) (hd : d.Sound) (i : Nat) :
    c.Extends (d.adopt i) := by
  obtain ⟨hsame, hcount, hchildren⟩ := h
  refine ⟨?_, Nat.le_succ_of_le hcount, ?_⟩
  · rw [hsame]
    rfl
  · have hlen : d.children.length = d.count := children_length hd
    rw [Cell.adopt, List.take_append_of_le_length (by omega), Cell.children, List.take_take,
      Nat.min_eq_left hcount, hchildren]

theorem Extends.cut {c d : Cell} (h : c.Extends d) {n : Nat} (hn : c.count ≤ n) :
    c.Extends (d.cut n) := by
  obtain ⟨hsame, -, hchildren⟩ := h
  refine ⟨?_, hn, hchildren⟩
  rw [hsame]
  rfl

/-- Cut back to its old count, the cell can be told from the old one no more. -/
theorem Extends.content_cut {c d : Cell} (h : c.Extends d) : (d.cut c.count).content = c.content := by
  obtain ⟨hsame, -, hchildren⟩ := h
  have hcut : (d.cut c.count).children = c.children := hchildren
  rw [content, content, hcut, hsame]
  rfl

theorem Extends.le_length {c d : Cell} (h : c.Extends d) (hc : c.Sound) : c.count ≤ d.slots.length := by
  have hlen := congrArg List.length h.children
  rw [children_length hc, List.length_take] at hlen
  omega

/-- The children that a cell has or had were made from a number on. -/
def From (low : Nat) (c : Cell) : Prop :=
  ∀ i ∈ c.slots, low ≤ i

theorem From.adopt {low i : Nat} {c : Cell} (h : c.From low) (hi : low ≤ i) : (c.adopt i).From low := by
  intro k hk
  rcases List.mem_append.1 hk with hk | hk
  · exact h k (List.mem_of_mem_take hk)
  · rcases List.mem_cons.1 hk with rfl | hk
    · exact hi
    · exact h k (List.mem_of_mem_drop hk)

end Cell

/-! ## Cells of an arena -/

namespace Arena

theorem get_ok {a : Arena} {i : Nat} {c : Cell} (h : a.get i = .ok c) :
    i < a.length ∧ a.cells[i]? = some c := by
  unfold get at h
  split at h
  · rename_i hi
    refine ⟨hi, ?_⟩
    cases hc : a.cells[i]? with
    | none =>
      rw [hc] at h
      cases h
    | some d =>
      rw [hc] at h
      cases h
      rfl
  · cases h

theorem get_of_lt {a : Arena} (h : a.Sound) {i : Nat} (hi : i < a.length) :
    ∃ c, a.get i = .ok c ∧ a.cells[i]? = some c ∧ c.Sound := by
  have hsize := Nat.lt_of_lt_of_le hi h.length_le
  have hc := Array.getElem?_eq_getElem hsize
  refine ⟨a.cells[i], ?_, hc, h.cells _ (Array.getElem_mem hsize)⟩
  simp [get, hi, hc]

theorem cells_set (a : Arena) (i k : Nat) (c : Cell) (hk : k < a.cells.size) :
    (a.set i c).cells[k]? = if i = k then some c else a.cells[k]? := by
  rw [set, Array.getElem?_setIfInBounds]
  split
  · rw [if_pos (by omega)]
  · rfl

theorem cells_push {a : Arena} (h : a.length ≤ a.cells.size) (c : Cell) (k : Nat) :
    (a.push c).2.cells[k]? = if a.length = k then some c else a.cells[k]? := by
  unfold push
  by_cases hi : a.length < a.cells.size
  · simp only [hi, if_true, Array.getElem?_setIfInBounds]
  · have hsize : a.length = a.cells.size := by omega
    simp only [hi, if_false, Array.getElem?_push]
    rw [← hsize]
    simp only [eq_comm]

theorem size_push (a : Arena) (c : Cell) : a.cells.size ≤ (a.push c).2.cells.size := by
  unfold push
  split <;> simp

/-- Arenas look the same if the cells of their nodes do. -/
theorem contents_congr {a b : Arena} (hlen : b.length = a.length)
    (hcells : ∀ i < a.length, (b.cells[i]?).map Cell.content = (a.cells[i]?).map Cell.content) :
    b.contents = a.contents := by
  refine List.ext_getElem? fun i => ?_
  simp only [contents, List.getElem?_map, List.getElem?_take, Array.getElem?_toList, hlen]
  split
  · rename_i hi
    exact hcells i hi
  · rfl

/-! ## Attempts -/

/-- What holds of an arena since a mark was taken for an owner. No present node has had a number from
`high` on, and the marks taken since are not beyond it. -/
structure Attempt (a : Arena) (owner : Option Nat) (high : Nat) (b : Arena) (marks : List Mark) : Prop where
  present : ∀ q, owner = some q → q < a.length
  sound : b.Sound
  root : b.root = a.root
  length_le : a.length ≤ b.length
  below_high : b.length ≤ high
  high_le : high ≤ b.cells.size
  others : ∀ i < a.length, owner ≠ some i → b.cells[i]? = a.cells[i]?
  own : ∀ q c, owner = some q → a.cells[q]? = some c → ∃ d, b.cells[q]? = some d ∧ c.Extends d
  made : ∀ i c, a.length ≤ i → i < high → b.cells[i]? = some c → c.From a.length
  marked : ∀ m ∈ marks, a.length ≤ m.length ∧ m.length ≤ high ∧ ∀ q, m.owner = some q → a.length ≤ q ∨
    owner = some q ∧ ∀ c, a.cells[q]? = some c → c.count ≤ m.count

namespace Attempt

variable {a b : Arena} {owner : Option Nat} {high : Nat} {marks : List Mark}

theorem start (h : a.Sound) (howner : ∀ q, owner = some q → q < a.length) :
    Attempt a owner a.length a [] where
  present := howner
  sound := h
  root := rfl
  length_le := Nat.le_refl _
  below_high := Nat.le_refl _
  high_le := h.length_le
  others _ _ _ := rfl
  own _ c _ hc := ⟨c, hc, .refl c⟩
  made _ _ hlow hhigh := absurd hhigh (Nat.not_lt.2 hlow)
  marked := by simp

/-- A new node has no children yet, whatever its place held before. -/
theorem push (h : Attempt a owner high b marks) {c : Cell} (hc : c.slots = []) (hcount : c.count = 0) :
    Attempt a owner (max high (b.length + 1)) (b.push c).2 marks := by
  have hcells := cells_push h.sound.length_le c
  have hlow := h.length_le
  have hbelow := h.below_high
  have hpushed : (b.push c).2.Sound := push_sound h.sound (by rw [Cell.Sound, hcount]; exact Nat.zero_le _)
  refine ⟨h.present, hpushed, h.root, Nat.le_succ_of_le hlow, Nat.le_max_right _ _, ?_, fun i hi hne => ?_,
    fun q d hq hd => ?_, fun i d hi hhigh hd => ?_, fun m hm => ?_⟩
  · exact Nat.max_le.2 ⟨Nat.le_trans h.high_le (size_push b c), hpushed.length_le⟩
  · rw [hcells, if_neg (by omega), h.others i hi hne]
  · have hlt := h.present q hq
    rw [hcells, if_neg (by omega)]
    exact h.own q d hq hd
  · rw [hcells] at hd
    split at hd
    · obtain rfl := Option.some.inj hd
      rw [Cell.From, hc]
      simp
    · exact h.made i d hi (by omega) hd
  · obtain ⟨hfrom, hto, howner⟩ := h.marked m hm
    exact ⟨hfrom, Nat.le_trans hto (Nat.le_max_left _ _), howner⟩

/-- A node that is the owner of the mark or was made since gets another cell, which holds no older
children and, where it was there before, keeps those it had. -/
theorem set (h : Attempt a owner high b marks) {i : Nat} {c d : Cell} (hget : b.get i = .ok c)
    (hi : owner = some i ∨ a.length ≤ i) (hd : d.Sound) (hfrom : c.From a.length → d.From a.length)
    (hkept : i < a.length → ∀ e : Cell, a.cells[i]? = some e → e.Extends c → e.Extends d) :
    Attempt a owner high (b.set i d) marks := by
  obtain ⟨hlt, hcell⟩ := get_ok hget
  have hlen := h.length_le
  have hbelow := h.below_high
  have hhigh := h.high_le
  have hcells : ∀ k < b.cells.size, (b.set i d).cells[k]? = if i = k then some d else b.cells[k]? :=
    fun k hk => cells_set b i k d hk
  refine ⟨h.present, set_sound h.sound i hd, h.root, hlen, hbelow, ?_, fun k hk hne => ?_,
    fun q e hq he => ?_, fun k e hlow hk he => ?_, h.marked⟩
  · simpa [Arena.set] using hhigh
  · have hne' : i ≠ k := by
      rintro rfl
      exact hne (hi.resolve_right (by omega))
    rw [hcells k (by omega), if_neg hne', h.others k hk hne]
  · have hq' := h.present q hq
    obtain ⟨e', he', hext⟩ := h.own q e hq he
    rw [hcells q (by omega)]
    split
    · rename_i heq
      subst heq
      obtain rfl := Option.some.inj (he'.symm.trans hcell)
      exact ⟨d, rfl, hkept hq' e he hext⟩
    · exact ⟨e', he', hext⟩
  · rw [hcells k (by omega)] at he
    split at he
    · rename_i heq
      subst heq
      obtain rfl := Option.some.inj he
      exact hfrom (h.made i c hlow hk hcell)
    · exact h.made k e hlow hk he

/-! ### Steps -/

theorem get_sound (h : Attempt a owner high b marks) {i : Nat} {c : Cell} (hget : b.get i = .ok c) :
    c.Sound :=
  h.sound.cells c (Array.mem_of_getElem? (get_ok hget).2)

/-- A node made since gets another parent. -/
theorem under (h : Attempt a owner high b marks) {i : Nat} {c : Cell} (hget : b.get i = .ok c)
    (hi : a.length ≤ i) (parent : Option Nat) :
    Attempt a owner high (b.set i (c.under parent)) marks :=
  have hsound : c.Sound := h.get_sound hget
  h.set hget (.inr hi) hsound id fun hlt => absurd hi (Nat.not_le.2 hlt)

theorem attach (h : Attempt a owner high b marks) {p i n : Nat} {b' : Arena} (hi : a.length ≤ i)
    (hp : owner = some p ∨ a.length ≤ p) (hrun : b.attach p i = .ok (n, b')) :
    Attempt a owner high b' marks := by
  simp only [Arena.attach, bind, Except.bind] at hrun
  split at hrun
  · cases hrun
  · rename_i c hc
    split at hrun
    · cases hrun
    · have hunder := h.under hc hi (some p)
      split at hrun
      · cases hrun
      · rename_i d hd
        cases hrun
        have hsound := hunder.get_sound hd
        exact hunder.set hd hp (Cell.sound_adopt hsound i) (fun hfrom => hfrom.adopt hi)
          fun _ e _ hext => hext.adopt hsound i

/-- The child that a node gives way to is not an older one. -/
theorem unwrap (h : Attempt a owner high b marks) {i n : Nat} {b' : Arena} (hi : a.length ≤ i)
    (hrun : b.unwrap i = .ok (n, b')) : Attempt a owner high b' marks := by
  simp only [Arena.unwrap, bind, Except.bind] at hrun
  split at hrun
  · cases hrun
  · rename_i c hc
    split at hrun
    · rename_i only honly
      split at hrun
      · cases hrun
      · split at hrun
        · cases hrun
          exact h
        · obtain ⟨hlt, hcell⟩ := get_ok hc
          have hfrom : c.From a.length := h.made i c hi (Nat.lt_of_lt_of_le hlt h.below_high) hcell
          have hnew : a.length ≤ only := hfrom only (List.mem_of_mem_take (honly ▸ List.mem_singleton_self only))
          have hcut : Attempt a owner high (b.set i (c.cut 0)) marks :=
            h.set hc (.inr hi) (Nat.zero_le _) id fun hold => absurd hi (Nat.not_le.2 hold)
          split at hrun
          · cases hrun
          · rename_i k hk
            cases hrun
            exact hcut.under hk hnew none
    · cases hrun
      exact h

/-- A mark taken since counts, of the children of a node that was there, at least the old ones. -/
theorem mark (h : Attempt a owner high b marks) {q? : Option Nat} {m : Mark}
    (hq : ∀ q, q? = some q → owner = some q ∨ a.length ≤ q) (hrun : b.mark q? = .ok m) :
    Attempt a owner high b (marks ++ [m]) := by
  have hm : a.length ≤ m.length ∧ m.length ≤ high ∧ ∀ q, m.owner = some q → a.length ≤ q ∨
      owner = some q ∧ ∀ c, a.cells[q]? = some c → c.count ≤ m.count := by
    cases q? with
    | none =>
      cases hrun
      exact ⟨h.length_le, h.below_high, by simp⟩
    | some q =>
      simp only [Arena.mark, bind, Except.bind] at hrun
      split at hrun
      · cases hrun
      · rename_i d hd
        cases hrun
        refine ⟨h.length_le, h.below_high, fun r hr => ?_⟩
        obtain rfl := Option.some.inj hr
        refine (hq q rfl).symm.imp_right fun howner => ⟨howner, fun c hc => ?_⟩
        obtain ⟨e, he, hext⟩ := h.own q c howner hc
        obtain rfl := Option.some.inj (he.symm.trans (get_ok hd).2)
        exact hext.count_le
  refine { h with marked := fun k hk => ?_ }
  rcases List.mem_append.1 hk with hk | hk
  · exact h.marked k hk
  · obtain rfl := List.mem_singleton.1 hk
    exact hm

/-- A length between the mark's and the highest may be gone back to, or on to. -/
theorem truncate (h : Attempt a owner high b marks) {n : Nat} (hlow : a.length ≤ n) (hhigh : n ≤ high) :
    Attempt a owner high { b with length := n } marks :=
  { h with
    sound := ⟨Nat.le_trans hhigh h.high_le, h.sound.cells⟩
    length_le := hlow
    below_high := hhigh }

theorem rollback (h : Attempt a owner high b marks) {m : Mark} {b' : Arena} (hm : m ∈ marks)
    (hrun : b.rollback m = .ok b') : Attempt a owner high b' marks := by
  obtain ⟨hlow, hhigh, howner⟩ := h.marked m hm
  have hcut := h.truncate hlow hhigh
  simp only [Arena.rollback, bind, Except.bind] at hrun
  split at hrun
  · cases hrun
    exact hcut
  · rename_i q hq
    split at hrun
    · cases hrun
    · rename_i d hd
      split at hrun
      · cases hrun
      · rename_i hslots
        cases hrun
        refine hcut.set hd ((howner q hq).symm.imp_left And.left) (Nat.not_lt.1 hslots) id fun hold e he hext => ?_
        have hcount := (howner q hq).resolve_left (Nat.not_le.2 hold)
        exact hext.cut (hcount.2 e he)

/-- A step that respects the mark goes on with the attempt. -/
theorem step (h : Attempt a owner high b marks) {op : ArenaOp} {n : Nat}
    (hop : op.Respects ⟨a.length, owner, n⟩) {b' : Arena} {marks' : List Mark}
    (hrun : op.run (b, marks) = .ok (b', marks')) : ∃ high', Attempt a owner high' b' marks' := by
  cases op with
  | rule tag =>
    cases hrun
    exact ⟨_, h.push rfl rfl⟩
  | leaf kind text value line col =>
    cases hrun
    exact ⟨_, h.push rfl rfl⟩
  | attach parent child =>
    simp only [ArenaOp.run, bind, Except.bind] at hrun
    split at hrun
    · cases hrun
    · rename_i heq
      cases hrun
      exact ⟨high, h.attach hop.1 hop.2 heq⟩
  | unwrap id =>
    simp only [ArenaOp.run, bind, Except.bind] at hrun
    split at hrun
    · cases hrun
    · rename_i heq
      cases hrun
      exact ⟨high, h.unwrap hop heq⟩
  | mark q? =>
    simp only [ArenaOp.run, bind, Except.bind] at hrun
    split at hrun
    · cases hrun
    · rename_i heq
      cases hrun
      exact ⟨high, h.mark hop heq⟩
  | rollback place =>
    simp only [ArenaOp.run, bind, Except.bind] at hrun
    split at hrun
    · rename_i m hm
      split at hrun
      · cases hrun
      · rename_i heq
        cases hrun
        exact ⟨high, h.rollback (List.mem_of_getElem? hm) heq⟩
    · cases hrun

theorem run {n : Nat} {ops : List ArenaOp} (hops : ∀ op ∈ ops, op.Respects ⟨a.length, owner, n⟩)
    (h : Attempt a owner high b marks) {b' : Arena} {marks' : List Mark}
    (hrun : ops.foldlM (fun s op => op.run s) (b, marks) = .ok (b', marks')) :
    ∃ high', Attempt a owner high' b' marks' := by
  induction ops generalizing high b marks with
  | nil =>
    cases hrun
    exact ⟨high, h⟩
  | cons op ops ih =>
    rw [List.foldlM_cons] at hrun
    simp only [bind, Except.bind] at hrun
    split at hrun
    · cases hrun
    · rename_i s heq
      obtain ⟨c, more⟩ := s
      obtain ⟨_, hstep⟩ := h.step (hops op List.mem_cons_self) heq
      exact ih (fun k hk => hops k (List.mem_cons_of_mem op hk)) hstep hrun

/-- Going back to the mark succeeds, and nothing of the attempt can be seen any more. -/
theorem restores (h : Attempt a owner high b marks) (ha : a.Sound) {n : Nat}
    (hn : ∀ q c, owner = some q → a.cells[q]? = some c → n = c.count) :
    ∃ c, b.rollback ⟨a.length, owner, n⟩ = .ok c ∧ c.length = a.length ∧ c.root = a.root ∧
      c.contents = a.contents := by
  have hcut := h.truncate (Nat.le_refl a.length) (Nat.le_trans h.length_le h.below_high)
  cases owner with
  | none =>
    refine ⟨_, rfl, rfl, h.root, contents_congr rfl fun i hi => ?_⟩
    exact congrArg _ (h.others i hi nofun)
  | some q =>
    obtain ⟨p, -, hp, hsound⟩ := get_of_lt ha (h.present q rfl)
    obtain ⟨d, hd, hext⟩ := h.own q p rfl hp
    obtain rfl := hn q p rfl hp
    have hget : ({ b with length := a.length } : Arena).get q = .ok d := by
      simp [get, h.present q rfl, hd]
    have hslots : ¬ d.slots.length < p.count := Nat.not_lt.2 (hext.le_length hsound)
    refine ⟨({ b with length := a.length } : Arena).set q (d.cut p.count), ?_, rfl, h.root,
      contents_congr rfl fun i hi => ?_⟩
    · simp [Arena.rollback, hget, hslots, bind, Except.bind, pure, Except.pure]
    · rw [cells_set _ _ _ _ (Nat.lt_of_lt_of_le hi hcut.sound.length_le)]
      split
      · rename_i heq
        subst heq
        rw [hp, Option.map_some, Option.map_some, hext.content_cut]
      · rename_i hne
        rw [h.others i hi (by simpa using hne)]

end Attempt

/-- A mark can be taken for every node, and for none. -/
theorem mark_ok {a : Arena} (h : a.Sound) {owner : Option Nat} (howner : ∀ q, owner = some q → q < a.length) :
    ∃ n, a.mark owner = .ok ⟨a.length, owner, n⟩ ∧
      ∀ q c, owner = some q → a.cells[q]? = some c → n = c.count := by
  cases owner with
  | none => exact ⟨0, rfl, by simp⟩
  | some q =>
    obtain ⟨c, hget, hc, -⟩ := get_of_lt h (howner q rfl)
    refine ⟨c.count, ?_, fun r d hr hd => ?_⟩
    · simp [mark, hget, bind, Except.bind, pure, Except.pure]
    · obtain rfl := Option.some.inj hr
      rw [Option.some.inj (hc.symm.trans hd)]

/-- Whatever is built under a mark and respects it, going back to the mark restores all that can be seen of
the arena: its length, its root and the content of every node. -/
theorem rollback_restores {a : Arena} (ha : a.Sound) {owner : Option Nat}
    (howner : ∀ q, owner = some q → q < a.length) :
    ∃ m, a.mark owner = .ok m ∧
      ∀ ops : List ArenaOp, (∀ op ∈ ops, op.Respects m) → ∀ b marks,
        ops.foldlM (fun s op => op.run s) (a, []) = .ok (b, marks) →
        ∃ c, b.rollback m = .ok c ∧ c.length = a.length ∧ c.root = a.root ∧ c.contents = a.contents := by
  obtain ⟨n, hmark, hn⟩ := mark_ok ha howner
  refine ⟨_, hmark, fun ops hops b marks hrun => ?_⟩
  obtain ⟨_, hend⟩ := (Attempt.start ha howner).run hops hrun
  exact hend.restores ha hn

/-- A body with one leaf. -/
def bodyWithLeaf : Arena where
  cells := #[{ tag := .phrase .body, slots := [1], count := 1 },
    { Cell.leaf (some .name) "A" none 1 7 with parent := some 0 }]
  length := 2

/-- An expression in another is tried with a leaf in it, which is given up, and then alone. -/
def nestedTries : List ArenaOp :=
  [.rule (.named "Expr"), .rule (.named "Expr"), .attach 2 3, .mark (some 0), .leaf (some .name) "B" none 1 9,
    .attach 3 4, .attach 0 2, .rollback 0, .unwrap 2, .attach 0 3]

theorem rollback_restores_body :
    ∃ b c marks, nestedTries.foldlM (fun s op => op.run s) (bodyWithLeaf, []) = .ok (b, marks) ∧
      b.contents.map Cell.children = [[1, 3], [], [], [4]] ∧ b.rollback ⟨2, some 0, 1⟩ = .ok c ∧
      c.contents = bodyWithLeaf.contents := by
  have hsound : bodyWithLeaf.Sound := ⟨by decide, by simp [bodyWithLeaf, Cell.Sound, Cell.leaf]⟩
  obtain ⟨m, hm, hundo⟩ := @rollback_restores bodyWithLeaf hsound (some 0) (by simp [bodyWithLeaf])
  obtain rfl : m = ⟨2, some 0, 1⟩ := (Except.ok.inj hm).symm
  have hrespects : ∀ op ∈ nestedTries, op.Respects ⟨2, some 0, 1⟩ := by simp [nestedTries, ArenaOp.Respects]
  obtain ⟨c, hback, -, -, hsame⟩ := hundo nestedTries hrespects _ _ rfl
  exact ⟨_, c, _, rfl, rfl, hback, hsame⟩

end Arena

end FortranJulia
