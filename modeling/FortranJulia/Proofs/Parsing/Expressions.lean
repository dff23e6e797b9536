import FortranJulia.Proofs.Meaning.Fortran
import FortranJulia.Proofs.Parsing.Derivation

/-!
Expressions that the grammar derives. A node of a level of the grammar holds an expression of that
level: what stands on either side of an operator binds at least as tightly as the grammar says, and
the value of the node is the value of the expression. The induction is on the size of nodes, since
an expression contains itself in parentheses and in exponents only.
-/

namespace FortranJulia

set_option autoImplicit false

/-! ## Levels -/

namespace BinaryOp

/-- The level of an operation, from the weakest to the strongest. Level 2 is that of negations, and
operands that hold no operation are of level 8. -/
def level : BinaryOp → Nat
  | .or => 0
  | .and => 1
  | .eq | .ne | .lt | .le | .gt | .ge => 3
  | .concat => 4
  | .add | .subtract => 5
  | .multiply | .divide => 6
  | .power => 7

end BinaryOp

/-- Is the lexeme a sign? -/
def Lexeme.IsSign (lx : Lexeme) : Prop :=
  lx.kind = .plus ∨ lx.kind = .minus

/-- The expression can stand where the grammar asks for one of a level. Its names, signs and
constants satisfy a condition. -/
inductive Expression.Fits (P : Lexeme → Prop) : Nat → Expression → Prop where
  | constant {lx : Lexeme} (h : P lx) : Fits P 8 (.constant lx)
  | complex (re im : Component) : Fits P 8 (.complex re im)
  | reference {lx : Lexeme} (suffixes : List (List Subscript)) (h : P lx) (hn : Match.isName lx) :
      Fits P 8 (.reference lx suffixes)
  | emptyCall (lx : Lexeme) : Fits P 8 (.emptyCall lx)
  | group {e : Expression} (h : Fits P 0 e) : Fits P 8 (.group e)
  | power {l r : Expression} (hl : Fits P 8 l) (hr : Fits P 7 r) : Fits P 7 (.binary .power l r)
  | power_signed {s : Lexeme} {l r : Expression} (hs : s.IsSign) (h : P s) (hl : Fits P 8 l)
      (hr : Fits P 7 r) : Fits P 7 (.binary .power l (.signed s r))
  | left (op : BinaryOp) {l r : Expression} (hop : op.level ∉ [3, 7]) (hl : Fits P op.level l)
      (hr : Fits P (op.level + 1) r) : Fits P op.level (.binary op l r)
  | signed {s : Lexeme} {e : Expression} (hs : s.IsSign) (h : P s) (he : Fits P 6 e) :
      Fits P 5 (.signed s e)
  | relation {op : BinaryOp} {l r : Expression} (hop : op.level = 3) (hl : Fits P 4 l)
      (hr : Fits P 4 r) : Fits P 3 (.binary op l r)
  | negated {e : Expression} (n : Nat) (h : Fits P 3 e) : Fits P 2 (.negated (n + 1) e)
  | lift {k : Nat} {e : Expression} (h : Fits P (k + 1) e) : Fits P k e

theorem Expression.Fits.mono {P Q : Lexeme → Prop} (hPQ : ∀ lx, P lx → Q lx) {k : Nat}
    {e : Expression} (h : e.Fits P k) : e.Fits Q k := by
  induction h with
  | constant h => exact .constant (hPQ _ h)
  | complex re im => exact .complex re im
  | reference suffixes h hn => exact .reference suffixes (hPQ _ h) hn
  | emptyCall lx => exact .emptyCall lx
  | group _ ih => exact .group ih
  | power _ _ ihl ihr => exact .power ihl ihr
  | power_signed hs h _ _ ihl ihr => exact .power_signed hs (hPQ _ h) ihl ihr
  | left op hop _ _ ihl ihr => exact .left op hop ihl ihr
  | signed hs h _ ih => exact .signed hs (hPQ _ h) ih
  | relation hop _ _ ihl ihr => exact .relation hop ihl ihr
  | negated n _ ih => exact .negated n ih
  | lift _ ih => exact .lift ih

/-! ## Nodes that hold expressions -/

/-- The node holds an expression of a level, made of the lexemes of the node and with its value. -/
structure Node.Reads (k : Nat) (n : Node) : Prop where
  inner : n.isLeaf = false
  reading : ∃ e, Part.ofNode n = .expr e ∧ e.Fits (· ∈ n.lexemes) k ∧
    ∀ p names, n.value p names = e.value p names

/-- The node holds an operation that makes an expression of level `k` of a left operand of level
`j`. -/
def Node.Operates (j k : Nat) (m : Node) : Prop :=
  ∃ op r, Part.ofNode m = .operation op r ∧
    (∀ (P : Lexeme → Prop) l, (∀ lx ∈ m.lexemes, P lx) → l.Fits P j →
      (Expression.binary op l r).Fits P k) ∧
    ∀ p names q rest, Node.operations p names q (m :: rest) =
      (r.value p names).bind fun b =>
        (op.operate p q b).bind fun v => Node.operations p names v rest

theorem Node.Reads.lift {k : Nat} {n : Node} (h : n.Reads (k + 1)) : n.Reads k := by
  obtain ⟨hinner, e, hpart, hfits, hvalue⟩ := h
  exact ⟨hinner, e, hpart, .lift hfits, hvalue⟩

/-- The labels of nodes that are a chain of operations. -/
def Label.isChain : Label → Bool
  | .expr | .orOperand | .level4Expr | .level3Expr | .level2Expr | .addOperand | .multOperand => true
  | _ => false

section Chains

variable {j k : Nat} {l : Label} {i : Nat}

theorem ofNode_chain (hl : l.isChain) (cs : List Node) :
    Part.ofNode (.inner i l cs) = Part.chain (Part.ofNodes cs) := by
  cases l <;> simp [Label.isChain] at hl <;> rfl

theorem value_chain (hl : l.isChain) (cs : List Node) (p : Powers) (names : String → Quantity) :
    (Node.inner i l cs).value p names = Node.chain p names cs := by
  cases l <;> simp [Label.isChain] at hl <;> simp [Node.value]

/-- An operand that is no sign comes first in a chain. -/
theorem chain_operand {c : Node} {e : Expression} (hc : Part.ofNode c = .expr e) (ops : List Node)
    (p : Powers) (names : String → Quantity) :
    Node.chain p names (c :: ops) =
      (c.value p names).bind fun q => Node.operations p names q ops := by
  unfold Node.chain
  split
  · rename_i h
    cases h
  · rename_i h
    cases h
    change Part.sign _ = .expr e at hc
    cases hc
  · rename_i h
    cases h
    rfl

/-- Operations from left to right keep the level that they all have. -/
theorem applyAll_reads {P : Lexeme → Prop} (ops : List Node) :
    ∀ e : Expression, e.Fits P k → (∀ m ∈ ops, m.Operates k k) →
      (∀ lx ∈ Node.lexemesOf ops, P lx) →
      ∃ e', Part.applyAll e (Part.ofNodes ops) = .expr e' ∧ e'.Fits P k ∧
        ∀ p names, (e.value p names).bind (fun q => Node.operations p names q ops) =
          e'.value p names := by
  induction ops with
  | nil =>
    intro e he _ _
    exact ⟨e, rfl, he, fun p names => by simp⟩
  | cons m ops ih =>
    intro e he hops hP
    obtain ⟨op, r, hpart, hfits, hvalue⟩ := hops m (by simp)
    rw [Node.lexemesOf] at hP
    have hbinary := hfits P e (fun lx hlx => hP lx (List.mem_append_left _ hlx)) he
    obtain ⟨e', happly, hfits', hvalue'⟩ := ih (.binary op e r) hbinary
      (fun m hm => hops m (by simp [hm])) (fun lx hlx => hP lx (List.mem_append_right _ hlx))
    refine ⟨e', ?_, hfits', fun p names => ?_⟩
    · rw [Part.ofNodes, hpart]
      exact happly
    · rw [← hvalue' p names, Expression.value]
      cases he : e.value p names with
      | none => rfl
      | some q =>
        rw [Option.bind_some, hvalue p names q ops]
        cases r.value p names <;> rfl

/-- An operand with operations behind it reads as an expression of their level. -/
theorem reads_chain (hl : l.isChain) {c : Node} {ops : List Node} (hc : c.Reads k)
    (hops : ∀ m ∈ ops, m.Operates k k) : (Node.inner i l (c :: ops)).Reads k := by
  obtain ⟨-, e, hpart, hfits, hvalue⟩ := hc
  have hlex : (Node.inner i l (c :: ops)).lexemes = c.lexemes ++ Node.lexemesOf ops := by
    rw [lexemes_inner, Node.lexemesOf]
  have hfits' : e.Fits (· ∈ (Node.inner i l (c :: ops)).lexemes) k :=
    hfits.mono (fun lx hlx => by rw [hlex]; exact List.mem_append_left _ hlx)
  obtain ⟨e', happly, hfits'', hvalue'⟩ := applyAll_reads ops e hfits' hops
    (fun lx hlx => by rw [hlex]; exact List.mem_append_right _ hlx)
  refine ⟨rfl, e', ?_, hfits'', fun p names => ?_⟩
  · rw [ofNode_chain hl, Part.ofNodes, hpart]
    exact happly
  · rw [value_chain hl, chain_operand hpart, ← hvalue' p names, hvalue p names]

/-- An operand with one operation behind it. -/
theorem reads_operation (hl : l.isChain) {c m : Node} (hc : c.Reads j) (hm : m.Operates j k) :
    (Node.inner i l [c, m]).Reads k := by
  obtain ⟨-, e, hpart, hfits, hvalue⟩ := hc
  obtain ⟨op, r, hpart', hfits', hvalue'⟩ := hm
  have hlex : (Node.inner i l [c, m]).lexemes = c.lexemes ++ m.lexemes := by
    simp [lexemes_inner, Node.lexemesOf]
  refine ⟨rfl, .binary op e r, ?_, ?_, fun p names => ?_⟩
  · rw [ofNode_chain hl, Part.ofNodes, Part.ofNodes, Part.ofNodes, hpart, hpart']
    rfl
  · refine hfits' _ e (fun lx hlx => ?_) (hfits.mono (fun lx hlx => ?_))
    · rw [hlex]
      exact List.mem_append_right _ hlx
    · rw [hlex]
      exact List.mem_append_left _ hlx
  · rw [value_chain hl, chain_operand hpart, Expression.value, hvalue p names]
    cases e.value p names with
    | none => rfl
    | some q =>
      rw [Option.bind_some, Option.bind_some, hvalue' p names q []]
      cases r.value p names with
      | none => rfl
      | some b => simp

/-- A sign in front of a product, with sums behind it. -/
theorem reads_signed {s : Lexeme} (hs : s.IsSign) {i' : Nat} {c : Node} {ops : List Node}
    (hc : c.Reads 6) (hops : ∀ m ∈ ops, m.Operates 5 5) :
    (Node.inner i .level2Expr (.inner i' .sign [.leaf j s] :: c :: ops)).Reads 5 := by
  obtain ⟨-, e, hpart, hfits, hvalue⟩ := hc
  have hlex : (Node.inner i .level2Expr (.inner i' .sign [.leaf j s] :: c :: ops)).lexemes =
      s :: (c.lexemes ++ Node.lexemesOf ops) := by
    simp [Node.lexemesOf, Node.lexemes]
  have hsigned : (Expression.signed s e).Fits
      (· ∈ (Node.inner i .level2Expr (.inner i' .sign [.leaf j s] :: c :: ops)).lexemes) 5 := by
    refine .signed hs (by rw [hlex]; simp) (hfits.mono (fun lx hlx => ?_))
    rw [hlex]
    exact List.mem_cons_of_mem _ (List.mem_append_left _ hlx)
  obtain ⟨e', happly, hfits'', hvalue'⟩ := applyAll_reads ops _ hsigned hops (fun lx hlx => by
    rw [hlex]
    exact List.mem_cons_of_mem _ (List.mem_append_right _ hlx))
  refine ⟨rfl, e', ?_, hfits'', fun p names => ?_⟩
  · rw [ofNode_chain rfl, Part.ofNodes, Part.ofNodes, hpart]
    exact happly
  · rw [value_chain rfl, Node.chain, ← hvalue' p names, Expression.value, hvalue p names]

end Chains

/-- A level whose only child is an inner node is that child. -/
theorem collapse_single {i : Nat} {l : Label} {n : Node} (hn : n.isLeaf = false) :
    (Node.inner i l [n]).collapse = n := by
  cases n with
  | leaf => cases hn
  | inner => rfl

theorem collapse_several {i : Nat} {l : Label} {c m : Node} {ops : List Node} :
    (Node.inner i l (c :: m :: ops)).collapse = .inner i l (c :: m :: ops) := by
  cases c <;> rfl

/-! ## Sizes -/

/-- Nodes with less than so many nodes in each of their trees. -/
def Small (size : Nat) (ns : List Node) : Prop :=
  ∀ n ∈ ns, n.nodes.length < size

theorem small_append {size : Nat} {ms ns : List Node} :
    Small size (ms ++ ns) ↔ Small size ms ∧ Small size ns :=
  List.forall_mem_append

theorem child_smaller {i : Nat} {l : Label} {cs : List Node} {c : Node} (hc : c ∈ cs) :
    c.nodes.length < (Node.inner i l cs).nodes.length := by
  have hsub : c.nodes.Sublist (Node.nodesOf cs) := by
    rw [nodesOf_map]
    exact List.sublist_flatten_of_mem (List.mem_map.2 ⟨c, hc, rfl⟩)
  have hle := hsub.length_le
  rw [Node.nodes, List.length_cons]
  omega

theorem small_children {size i : Nat} {l : Label} {cs : List Node}
    (h : Small (size + 1) [.inner i l cs]) : Small size cs := by
  intro c hc
  have hsize := h _ (List.mem_singleton_self _)
  have hchild := child_smaller (i := i) (l := l) hc
  omega

theorem Small.mono {size : Nat} {ns : List Node} (h : Small size ns) : Small (size + 1) ns :=
  fun n hn => Nat.lt_succ_of_lt (h n hn)

/-- The children of a level are no larger than what the level leaves. -/
theorem small_collapse {size i : Nat} {l : Label} {cs : List Node}
    (h : Small size [(Node.inner i l cs).collapse]) : Small size cs := by
  unfold Node.collapse at h
  split at h
  · rename_i heq
    cases heq
    exact h
  · exact small_children h.mono

/-- A pattern derives single nodes of a level, as long as these are small. -/
def Within (size k : Nat) (p : Pattern) : Prop :=
  ∀ ns, Small size ns → Derives grammar p ns → ∃ n, ns = [n] ∧ n.Reads k

/-- A pattern derives single nodes that hold operations, as long as these are small. -/
def OperatesWithin (size j k : Nat) (p : Pattern) : Prop :=
  ∀ ns, Small size ns → Derives grammar p ns → ∃ m, ns = [m] ∧ m.Operates j k

/-! ## Rules for operations -/

section Rules

variable {size j k : Nat}

theorem star_operates {p : Pattern} (hp : OperatesWithin size j k p) {ns : List Node}
    (hsmall : Small size ns) (h : Derives grammar (.star p) ns) : ∀ m ∈ ns, m.Operates j k := by
  obtain ⟨groups, rfl, hgroups⟩ := derives_star h
  intro m hm
  obtain ⟨ms, hms, hm⟩ := List.mem_flatten.1 hm
  have hsmall' : Small size ms := fun n hn => hsmall n (List.mem_flatten.2 ⟨ms, hms, hn⟩)
  obtain ⟨m', rfl, hoperates⟩ := hp ms hsmall' (hgroups ms hms)
  rwa [List.mem_singleton.1 hm]

/-- A level that groups to the left. -/
theorem chain_within {l : Label} (hl : l.isChain) {p q : Pattern} (hp : Within size (k + 1) p)
    (hq : OperatesWithin size k k q) : Within size k (.level l (.seq p (.star q))) := by
  intro ns hsmall h
  obtain ⟨i, cs, rfl, hbody⟩ := derives_level.1 h
  obtain ⟨ms, ops, rfl, hms, hops⟩ := derives_seq.1 hbody
  obtain ⟨hsmall₁, hsmall₂⟩ := small_append.1 (small_collapse hsmall)
  obtain ⟨c, rfl, hc⟩ := hp ms hsmall₁ hms
  have hoperates := star_operates hq hsmall₂ hops
  cases ops with
  | nil => exact ⟨c, by rw [List.append_nil, collapse_single hc.inner], hc.lift⟩
  | cons m ops =>
    refine ⟨.inner i l (c :: m :: ops), ?_, reads_chain hl hc.lift hoperates⟩
    rw [List.singleton_append, collapse_several]

/-- A level with at most one operation. -/
theorem operation_within {l : Label} (hl : l.isChain) {p q : Pattern} (hp : Within size (k + 1) p)
    (hq : OperatesWithin size (k + 1) k q) : Within size k (.level l (.seq p (.opt q))) := by
  intro ns hsmall h
  obtain ⟨i, cs, rfl, hbody⟩ := derives_level.1 h
  obtain ⟨ms, ops, rfl, hms, hops⟩ := derives_seq.1 hbody
  obtain ⟨hsmall₁, hsmall₂⟩ := small_append.1 (small_collapse hsmall)
  obtain ⟨c, rfl, hc⟩ := hp ms hsmall₁ hms
  rcases derives_opt.1 hops with rfl | hops
  · exact ⟨c, by rw [List.append_nil, collapse_single hc.inner], hc.lift⟩
  · obtain ⟨m, rfl, hm⟩ := hq ops hsmall₂ hops
    refine ⟨.inner i l [c, m], ?_, reads_operation hl hc hm⟩
    rw [List.singleton_append, collapse_several]

/-- An operator and its right operand. -/
theorem operates_within {l : Label} {tok p : Pattern} {right : Nat}
    (htok : ∀ ns, Derives grammar tok ns → ∃ i lx op, ns = [.leaf i lx] ∧
      (∀ e, Part.ofInner l [.token lx, .expr e] = .operation op e) ∧
      (∀ q, Quantity.operate q lx.kind = op.operate q) ∧
      ∀ (P : Lexeme → Prop) a b, a.Fits P j → b.Fits P right → (Expression.binary op a b).Fits P k)
    (hp : Within size right p) : OperatesWithin size j k (.node l (.seq tok p)) := by
  intro ns hsmall h
  obtain ⟨i, cs, rfl, hbody⟩ := derives_node.1 h
  obtain ⟨ts, ms, rfl, hts, hms⟩ := derives_seq.1 hbody
  obtain ⟨i', lx, op, rfl, hop, hoperate, hfits⟩ := htok ts hts
  obtain ⟨-, hsmall'⟩ := small_append.1 (small_children hsmall.mono)
  obtain ⟨c, rfl, -, e, hpart, hfits', hvalue⟩ := hp ms hsmall' hms
  refine ⟨_, rfl, op, e, ?_, fun P a hP ha => hfits P a e ha (hfits'.mono (fun lx hlx => hP lx ?_)),
    fun q names v rest => ?_⟩
  · rw [Part.ofNode, List.singleton_append, Part.ofNodes, Part.ofNodes, Part.ofNodes, hpart]
    exact hop e
  · simp [Node.lexemes, Node.lexemesOf, hlx]
  · rw [List.singleton_append, Node.operations, chain_operand hpart, hvalue q names, hoperate q]
    cases e.value q names with
    | none => rfl
    | some b => simp

end Rules

/-! ## Primaries -/

theorem derives_sign {ns : List Node} (h : Derives grammar Grammar.sign ns) :
    ∃ i j s, ns = [.inner i .sign [.leaf j s]] ∧ s.IsSign := by
  obtain ⟨i, cs, rfl, hbody⟩ := derives_node.1 h
  obtain ⟨j, s, rfl, hkind⟩ := derives_oneOf.1 hbody
  exact ⟨i, j, s, rfl, by simpa [Lexeme.IsSign] using hkind⟩

theorem derives_name {l : Label} {ns : List Node} (h : Derives grammar (Pattern.name l) ns) :
    ∃ i j lx, ns = [.inner i l [.leaf j lx]] ∧ Match.isName lx := by
  obtain ⟨i, cs, rfl, hbody⟩ := derives_node.1 h
  obtain ⟨j, lx, rfl, hname⟩ := derives_word.1 hbody
  exact ⟨i, j, lx, rfl, hname⟩

/-- A name is no constant. -/
theorem quantity_name {lx : Lexeme} (h : Match.isName lx) : lx.quantity = none := by
  have hkind : lx.kind = .name ∨ lx.kind = .editConst := by
    simp only [Match.isName, Bool.or_eq_true, Bool.and_eq_true, beq_iff_eq] at h
    rcases h with h | h
    · exact .inl h
    · exact .inr h.1
  rcases hkind with hkind | hkind <;> simp [Lexeme.quantity, hkind]

/-- A constant under a label of its own. -/
theorem reads_constant {l : Label} (hl : l ∈ [.primary, .logicalConstant, .unsignedArithmeticConstant])
    (i j : Nat) (lx : Lexeme) : (Node.inner i l [.leaf j lx]).Reads 8 := by
  refine ⟨rfl, .constant lx, ?_, .constant ?_, fun p names => ?_⟩
  · simp only [List.mem_cons, List.not_mem_nil, or_false] at hl
    rcases hl with rfl | rfl | rfl <;> rfl
  · simp [Node.lexemes, Node.lexemesOf]
  · have hchain : (Node.inner i l [.leaf j lx]).value p names =
        Node.chain p names [.leaf j lx] := by
      simp only [List.mem_cons, List.not_mem_nil, or_false] at hl
      rcases hl with rfl | rfl | rfl <;> simp [Node.value]
    rw [hchain]
    simp [Expression.value]

/-- A node around another one that holds an expression. -/
theorem reads_wrapped {l : Label} (hl : l = .primary ∨ l = .unsignedArithmeticConstant) (i : Nat)
    {c : Node} (hc : c.Reads 8) : (Node.inner i l [c]).Reads 8 := by
  obtain ⟨hinner, e, hpart, hfits, hvalue⟩ := hc
  refine ⟨rfl, e, ?_, hfits.mono (fun lx hlx => ?_), fun p names => ?_⟩
  · rw [Part.ofNode, Part.ofNodes, Part.ofNodes, hpart]
    rcases hl with rfl | rfl <;> rfl
  · simpa [Node.lexemes, Node.lexemesOf] using hlx
  · have hchain : (Node.inner i l [c]).value p names = Node.chain p names [c] := by
      rcases hl with rfl | rfl <;> simp [Node.value]
    rw [hchain, chain_operand hpart, hvalue p names]
    cases e.value p names <;> rfl

/-- An expression in parentheses. -/
theorem reads_group (i j₁ j₂ : Nat) (lx₁ lx₂ : Lexeme) {c : Node} (hc : c.Reads 0) :
    (Node.inner i .primary [.leaf j₁ lx₁, c, .leaf j₂ lx₂]).Reads 8 := by
  obtain ⟨hinner, e, hpart, hfits, hvalue⟩ := hc
  refine ⟨rfl, .group e, ?_, .group (hfits.mono (fun lx hlx => ?_)), fun p names => ?_⟩
  · rw [Part.ofNode, Part.ofNodes, Part.ofNodes, Part.ofNodes, Part.ofNodes, hpart]
    rfl
  · simp [Node.lexemes, Node.lexemesOf, hlx]
  · rw [Node.value, hvalue p names, Expression.value]

theorem derives_component {ns : List Node} (h : Derives grammar Grammar.complexComponent ns) :
    ∃ n c, ns = [n] ∧ Part.ofNode n = .component c := by
  obtain ⟨i, cs, rfl, hbody⟩ := derives_node.1 h
  obtain ⟨ss, ts, rfl, hss, hts⟩ := derives_seq.1 hbody
  obtain ⟨j, lx, rfl, -⟩ := derives_oneOf.1 hts
  rcases derives_opt.1 hss with rfl | hss
  · exact ⟨_, _, rfl, rfl⟩
  · obtain ⟨i', j', s, rfl, -⟩ := derives_sign hss
    exact ⟨_, _, rfl, rfl⟩

theorem complexConst_within (size : Nat) : Within size 8 Grammar.complexConst := by
  intro ns _ h
  obtain ⟨i, cs, rfl, hbody⟩ := derives_node.1 h
  simp only [Pattern.all, derives_seq, derives_token] at hbody
  obtain ⟨_, _, rfl, ⟨j₁, t₁, rfl, h₁⟩, _, _, rfl, hre, _, _, rfl, ⟨j₂, t₂, rfl, -⟩, _, _, rfl, him,
    j₃, t₃, rfl, -⟩ := hbody
  obtain ⟨re, c, rfl, hc⟩ := derives_component hre
  obtain ⟨im, d, rfl, hd⟩ := derives_component him
  refine ⟨_, rfl, rfl, .complex c d, ?_, .complex c d, fun p names => ?_⟩
  · simp only [List.singleton_append, Part.ofNode, Part.ofNodes, hc, hd]
    rfl
  · simp [Node.value, Lexeme.quantity, h₁, Expression.value]

theorem unsignedArithmeticConstant_within (size : Nat) :
    Within size 8 Grammar.unsignedArithmeticConstant := by
  intro ns hsmall h
  obtain ⟨i, cs, rfl, hbody⟩ := derives_node.1 h
  rcases derives_alt.1 hbody with hbody | hbody
  · obtain ⟨c, rfl, hc⟩ := complexConst_within size cs (small_children hsmall.mono) hbody
    exact ⟨_, rfl, reads_wrapped (.inr rfl) i hc⟩
  · obtain ⟨j, lx, rfl, -⟩ := derives_oneOf.1 hbody
    exact ⟨_, rfl, reads_constant (by simp) i j lx⟩

theorem logicalConstant_within (size : Nat) : Within size 8 Grammar.logicalConstant := by
  intro ns _ h
  obtain ⟨i, cs, rfl, hbody⟩ := derives_node.1 h
  obtain ⟨j, lx, rfl, -⟩ := derives_oneOf.1 hbody
  exact ⟨_, rfl, reads_constant (by simp) i j lx⟩

theorem functionReference_within (size : Nat) : Within size 8 Grammar.functionReference := by
  intro ns _ h
  obtain ⟨i, cs, rfl, hbody⟩ := derives_node.1 h
  simp only [Pattern.all, derives_seq, derives_token] at hbody
  obtain ⟨_, _, rfl, hname, _, _, rfl, ⟨j₁, t₁, rfl, -⟩, j₂, t₂, rfl, -⟩ := hbody
  obtain ⟨i', j, lx, rfl, hlx⟩ := derives_name hname
  refine ⟨_, rfl, rfl, .emptyCall lx, rfl, .emptyCall lx, fun p names => ?_⟩
  simp [Node.value, Node.chain, quantity_name hlx, Expression.value]

theorem derives_tail {ns : List Node} (h : Derives grammar Grammar.complexDataRefTail ns) :
    ∃ n items, ns = [n] ∧ Part.ofNode n = .suffix items := by
  obtain ⟨i, cs, rfl, hbody⟩ := derives_node.1 h
  simp only [Pattern.all, derives_seq, derives_token] at hbody
  obtain ⟨_, _, rfl, ⟨j₁, t₁, rfl, -⟩, _, _, rfl, hlist, j₂, t₂, rfl, -⟩ := hbody
  obtain ⟨i', ds, rfl, -⟩ := derives_node.1 hlist
  exact ⟨_, _, rfl, rfl⟩

theorem nameDataRef_within (size : Nat) : Within size 8 Grammar.nameDataRef := by
  intro ns _ h
  obtain ⟨i, cs, rfl, hbody⟩ := derives_node.1 h
  obtain ⟨ms, tails, rfl, hname, htails⟩ := derives_seq.1 hbody
  obtain ⟨i', j, lx, rfl, hlx⟩ := derives_name hname
  refine ⟨_, rfl, rfl, .reference lx ((Part.ofNodes tails).filterMap Part.suffix?), rfl,
    .reference _ ?_ hlx, fun p names => ?_⟩
  · simp [Node.lexemes, Node.lexemesOf]
  · -- With a list in parentheses there is a suffix, and then no value on either side.
    obtain ⟨groups, rfl, hgroups⟩ := derives_star htails
    cases groups with
    | nil => simp [Node.value, Part.ofNodes, Expression.value]
    | cons ms groups =>
      obtain ⟨n, items, rfl, hpart⟩ := derives_tail (hgroups ms (by simp))
      have hvalue : (Expression.reference lx ((Part.ofNodes ([n] :: groups).flatten).filterMap
          Part.suffix?)).value p names = none := by
        simp [Part.ofNodes, hpart, Part.suffix?, Expression.value]
      rw [hvalue]
      simp [Node.value, Node.chain, quantity_name hlx]

theorem primary_within {size : Nat} (hexpr : Within size 0 Grammar.expr) :
    Within (size + 1) 8 Grammar.primary := by
  intro ns hsmall h
  obtain ⟨i, cs, rfl, hbody⟩ := derives_node.1 h
  have hcs := small_children hsmall
  simp only [Pattern.first, Pattern.all, derives_alt, derives_seq, derives_token, derives_oneOf]
    at hbody
  rcases hbody with h | h | h | h | h | h | h
  · obtain ⟨c, rfl, hc⟩ := unsignedArithmeticConstant_within size cs hcs h
    exact ⟨_, rfl, reads_wrapped (.inl rfl) i hc⟩
  · obtain ⟨c, rfl, hc⟩ := functionReference_within size cs hcs h
    exact ⟨_, rfl, reads_wrapped (.inl rfl) i hc⟩
  · obtain ⟨c, rfl, hc⟩ := nameDataRef_within size cs hcs h
    exact ⟨_, rfl, reads_wrapped (.inl rfl) i hc⟩
  · obtain ⟨_, _, rfl, ⟨j₁, t₁, rfl, -⟩, ms, _, rfl, hms, j₂, t₂, rfl, -⟩ := h
    have hsmall' : Small size ms := fun n hn => hcs n (by simp [hn])
    obtain ⟨c, rfl, hc⟩ := hexpr ms hsmall' hms
    exact ⟨_, rfl, reads_group i j₁ j₂ t₁ t₂ hc⟩
  · obtain ⟨j, lx, rfl, -⟩ := h
    exact ⟨_, rfl, reads_constant (by simp) i j lx⟩
  · obtain ⟨c, rfl, hc⟩ := logicalConstant_within size cs hcs h
    exact ⟨_, rfl, reads_wrapped (.inl rfl) i hc⟩
  · obtain ⟨j, lx, rfl, -⟩ := h
    exact ⟨_, rfl, reads_constant (by simp) i j lx⟩

/-! ## Levels of the grammar -/

/-- An exponent may have a sign. -/
theorem powerOp_within {size : Nat} (hmult : Within size 7 Grammar.multOperand) :
    OperatesWithin (size + 1) 8 7 (.node .powerOp
      (Pattern.all [.token .starStar, .opt Grammar.sign, .call .multOperand])) := by
  intro ns hsmall h
  obtain ⟨i, cs, rfl, hbody⟩ := derives_node.1 h
  obtain ⟨_, _, rfl, htok, hrest⟩ := derives_seq.1 hbody
  obtain ⟨j, lx, rfl, hkind⟩ := derives_token.1 htok
  obtain ⟨ss, ms, rfl, hss, hms⟩ := derives_seq.1 hrest
  have hcs := small_children hsmall
  have hsmall' : Small size ms := fun n hn => hcs n (by simp [hn])
  obtain ⟨c, rfl, -, e, hpart, hfits, hvalue⟩ := hmult ms hsmall' hms
  rcases derives_opt.1 hss with rfl | hss
  · refine ⟨_, rfl, .power, e, ?_, fun P l hP hl => .power hl (hfits.mono (fun t ht => hP t ?_)),
      fun p names q rest => ?_⟩
    · simp only [List.singleton_append, List.nil_append, Part.ofNode, Part.ofNodes, hpart]
      rfl
    · simp [Node.lexemes, Node.lexemesOf, ht]
    · simp only [List.singleton_append, List.nil_append]
      rw [Node.operations, chain_operand hpart, hvalue p names, hkind]
      cases e.value p names <;> simp [BinaryOp.operate]
  · obtain ⟨i', j', s, rfl, hs⟩ := derives_sign hss
    refine ⟨_, rfl, .power, .signed s e, ?_, fun P l hP hl =>
      .power_signed hs (hP s ?_) hl (hfits.mono (fun t ht => hP t ?_)), fun p names q rest => ?_⟩
    · simp only [List.singleton_append, Part.ofNode, Part.ofNodes, hpart]
      rfl
    · simp [Node.lexemes, Node.lexemesOf]
    · simp [Node.lexemes, Node.lexemesOf, ht]
    · simp only [List.singleton_append]
      rw [Node.operations, Node.chain, Expression.value, hvalue p names, hkind]
      cases e.value p names with
      | none => rfl
      | some b =>
        cases hb : Quantity.signed s.kind b <;> simp [hb, BinaryOp.operate]

theorem multOperand_within {size : Nat} (hexpr : Within size 0 Grammar.expr)
    (hmult : Within size 7 Grammar.multOperand) : Within (size + 1) 7 Grammar.multOperand := by
  intro ns hsmall h
  exact operation_within (l := .multOperand) rfl (primary_within hexpr) (powerOp_within hmult) ns
    hsmall (derives_call.1 h)

section Levels

variable {size : Nat}

/-- The part of an arithmetic operator and its operand. -/
theorem arithmetic_part {l : Label} (hl : l = .addOp ∨ l = .multOp) {lx : Lexeme} {op : BinaryOp}
    (h : BinaryOp.ofArithmetic? lx.kind = some op) (e : Expression) :
    Part.ofInner l [.token lx, .expr e] = .operation op e := by
  have hpart : Part.ofInner l [.token lx, .expr e] =
      Part.operationOf (BinaryOp.ofArithmetic? lx.kind) e := by
    rcases hl with rfl | rfl <;> rfl
  rw [hpart, h]
  rfl

theorem addOperand_within (hmult : Within size 7 Grammar.multOperand) :
    Within size 6 Grammar.addOperand := by
  refine chain_within rfl hmult (operates_within (fun ns h => ?_) hmult)
  obtain ⟨i, lx, rfl, hkind⟩ := derives_oneOf.1 h
  simp only [List.mem_cons, List.not_mem_nil, or_false] at hkind
  rcases hkind with hkind | hkind
  · exact ⟨i, lx, .multiply, rfl, arithmetic_part (.inr rfl) (by rw [hkind]; rfl),
      fun q => by rw [hkind]; rfl, fun P a b => .left .multiply (by decide)⟩
  · exact ⟨i, lx, .divide, rfl, arithmetic_part (.inr rfl) (by rw [hkind]; rfl),
      fun q => by rw [hkind]; rfl, fun P a b => .left .divide (by decide)⟩

theorem addOp_within (hadd : Within size 6 Grammar.addOperand) :
    OperatesWithin size 5 5 (.node .addOp (.seq (.oneOf [.plus, .minus]) Grammar.addOperand)) := by
  refine operates_within (fun ns h => ?_) hadd
  obtain ⟨i, lx, rfl, hkind⟩ := derives_oneOf.1 h
  simp only [List.mem_cons, List.not_mem_nil, or_false] at hkind
  rcases hkind with hkind | hkind
  · exact ⟨i, lx, .add, rfl, arithmetic_part (.inl rfl) (by rw [hkind]; rfl),
      fun q => by rw [hkind]; rfl, fun P a b => .left .add (by decide)⟩
  · exact ⟨i, lx, .subtract, rfl, arithmetic_part (.inl rfl) (by rw [hkind]; rfl),
      fun q => by rw [hkind]; rfl, fun P a b => .left .subtract (by decide)⟩

/-- Sums: the first operand may have a sign, which then stands before its whole product. -/
theorem level2Expr_within (hadd : Within size 6 Grammar.addOperand) :
    Within size 5 Grammar.level2Expr := by
  intro ns hsmall h
  obtain ⟨i, cs, rfl, hbody⟩ := derives_level.1 h
  obtain ⟨ss, _, rfl, hss, hrest⟩ := derives_seq.1 hbody
  obtain ⟨ms, ops, rfl, hms, hops⟩ := derives_seq.1 hrest
  obtain ⟨-, hsmall'⟩ := small_append.1 (small_collapse hsmall)
  obtain ⟨hsmall₁, hsmall₂⟩ := small_append.1 hsmall'
  obtain ⟨c, rfl, hc⟩ := hadd ms hsmall₁ hms
  have hoperates := star_operates (addOp_within hadd) hsmall₂ hops
  rcases derives_opt.1 hss with rfl | hss
  · rw [List.nil_append]
    cases ops with
    | nil => exact ⟨c, by rw [List.append_nil, collapse_single hc.inner], hc.lift⟩
    | cons m ops =>
      refine ⟨.inner i .level2Expr (c :: m :: ops), ?_, reads_chain rfl hc.lift hoperates⟩
      rw [List.singleton_append, collapse_several]
  · obtain ⟨i', j', s, rfl, hs⟩ := derives_sign hss
    refine ⟨.inner i .level2Expr (.inner i' .sign [.leaf j' s] :: c :: ops), ?_,
      reads_signed hs hc hoperates⟩
    rw [List.singleton_append, List.singleton_append, collapse_several]

theorem concatOp_within (hsum : Within size 5 Grammar.level2Expr) :
    OperatesWithin size 4 4 (.node .concatOp
      (Pattern.all [.token .slash, .token .slash, Grammar.level2Expr])) := by
  intro ns hsmall h
  obtain ⟨i, cs, rfl, hbody⟩ := derives_node.1 h
  have hcs := small_children hsmall.mono
  simp only [Pattern.all, derives_seq, derives_token] at hbody
  obtain ⟨_, _, rfl, ⟨j₁, t₁, rfl, -⟩, _, ms, rfl, ⟨j₂, t₂, rfl, h₂⟩, hms⟩ := hbody
  have hsmall' : Small size ms := fun n hn => hcs n (by simp [hn])
  obtain ⟨c, rfl, -, e, hpart, hfits, -⟩ := hsum ms hsmall' hms
  refine ⟨_, rfl, .concat, e, ?_, fun P l hP hl =>
    .left .concat (by decide) hl (hfits.mono (fun t ht => hP t ?_)), fun p names q rest => ?_⟩
  · simp only [List.singleton_append, Part.ofNode, Part.ofNodes, hpart]
    rfl
  · simp [Node.lexemes, Node.lexemesOf, ht]
  · simp only [List.singleton_append]
    rw [Node.operations, Node.chain]
    · cases e.value p names <;> simp [Node.value, Lexeme.quantity, h₂, BinaryOp.operate]
    · simp

theorem level3Expr_within (hsum : Within size 5 Grammar.level2Expr) :
    Within size 4 Grammar.level3Expr :=
  chain_within rfl hsum (concatOp_within hsum)

theorem level4Expr_within (hconcat : Within size 4 Grammar.level3Expr) :
    Within size 3 Grammar.level4Expr := by
  refine operation_within rfl hconcat (operates_within (fun ns h => ?_) hconcat)
  obtain ⟨i, lx, rfl, hkind⟩ := derives_oneOf.1 h
  have hop : ∃ op, BinaryOp.ofRelation? lx.kind = some op ∧ op.level = 3 ∧
      ∀ q, Quantity.operate q lx.kind = op.operate q := by
    simp only [List.mem_cons, List.not_mem_nil, or_false] at hkind
    rcases hkind with hkind | hkind | hkind | hkind | hkind | hkind <;> rw [hkind] <;>
      exact ⟨_, rfl, rfl, fun _ => rfl⟩
  obtain ⟨op, hof, hlevel, hoperate⟩ := hop
  refine ⟨i, lx, op, rfl, fun e => ?_, hoperate, fun P a b => .relation hlevel⟩
  show Part.operationOf (BinaryOp.ofRelation? lx.kind) e = .operation op e
  rw [hof]
  rfl

/-- An operand behind negations holds that many of them. -/
theorem negations_reads {nots : List Node} (hnots : ∀ n ∈ nots, ∃ i lx, n = .leaf i lx ∧
    lx.kind = .notOp) {c : Node} {e : Expression} (hpart : Part.ofNode c = .expr e) :
    (∀ count, Part.negations count (Part.ofNodes (nots ++ [c])) =
      .expr (if count + nots.length == 0 then e else .negated (count + nots.length) e)) ∧
    ∀ p names, Node.negations p names (nots ++ [c]) =
      (c.value p names).bind (Quantity.opposites nots.length) := by
  induction nots with
  | nil =>
    refine ⟨fun count => ?_, fun p names => ?_⟩
    · rw [List.nil_append, Part.ofNodes, Part.ofNodes, hpart]
      rfl
    · cases hc : c.value p names <;> simp [Node.negations, hc, Quantity.opposites]
  | cons n nots ih =>
    obtain ⟨i, lx, rfl, hkind⟩ := hnots n (by simp)
    obtain ⟨hcount, hvalue⟩ := ih (fun m hm => hnots m (by simp [hm]))
    refine ⟨fun count => ?_, fun p names => ?_⟩
    · have hlen : count + 1 + nots.length = count + (nots.length + 1) := by omega
      rw [List.cons_append, Part.ofNodes, Part.ofNode, Part.negations, hcount, hlen,
        List.length_cons]
    · obtain ⟨m, rest, hrest⟩ : ∃ m rest, nots ++ [c] = m :: rest := by
        cases nots <;> simp
      rw [List.cons_append, hrest, Node.negations, ← hrest, hvalue p names, hkind]
      · cases c.value p names <;> simp [Quantity.opposites]
      · simp

theorem andOperand_within (hrel : Within size 3 Grammar.level4Expr) :
    Within size 2 Grammar.andOperand := by
  intro ns hsmall h
  obtain ⟨i, cs, rfl, hbody⟩ := derives_level.1 h
  obtain ⟨nots, ms, rfl, hnots, hms⟩ := derives_seq.1 hbody
  obtain ⟨-, hsmall'⟩ := small_append.1 (small_collapse hsmall)
  obtain ⟨c, rfl, hc⟩ := hrel ms hsmall' hms
  have hnots' : ∀ n ∈ nots, ∃ i lx, n = .leaf i lx ∧ lx.kind = .notOp := by
    obtain ⟨groups, rfl, hgroups⟩ := derives_star hnots
    intro n hn
    obtain ⟨ks, hks, hn⟩ := List.mem_flatten.1 hn
    obtain ⟨j, lx, rfl, hkind⟩ := derives_token.1 (hgroups ks hks)
    exact ⟨j, lx, List.mem_singleton.1 hn, hkind⟩
  cases nots with
  | nil => exact ⟨c, by rw [List.nil_append, collapse_single hc.inner], hc.lift⟩
  | cons n nots =>
    obtain ⟨j, lx, rfl, hkind⟩ := hnots' n (by simp)
    obtain ⟨-, e, hpart, hfits, hvalue⟩ := hc
    obtain ⟨hcount, hvalue'⟩ := negations_reads hnots' hpart
    refine ⟨.inner i .andOperand (.leaf j lx :: nots ++ [c]), rfl, rfl,
      .negated (nots.length + 1) e, ?_, .negated _ (hfits.mono (fun t ht => ?_)), fun p names => ?_⟩
    · have hpart' := hcount 0
      rw [Nat.zero_add] at hpart'
      exact hpart'
    · simp [Node.lexemes, Node.lexemesOf, lexemesOf_append, ht]
    · simp only [Node.value, hvalue' p names, hvalue p names, Expression.value, List.length_cons]

theorem orOperand_within (hnot : Within size 2 Grammar.andOperand) :
    Within size 1 Grammar.orOperand := by
  refine chain_within rfl hnot (operates_within (fun ns h => ?_) hnot)
  obtain ⟨i, lx, rfl, hkind⟩ := derives_token.1 h
  exact ⟨i, lx, .and, rfl, fun e => rfl, fun q => by rw [hkind]; rfl,
    fun P a b => .left .and (by decide)⟩

/-- The outermost level keeps its node. -/
theorem expr_within (hand : Within size 1 Grammar.orOperand) : Within size 0 Grammar.expr := by
  have hop : OperatesWithin size 0 0 (.node .orOp (.seq (.token .orOp) Grammar.orOperand)) := by
    refine operates_within (fun ns h => ?_) hand
    obtain ⟨i, lx, rfl, hkind⟩ := derives_token.1 h
    exact ⟨i, lx, .or, rfl, fun e => rfl, fun q => by rw [hkind]; rfl,
      fun P a b => .left .or (by decide)⟩
  intro ns hsmall h
  obtain ⟨i, cs, rfl, hbody⟩ := derives_node.1 (derives_call.1 h)
  obtain ⟨ms, ops, rfl, hms, hops⟩ := derives_seq.1 hbody
  obtain ⟨hsmall₁, hsmall₂⟩ := small_append.1 (small_children hsmall.mono)
  obtain ⟨c, rfl, hc⟩ := hand ms hsmall₁ hms
  exact ⟨_, rfl, reads_chain rfl hc.lift (star_operates hop hsmall₂ hops)⟩

end Levels

/-! ## Main statement -/

theorem expr_multOperand_within (size : Nat) :
    Within size 0 Grammar.expr ∧ Within size 7 Grammar.multOperand := by
  induction size with
  | zero =>
    -- No node is that small, and no pattern for an expression derives nothing.
    have hnone : ∀ ns, Small 0 ns → ns = [] := by
      intro ns hsmall
      cases ns with
      | nil => rfl
      | cons n ns => exact absurd (hsmall n (by simp)) (Nat.not_lt_zero _)
    refine ⟨fun ns hsmall h => ?_, fun ns hsmall h => ?_⟩
    · obtain ⟨i, cs, hns, -⟩ := derives_node.1 (derives_call.1 h)
      rw [hnone ns hsmall] at hns
      cases hns
    · obtain ⟨i, cs, hns, -⟩ := derives_level.1 (derives_call.1 h)
      rw [hnone ns hsmall] at hns
      cases hns
  | succ size ih =>
    have hmult := multOperand_within ih.1 ih.2
    have hsum := level2Expr_within (addOperand_within hmult)
    have hrel := level4Expr_within (level3Expr_within hsum)
    exact ⟨expr_within (orOperand_within (andOperand_within hrel)), hmult⟩

/-- What the grammar derives as an expression is one node that reads as an expression. -/
theorem derives_expr {ns : List Node} (h : Derives grammar Grammar.expr ns) :
    ∃ n, ns = [n] ∧ n.Reads 0 := by
  obtain ⟨i, cs, rfl, -⟩ := derives_node.1 (derives_call.1 h)
  refine (expr_multOperand_within ((Node.inner i .expr cs).nodes.length + 1)).1 _ ?_ h
  intro n hn
  rw [List.mem_singleton.1 hn]
  exact Nat.lt_succ_self _

theorem expr_rule : ∀ rule ∈ rulesFor grammarPatterns .expr, rule = Grammar.exprBody := by
  have hall : grammarPatterns.all (Pattern.everyRule fun rule =>
      !decide (rule.label? = some .expr) || decide (rule = Grammar.exprBody)) := by
    decide +kernel
  intro rule hrule
  obtain ⟨hmem, hlabel⟩ := List.mem_filter.1 hrule
  have hor := grammar_rule hall hmem
  simpa [of_decide_eq_true hlabel] using hor

section Parsed

variable {name source : String} {p q : Parser} {root n : Node}
  (hp : Parser.start? name (scan source) = some p) (hq : p.parse = .ok (.ok root, q))
  (hn : n ∈ root.nodes) (hlabel : n.hasLabel .expr)

include hp hq hn hlabel

theorem parse_expr : Derives grammar Grammar.expr [n] := by
  cases n with
  | leaf => cases hlabel
  | inner i l cs =>
    obtain rfl : l = .expr := by simpa [Node.hasLabel, Node.label?] using hlabel
    obtain ⟨rule, hrule, body, hbody, hmade⟩ := parse_made hp hq hn
    rw [expr_rule rule hrule] at hmade
    rcases hmade with hnode | ⟨hlevel, -⟩
    · exact .call (derives_node.2 ⟨i, cs, rfl, (Pattern.node.inj hnode).2 ▸ hbody⟩)
    · cases hlevel

/-- The expressions in a parsed tree read as such. -/
theorem parse_reads : n.Reads 0 := by
  obtain ⟨m, heq, hreads⟩ := derives_expr (parse_expr hp hq hn hlabel)
  cases heq
  exact hreads

end Parsed

end FortranJulia
