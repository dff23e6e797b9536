import FortranJulia.Lowering.Generator
import FortranJulia.Proofs.Emission.Ensures
import FortranJulia.Proofs.Lowering.Calls
import FortranJulia.Proofs.Lowering.Counts
import FortranJulia.Proofs.Meaning.Translation
import Mathlib.Logic.Function.Basic

/-!
Output with implied loops. In FORTRAN such a loop transfers, for each value of its variable in order,
its items from left to right, and the items of inner loops in their places. What is written for it in
Julia is an array that is built from a range, in one of three forms: from the values of one item, from
the values of one inner array, or from tuples of items into which inner arrays are spread. Whatever the
items and the bounds mean as functions of the variables, the array has the values that are transferred,
provided that different variables are written differently.
-/

namespace FortranJulia

set_option autoImplicit false

open Julia (Expr)

variable {α : Type}

/-! ## Arrays in Julia -/

namespace Julia

/-- What items and bounds mean where the variables have integer values. -/
structure Meaning (α : Type) where
  item : Expr → (String → Int) → α
  bound : Expr → (String → Int) → Int

/-- The values of `first:step:last`. A step of zero is an error. -/
def rangeValues? (first step last : Int) : Option (List Int) :=
  if step = 0 then none
  else some ((List.range ((last - first).fdiv step + 1).toNat).map fun k => first + k * step)

namespace Meaning

variable (m : Meaning α)

def range? (σ : String → Int) : Expr → Option (List Int)
  | .range [a, b] => rangeValues? (m.bound a σ) 1 (m.bound b σ)
  | .range [a, c, b] => rangeValues? (m.bound a σ) (m.bound c σ) (m.bound b σ)
  | _ => none

mutual

/-- The values of an array that is built from ranges, or of a tuple. A single item in parentheses is no
tuple. In `[_v for v in r for _v in items]` the items are looked at before `_v` is bound. -/
def values? : Expr → (String → Int) → Option (List α)
  | .generator e v r, σ =>
    (m.range? σ r).map fun ks => ks.map fun k => m.item e (Function.update σ v k)
  | .flattened v r items, σ =>
    (m.range? σ r).bind fun ks =>
      (ks.mapM fun k => values? items (Function.update σ v k)).map List.flatten
  | .tuple [_], _ => none
  | .tuple es, σ => all? es σ
  | _, _ => none

/-- What an item contributes to a tuple. -/
def member? : Expr → (String → Int) → Option (List α)
  | .spread e, σ => values? e σ
  | e, σ => some [m.item e σ]

def all? : List Expr → (String → Int) → Option (List α)
  | [], _ => some []
  | e :: es, σ => (member? e σ).bind fun xs => (all? es σ).map (xs ++ ·)

end

end Meaning

end Julia

/-! ## Loops in FORTRAN -/

/-- What items and bounds mean where the variables, by their keys, have integer values. -/
structure Transfer (α : Type) where
  item : Node → (String → Int) → α
  bound : Node → (String → Int) → Int

/-- The values of a loop variable. A step of zero is an error. -/
def loopValues? (first last step : Int) : Option (List Int) :=
  if step = 0 then none
  else some ((List.range (trips first last step)).map fun k => first + k * step)

namespace Transfer

variable (f : Transfer α)

def range? (ρ : String → Int) : List Node → Option (List Int)
  | [a, b] => loopValues? (f.bound a ρ) (f.bound b ρ) 1
  | [a, b, c] => loopValues? (f.bound a ρ) (f.bound b ρ) (f.bound c ρ)
  | _ => none

mutual

/-- What an implied loop transfers. -/
def values? : Node → (String → Int) → Option (List α)
  | .leaf _ _, _ => none
  | .inner i l cs, ρ =>
    (f.range? ρ ((Node.inner i l cs).childrenWith .expr)).bind fun ks =>
      (ks.mapM fun k => list? cs (Function.update ρ
        (nameKey (Lower.childText (.inner i l cs) .impliedDoVariable)) k)).map List.flatten

/-- What the item list among the children of a loop transfers. -/
def list? : List Node → (String → Int) → Option (List α)
  | [], _ => some []
  | .leaf _ _ :: rest, ρ => list? rest ρ
  | .inner _ l items :: rest, ρ => if l == .outputItemList then items? items ρ else list? rest ρ

/-- What items transfer, from left to right. -/
def items? : List Node → (String → Int) → Option (List α)
  | [], _ => some []
  | n :: rest, ρ =>
    match n.label? with
    | some .outputImpliedDo => (values? n ρ).bind fun xs => (items? rest ρ).map (xs ++ ·)
    | some .expr => (items? rest ρ).map ([f.item n ρ] ++ ·)
    | _ => items? rest ρ

end

/-- No loop in the tree has a step of zero. -/
def Steps (n : Node) : Prop :=
  ∀ m ∈ n.nodes, m.hasLabel .outputImpliedDo → ∀ a b c, m.childrenWith .expr = [a, b, c] →
    ∀ ρ, f.bound c ρ ≠ 0

end Transfer

/-! ## Ranges -/

/-- Both languages run through the same values. -/
theorem rangeValues?_eq (first step last : Int) :
    Julia.rangeValues? first step last = loopValues? first last step := by
  unfold Julia.rangeValues? loopValues?
  split
  · rfl
  · rename_i hstep
    have hlength : ((last - first).fdiv step + 1).toNat = trips first last step := by
      refine eq_of_forall_lt_iff fun k => ?_
      rw [Int.lt_toNat, Int.lt_add_one_iff]
      rcases Int.lt_or_gt_of_ne hstep with hdown | hup
      · rw [lt_trips_down hdown, ← Int.neg_fdiv_neg, Int.fdiv_eq_ediv_of_nonneg _ (by omega),
          Int.le_ediv_iff_mul_le (by omega), Int.mul_neg]
        omega
      · rw [lt_trips_up hup, Int.fdiv_eq_ediv_of_nonneg _ (by omega), Int.le_ediv_iff_mul_le hup]
        omega
    rw [hlength]

/-! ## Comprehensions -/

namespace Lower

/-- The array of the values of items for a variable that runs through a range. -/
def comprehension (v : String) (r : Expr) : List Expr → Expr
  | [.spread e] => .flattened v r e
  | [e] => .generator e v r
  | es => .flattened v r (.tuple es)

end Lower

namespace Julia.Meaning

variable (m : Meaning α) (σ : String → Int)

theorem values?_tuple {es : List Expr} (h : ∀ e, es ≠ [e]) : m.values? (.tuple es) σ = m.all? es σ := by
  rw [values?]
  simpa using h

theorem member?_of_not_spread {e : Expr} (h : ∀ x, e ≠ .spread x) :
    m.member? e σ = some [m.item e σ] := by
  rw [member?]
  simpa using h

/-- All forms have the values of the items for each value of the variable. -/
theorem values?_comprehension (v : String) (r : Expr) (es : List Expr) :
    m.values? (Lower.comprehension v r es) σ = (m.range? σ r).bind fun ks =>
      (ks.mapM fun k => m.all? es (Function.update σ v k)).map List.flatten := by
  unfold Lower.comprehension
  split
  · simp [values?, all?, member?]
  · rename_i e he
    have hone : ∀ k, m.all? [e] (Function.update σ v k) =
        some [m.item e (Function.update σ v k)] := by
      intro k
      rw [all?, m.member?_of_not_spread _ (fun x hx => he x (by rw [hx]))]
      rfl
    simp only [hone, values?]
    cases m.range? σ r with
    | none => rfl
    | some ks =>
      have hpure : (ks.mapM fun k => some [m.item e (Function.update σ v k)]) =
          some (ks.map fun k => [m.item e (Function.update σ v k)]) := List.mapM_pure
      rw [Option.map_some, Option.bind_some, hpure, Option.map_some, ← List.flatMap_def,
        ← List.map_eq_flatMap]
  · rename_i hspread hone
    rw [values?]
    simp only [m.values?_tuple _ hone]

end Julia.Meaning

/-! ## Values that last -/

namespace Lower

/-- The action writes nothing and gives a value with a property in the state that it leaves, and in all
that spell more names. -/
def Lasts {β : Type} (act : Lower β) (P : LowerState → β → Prop) : Prop :=
  ∀ s, act.Does s fun b t => Quiet s t ∧ ∀ T, Rewords t T → P T b

namespace Lasts

variable {β γ : Type} {act : Lower β} {P : LowerState → β → Prop}

theorem pure {b : β} (h : ∀ T, P T b) : Lasts (Pure.pure b) P :=
  fun s => ⟨b, s, rfl, .refl s, fun T _ => h T⟩

theorem bind {f : β → Lower γ} {Q : β → LowerState → γ → Prop} (h : Lasts act P)
    (h' : ∀ b, Lasts (f b) (Q b)) : Lasts (act >>= f) fun T c => ∃ b, P T b ∧ Q b T c := by
  intro s
  refine (h s).bind fun b t hst => ?_
  obtain ⟨c, u, hrun, htu, hlast⟩ := h' b t
  exact ⟨c, u, hrun, hst.1.trans htu, fun T hT => ⟨b, hst.2 T (htu.1.trans hT), hlast T hT⟩⟩

theorem imp {Q : LowerState → β → Prop} (h : Lasts act P) (himp : ∀ T b, P T b → Q T b) :
    Lasts act Q :=
  fun s => (h s).imp fun b _ ht => ⟨ht.1, fun T hT => himp T b (ht.2 T hT)⟩

end Lasts

theorem Settles.lasts {β : Type} {act : Lower β} (h : Settles act) :
    Lasts act fun T b => ∀ T', Rewords T T' → ∃ u, act.run T' = .ok (b, u) :=
  fun s => (h s).imp fun _ _ ht => ⟨ht.1, fun _ hT T' hT' => ht.2 T' (hT.trans hT')⟩

/-- A variable that has been written once is written the same way in any case of its letters. -/
theorem lasts_ident (x : String) :
    Lasts (ident x) fun T v => ∀ y, nameKey y = nameKey x → T.variableName y = v := by
  intro s
  obtain ⟨v, t, hrun, hquiet, hagain⟩ := settles_ident x s
  obtain ⟨more, hrun', hspelled⟩ := ident_spells s x
  obtain ⟨-, rfl⟩ := Prod.mk.inj (Except.ok.inj (hrun.symm.trans hrun'))
  refine ⟨v, _, hrun, hquiet, fun T hT y hy => ?_⟩
  obtain ⟨u, hu⟩ := hagain T hT
  obtain ⟨others, hthere, -⟩ := ident_run T x
  obtain rfl : v = T.variableName x := (Prod.mk.inj (Except.ok.inj (hu.symm.trans hthere))).1
  exact LowerState.variableName_congr (hT.spelling? hspelled) hy

theorem lasts_exprOf {n : Node} {e : Expression} (h : n.expression? = some e) :
    Lasts (exprOf n) fun T v => T.Writes e v := by
  rw [exprOf_expression h]
  exact (writing_settles.expr e).lasts

/-! ## Items that are written -/

section Spread

/-- Every value of the action is an expression by itself. -/
abbrev Whole (act : Lower Expr) : Prop :=
  Ensures (fun _ => True) act fun v => ∀ e, v ≠ .spread e

theorem ensures_any {β : Type} (act : Lower β) : Ensures (fun _ => True) act fun _ => True :=
  fun _ _ _ _ _ => ⟨trivial, trivial⟩

theorem emit_not_spread (f : Intrinsic) (args : List Expr) (e : Expr) : f.emit args ≠ .spread e := by
  unfold Intrinsic.emit
  split <;> simp

theorem whole_indexed (rest : List (List Subscript)) : ∀ {base : Expr}, (∀ e, base ≠ .spread e) →
    Whole (indexed base rest) := by
  induction rest with
  | nil =>
    intro base hbase
    rw [indexed]
    exact .pure hbase
  | cons items rest ih =>
    intro base _
    rw [indexed]
    exact .bind (ensures_any _) fun _ _ => ih (by simp)

/-- The items of other expressions are not spread into what an expression is written as. -/
theorem whole_expr (e : Expression) : Whole (expr e) := by
  cases e with
  | constant lx =>
    rw [expr]
    refine .pure ?_
    unfold Lexeme.juliaConstant
    split <;> simp
  | complex re im =>
    rw [expr]
    exact .pure (by simp)
  | reference lx suffixes =>
    cases suffixes with
    | nil =>
      rw [expr]
      exact .bind (ensures_any _) fun _ _ => .pure (by simp)
    | cons items rest =>
      rw [expr]
      refine .bind (ensures_any _) fun t _ => ?_
      split
      · exact .bind (ensures_any _) fun _ _ => .bind (ensures_any _) fun _ _ =>
          whole_indexed rest (by simp)
      · exact .bind (ensures_any _) fun _ _ => .bind (ensures_any _) fun _ _ =>
          whole_indexed rest (by simp)
      · exact .bind (ensures_any _) fun _ _ => whole_indexed rest (emit_not_spread _ _)
      · exact .bind (ensures_any _) fun _ _ => .bind (ensures_any _) fun _ _ =>
          .bind (ensures_any _) fun _ _ => whole_indexed rest (by simp)
  | emptyCall lx =>
    rw [expr]
    refine .bind (ensures_any _) fun t _ => ?_
    dsimp only
    split
    · exact .pure (emit_not_spread _ _)
    · exact .bind (ensures_any _) fun _ _ => .pure (by simp)
  | group e | signed s e | negated n e =>
    rw [expr]
    exact .bind (ensures_any _) fun _ _ => .pure (by simp)
  | binary op l r =>
    have hcombine : ∀ leftType rightType left right, ∀ e,
        combine op leftType rightType left right ≠ .spread e := by
      intro leftType rightType left right e
      unfold combine
      split <;> simp
    by_cases hop : op = .power
    · subst hop
      rw [expr]
      exact .bind (ensures_any _) fun _ _ => .bind (ensures_any _) fun _ _ => .pure (by simp)
    · rw [expr]
      · exact .bind (ensures_any _) fun _ _ => .bind (ensures_any _) fun _ _ =>
          .bind (ensures_any _) fun _ _ => .bind (ensures_any _) fun _ _ =>
            .pure (hcombine _ _ _ _)
      · exact hop

end Spread

end Lower

theorem LowerState.Writes.not_spread {s : LowerState} {e : Expression} {v : Expr}
    (h : s.Writes e v) : ∀ x, v ≠ .spread x := by
  obtain ⟨u, hu⟩ := h s (.refl s)
  exact (Lower.whole_expr e s trivial v u hu).2

/-! ## Loops and arrays -/

/-- Every loop in the tree has two or three bounds, and its items and bounds can be read. -/
structure Node.Loops (n : Node) : Prop where
  bounds : ∀ m ∈ n.nodes, m.hasLabel .outputImpliedDo →
    (∃ a b, m.childrenWith .expr = [a, b]) ∨ ∃ a b c, m.childrenWith .expr = [a, b, c]
  expression : ∀ m ∈ n.nodes, m.hasLabel .expr → m.expression?.isSome

theorem Node.Loops.node {n m : Node} (h : n.Loops) (hm : m ∈ n.nodes) : m.Loops where
  bounds k hk := h.bounds k (nodes_trans hm hk)
  expression k hk := h.expression k (nodes_trans hm hk)

/-- The variables have the same integer values, in Julia by what is written for them and in FORTRAN by
their keys. -/
def LowerState.Agrees (s : LowerState) (names : List String) (σ ρ : String → Int) : Prop :=
  ∀ x ∈ names, σ (s.variableName x) = ρ (nameKey x)

section Loops

variable (j : Julia.Meaning α) (f : Transfer α) (names : List String)

/-- What is written for the expression in a node means what the node means. -/
def Means (s : LowerState) (n : Node) : Prop :=
  ∀ e v, n.expression? = some e → s.Writes e v → ∀ σ ρ, s.Agrees names σ ρ →
    j.item v σ = f.item n ρ ∧ j.bound v σ = f.bound n ρ

/-- Different names are written differently, the variables of the loops are among them, and the items
and bounds of the loops mean the same in both languages. -/
structure Faithful (s : LowerState) (n : Node) : Prop where
  apart : ∀ x ∈ names, ∀ y ∈ names, s.variableName x = s.variableName y → nameKey x = nameKey y
  index : ∀ m ∈ n.nodes, m.hasLabel .outputImpliedDo →
    Lower.childText m .impliedDoVariable ∈ names
  means : ∀ m ∈ n.nodes, m.hasLabel .expr → Means j f names s m

variable {j f names}

theorem Faithful.node {s : LowerState} {n m : Node} (h : Faithful j f names s n) (hm : m ∈ n.nodes) :
    Faithful j f names s m where
  apart := h.apart
  index k hk := h.index k (nodes_trans hm hk)
  means k hk := h.means k (nodes_trans hm hk)

/-- One more turn of a loop changes the value of its variable and no other. -/
theorem LowerState.Agrees.update {s : LowerState} {σ ρ : String → Int} {x v : String}
    (h : s.Agrees names σ ρ) (hx : x ∈ names)
    (hv : ∀ y, nameKey y = nameKey x → s.variableName y = v)
    (hapart : ∀ x ∈ names, ∀ y ∈ names, s.variableName x = s.variableName y → nameKey x = nameKey y)
    (k : Int) : s.Agrees names (Function.update σ v k) (Function.update ρ (nameKey x) k) := by
  intro y hy
  by_cases hkey : nameKey y = nameKey x
  · rw [hv y hkey, hkey, Function.update_self, Function.update_self]
  · have hne : s.variableName y ≠ v := fun heq =>
      hkey (hapart y hy x hx (heq.trans (hv x rfl).symm))
    rw [Function.update_of_ne hne, Function.update_of_ne hkey, h y hy]

namespace Lower

theorem lasts_rangeOf {ns : List Node} (h : (∃ a b, ns = [a, b]) ∨ ∃ a b c, ns = [a, b, c])
    (hread : ∀ n ∈ ns, n.expression?.isSome) :
    Lasts (rangeOf ns) fun T r => (∀ n ∈ ns, Means j f names T n) →
      ∀ σ ρ, T.Agrees names σ ρ → j.range? σ r = f.range? ρ ns := by
  rcases h with ⟨a, b, rfl⟩ | ⟨a, b, c, rfl⟩
  · obtain ⟨x, hx⟩ := Option.isSome_iff_exists.1 (hread a (by simp))
    obtain ⟨y, hy⟩ := Option.isSome_iff_exists.1 (hread b (by simp))
    rw [rangeOf]
    refine ((lasts_exprOf hx).bind fun u => (lasts_exprOf hy).bind fun v =>
      .pure (P := fun _ r => r = .range [u, v]) fun _ => rfl).imp ?_
    rintro T r ⟨u, hu, v, hv, rfl⟩ hmeans σ ρ hρ
    rw [Julia.Meaning.range?, Transfer.range?, rangeValues?_eq,
      (hmeans a (by simp) x u hx hu σ ρ hρ).2, (hmeans b (by simp) y v hy hv σ ρ hρ).2]
  · obtain ⟨x, hx⟩ := Option.isSome_iff_exists.1 (hread a (by simp))
    obtain ⟨y, hy⟩ := Option.isSome_iff_exists.1 (hread b (by simp))
    obtain ⟨z, hz⟩ := Option.isSome_iff_exists.1 (hread c (by simp))
    rw [rangeOf]
    refine ((lasts_exprOf hx).bind fun u => (lasts_exprOf hy).bind fun v => (lasts_exprOf hz).bind
      fun w => .pure (P := fun _ r => r = .range [u, w, v]) fun _ => rfl).imp ?_
    rintro T r ⟨u, hu, v, hv, w, hw, rfl⟩ hmeans σ ρ hρ
    rw [Julia.Meaning.range?, Transfer.range?, rangeValues?_eq,
      (hmeans a (by simp) x u hx hu σ ρ hρ).2, (hmeans b (by simp) y v hy hv σ ρ hρ).2,
      (hmeans c (by simp) z w hz hw σ ρ hρ).2]

mutual

theorem lasts_impliedDo : ∀ n : Node, n.Loops → n.hasLabel .outputImpliedDo →
    Lasts (impliedDo n) fun T e => Faithful j f names T n → ∀ σ ρ, T.Agrees names σ ρ →
      j.values? e σ = f.values? n ρ
  | .leaf _ _, _, hl => by cases hl
  | .inner i l cs, h, hl => by
    have hself := nodes_self (Node.inner i l cs)
    have hchild : ∀ c ∈ cs, c ∈ (Node.inner i l cs).nodes := fun c hc => nodes_child hc
    have hbound : ∀ c ∈ (Node.inner i l cs).childrenWith .expr,
        c ∈ (Node.inner i l cs).nodes ∧ c.hasLabel .expr := fun c hc =>
      ⟨hchild c (List.mem_of_mem_filter hc), Node.hasLabel_childrenWith hc⟩
    have hrange : Lasts (rangeOf ((Node.inner i l cs).childrenWith .expr)) fun T r =>
        (∀ n ∈ (Node.inner i l cs).childrenWith .expr, Means j f names T n) → ∀ σ ρ,
          T.Agrees names σ ρ →
            j.range? σ r = f.range? ρ ((Node.inner i l cs).childrenWith .expr) :=
      lasts_rangeOf (h.bounds _ hself hl) fun c hc => h.expression c (hbound c hc).1 (hbound c hc).2
    rw [impliedDo]
    refine ((lasts_ident _).bind fun v => hrange.bind fun r =>
      (lasts_impliedLists cs fun c hc => h.node (hchild c hc)).bind fun es =>
      (?_ : Lasts _ fun _ e => e = comprehension v r es)).imp ?_
    · rcases es with _ | ⟨e, _ | ⟨e', es⟩⟩
      · exact .pure fun _ => rfl
      · cases e <;> exact .pure fun _ => rfl
      · cases e <;> exact .pure fun _ => rfl
    · rintro T e ⟨v, hv, r, hr, es, hes, rfl⟩ hfaith σ ρ hρ
      have hx := hfaith.index _ hself hl
      have hturn : ∀ k, j.all? es (Function.update σ v k) = f.list? cs (Function.update ρ
          (nameKey (childText (.inner i l cs) .impliedDoVariable)) k) := fun k =>
        hes (fun c hc => hfaith.node (hchild c hc)) _ _ (hρ.update hx hv hfaith.apart k)
      have hrange := hr (fun c hc => hfaith.means c (hbound c hc).1 (hbound c hc).2) σ ρ hρ
      rw [j.values?_comprehension, Transfer.values?, hrange]
      simp only [hturn]

theorem lasts_impliedLists : ∀ ns : List Node, (∀ n ∈ ns, n.Loops) →
    Lasts (impliedLists ns) fun T es => (∀ n ∈ ns, Faithful j f names T n) →
      ∀ σ ρ, T.Agrees names σ ρ → j.all? es σ = f.list? ns ρ
  | [], _ => by
    rw [impliedLists]
    refine .pure fun T _ σ ρ _ => ?_
    rw [Julia.Meaning.all?, Transfer.list?]
  | .leaf _ _ :: rest, h => by
    rw [impliedLists]
    refine (lasts_impliedLists rest fun n hn => h n (List.mem_cons_of_mem _ hn)).imp ?_
    intro T es hes hfaith
    simp only [Transfer.list?]
    exact hes fun n hn => hfaith n (List.mem_cons_of_mem _ hn)
  | .inner i l items :: rest, h => by
    rw [impliedLists]
    split
    · rename_i hl
      have hitem : ∀ n ∈ items, n ∈ (Node.inner i l items).nodes := fun n hn => nodes_child hn
      refine (lasts_impliedItems items fun n hn => (h _ List.mem_cons_self).node (hitem n hn)).imp ?_
      intro T es hes hfaith
      simp only [Transfer.list?, if_pos hl]
      exact hes fun n hn => (hfaith _ List.mem_cons_self).node (hitem n hn)
    · rename_i hl
      refine (lasts_impliedLists rest fun n hn => h n (List.mem_cons_of_mem _ hn)).imp ?_
      intro T es hes hfaith
      simp only [Transfer.list?, if_neg hl]
      exact hes fun n hn => hfaith n (List.mem_cons_of_mem _ hn)

theorem lasts_impliedItems : ∀ ns : List Node, (∀ n ∈ ns, n.Loops) →
    Lasts (impliedItems ns) fun T es => (∀ n ∈ ns, Faithful j f names T n) →
      ∀ σ ρ, T.Agrees names σ ρ → j.all? es σ = f.items? ns ρ
  | [], _ => by
    rw [impliedItems]
    refine .pure fun T _ σ ρ _ => ?_
    rw [Julia.Meaning.all?, Transfer.items?]
  | n :: rest, h => by
    have hrest := lasts_impliedItems rest fun n hn => h n (List.mem_cons_of_mem _ hn)
    have hn := h n List.mem_cons_self
    rw [impliedItems]
    split
    · rename_i hl
      refine ((lasts_impliedDo n hn (by simp [Node.hasLabel, hl])).bind fun e => hrest.bind fun es =>
        .pure (P := fun _ js => js = .spread e :: es) fun _ => rfl).imp ?_
      rintro T js ⟨e, he, es, hes, rfl⟩ hfaith σ ρ hρ
      rw [Julia.Meaning.all?, Julia.Meaning.member?, he (hfaith n List.mem_cons_self) σ ρ hρ,
        hes (fun n hn => hfaith n (List.mem_cons_of_mem _ hn)) σ ρ hρ, Transfer.items?, hl]
    · rename_i hl
      have hlabel : n.hasLabel .expr := by simp [Node.hasLabel, hl]
      obtain ⟨x, hx⟩ := Option.isSome_iff_exists.1 (hn.expression n (nodes_self n) hlabel)
      refine ((lasts_exprOf hx).bind fun e => hrest.bind fun es =>
        .pure (P := fun _ js => js = e :: es) fun _ => rfl).imp ?_
      rintro T js ⟨e, he, es, hes, rfl⟩ hfaith σ ρ hρ
      have hmeans := (hfaith n List.mem_cons_self).means n (nodes_self n) hlabel x e hx he σ ρ hρ
      rw [Julia.Meaning.all?, j.member?_of_not_spread _ he.not_spread, hmeans.1,
        hes (fun n hn => hfaith n (List.mem_cons_of_mem _ hn)) σ ρ hρ, Transfer.items?, hl,
        Option.bind_some]
    · rename_i hdo hexpr
      refine hrest.imp fun T es hes hfaith σ ρ hρ => ?_
      rw [hes (fun n hn => hfaith n (List.mem_cons_of_mem _ hn)) σ ρ hρ, Transfer.items?]
      split
      · exact absurd ‹_› hdo
      · exact absurd ‹_› hexpr
      · rfl

end

end Lower

/-! ### Steps -/

theorem Transfer.Steps.node {n m : Node} (h : f.Steps n) (hm : m ∈ n.nodes) : f.Steps m :=
  fun k hk => h k (nodes_trans hm hk)

theorem mapM_isSome {β γ : Type} {g : β → Option γ} (h : ∀ b, (g b).isSome) (ks : List β) :
    (ks.mapM g).isSome := by
  have hg : g = fun b => some ((g b).get (h b)) := funext fun b => (Option.some_get _).symm
  rw [hg]
  exact congrArg Option.isSome List.mapM_pure

theorem loopValues?_isSome {step : Int} (h : step ≠ 0) (first last : Int) :
    (loopValues? first last step).isSome := by
  rw [loopValues?, if_neg h]
  rfl

namespace Transfer

theorem range?_isSome {ns : List Node} (h : (∃ a b, ns = [a, b]) ∨ ∃ a b c, ns = [a, b, c])
    (hstep : ∀ a b c, ns = [a, b, c] → ∀ ρ, f.bound c ρ ≠ 0) (ρ : String → Int) :
    (f.range? ρ ns).isSome := by
  rcases h with ⟨a, b, rfl⟩ | ⟨a, b, c, rfl⟩
  · exact loopValues?_isSome (by decide) _ _
  · exact loopValues?_isSome (hstep a b c rfl ρ) _ _

mutual

/-- A loop transfers values if no step is zero. -/
theorem values?_isSome : ∀ n : Node, n.Loops → f.Steps n → n.hasLabel .outputImpliedDo → ∀ ρ,
    (f.values? n ρ).isSome
  | .leaf _ _, _, _, hl, _ => by cases hl
  | .inner i l cs, h, hsteps, hl, ρ => by
    have hself := nodes_self (Node.inner i l cs)
    have hchild : ∀ c ∈ cs, c ∈ (Node.inner i l cs).nodes := fun c hc => nodes_child hc
    obtain ⟨ks, hks⟩ := Option.isSome_iff_exists.1
      (f.range?_isSome (h.bounds _ hself hl) (hsteps _ hself hl) ρ)
    have hturn := list?_isSome cs (fun c hc => h.node (hchild c hc))
      (fun c hc => hsteps.node (hchild c hc))
    rw [values?, hks, Option.bind_some, Option.isSome_map]
    exact mapM_isSome (fun k => hturn _) ks

theorem list?_isSome : ∀ ns : List Node, (∀ n ∈ ns, n.Loops) → (∀ n ∈ ns, f.Steps n) → ∀ ρ,
    (f.list? ns ρ).isSome
  | [], _, _, _ => by
    rw [list?]
    rfl
  | .leaf _ _ :: rest, h, hsteps, ρ => by
    rw [list?]
    exact list?_isSome rest (fun n hn => h n (List.mem_cons_of_mem _ hn))
      (fun n hn => hsteps n (List.mem_cons_of_mem _ hn)) ρ
  | .inner i l items :: rest, h, hsteps, ρ => by
    have hitem : ∀ n ∈ items, n ∈ (Node.inner i l items).nodes := fun n hn => nodes_child hn
    rw [list?]
    split
    · exact items?_isSome items (fun n hn => (h _ List.mem_cons_self).node (hitem n hn))
        (fun n hn => (hsteps _ List.mem_cons_self).node (hitem n hn)) ρ
    · exact list?_isSome rest (fun n hn => h n (List.mem_cons_of_mem _ hn))
        (fun n hn => hsteps n (List.mem_cons_of_mem _ hn)) ρ

theorem items?_isSome : ∀ ns : List Node, (∀ n ∈ ns, n.Loops) → (∀ n ∈ ns, f.Steps n) → ∀ ρ,
    (f.items? ns ρ).isSome
  | [], _, _, _ => by
    rw [items?]
    rfl
  | n :: rest, h, hsteps, ρ => by
    obtain ⟨ys, hys⟩ := Option.isSome_iff_exists.1
      (items?_isSome rest (fun n hn => h n (List.mem_cons_of_mem _ hn))
        (fun n hn => hsteps n (List.mem_cons_of_mem _ hn)) ρ)
    rw [items?, hys]
    split
    · rename_i hl
      obtain ⟨xs, hxs⟩ := Option.isSome_iff_exists.1 (values?_isSome n (h n List.mem_cons_self)
        (hsteps n List.mem_cons_self) (by simp [Node.hasLabel, hl]) ρ)
      rw [hxs]
      rfl
    · rfl
    · rfl

end

end Transfer

end Loops

/-! ## Programs -/

theorem rules_loop {rule : Pattern} (hrule : rule ∈ rulesFor grammarPatterns .outputImpliedDo) :
    rule = Grammar.impliedDo .outputImpliedDo .outputItemList Grammar.outputItem := by
  have hall : grammarPatterns.all (Pattern.everyRule fun rule =>
      !decide (rule.label? = some .outputImpliedDo) ||
        decide (rule = Grammar.impliedDo .outputImpliedDo .outputItemList Grammar.outputItem)) := by
    decide +kernel
  obtain ⟨hmem, hlabel⟩ := List.mem_filter.1 hrule
  simpa [of_decide_eq_true hlabel] using grammar_rule hall hmem

theorem parse_loops {name source : String} {p q : Parser} {root : Node}
    (hp : Parser.start? name (scan source) = some p) (hq : p.parse = .ok (.ok root, q)) :
    root.Loops where
  bounds n hn hl := by
    cases n with
    | leaf => cases hl
    | inner i l cs =>
      obtain rfl : l = .outputImpliedDo := by simpa [Node.hasLabel, Node.label?] using hl
      obtain ⟨rule, hrule, body, hbody, hmade⟩ := parse_made hp hq hn
      obtain rfl := rules_loop hrule
      rcases hmade with hnode | ⟨hlevel, -⟩
      · exact impliedDo_children hnode (by decide) hbody
      · cases hlevel
  expression n hn hl := by
    have hindexable := parse_indexable hp hq hn
    cases n with
    | leaf => cases hl
    | inner i l cs =>
      obtain rfl : l = .expr := by simpa [Node.hasLabel, Node.label?] using hl
      rw [Node.indexable, Bool.and_eq_true] at hindexable
      exact hindexable.2

/-- What is written for an implied loop in a program has the values that FORTRAN transfers, in their
order, whatever its items and bounds mean, where different variables are written differently. Values
there are unless a step is zero. -/
theorem implied_loops_transfer {name source : String} {p q : Parser} {root n : Node}
    (hp : Parser.start? name (scan source) = some p) (hq : p.parse = .ok (.ok root, q))
    (hn : n ∈ root.nodes) (hl : n.hasLabel .outputImpliedDo) (j : Julia.Meaning α) (f : Transfer α)
    (names : List String) (s : LowerState) :
    (Lower.impliedDo n).Does s fun e t => Lower.Quiet s t ∧ (Faithful j f names t n →
      (f.Steps n → ∀ ρ, (f.values? n ρ).isSome) ∧
      ∀ σ ρ, t.Agrees names σ ρ → j.values? e σ = f.values? n ρ) := by
  have hloops := (parse_loops hp hq).node hn
  refine (Lower.lasts_impliedDo (j := j) (f := f) n hloops hl s).imp
    fun e t ht => ⟨ht.1, fun hfaith => ⟨fun hsteps => ?_, ht.2 t (.refl t) hfaith⟩⟩
  exact f.values?_isSome n hloops hsteps hl

/-! ### Names and integers -/

/-- Names and integer constants, where a constant is read from its text. -/
def Julia.Meaning.plain : Julia.Meaning Int where
  item e σ := match e with
    | .name x => σ x
    | e => (Decimal.int? e.text).getD 0
  bound e σ := match e with
    | .name x => σ x
    | e => (Decimal.int? e.text).getD 0

/-- Names and integer constants. -/
def Transfer.plain : Transfer Int where
  item n ρ := (Decimal.int? n.text).getD (ρ (nameKey n.text))
  bound n ρ := (Decimal.int? n.text).getD (ρ (nameKey n.text))

/-- Is every expression in the tree one of the names, as it is written, or an integer constant? -/
def LowerState.isPlain (s : LowerState) (names : List String) (n : Node) : Bool :=
  n.nodes.all fun m =>
    (!m.hasLabel .outputImpliedDo || names.contains (Lower.childText m .impliedDoVariable)) &&
    (!m.hasLabel .expr || m.expression?.all fun e =>
      match (Lower.expr e).run s with
      | .ok (.name x, _) =>
        names.contains m.text && x == s.variableName m.text && (Decimal.int? m.text).isNone
      | .ok (v, _) => v.text == m.text && (Decimal.int? m.text).isSome
      | .error _ => false)

/-- Names and integer constants mean the same in both languages. -/
theorem faithful_plain {s : LowerState} {names : List String} {n : Node} (h : s.isPlain names n)
    (hapart : ∀ x ∈ names, ∀ y ∈ names, s.variableName x = s.variableName y →
      nameKey x = nameKey y) :
    Faithful .plain .plain names s n where
  apart := hapart
  index m hm hl := by
    have hthis := List.all_eq_true.1 h m hm
    simp only [hl, Bool.not_true, Bool.false_or, Bool.and_eq_true, List.contains_iff_mem] at hthis
    exact hthis.1
  means m hm hl e v he hv σ ρ hρ := by
    have hthis := List.all_eq_true.1 h m hm
    obtain ⟨u, hu⟩ := hv s (.refl s)
    simp only [hl, he, hu, Bool.not_true, Bool.false_or, Bool.and_eq_true, Option.all_some] at hthis
    have hplain := hthis.2
    unfold Julia.Meaning.plain Transfer.plain
    split at hplain
    · rename_i x u' heq
      obtain ⟨rfl, -⟩ := Prod.mk.inj (Except.ok.inj heq)
      simp only [Bool.and_eq_true, List.contains_iff_mem, beq_iff_eq, Option.isNone_iff_eq_none]
        at hplain
      obtain ⟨⟨hname, rfl⟩, hnone⟩ := hplain
      simp [hnone, hρ m.text hname]
    · rename_i v' u' hne heq
      obtain ⟨rfl, -⟩ := Prod.mk.inj (Except.ok.inj heq)
      simp only [Bool.and_eq_true, beq_iff_eq] at hplain
      obtain ⟨htext, hsome⟩ := hplain
      obtain ⟨k, hk⟩ := Option.isSome_iff_exists.1 hsome
      cases v <;> simp_all
    · cases hplain

/-- Rows of a triangle, every other one. -/
theorem implied_loops_transfer_triangle :
    ∃ p q root n e t, Parser.start? "" (scan "PRINT *,((I,J,J=1,I),I=1,3,2)\nEND") = some p ∧
      p.parse = .ok (.ok root, q) ∧ n ∈ root.nodes ∧ n.hasLabel .outputImpliedDo ∧
      (Lower.impliedDo n).run (Generator.start root {}).state = .ok (e, t) ∧
      Faithful Julia.Meaning.plain Transfer.plain ["I", "J"] t n ∧
      Transfer.plain.Steps n ∧ t.Agrees ["I", "J"] (fun _ => 0) (fun _ => 0) ∧
      Julia.Meaning.plain.values? e (fun _ => 0) = some [1, 1, 3, 1, 3, 2, 3, 3] := by
  have hstart := start_scan "" "PRINT *,((I,J,J=1,I),I=1,3,2)\nEND"
  have hok : ((Parser.matched? { source := "", tokens :=
      (scan "PRINT *,((I,J,J=1,I),I=1,3,2)\nEND").toArray }).any fun root =>
        root.nodes.any fun n => n.hasLabel .outputImpliedDo &&
          (n.nodes.all fun m => (m.childrenWith .expr)[2]?.all fun c =>
            (Decimal.int? c.text).any (· != 0)) &&
          ((Lower.impliedDo n).run (Generator.start root {}).state).toOption.any fun r =>
            r.2.isPlain ["I", "J"] n && r.2.variableName "I" != r.2.variableName "J" &&
              Transfer.plain.values? n (fun _ => 0) == some [1, 1, 3, 1, 3, 2, 3, 3]) = true := by
    rw [scan_within]
    decide +kernel
  obtain ⟨root, hmatched, hroot⟩ := (Option.any_eq_true _ _).1 hok
  obtain ⟨n, hn, hnode⟩ := List.any_eq_true.1 hroot
  simp only [Bool.and_eq_true] at hnode
  obtain ⟨⟨hl, hstep⟩, hvalues⟩ := hnode
  obtain ⟨q, hq⟩ := parse_of_match (Parser.start_sound hstart) hmatched
  obtain ⟨e, t, hrun, -, htransfer⟩ := implied_loops_transfer hstart hq hn hl .plain .plain ["I", "J"]
    (Generator.start root {}).state
  rw [hrun] at hvalues
  simp only [Except.toOption, Option.any_some, Bool.and_eq_true, beq_iff_eq, bne_iff_ne,
    ne_eq] at hvalues
  obtain ⟨⟨hplain, hne⟩, hvalues⟩ := hvalues
  have hfaith : Faithful .plain .plain ["I", "J"] t n := by
    refine faithful_plain hplain fun x hx y hy hxy => ?_
    simp only [List.mem_cons, List.not_mem_nil, or_false] at hx hy
    rcases hx with rfl | rfl <;> rcases hy with rfl | rfl
    · rfl
    · exact absurd hxy hne
    · exact absurd hxy.symm hne
    · rfl
  have hsteps : Transfer.plain.Steps n := by
    intro m hm _ a b c hbounds ρ
    have hc := List.all_eq_true.1 hstep m hm
    rw [hbounds] at hc
    obtain ⟨k, hk, hne⟩ := (Option.any_eq_true _ _).1 hc
    simp only [Transfer.plain, hk, Option.getD_some]
    exact bne_iff_ne.1 hne
  have hagrees : t.Agrees ["I", "J"] (fun _ => 0) (fun _ => 0) := fun _ _ => rfl
  exact ⟨_, q, root, n, e, t, hstart, hq, hn, hl, hrun, hfaith, hsteps, hagrees,
    ((htransfer hfaith).2 _ _ hagrees).trans hvalues⟩

end FortranJulia
