import FortranJulia.Proofs.Lowering.Statements

/-!
Calls of subroutines. A subroutine returns its dummy arguments, and a call binds the values that it
gets to the variables and array elements that were passed. `Rebinds` reads off the lines of a call
what they bind, in each of the forms that they may have: the call alone, the value or the tuple of
values assigned at once, and the values taken out of `_r` one by one.

The arguments are written one after the other, and each may be the first to spell a name. What has
been written once is written the same way from then on, so that an argument and its target agree.
-/

namespace FortranJulia

set_option autoImplicit false

open Julia (Expr Binding Code Line)

/-! ## What the lines of a call bind -/

namespace Julia

/-- A part of the value of a call: all of it or an item of a tuple, counted from one. -/
inductive Share where
  | whole
  | item (number : Nat)

/-- The lines make a call and bind parts of its value, and nothing else apart from `_r`. In a tuple
of targets `_` stands for none. -/
inductive Rebinds : List Code → Expr → List (Binding × Expr × Share) → Prop where
  | none (call : Expr) : Rebinds [.run call] call []
  | one (b : Binding) (target call : Expr) :
    Rebinds [.assign b [target] call] call [(b, target, .whole)]
  | tuple (b : Binding) (targets : List (Option Expr)) (call : Expr) (h : 1 < targets.length) :
    Rebinds [.assign b (targets.map (·.getD (.name "_"))) call] call
      ((targets.zipIdx 1).filterMap fun r => r.1.map fun e => (b, e, .item r.2))
  | unpacked (call : Expr) (items : List (Binding × Expr × Nat)) :
    Rebinds (.assign .globally [.name "_r"] call :: items.map fun r =>
        .assign r.1 [r.2.1] (.index (.name "_r") [.number (Decimal.digits r.2.2)]))
      call (items.map fun r => (r.1, r.2.1, .item r.2.2))

end Julia

open Julia (Share Rebinds)

/-! ## States with more spellings -/

/-- The state differs in its lines and reports, and in that more names are spelled. -/
structure Rewords (s t : LowerState) : Prop where
  unit : t.unit = s.unit
  table : ∃ more, t.collection.table = s.collection.table.recorded more

namespace Rewords

variable {s t u : LowerState}

theorem refl (s : LowerState) : Rewords s s :=
  ⟨rfl, [], s.collection.table.recorded_nil.symm⟩

theorem trans (h : Rewords s t) (h' : Rewords t u) : Rewords s u := by
  obtain ⟨more, hmore⟩ := h.table
  obtain ⟨others, hothers⟩ := h'.table
  refine ⟨h'.unit.trans h.unit, more ++ others, ?_⟩
  rw [hothers, hmore, Table.recorded_recorded]

theorem spelling? (h : Rewords s t) {x w : String} (hx : s.collection.table.spelling? x = some w) :
    t.collection.table.spelling? x = some w := by
  obtain ⟨more, hmore⟩ := h.table
  rw [hmore]
  exact Table.spelling?_recorded hx more

end Rewords

namespace Lower

/-! ## What is written the same way from then on -/

/-- Nothing is written and the depth stays. -/
def Quiet (s t : LowerState) : Prop :=
  Rewords s t ∧ t.depth = s.depth ∧ t.lines = s.lines

theorem Quiet.refl (s : LowerState) : Quiet s s :=
  ⟨.refl s, rfl, rfl⟩

theorem Quiet.trans {s t u : LowerState} (h : Quiet s t) (h' : Quiet t u) : Quiet s u :=
  ⟨h.1.trans h'.1, h'.2.1.trans h.2.1, h'.2.2.trans h.2.2⟩

/-- The action gives the same value in all states with more spellings than it leaves. -/
def Settles {α : Type} (act : Lower α) : Prop :=
  ∀ s, act.Does s fun a t => Quiet s t ∧ ∀ t', Rewords t t' → ∃ u, act.run t' = .ok (a, u)

namespace Settles

variable {α β : Type}

theorem pure (a : α) : Settles (Pure.pure a : Lower α) :=
  fun s => ⟨a, s, rfl, .refl s, fun t _ => ⟨t, rfl⟩⟩

theorem bind {act : Lower α} {f : α → Lower β} (h : Settles act) (h' : ∀ a, Settles (f a)) :
    Settles (act >>= f) := by
  intro s
  refine (h s).bind (fun a t hst => ?_)
  obtain ⟨b, u, hrun, htu, hagain⟩ := h' a t
  refine ⟨b, u, hrun, hst.1.trans htu, fun t' ht' => ?_⟩
  -- The action does not take back what is spelled, so that what follows it gives its value again.
  obtain ⟨v, hv⟩ := hst.2 t' (htu.1.trans ht')
  obtain ⟨a', v', hv', hquiet, -⟩ := h t'
  obtain ⟨rfl, rfl⟩ : a' = a ∧ v' = v := Prod.mk.inj (Except.ok.inj (hv'.symm.trans hv))
  obtain ⟨w, hw⟩ := hagain v' (ht'.trans hquiet.1)
  exact ⟨w, by rw [run_bind_ok hv, hw]⟩

theorem unit : Settles Lower.unit :=
  fun s => ⟨s.unit, s, rfl, .refl s, fun t ht => ⟨t, by rw [← ht.unit]; rfl⟩⟩

/-- What follows may look at the table, but not at the spellings. -/
theorem table {f : Table → Lower β} (hf : ∀ t more, f (t.recorded more) = f t)
    (h : ∀ t, Settles (f t)) : Settles (Lower.table >>= f) := by
  intro s
  obtain ⟨b, t, hrun, hst, hagain⟩ := h s.collection.table s
  refine ⟨b, t, hrun, hst, fun t' ht' => ?_⟩
  obtain ⟨u, hu⟩ := hagain t' ht'
  obtain ⟨more, hmore⟩ := (hst.1.trans ht').table
  have htable : Lower.table.run t' = .ok (s.collection.table.recorded more, t') := by
    rw [← hmore]
    rfl
  exact ⟨u, by rw [run_bind_ok htable, hf, hu]⟩

end Settles

theorem settles_report (severity : Severity) (place : Nat × Nat) (rule message : String) :
    Settles (report severity place rule message) :=
  fun s => ⟨(), _, rfl, ⟨⟨rfl, [], s.collection.table.recorded_nil.symm⟩, rfl, rfl⟩,
    fun _ _ => ⟨_, rfl⟩⟩

theorem settles_spell (name : String) : Settles (spell name) := by
  intro s
  obtain ⟨more, hrun, hspelled⟩ := spell_run s name
  refine ⟨_, _, hrun, ⟨⟨rfl, more, rfl⟩, rfl, rfl⟩, fun t ht => ?_⟩
  obtain ⟨others, hrun', -⟩ := spell_run t name
  have hsame : t.collection.table.spelling name = s.collection.table.spelling name := by
    rw [Table.spelling, ht.spelling? hspelled, Option.getD_some]
  exact ⟨_, by rw [hrun', hsame]⟩

theorem settles_callee (name : String) : Settles (callee name) :=
  (settles_spell name).bind (fun _ => .pure _)

theorem settles_ident (name : String) : Settles (ident name) := by
  have hresult : Settles (isResult name) := Settles.unit.bind (fun _ => .pure _)
  refine hresult.bind (fun b => ?_)
  split
  · exact (settles_spell name).bind (fun _ => .pure _)
  · exact settles_callee name

/-- Expressions are written the same way from then on. -/
theorem writing_settles : Writing fun _ act => Settles act where
  pure := .pure
  bind := .bind
  table := .table
  ident := settles_ident
  callee := settles_callee
  report place _ message _ := settles_report .warning place _ message

end Lower

/-! ## Arguments -/

namespace Node

/-- The expression that an argument of a call consists of. -/
def argument? (arg : Node) : Option Expression :=
  (arg.children.head?.filter (!·.isLeaf)).bind (·.expression?)

/-- The token that an argument of a call starts with. -/
def argumentToken? (arg : Node) : Option Lexeme :=
  arg.children.head?.bind (·.lexeme?)

/-- Is the argument passed, and not an alternate return? -/
def isPassed (arg : Node) : Bool :=
  arg.children.head?.any fun n => n.lexeme?.all (·.kind == .hollerithConst)

/-- The arguments of a CALL that are not alternate returns. -/
def passed (stmt : Node) : List Node :=
  ((Lower.grandchildren stmt .subroutineArgList).filter (·.hasLabel .subroutineArg)).filter isPassed

end Node

/-- Is the expression a name and nothing else? -/
def Expression.isBare (e : Expression) : Bool :=
  e.bareName?.isSome

namespace LowerState

variable (s : LowerState)

/-- Is the name that of a named constant or of the variable of an open loop? -/
def isFixed (name : String) : Bool :=
  (s.collection.table.lookup name).any (·.flags.parameter) ||
    s.unit.loops.any (·.index == nameKey name)

/-- Is the expression a variable, and not the name of a procedure? -/
def isVariable : Expression → Bool
  | .reference lx [] => !(s.collection.table.procedure lx.text).isCallable
  | _ => false

/-- Is the expression an element of an array, without a colon in its only list of subscripts? -/
def isElement : Expression → Bool
  | .reference lx [items] => s.collection.table.isArray lx.text && !items.any (·.isSpan)
  | _ => false

/-- Does a call bind the value that it gets for an argument? -/
def rebinds : Expression → Bool
  | .reference lx suffixes =>
    !s.isFixed lx.text &&
      (s.isVariable (.reference lx suffixes) || s.isElement (.reference lx suffixes))
  | _ => false

/-- The expression is written this way in the state, and after that. -/
def Writes (e : Expression) (v : Expr) : Prop :=
  ∀ t, Rewords s t → ∃ u, (Lower.expr e).run t = .ok (v, u)

/-- The argument is passed as a value, which is the text of a Hollerith constant or an expression. -/
def Sends (arg : Node) (v : Expr) : Prop :=
  (∃ lx, arg.argumentToken? = some lx ∧ v = .str (Text.juliaString lx.textValue)) ∨
    ∃ e, arg.argument? = some e ∧ s.Writes e v

/-- What is bound after a call: each argument that can be, to its part of the value. -/
def rebound (args : List Node) (values : List Expr) : List (Binding × Expr × Share) :=
  ((args.zip values).zipIdx 1).filterMap fun r =>
    if r.1.1.argument?.any s.rebinds then
      some (if s.unit.isGlobal && r.1.1.argument?.any Expression.isBare then .globally else .plain,
        r.1.2, if values.length = 1 then .whole else .item r.2)
    else none

end LowerState

section Rewords

variable {s t : LowerState}

theorem Rewords.rebinds (h : Rewords s t) (e : Expression) : t.rebinds e = s.rebinds e := by
  obtain ⟨more, hmore⟩ := h.table
  have hfixed : ∀ name, t.isFixed name = s.isFixed name := by
    intro name
    rw [LowerState.isFixed, LowerState.isFixed, hmore, h.unit]
    rfl
  have hvariable : t.isVariable = s.isVariable := by
    unfold LowerState.isVariable
    rw [hmore]
    rfl
  have helement : t.isElement = s.isElement := by
    unfold LowerState.isElement
    rw [hmore]
    rfl
  unfold LowerState.rebinds
  rw [hvariable, helement]
  simp only [hfixed]

theorem Rewords.rebound (h : Rewords s t) (args : List Node) (values : List Expr) :
    t.rebound args values = s.rebound args values := by
  have hsame : t.rebinds = s.rebinds := funext h.rebinds
  rw [LowerState.rebound, LowerState.rebound, hsame, h.unit]

theorem LowerState.Writes.later {e : Expression} {v : Expr} (h : s.Writes e v) (hst : Rewords s t) :
    t.Writes e v :=
  fun u hu => h u (hst.trans hu)

theorem LowerState.Sends.later {arg : Node} {v : Expr} (h : s.Sends arg v) (hst : Rewords s t) :
    t.Sends arg v := by
  rcases h with h | ⟨e, he, hv⟩
  · exact .inl h
  · exact .inr ⟨e, he, hv.later hst⟩

end Rewords

namespace Lower

/-- What becomes of the value of an argument that is passed as `v`. -/
structure Back (s : LowerState) (e : Option Expression) (v : Expr) (w : WriteBack) : Prop where
  bound : w.isBound = e.any s.rebinds
  name : w.isName = (e.any s.rebinds && e.any Expression.isBare)
  target : w.isBound → w.expr = v

theorem Back.later {s t : LowerState} {e : Option Expression} {v : Expr} {w : WriteBack}
    (h : Back s e v w) (hst : Rewords s t) : Back t e v w := by
  have hsame : e.any t.rebinds = e.any s.rebinds := by
    cases e with
    | none => rfl
    | some e => exact hst.rebinds e
  exact ⟨by rw [hsame, h.bound], by rw [hsame, h.name], h.target⟩

theorem isLoopIndex_run (s : LowerState) (name : String) :
    (isLoopIndex name).run s = .ok (s.unit.loops.any (·.index == nameKey name), s) :=
  rfl

/-- A constant or the variable of a loop is not bound. -/
theorem writeBack_fixed {s : LowerState} {lx : Lexeme} (h : s.isFixed lx.text)
    (suffixes : List (List Subscript)) :
    (writeBack (.reference lx suffixes)).run s = .ok (.drop, s) := by
  have htable : Lower.table.run s = .ok (s.collection.table, s) := rfl
  unfold writeBack
  simp only
  rw [run_bind_ok htable]
  by_cases hparam : (s.collection.table.lookup lx.text).any (·.flags.parameter)
  · rw [if_pos hparam]
    rfl
  · have hloop : s.unit.loops.any (·.index == nameKey lx.text) := by
      simpa [LowerState.isFixed, hparam] using h
    rw [if_neg hparam, run_bind_ok (isLoopIndex_run s lx.text), if_pos hloop]
    rfl

theorem back_drop {s : LowerState} {e : Expression} (h : s.rebinds e = false) (v : Expr) :
    Back s (some e) v .drop :=
  ⟨by simp [h, WriteBack.isBound], by simp [h, WriteBack.isName], by simp [WriteBack.isBound]⟩

/-- An argument is dropped unless it can be bound, and then it is bound to what is passed. -/
theorem writeBack_run {s : LowerState} {e : Expression} {v : Expr} (hv : s.Writes e v) :
    (writeBack e).Does s fun w t => Quiet s t ∧ Back s (some e) v w := by
  cases e with
  | reference lx suffixes =>
    cases hfixed : s.isFixed lx.text with
    | true =>
      refine ⟨.drop, s, writeBack_fixed hfixed suffixes, .refl s, back_drop ?_ v⟩
      rw [LowerState.rebinds, hfixed, Bool.not_true, Bool.false_and]
    | false =>
      have htable : Lower.table.run s = .ok (s.collection.table, s) := rfl
      obtain ⟨hparam, hloop⟩ := Bool.or_eq_false_iff.1 hfixed
      unfold Does writeBack
      simp only
      rw [run_bind_ok htable, if_neg (by simp [hparam]), run_bind_ok (isLoopIndex_run s lx.text),
        if_neg (by simp [hloop])]
      rcases suffixes with _ | ⟨items, _ | ⟨second, rest⟩⟩
      · -- A variable is written as it is bound.
        simp only
        split
        · rename_i hcallable
          refine ⟨.drop, s, rfl, .refl s, back_drop ?_ v⟩
          simp [LowerState.rebinds, LowerState.isVariable, LowerState.isElement, hcallable]
        · rename_i hcallable
          obtain ⟨x, t, hrun, hquiet, -⟩ := settles_ident lx.text s
          obtain ⟨u, hu⟩ := hv s (.refl s)
          rw [expr, run_bind_ok hrun] at hu
          obtain rfl : .name x = v := (Prod.mk.inj (Except.ok.inj hu)).1
          refine ⟨.variableName x, t, by rw [run_bind_ok hrun]; rfl, hquiet, ?_⟩
          have hrebinds : s.rebinds (.reference lx []) = true := by
            simp [LowerState.rebinds, LowerState.isVariable, hfixed, hcallable]
          constructor <;>
            simp [hrebinds, WriteBack.isBound, WriteBack.isName, WriteBack.expr, Expression.isBare,
              Expression.bareName?]
      · simp only
        split
        · rename_i helement
          obtain ⟨v', t, hrun, hquiet, -⟩ := writing_settles.expr (.reference lx [items]) s
          obtain ⟨u, hu⟩ := hv s (.refl s)
          obtain rfl : v' = v := (Prod.mk.inj (Except.ok.inj (hrun.symm.trans hu))).1
          refine ⟨.element v', t, by rw [run_bind_ok hrun]; rfl, hquiet, ?_⟩
          have hrebinds : s.rebinds (.reference lx [items]) = true := by
            simp only [LowerState.rebinds, LowerState.isElement, hfixed, helement, Bool.not_false,
              Bool.true_and, Bool.or_true]
          constructor <;>
            simp [hrebinds, WriteBack.isBound, WriteBack.isName, WriteBack.expr, Expression.isBare,
              Expression.bareName?]
        · rename_i helement
          refine ⟨.drop, s, rfl, .refl s, back_drop ?_ v⟩
          simpa [LowerState.rebinds, LowerState.isVariable, LowerState.isElement, hfixed] using helement
      · refine ⟨.drop, s, rfl, .refl s, back_drop ?_ v⟩
        simp [LowerState.rebinds, LowerState.isVariable, LowerState.isElement]
  | _ => exact ⟨.drop, s, rfl, .refl s, back_drop rfl v⟩

/-- The arguments that are passed, each with what becomes of its value. -/
theorem callArguments_run {wide : Prop} {args : List Node}
    (h : ∀ n ∈ args, n.Sound wide ∧ n.hasLabel .subroutineArg) : ∀ s : LowerState,
    (callArguments args).Does s fun rs t => Quiet s t ∧
      List.Forall₂ (fun arg r => t.Sends arg r.1 ∧ Back t arg.argument? r.1 r.2)
        (args.filter Node.isPassed) rs := by
  induction args with
  | nil => exact fun s => ⟨[], s, rfl, .refl s, .nil⟩
  | cons arg rest ih =>
    intro s
    have hrest := ih (fun n hn => h n (by simp [hn]))
    obtain ⟨harg, hlabel⟩ := h arg (by simp)
    unfold callArguments
    cases hhead : arg.children.head? with
    | none =>
      have hno : arg.isPassed = false := by simp [Node.isPassed, hhead]
      rw [List.filter_cons_of_neg (by simp [hno])]
      exact hrest s
    | some n =>
      cases n with
      | leaf k lx =>
        simp only
        split
        · rename_i hkind
          have hyes : arg.isPassed = true := by simpa [Node.isPassed, hhead, Node.lexeme?] using hkind
          rw [List.filter_cons_of_pos hyes]
          refine (hrest s).bind (fun rs t hrs => ?_)
          have hnone : arg.argument? = none := by simp [Node.argument?, hhead, Node.isLeaf]
          have hsends : t.Sends arg (.str (Text.juliaString lx.textValue)) :=
            .inl ⟨lx, by simp [Node.argumentToken?, hhead, Node.lexeme?], rfl⟩
          have hback : Back t arg.argument? (.str (Text.juliaString lx.textValue)) .drop := by
            rw [hnone]
            exact ⟨rfl, rfl, by simp [WriteBack.isBound]⟩
          exact ⟨_, t, rfl, hrs.1, .cons ⟨hsends, hback⟩ hrs.2⟩
        · rename_i hkind
          have hno : arg.isPassed = false := by
            simpa [Node.isPassed, hhead, Node.lexeme?] using hkind
          rw [List.filter_cons_of_neg (by simp [hno])]
          obtain ⟨_, t, hwarn, hquiet, -⟩ :=
            settles_report .warning arg.place Label.subroutineArg.name "alternate return argument dropped" s
          obtain ⟨rs, u, hrun, hu, hrs⟩ := hrest t
          have hwarn' : (warn arg Label.subroutineArg.name "alternate return argument dropped").run s =
            .ok ((), t) := hwarn
          exact ⟨rs, u, by rw [run_bind_ok hwarn', hrun], hquiet.trans hu, hrs⟩
      | inner k l cs =>
        have hyes : arg.isPassed = true := by simp [Node.isPassed, hhead, Node.lexeme?]
        have hexpr := harg.head_expression?
          (.inr (.inr (by simpa [Node.hasLabel] using hlabel))) hhead
        obtain ⟨e, he⟩ := Option.isSome_iff_exists.1 hexpr
        have hargument : arg.argument? = some e := by
          rw [Node.argument?, hhead]
          exact he
        have hread : (expressionOf (.inner k l cs)).run s = .ok (e, s) := by
          rw [expressionOf, he]
          rfl
        obtain ⟨v, t, hvalue, ht, hagain⟩ := writing_settles.expr e s
        obtain ⟨w, u, hwrite, hu, hback⟩ := writeBack_run (s := t) hagain
        obtain ⟨rs, x, hmore, hx, hrs⟩ := hrest u
        have hlater := hu.1.trans hx.1
        rw [List.filter_cons_of_pos hyes]
        refine ⟨(v, w) :: rs, x, ?_, ht.trans (hu.trans hx), .cons ⟨.inr ⟨e, hargument, ?_⟩, ?_⟩ hrs⟩
        · rw [run_bind_ok hread, run_bind_ok hvalue, run_bind_ok hwrite, run_bind_ok hmore]
          rfl
        · exact LowerState.Writes.later hagain hlater
        · rw [hargument]
          exact hback.later hlater

/-! ## Results -/

end Lower

/-- The state after some more lines at its depth. -/
def LowerState.written (s : LowerState) (codes : List Code) : LowerState :=
  { s with lines := (codes.map (Line.code s.depth)).reverse ++ s.lines }

theorem LowerState.written_append (s : LowerState) (xs ys : List Code) :
    (s.written xs).written ys = s.written (xs ++ ys) := by
  simp only [written, List.map_append, List.reverse_append, List.append_assoc]

namespace Lower

theorem line_run (c : Code) (s : LowerState) : (line c).run s = .ok ((), s.written [c]) :=
  rfl

/-- The targets of a call, each with its number. -/
def numbered (number : Nat) (targets : List WriteBack) : List (Binding × Expr × Nat) :=
  (targets.zipIdx number).filterMap fun r =>
    if r.1.isBound then some (if r.1.isName then .globally else .plain, r.1.expr, r.2) else none

/-- A line that takes an item out of the result. -/
def itemLine (r : Binding × Expr × Nat) : Code :=
  .assign r.1 [r.2.1] (.index (.name "_r") [.number (Decimal.digits r.2.2)])

theorem unpack_run (targets : List WriteBack) : ∀ (number : Nat) (s : LowerState),
    (unpack number targets).run s = .ok ((), s.written ((numbered number targets).map itemLine)) := by
  induction targets with
  | nil => exact fun _ _ => rfl
  | cons w rest ih =>
    intro number s
    unfold unpack
    cases hw : w.isBound with
    | true =>
      rw [if_pos rfl, run_bind_ok (line_run _ s), ih, LowerState.written_append]
      simp [numbered, List.zipIdx_cons, hw, itemLine]
    | false =>
      rw [if_neg (by simp)]
      show (unpack (number + 1) rest).run s = _
      rw [ih]
      simp [numbered, List.zipIdx_cons, hw]

/-- What is bound to the targets of a call. -/
def taken (global : Bool) (targets : List WriteBack) : List (Binding × Expr × Share) :=
  (targets.zipIdx 1).filterMap fun r =>
    if r.1.isBound then
      some (if global && r.1.isName then .globally else .plain, r.1.expr,
        if targets.length = 1 then .whole else .item r.2)
    else none

/-- The target in a tuple of targets. -/
def WriteBack.target? (w : WriteBack) : Option Expr :=
  if w.isBound then some w.expr else none

theorem WriteBack.getD_target? (w : WriteBack) : w.target?.getD (.name "_") = w.expr := by
  cases w <;> rfl

/-- Targets that are all bound the same way. -/
theorem taken_uniform {global : Bool} {targets : List WriteBack} {b : Binding}
    (hb : ∀ w ∈ targets, (if global && w.isName then .globally else .plain) = b)
    (hlen : 1 < targets.length) :
    taken global targets =
      ((targets.map WriteBack.target?).zipIdx 1).filterMap fun r =>
        r.1.map fun e => (b, e, Share.item r.2) := by
  rw [taken, List.zipIdx_map, List.filterMap_map]
  refine List.filterMap_congr (fun r hr => ?_)
  have hmem : r.1 ∈ targets := List.fst_mem_of_mem_zipIdx hr
  have hone : targets.length ≠ 1 := by omega
  simp only [Function.comp_apply, Prod.map, id, WriteBack.target?, hb r.1 hmem, hone, if_false]
  split <;> rfl

/-- A tuple of targets in one line, with the same binding for all. -/
theorem rebinds_together {global : Bool} {targets : List WriteBack} {b : Binding} (call : Expr)
    (hb : ∀ w ∈ targets, (if global && w.isName then .globally else .plain) = b)
    (hbound : targets.any (·.isBound)) :
    Rebinds [.assign b (targets.map (·.expr)) call] call (taken global targets) := by
  rcases targets with _ | ⟨w, _ | ⟨w', rest⟩⟩
  · cases hbound
  · have hw : w.isBound = true := by simpa using hbound
    have htaken : taken global [w] = [(b, w.expr, .whole)] := by
      simp [taken, hw, ← hb w (by simp)]
    rw [htaken]
    exact .one b w.expr call
  · rw [taken_uniform hb (by simp)]
    have htargets : (w :: w' :: rest).map (·.expr) =
        ((w :: w' :: rest).map WriteBack.target?).map (·.getD (.name "_")) := by
      rw [List.map_map]
      exact List.map_congr_left (fun w _ => w.getD_target?.symm)
    rw [htargets]
    exact .tuple b _ call (by simp)

/-- Whatever form the lines of a call have, they bind the same. -/
theorem bindResults_run (call : Expr) (targets : List WriteBack) (s : LowerState) :
    ∃ codes, (bindResults call targets).run s = .ok ((), s.written codes) ∧
      Rebinds codes call (taken s.unit.isGlobal targets) := by
  have hunit : Lower.unit.run s = .ok (s.unit, s) := rfl
  unfold bindResults
  rw [run_bind_ok hunit]
  generalize s.unit.isGlobal = global
  simp only
  split
  · rename_i hnone
    have hno : ∀ w ∈ targets, w.isBound = false := by simpa using hnone
    have htaken : taken global targets = [] := by
      rw [taken, List.filterMap_eq_nil_iff]
      intro r hr
      have hmem : r.1 ∈ targets := List.fst_mem_of_mem_zipIdx hr
      rw [if_neg (by simp [hno r.1 hmem])]
    rw [htaken]
    exact ⟨_, line_run _ s, .none call⟩
  · rename_i hsome
    have hbound : targets.any (·.isBound) = true := by simpa using hsome
    split
    · rename_i htogether
      refine ⟨_, line_run _ s, rebinds_together call (fun w hw => ?_) hbound⟩
      simp only [Bool.or_eq_true, Bool.not_eq_true', beq_iff_eq] at htogether
      rcases htogether with (rfl | hall) | hzero
      · rfl
      · have hname := List.countP_eq_length.1 hall w hw
        simp [hname, hall]
      · have hname : w.isName = false := by simpa using List.countP_eq_zero.1 hzero w hw
        have hlen : 0 < targets.length := List.length_pos_of_mem hw
        simp [hname, hzero, Nat.ne_of_lt hlen]
    · rename_i happart
      refine ⟨.assign .globally [.name "_r"] call :: (numbered 1 targets).map itemLine, ?_, ?_⟩
      · rw [run_bind_ok (line_run _ s), unpack_run, LowerState.written_append]
        rfl
      · simp only [Bool.or_eq_true, Bool.not_eq_true', beq_iff_eq, not_or, Bool.not_eq_false] at happart
        obtain ⟨⟨rfl, hsome⟩, hzero⟩ := happart
        -- With a name among the targets and something else, there is more than one.
        have hle : targets.countP (·.isName) ≤ targets.length := List.countP_le_length
        have hone : targets.length ≠ 1 := by omega
        have htaken : taken true targets =
            (numbered 1 targets).map fun r => (r.1, r.2.1, Share.item r.2.2) := by
          rw [taken, numbered, List.map_filterMap]
          refine List.filterMap_congr (fun r _ => ?_)
          simp only [Bool.true_and, hone, if_false]
          split <;> rfl
        rw [htaken]
        exact .unpacked call (numbered 1 targets)

/-- The targets of a call are the arguments that it binds. -/
theorem taken_eq {t : LowerState} {args : List Node} {rs : List (Expr × WriteBack)}
    (h : List.Forall₂ (fun arg r => t.Sends arg r.1 ∧ Back t arg.argument? r.1 r.2) args rs) :
    taken t.unit.isGlobal (rs.map (·.2)) = t.rebound args (rs.map (·.1)) := by
  have hall : ∀ (share : Nat → Share) (number : Nat),
      (((rs.map (·.2)).zipIdx number).filterMap fun r =>
        if r.1.isBound then
          some (if t.unit.isGlobal && r.1.isName then Binding.globally else .plain, r.1.expr, share r.2)
        else none) =
      ((args.zip (rs.map (·.1))).zipIdx number).filterMap fun r =>
        if r.1.1.argument?.any t.rebinds then
          some (if t.unit.isGlobal && r.1.1.argument?.any Expression.isBare then Binding.globally
            else .plain, r.1.2, share r.2)
        else none := by
    intro share
    induction h with
    | nil => exact fun _ => rfl
    | @cons arg r args rs hr _ ih =>
      intro number
      obtain ⟨-, hbound, hname, htarget⟩ := hr
      simp only [List.map_cons, List.zip_cons_cons, List.zipIdx_cons, List.filterMap_cons, ih]
      cases hrebinds : arg.argument?.any t.rebinds with
      | false =>
        rw [hrebinds] at hbound
        simp [hbound]
      | true =>
        rw [hrebinds] at hbound hname
        simp [hbound, hname, htarget hbound]
  rw [taken, LowerState.rebound, List.length_map, List.length_map]
  exact hall (fun number => if rs.length = 1 then .whole else .item number) 1

/-- A call of a known subroutine passes its arguments in order, and binds those that can be bound. -/
theorem callStmt_run {wide : Prop} {stmt : Node} (h : stmt.Sound wide) {s : LowerState} {y : Symbol}
    (hy : s.collection.table.global.get? (childText stmt .subroutineNameUse) = some y)
    (hkind : y.kind = .subroutine) (hparams : y.params.length = stmt.passed.length) :
    ∃ values codes t, (callStmt stmt).run s = .ok ((), t.written codes) ∧ Quiet s t ∧
      List.Forall₂ t.Sends stmt.passed values ∧
      t.collection.table.spelling? (childText stmt .subroutineNameUse) =
        some (t.collection.table.spelling (childText stmt .subroutineNameUse)) ∧
      Rebinds codes
        (.call (escaped (t.collection.table.spelling (childText stmt .subroutineNameUse))) values)
        (t.rebound stmt.passed values) := by
  have hargs : ∀ n ∈ (grandchildren stmt .subroutineArgList).filter (·.hasLabel .subroutineArg),
      n.Sound wide ∧ n.hasLabel .subroutineArg := by
    intro n hn
    obtain ⟨hmem, hlabel⟩ := List.mem_filter.1 hn
    exact ⟨h.grandchildren hmem, hlabel⟩
  obtain ⟨rs, t, hrun, hst, hrs⟩ := callArguments_run hargs s
  obtain ⟨more, hspell, hspelled⟩ := spell_run t (childText stmt .subroutineNameUse)
  have hcallee : (callee (childText stmt .subroutineNameUse)).run t =
      .ok (escaped (t.collection.table.spelling (childText stmt .subroutineNameUse)),
        t.recorded more) := run_bind_ok hspell
  have htu : Quiet t (t.recorded more) := ⟨⟨rfl, more, rfl⟩, rfl, rfl⟩
  generalize hu : t.recorded more = u at hcallee htu hspelled
  have hsame : u.collection.table.spelling (childText stmt .subroutineNameUse) =
      t.collection.table.spelling (childText stmt .subroutineNameUse) := by
    rw [Table.spelling, hspelled, Option.getD_some]
  have hrs' : List.Forall₂ (fun arg r => u.Sends arg r.1 ∧ Back u arg.argument? r.1 r.2)
      stmt.passed rs :=
    hrs.imp (fun _ _ hr => ⟨hr.1.later htu.1, hr.2.later htu.1⟩)
  have htable : Lower.table.run u = .ok (u.collection.table, u) := rfl
  have hlength : rs.length = y.params.length := by rw [← hrs.length_eq, hparams]; rfl
  -- The global scope is still the one in which the subroutine is known.
  have hknown : (u.collection.table.global.get? (childText stmt .subroutineNameUse)).filter
      (·.kind == .subroutine) = some y := by
    obtain ⟨others, hothers⟩ := (hst.trans htu).1.table
    rw [hothers]
    show (s.collection.table.global.get? _).filter _ = some y
    rw [hy]
    simp [hkind]
  obtain ⟨codes, hbind, hcodes⟩ := bindResults_run
    (.call (escaped (t.collection.table.spelling (childText stmt .subroutineNameUse))) (rs.map (·.1)))
    (rs.map (·.2)) u
  refine ⟨rs.map (·.1), codes, u, ?_, hst.trans htu, ?_, by rw [hspelled, hsame], ?_⟩
  · unfold callStmt
    simp only
    rw [run_bind_ok hrun, run_bind_ok hcallee, run_bind_ok htable, hknown]
    simp only
    rw [if_neg (by simp [hlength])]
    have htake : (rs.map (·.2)).take y.params.length = rs.map (·.2) := by
      rw [← hlength, List.take_of_length_le (by simp)]
    rw [htake]
    exact hbind
  · rw [List.forall₂_map_right_iff]
    exact hrs'.imp (fun _ _ hr => hr.1)
  · rw [hsame, ← taken_eq hrs']
    exact hcodes

end Lower

end FortranJulia
