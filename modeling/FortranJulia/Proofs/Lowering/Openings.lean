import FortranJulia.Proofs.Lowering.Specifications

/-!
The start of a unit. Of the scope of a unit only the dummy arguments are known when it is entered. The
specifications at the start of its statements write their lines one after the other; then the local variables
that are not accounted for get the zeros of their types, once and for all.
-/

namespace FortranJulia

set_option autoImplicit false

open Julia (Expr Binding Code Line)

/-! ## Local variables -/

namespace LowerState

/-- The line that gives a name the zero of its type. -/
def zeroLine (s : LowerState) (x : String) : Line :=
  .code s.depth (.assign (if s.unit.isGlobal then .globally else .plain) [.name (s.variableName x)]
    (zeroValue (s.collection.table.typeOf x)))

/-- The lines that give names zeros, each with its name. -/
def zeros (s : LowerState) (names : List String) : List (Line × List String) :=
  names.map fun x => (s.zeroLine x, [x])

theorem boundKeys_zeros (s : LowerState) (names : List String) :
    boundKeys (s.zeros names) = names.map nameKey := by
  induction names with
  | nil => rfl
  | cons x names ih =>
    have hcons : s.zeros (x :: names) = [(s.zeroLine x, [x])] ++ s.zeros names := rfl
    rw [hcons, boundKeys_append, ih]
    rfl

/-- The state behind a zero of a name. -/
def zeroed (s : LowerState) (x : String) : LowerState :=
  { s.noting x [] with lines := s.zeroLine x :: s.lines }

theorem zeroed_accounts {s : LowerState} {x y : String} (h : (s.zeroed x).Accounts y) :
    s.Accounts y ∨ nameKey y = nameKey x := by
  cases h with
  | declared h =>
    rcases List.mem_cons.1 (show nameKey y ∈ nameKey x :: s.unit.declared from h) with h | h
    · exact .inr h
    · exact .inl (.declared h)
  | constant h => exact .inl (.constant h)
  | formal h => exact .inl (.formal h)
  | common h => exact .inl (.common h)
  | result h => exact .inl (.result h)
  | array h => exact .inl (.array h)
  | parameter h => exact .inl (.parameter h)
  | callable h => exact .inl (.callable h)
  | procedure h => exact .inl (.procedure h)

end LowerState

namespace Lower

variable {n : Node} {s t : LowerState} {ns : List Node} {a : Unit} {x : String}

theorem Hush.accounts (h : Hush s t) (hx : t.Accounts x) : s.Accounts x := by
  obtain ⟨⟨hunit, more, htable⟩, -, -, -⟩ := h
  have hsymbol : t.symbol x = s.symbol x := by
    rw [LowerState.symbol, htable]
    rfl
  have hglobal : t.collection.table.global = s.collection.table.global := by rw [htable]; rfl
  rw [LowerState.accounts_iff] at hx ⊢
  rwa [hunit, hsymbol, LowerState.isResult, hunit, hglobal] at hx

/-- A variable that needs a value gets the zero of its type. -/
def bindLocal (name : String) : Lower Unit := do
  if ← needsZero name then
    let type := (← table).typeOf name
    let b ← binding
    line (.assign b [.name (← ident name)] (zeroValue type))
    declare name

theorem bindLocal_run (s : LowerState) (x : String) : if s.needsZero x then
      ∃ u, (bindLocal x).run s = .ok ((), u.zeroed x) ∧ Hush s u ∧
        (u.collection.table.spelling? x).isSome
    else (bindLocal x).run s = .ok ((), s) := by
  rw [bindLocal, run_bind_ok (s.needsZero_run x)]
  split
  · obtain ⟨more, hident, hspelled⟩ := ident_spells s x
    obtain ⟨hhush, hname, -⟩ := ident_writes hident
    have htable : Lower.table.run s = .ok (s.collection.table, s) := rfl
    have hbinding : binding.run s = .ok (if s.unit.isGlobal then .globally else .plain, s) := rfl
    refine ⟨s.recorded more, ?_, hhush, by rw [hspelled]; rfl⟩
    rw [run_bind_ok htable, run_bind_ok hbinding, run_bind_ok hident, hname]
    rfl
  · rfl

/-- The zeros of some names: each that is not accounted for gets one. -/
theorem bindLocal_writes (names : List String) (ns : List Node) : ∀ {s t : LowerState} {a : Unit}, s.Ready →
    (names.forM bindLocal).run s = .ok (a, t) → ∃ given : List String,
      Introduces ns s t (t.zeros given) ∧ (∃ more, t.collection.table = s.collection.table.recorded more) ∧
      (∀ y ∈ given, ¬ s.Accounts y) ∧ (given.map nameKey).Nodup ∧
      ∀ y ∈ names, s.Accounts y ∨ nameKey y ∈ given.map nameKey := by
  induction names with
  | nil =>
    intro s t a _ h
    obtain ⟨-, rfl⟩ := Prod.mk.inj (Except.ok.inj h)
    exact ⟨[], (Hush.refl s).introduces ns, ⟨[], s.collection.table.recorded_nil.symm⟩, by simp⟩
  | cons x names ih =>
    intro s t a hs h
    obtain ⟨_, u, hx, h⟩ := run_bind_inv (f := fun _ => names.forM bindLocal) h
    have hlocal := bindLocal_run s x
    split at hlocal
    · rename_i hneeds
      obtain ⟨v, hrun, hhush, hspelled⟩ := hlocal
      obtain rfl : v.zeroed x = u := congrArg Prod.snd (Except.ok.inj (hrun.symm.trans hx))
      have hfirst : Introduces ns s (v.zeroed x) [(v.zeroLine x, [x])] := by
        have hvalue := (hhush.noting x []).value ns (if v.unit.isGlobal then .globally else .plain)
          (zeroValue (v.collection.table.typeOf x)) hspelled (by simp)
        rw [show s.depth = v.depth from hhush.depth.symm] at hvalue
        exact hvalue
      obtain ⟨given, hrest, ⟨others, hothers⟩, hnew, hnodup, hall⟩ := ih (hfirst.ready hs) h
      obtain ⟨more, hmore⟩ := hhush.table
      have hsame : t.zeroLine x = v.zeroLine x := by
        have hname := (hrest.spelled (x := x) hspelled).1
        have htype : t.collection.table.typeOf x = v.collection.table.typeOf x := by
          rw [hothers]
          rfl
        rw [LowerState.zeroLine, hrest.depth, hrest.isGlobal, hname, htype]
        rfl
      have haccounts : (v.zeroed x).Accounts x :=
        hfirst.accounts x (by simp [boundKeys])
      refine ⟨x :: given, ?_, ⟨more ++ others, ?_⟩, fun y hy => ?_, ?_, fun y hy => ?_⟩
      · have hboth := hfirst.trans hs hrest
        rw [← hsame] at hboth
        exact hboth
      · rw [hothers, ← Table.recorded_recorded, ← hmore]
        rfl
      · rcases List.mem_cons.1 hy with rfl | hy
        · exact LowerState.needsZero_iff.1 hneeds
        · exact fun hy' => hnew y hy (hfirst.accounts_later hs hy')
      · refine List.nodup_cons.2 ⟨fun hmem => ?_, hnodup⟩
        obtain ⟨y, hy, hkey⟩ := List.mem_map.1 hmem
        exact hnew y hy (haccounts.congr hkey)
      · rw [List.map_cons, List.mem_cons]
        rcases List.mem_cons.1 hy with rfl | hy
        · exact .inr (.inl rfl)
        · rcases hall y hy with hy | hy
          · exact (LowerState.zeroed_accounts hy).imp hhush.accounts .inl
          · exact .inr (.inr hy)
    · rename_i hno
      obtain rfl : s = u := congrArg Prod.snd (Except.ok.inj (hlocal.symm.trans hx))
      obtain ⟨given, hgiven, hmore, hnew, hnodup, hall⟩ := ih hs h
      refine ⟨given, hgiven, hmore, hnew, hnodup, fun y hy => ?_⟩
      rcases List.mem_cons.1 hy with rfl | hy
      · exact .inl (by_contra fun hy => hno (LowerState.needsZero_iff.2 hy))
      · exact hall y hy

end Lower

/-- The state of a unit that has given its local variables values. -/
def LowerState.done (s : LowerState) : LowerState :=
  { s with unit := { s.unit with localsDone := true } }

namespace LowerState

variable {s : LowerState} {x : String}

theorem done_accounts : s.done.Accounts x ↔ s.Accounts x := by
  rw [accounts_iff, accounts_iff]
  rfl

theorem Binds.of_lines {d : Nat} {l : Line} {xs : List String} (h : s.Binds d l xs) (ls : List Line) :
    { s with lines := ls }.Binds d l xs := by
  cases h with
  | value b e hx => exact .value (s := { s with lines := ls }) b e hx
  | shared hxs => exact .shared (s := { s with lines := ls }) hxs
  | other hl => exact .other hl

theorem Binds.done {d : Nat} {l : Line} {xs : List String} (h : s.Binds d l xs) : s.done.Binds d l xs := by
  cases h with
  | value b e hx => exact .value (s := s.done) b e hx
  | shared hxs => exact .shared (s := s.done) hxs
  | other hl => exact .other hl

end LowerState

namespace Lower

variable {n : Node} {s t : LowerState} {a : Unit} {wide : Prop}

/-- What is written before the first executable statement: zeros of the local variables that are not
accounted for, and the mark of its label. -/
theorem before_opens (hs : s.Ready) (hdone : s.unit.localsDone = false)
    (hspec : Visit.isSpecification ⟨n, s⟩ = false) (h : (before n).run s = .ok (a, t)) :
    ∃ (given : List String) (marks : List Line),
      t.lines = ((t.zeros given).map Prod.fst ++ marks).reverse ++ s.lines ∧
      (∀ l ∈ marks, l = .code s.depth (.label (labelName (labelOf n)))) ∧
      (∃ v, Introduces [n] (collected n s).done v (t.zeros given) ∧ t = { v with lines := t.lines }) ∧
      (∀ y ∈ given, ¬ (collected n s).Accounts y) ∧ (given.map nameKey).Nodup ∧
      ∀ y ∈ s.unit.locals, (collected n s).Accounts y ∨ nameKey y ∈ given.map nameKey := by
  have hcollected := collected_introduces hs n
  have hready : (collected n s).done.Ready := ⟨(hcollected.ready hs).opened, (hcollected.ready hs).keyed⟩
  have hfirst : (!s.unit.localsDone && !Visit.isSpecification ⟨n, s⟩) = true := by rw [hdone, hspec]; rfl
  rw [before_run, if_pos hfirst] at h
  obtain ⟨_, v, hlocals, hmark⟩ := run_bind_inv h
  have hgives : (s.unit.locals.forM bindLocal).run (collected n s).done = .ok ((), v) := hlocals
  obtain ⟨given, hgiven, -, hnew, hnodup, hall⟩ := bindLocal_writes s.unit.locals [n] hready hgives
  obtain ⟨marks, rfl, hmarks⟩ := labelMark_writes hmark
  refine ⟨given, marks, ?_, fun l hl => ?_, ⟨v, hgiven, rfl⟩, fun y hy hy' => ?_, hnodup, fun y hy => ?_⟩
  · show marks.reverse ++ v.lines = _
    rw [hgiven.lines, List.reverse_append, List.append_assoc]
    rfl
  · rw [hmarks l hl, hgiven.depth]
    rfl
  · exact hnew y hy (LowerState.done_accounts.2 hy')
  · exact (hall y hy).imp_left LowerState.done_accounts.1

/-- What lines bind stays bound where the local variables get zeros. -/
theorem opens_keeps {own : List (Line × List String)} (hs : s.Ready)
    (h : Introduces [n] (collected n s).done t own) :
    t.depth = s.depth ∧ (∀ {d l xs}, s.Binds d l xs → t.Binds d l xs) ∧
      ∀ {x}, (s.collection.table.spelling? x).isSome → t.variableName x = s.variableName x := by
  have hcollected := collected_introduces hs n
  refine ⟨h.depth, fun hb => h.binds_later (hcollected.binds_later hb).done, fun hx => ?_⟩
  obtain ⟨hname, hspelled⟩ := hcollected.spelled hx
  exact (h.spelled (s := (collected n s).done) hspelled).1.trans hname

/-- Behind the first executable statement of a unit, all local variables have been given values. -/
theorem before_done (hs : s.Ready) (hspec : Visit.isSpecification ⟨n, s⟩ = false)
    (h : (before n).run s = .ok (a, t)) : t.unit.localsDone := by
  cases hdone : s.unit.localsDone with
  | true =>
    rw [before_quiet (.inl hdone)] at h
    obtain ⟨_, rfl, -⟩ := labelMark_writes h
    exact hdone
  | false =>
    obtain ⟨_, _, -, -, ⟨v, hv, ht⟩, -⟩ := before_opens hs hdone hspec h
    rw [ht]
    exact hv.unit_eq.2.2.2.2.2.2

/-! ## The start of a list -/

/-- A specification has no blocks. -/
theorem entries_specification {table : Table} (h : isSpecification table n) (s : LowerState) :
    entries n s = [] := by
  cases n with
  | leaf i lx => rw [entries]
  | inner i l cs =>
    rw [entries, if_neg]
    intro hl
    obtain rfl := eq_of_beq hl
    cases h

/-- Local variables that have values are not given any again. -/
theorem done_list {stmts : List Node} (hstmts : ∀ n ∈ stmts, n.Sound wide) (hs : s.Open)
    (hdone : s.unit.localsDone) : ∀ f ∈ listEntries stmts s, f.state.unit.localsDone := by
  obtain ⟨_, _, -, -, hentries⟩ := entries_statements stmts hstmts s hs
  exact fun f hf => (hentries f hf).2.1.localsDone hdone

/-- Local variables get no values in a statement that is executed, nor behind it. -/
theorem done_behind {stmts : List Node} (hn : n.Sound wide) (hstmts : ∀ m ∈ stmts, m.Sound wide)
    (hs : s.Open) (hready : s.Ready) (hspec : Visit.isSpecification ⟨n, s⟩ = false) :
    ∀ f ∈ entries n (behind (before n) s) ++ listEntries stmts (behind (statements [n]) s),
      f.state.unit.localsDone := by
  have hfirst : Carries wide (before n) := (moves_before n).carries
  obtain ⟨_, t, hbefore, hst⟩ := hfirst s hs
  have hdone := before_done hready hspec hbefore
  have ht := (hst.settled hs).1
  obtain ⟨_, u, hstatement, htu, hentries⟩ := entries_statement n hn t ht
  obtain ⟨_, v, hafter, huv⟩ := carries_after hn u (htu.settled ht).1
  have hall : (statements [n]).run s = .ok ((), v) := by
    rw [statements, run_bind_ok hbefore, run_bind_ok hstatement, run_bind_ok hafter, statements]
    rfl
  rw [behind_eq hbefore, behind_eq hall]
  intro f hf
  rcases List.mem_append.1 hf with hf | hf
  · exact (hentries f hf).2.1.localsDone hdone
  · have hv := huv.localsDone (htu.localsDone hdone)
    exact done_list hstmts (huv.settled (htu.settled ht).1).1 hv f hf

/-- The specifications at the start of a list write their lines one after the other. Nothing is known of the
statement behind them; if it is executed, the local variables have values from then on. -/
theorem opening {stmts : List Node} (hstmts : ∀ n ∈ stmts, n.Sound wide ∧ n.Declarative) :
    ∀ {s : LowerState} {front rest : List Visit} {e : Visit}, s.Open → s.Ready → s.unit.loops = [] →
      listEntries stmts s = front ++ e :: rest → (∀ f ∈ front, f.isSpecification) →
      ∃ own, Introduces (front.map (·.node)) s e.state own ∧ Told (front.map (·.node)) e.state own ∧
        (e.isSpecification = false → ∀ f ∈ rest, f.state.unit.localsDone) := by
  induction stmts with
  | nil =>
    intro s front rest e _ _ _ hlist _
    rw [listEntries] at hlist
    exact absurd hlist (by simp)
  | cons n stmts ih =>
    intro s front rest e hs hready hloops hlist hfront
    obtain ⟨hn, hdecl⟩ := hstmts n List.mem_cons_self
    have hsound : ∀ m ∈ stmts, m.Sound wide := fun m hm => (hstmts m (List.mem_cons_of_mem _ hm)).1
    rw [listEntries, List.cons_append] at hlist
    cases front with
    | nil =>
      obtain ⟨rfl, rfl⟩ := List.cons.inj hlist
      refine ⟨[], (Hush.refl s).introduces [], .nil s [], fun hspec => ?_⟩
      exact done_behind hn hsound hs hready hspec
    | cons f front =>
      obtain ⟨rfl, hrest⟩ := List.cons.inj hlist
      have hspec : Visit.isSpecification ⟨n, s⟩ := hfront _ List.mem_cons_self
      rw [entries_specification hspec, List.nil_append] at hrest
      have hcarries : Carries wide (statements [n]) :=
        carries_statements [n] (fun m hm => List.mem_singleton.1 hm ▸ hn)
      obtain ⟨_, t, hrun, hst⟩ := hcarries s hs
      rw [behind_eq hrun] at hrest
      obtain ⟨own, hown, htold⟩ := specification_tells hdecl hready hloops hspec hrun
      obtain ⟨own', hown', htold', hdone⟩ := ih (fun m hm => hstmts m (List.mem_cons_of_mem _ hm))
        (hst.settled hs).1 (hown.ready hready) (hown.unit_eq.2.2.2.1.trans hloops) hrest
        (fun f hf => hfront f (List.mem_cons_of_mem _ hf))
      refine ⟨own ++ own', ?_, ?_, hdone⟩
      · exact (hown.mono (by simp)).trans hready (hown'.mono (fun m hm => List.mem_cons_of_mem _ hm))
      · exact (htold.later (hown.ready hready) hown').append (htold'.behind own)

end Lower

/-! ## The start of a unit -/

/-- A symbol of which nothing is known but whether it is a dummy argument. -/
structure Symbol.Plain (y : Symbol) : Prop where
  common : y.flags.common = false
  parameter : y.flags.parameter = false
  array : y.isArray = false
  called : y.kind.isCallable = false

/-- A scope of which only the dummy arguments are known. -/
structure Scope.Fresh (s : Scope) : Prop where
  keyed : s.Keyed
  plain : ∀ x, (s.getOrNew x).Plain
  formal : ∀ x, (s.getOrNew x).flags.formal ↔ nameKey x ∈ s.formals.map nameKey

namespace Scope.Fresh

variable {s : Scope}

theorem empty (h : s.symbols = []) (hnone : s.formals = []) : s.Fresh := by
  have hnew : ∀ x, s.getOrNew x = { name := x } := by
    intro x
    rw [getOrNew, get?, h]
    rfl
  refine ⟨by simp [Keyed, h], fun x => ?_, fun x => ?_⟩
  · rw [hnew]
    exact ⟨rfl, rfl, rfl, rfl⟩
  · rw [hnew, hnone]
    simp

theorem addFormal (h : s.Fresh) (w : String) : (s.addFormal w).Fresh := by
  refine ⟨addFormal_keyed h.keyed w, fun x => ?_, fun x => ?_⟩
  · show ((s.update w (·.mark .formal)).getOrNew x).Plain
    rw [getOrNew_update]
    obtain ⟨hcommon, hparameter, harray, hcalled⟩ := h.plain w
    split
    · exact ⟨hcommon, hparameter, harray, hcalled⟩
    · exact h.plain x
  · rw [addFormal_formals h.keyed, List.mem_append, List.mem_singleton]
    show ((s.update w (·.mark .formal)).getOrNew x).flags.formal ↔ _
    rw [getOrNew_update]
    split
    · rename_i hkey
      exact ⟨fun _ => .inr hkey, fun _ => rfl⟩
    · rename_i hkey
      rw [h.formal x]
      exact (or_iff_left hkey).symm

theorem setFormals (h : s.Fresh) (hnone : s.formals = []) (names : List String) :
    (s.setFormals names).Fresh := by
  have hfold : ∀ {t : Scope}, t.Fresh → (names.foldl Scope.addFormal t).Fresh := by
    induction names with
    | nil => exact fun ht => ht
    | cons name names ih => exact fun ht => ih (ht.addFormal name)
  have hsame : { s with formals := [] } = s := by rw [← hnone]
  have hall := hfold h
  rw [← hsame] at hall
  exact hall

theorem declare (h : s.Fresh) (w : String) (type : Option TypeName) : (s.declare w type).Fresh := by
  refine ⟨h.keyed.update w (fun _ => rfl), fun x => ?_, fun x => ?_⟩
  · rw [Scope.declare, getOrNew_update]
    obtain ⟨hcommon, hparameter, harray, hcalled⟩ := h.plain w
    split
    · exact ⟨hcommon, hparameter, harray, hcalled⟩
    · exact h.plain x
  · have hframe : (s.declare w type).formals = s.formals := congrArg (·.2.2)
      (s.frame_update w fun y => { y with type := type, flags := y.flags.put false .implicit })
    rw [hframe, Scope.declare, getOrNew_update, ← h.formal x]
    split
    · rename_i hkey
      rw [(s.getOrNew_congr hkey).1]
      exact Iff.rfl
    · exact Iff.rfl

end Scope.Fresh

/-- Of the scope of a unit that is entered only the dummy arguments are known. -/
theorem Collection.enterUnit_fresh (c : Collection) (unit : Node) :
    (c.enterUnit unit).table.current.Fresh := by
  obtain ⟨h, d, hd⟩ : ∃ h d, c.header unit = (h, d) := ⟨_, _, rfl⟩
  have hfresh : ((d.table.spell h.name).enter ((d.table.spell h.name).spelling h.name)
      h.scope).current.Fresh := .empty rfl rfl
  have hformals := hfresh.setFormals rfl h.params
  rw [← Table.current_modify _ (·.setFormals h.params)] at hformals
  rw [enterUnit, hd]
  show (d.enter h).table.current.Fresh
  unfold enter
  simp only
  split
  · rw [Table.current_modify]
    exact hformals.declare _ _
  · exact hformals

/-- The dummy arguments that the first statement of a unit lists. -/
def Node.formalNames (unit : Node) : List String :=
  unit.children.head?.elim [] fun first => (first.findAll .dummyArgName).map (·.text)

section Routine

variable {l : Label} {whole last : Node} {head body : Option Node}
  (hl : l = .functionSubprogram ∨ l = .subroutineSubprogram) (hlabel : whole.label? = some l)
  (h : UnitParts l whole.children head body last)

include hl hlabel h

theorem Collection.header_formals (c : Collection) :
    (c.header whole).1.params.map nameKey = whole.formalNames.map nameKey := by
  obtain ⟨first, rfl⟩ := Option.isSome_iff_exists.1 (h.headed (by rcases hl with rfl | rfl <;> decide))
  have hchildren : whole.children = first :: (body.toList ++ [last]) := h.children
  have hfirst : whole.child? l.unitHead = some first := by
    rw [Node.child?, hchildren, List.find?_cons_of_pos]
    rw [Node.hasLabel, h.headLabel first rfl]
    exact beq_self_eq_true _
  have hparams : (c.header whole).1.params = (c.params (whole.child? l.unitHead)).1 := by
    unfold header
    rw [hlabel]
    rcases hl with rfl | rfl <;> rfl
  obtain ⟨-, -, hkeys⟩ := c.params_spelled (some first)
  rw [hparams, hfirst, hkeys, Node.formalNames, hchildren]
  exact List.map_map.symm

theorem LowerState.entered_formals (s : LowerState) (u : UnitState) :
    (s.entered whole u).collection.table.current.formals.map nameKey = whole.formalNames.map nameKey := by
  rw [(s.entered_current whole u).2, s.collection.header_formals hl hlabel h]

end Routine

theorem LowerState.entered_ready (s : LowerState) (whole : Node) (u : UnitState) :
    (s.entered whole u).Ready :=
  ⟨(s.entered_open whole u).1.unit, (s.collection.enterUnit_fresh whole).keyed⟩

namespace Lower

/-- The state behind the first line of a routine. -/
structure Headed (s u : LowerState) : Prop where
  table : ∃ more, u.collection.table = s.collection.table.recorded more
  unit : u.unit = s.unit
  depth : u.depth = s.depth + 1
  lines : ∃ f, u.lines = .code s.depth (.functionHead f
    (s.collection.table.current.formals.map s.variableName)) :: s.lines

namespace Headed

variable {s u : LowerState}

theorem kin (h : Headed s u) : s.collection.table.Kin u.collection.table := by
  obtain ⟨more, hmore⟩ := h.table
  rw [hmore]
  exact .recorded _ more

theorem current (h : Headed s u) : u.collection.table.current = s.collection.table.current := by
  obtain ⟨more, hmore⟩ := h.table
  rw [hmore]
  rfl

theorem ready (h : Headed s u) (hs : s.Ready) : u.Ready :=
  ⟨h.kin.isSome.trans hs.opened, by rw [h.current]; exact hs.keyed⟩

end Headed

/-- Behind its first line, a function binds its result. -/
theorem routineHead_writes (stmt : Node) {s t : LowerState} {a : Unit} (hs : s.Open) (hready : s.Ready)
    (h : (routineHead stmt).run s = .ok (a, t)) :
    ∃ u own, Headed s u ∧ Introduces [] u t own ∧
      (s.unit.kind = .functionSubprogram → nameKey s.unit.name ∈ boundKeys own) := by
  have hunit : Lower.unit.run s = .ok (s.unit, s) := rfl
  have htable : ∀ v, Lower.table.run v = .ok (v.collection.table, v) := fun _ => rfl
  obtain ⟨more, hparams⟩ := idents_run fun x (hx : x ∈ s.collection.table.current.formals) =>
    hs.spelled x (List.mem_cons_of_mem _ hx)
  rw [routineHead, run_bind_ok hunit, run_bind_ok (htable s), run_bind_ok hparams] at h
  obtain ⟨f, v, hcallee, h⟩ := run_bind_inv h
  have hv : Hush s v := (Hush.recorded s more).trans ((hushed_callee _).hush hcallee)
  -- The state in which the comments of the first line are written.
  let u : LowerState := { v with
    lines := .code v.depth
      (.functionHead f (s.collection.table.current.formals.map s.variableName)) :: v.lines
    depth := v.depth + 1 }
  have hu : Headed s u := ⟨hv.table, hv.unit, congrArg (· + 1) hv.depth, f, by
    show Line.code v.depth _ :: v.lines = _
    rw [hv.depth, hv.lines]⟩
  have hline : ∀ c : Code, (line c).run v = .ok ((), { v with lines := .code v.depth c :: v.lines }) :=
    fun _ => rfl
  rw [run_bind_ok (hline _)] at h
  obtain ⟨_, _, hdeeper, h⟩ := run_bind_inv h
  obtain ⟨-, rfl⟩ := Prod.mk.inj (Except.ok.inj hdeeper)
  obtain ⟨_, w, htrailing, h⟩ := run_bind_inv h
  obtain ⟨own, hown⟩ := introducing_trailing stmt [] (hu.ready hready) htrailing
  split at h
  · rename_i hkind
    rw [run_bind_ok (htable w)] at h
    obtain ⟨x, z, hident, h⟩ := run_bind_inv h
    obtain ⟨-, rfl⟩ := Prod.mk.inj (Except.ok.inj h)
    obtain ⟨hz, rfl, hspelled⟩ := ident_writes hident
    have hsame : z.unit.name = s.unit.name ∧ z.unit.kind = s.unit.kind := by
      obtain ⟨hname, hkind, -⟩ := hown.unit_eq
      rw [hz.unit, hname, hkind, hu.unit]
      exact ⟨rfl, rfl⟩
    have hresult : z.isResult s.unit.name := by
      rw [LowerState.isResult, hsame.1, hsame.2, hkind, beq_self_eq_true]
      rfl
    have hbound := hz.line [] (.value .plain (zeroValue (w.collection.table.typeOf s.unit.name)) hspelled)
      (fun x hx => List.mem_singleton.1 hx ▸ .result hresult)
    rw [hz.depth.symm] at hbound
    refine ⟨u, _, hu, hown.trans (hu.ready hready) hbound, fun _ => ?_⟩
    simp [boundKeys]
  · rename_i hkind
    obtain ⟨-, rfl⟩ := Prod.mk.inj (Except.ok.inj h)
    exact ⟨u, own, hu, hown, fun hfunction => absurd (by rw [hfunction]; rfl) hkind⟩

/-- Where the statements of a function or subroutine start, its result is bound. -/
theorem routine_start {l : Label} {whole last : Node} {cs : List Node} {head body : Option Node}
    (hl : l = .functionSubprogram ∨ l = .subroutineSubprogram) (h : UnitParts l cs head body last)
    {s : LowerState} (hs : s.Open) (hready : s.Ready) :
    ∃ u own, Headed s u ∧
      Introduces [] u (head.elim s fun first => behind (unitPart whole first) s) own ∧
      (s.unit.kind = .functionSubprogram → nameKey s.unit.name ∈ boundKeys own) ∧
      (head.elim s fun first => behind (unitPart whole first) s).Open := by
  obtain ⟨first, rfl⟩ := Option.isSome_iff_exists.1 (h.headed (by rcases hl with rfl | rfl <;> decide))
  have hpart : unitPart whole first = routineHead first := by
    rw [unitPart, h.headLabel first rfl]
    rcases hl with rfl | rfl <;> rfl
  have hcarries : Carries False (routineHead first) := carries_routineHead first
  obtain ⟨_, t, hrun, hst⟩ := hcarries s hs
  obtain ⟨u, own, hu, hown, hresult⟩ := routineHead_writes first hs hready hrun
  rw [Option.elim_some, hpart, behind_eq hrun]
  exact ⟨u, own, hu, hown, hresult, (hst.settled hs).1⟩

end Lower

end FortranJulia
