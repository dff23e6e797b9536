import FortranJulia.Proofs.Emission.Material
import FortranJulia.Proofs.Lowering.Parts
import FortranJulia.Proofs.Parsing.Words

/-!
What is written, whatever the state. `Ensures` speaks of an action only if it succeeds: from a state
in which something holds it leads to one in which it holds again. Here this is that what is known of
the unit at hand stays so, and that the new lines are made of the material given, provided that the
tree that is lowered has no other material. The actions that lower expressions come first.
-/

namespace FortranJulia

set_option autoImplicit false

open Julia (Expr Code Line Binding)

/-! ## Actions that succeed -/

namespace Lower

/-- If the action succeeds, what holds before it holds after it, and its value is as the condition
says. -/
def Ensures {α : Type} (inv : LowerState → Prop) (act : Lower α) (post : α → Prop) : Prop :=
  ∀ s, inv s → ∀ a t, act.run s = .ok (a, t) → inv t ∧ post a

theorem run_bind_inv {α β : Type} {act : Lower α} {f : α → Lower β} {s u : LowerState} {b : β}
    (h : (act >>= f).run s = .ok (b, u)) :
    ∃ a t, act.run s = .ok (a, t) ∧ (f a).run t = .ok (b, u) := by
  rw [StateT.run_bind] at h
  cases hact : act.run s with
  | error e =>
    rw [hact] at h
    cases h
  | ok r =>
    rw [hact] at h
    exact ⟨r.1, r.2, rfl, h⟩

namespace Ensures

variable {inv : LowerState → Prop} {α β : Type}

theorem pure {a : α} {post : α → Prop} (h : post a) : Ensures inv (Pure.pure a) post := by
  intro s hs b t hrun
  obtain ⟨rfl, rfl⟩ := Prod.mk.inj (Except.ok.inj hrun)
  exact ⟨hs, h⟩

theorem bind {act : Lower α} {f : α → Lower β} {mid : α → Prop} {post : β → Prop}
    (h : Ensures inv act mid) (h' : ∀ a, mid a → Ensures inv (f a) post) :
    Ensures inv (act >>= f) post := by
  intro s hs b u hrun
  obtain ⟨a, t, hact, hrest⟩ := run_bind_inv hrun
  obtain ⟨ht, ha⟩ := h s hs a t hact
  exact h' a ha t ht b u hrest

theorem imp {act : Lower α} {pre post : α → Prop} (h : Ensures inv act pre)
    (himp : ∀ a, pre a → post a) : Ensures inv act post := by
  intro s hs a t hrun
  obtain ⟨ht, ha⟩ := h s hs a t hrun
  exact ⟨ht, himp a ha⟩

/-- The value does not matter. -/
theorem any {act : Lower α} {post : α → Prop} (h : Ensures inv act post) :
    Ensures inv act fun _ => True :=
  h.imp (fun _ _ => trivial)

theorem throw (f : Fault) (post : α → Prop) : Ensures inv (MonadExcept.throw f : Lower α) post := by
  intro s _ a t hrun
  cases hrun

theorem modify {f : LowerState → LowerState} (h : ∀ s, inv s → inv (f s)) :
    Ensures inv (modify f : Lower Unit) fun _ => True := by
  intro s hs a t hrun
  obtain ⟨-, rfl⟩ := Prod.mk.inj (Except.ok.inj hrun)
  exact ⟨h s hs, trivial⟩

theorem get : Ensures inv (get : Lower LowerState) inv := by
  intro s hs a t hrun
  obtain ⟨rfl, rfl⟩ := Prod.mk.inj (Except.ok.inj hrun)
  exact ⟨hs, hs⟩

theorem forM {xs : List α} {f : α → Lower Unit} (h : ∀ x ∈ xs, Ensures inv (f x) fun _ => True) :
    Ensures inv (xs.forM f) fun _ => True := by
  induction xs with
  | nil => exact pure trivial
  | cons x xs ih =>
    show Ensures inv (f x >>= fun _ => xs.forM f) _
    exact bind (h x (by simp)) (fun _ _ => ih (fun y hy => h y (by simp [hy])))

theorem foldlM {xs : List α} {f : β → α → Lower β} {post : β → Prop}
    (h : ∀ b, post b → ∀ x ∈ xs, Ensures inv (f b x) post) :
    ∀ b, post b → Ensures inv (xs.foldlM f b) post := by
  induction xs with
  | nil => exact fun b hb => pure hb
  | cons x xs ih =>
    intro b hb
    rw [List.foldlM_cons]
    exact bind (h b hb x (by simp)) (fun b' hb' => ih (fun b hb y hy => h b hb y (by simp [hy])) b' hb')

theorem nested {act : Lower Unit} (hdepth : ∀ s d, inv s → inv { s with depth := d })
    (h : Ensures inv act fun _ => True) : Ensures inv (Lower.nested act) fun _ => True :=
  bind (modify (fun s => hdepth s (s.depth + 1))) (fun _ _ =>
    bind h (fun _ _ => modify (fun s => hdepth s (s.depth - 1))))

end Ensures

theorem ensures_itemsFrom {inv : LowerState → Prop} {α : Type} (n : Nat) (xs : List α) :
    Ensures inv (itemsFrom n xs) (· = xs.drop n) := by
  unfold itemsFrom
  split
  · exact .pure rfl
  · exact .throw _ _

theorem ensures_itemsUpTo {inv : LowerState → Prop} {α : Type} (n : Nat) (xs : List α) :
    Ensures inv (itemsUpTo n xs) (· = xs.take n) := by
  unfold itemsUpTo
  split
  · exact .pure rfl
  · exact .throw _ _

end Lower

/-! ## What is known -/

mutual

/-- The names that are referred to in an expression. -/
def Expression.names : Expression → List String
  | .constant _ | .complex _ _ => []
  | .reference lx suffixes => lx.text :: Subscript.namesOfAll suffixes
  | .emptyCall lx => [lx.text]
  | .group e | .signed _ e | .negated _ e => e.names
  | .binary _ l r => l.names ++ r.names

def Subscript.names : Subscript → List String
  | .value e => e.names
  | .span none none | .alternate _ => []
  | .span none (some e) | .span (some e) none => e.names
  | .span (some a) (some b) => a.names ++ b.names

def Subscript.namesOf : List Subscript → List String
  | [] => []
  | s :: ss => s.names ++ Subscript.namesOf ss

def Subscript.namesOfAll : List (List Subscript) → List String
  | [] => []
  | items :: rest => Subscript.namesOf items ++ Subscript.namesOfAll rest

end

/-- The expressions in a subscript. -/
def Subscript.expressions : Subscript → List Expression
  | .value e => [e]
  | .span a b => a.toList ++ b.toList
  | .alternate _ => []

/-- What the statements of a unit leave of what is known about it. -/
def UnitState.settled (u : UnitState) : UnitState :=
  { u.fixed with loops := [] }

/-- What is known of the tables and of the unit at hand agrees with the material of the program, and
is not lost when names are spelled. -/
structure Material.Lawful (m : Material) (known : Collection → UnitState → Prop) : Prop where
  unit : ∀ {c u v}, known c u → v.settled = u.settled → known c v
  spell : ∀ {c u x}, known c u → m.name x → known { c with table := c.table.spell x } u
  spelled : ∀ {c u x}, known c u → m.name x →
    m.reading.spelled x (c.table.spelling x) ∧ m.name (c.table.spelling x)
  result : ∀ {c u}, known c u → ∀ x,
    m.reading.result x = (u.kind == .functionSubprogram && nameKey x == nameKey u.name)
  array : ∀ {c u x}, known c u → m.reading.array x → c.table.isArray x
  procedure : ∀ {c u x}, known c u → m.reading.procedure x → c.table.isArray x = false ∧
    ((c.table.procedure x).isCallable && c.table.procedure x != .intrinsic) = true
  current : ∀ {c u}, known c u → (∀ x ∈ c.table.current.formals, m.name x) ∧
    ∀ x y, c.table.current.get? x = some y → m.name y.name ∧ ∀ p ∈ y.params, m.name p
  define : ∀ {c u x args}, known c u → m.name x → (∀ p ∈ args, m.name p) →
    known { c with table := c.table.modify fun s => s.update x fun y =>
      { y with
        kind := .statementFunction
        params := args
        type := y.type.or (s.implicit.typeOf y.name) } } u
  name : ∀ {c u}, known c u → m.name u.name
  locals : ∀ {c u}, known c u → ∀ x ∈ u.locals, m.name x
  formats : ∀ {c u l f}, known c u → u.formats.lookup l = some (some f) → m.text f.literal
  expression : ∀ {e}, m.expression e → ∀ x ∈ e.names, m.name x
  within : ∀ {lx suffixes}, m.expression (.reference lx suffixes) → ∀ items ∈ suffixes, ∀ s ∈ items,
    ∀ e ∈ s.expressions, m.expression e
  empty : m.name "" ∧ m.text ""

/-- What holds while something is lowered: what is known, and that everything written since a state is
made of the material. -/
structure Material.Holds (m : Material) (known : Collection → UnitState → Prop)
    (base s : LowerState) : Prop where
  known : known s.collection s.unit
  lines : ∃ new, s.lines = new ++ base.lines ∧ ∀ l ∈ new, m.Writes l
  diagnostics : ∃ new, s.diagnostics = base.diagnostics ++ new ∧ ∀ d ∈ new, m.Reports d

/-- The labels of phrases with an expression as a child that has no label of its own. -/
def Node.operandLabels : List Label := [.lowerBound, .upperBound, .subroutineArg, .dataConstant]

/-- The functions that a statement with a label may call besides those of the source. -/
def Label.helpers : Label → List String
  | .typeDeclarationStmt | .dimensionStmt | .commonStmt => ["create_array"]
  | .printStmt | .writeStmt => ["println", "@printf", "join"]
  | .readStmt => ["readline", "parse_input", "read_values"]
  | .openStmt => ["open", "isfile"]
  | .closeStmt => ["close"]
  | .rewindStmt => ["seekstart"]
  | .returnStmt => ["exit"]
  | .stopStmt => ["exit", "println"]
  | _ => []

/-- The tree is made of the material, and its declarations do not change what is known. -/
structure Material.Fits (m : Material) (known : Collection → UnitState → Prop) (n : Node) : Prop where
  named : ∀ k ∈ n.nodes, ∀ l ∈ Node.nameLabels, k.hasLabel l → m.name k.text
  labels : ∀ k ∈ n.nodes, ∀ l ∈ [Label.lblDef, .lblRef, .sign], k.hasLabel l → m.text k.text
  lexemes : ∀ lx ∈ n.lexemes, (lx.kind ≠ .newline → m.text lx.text) ∧
    (lx.kind = .name → m.name lx.text)
  expression : ∀ k ∈ n.nodes, k.hasLabel .expr → ∀ e, k.expression? = some e → m.expression e
  operand : ∀ k ∈ n.nodes, ∀ l ∈ Node.operandLabels, k.hasLabel l → ∀ c ∈ k.children, ∀ e,
    c.expression? = some e → m.expression e
  subscripts : ∀ k ∈ n.nodes, k.hasLabel .complexDataRefTail → ∀ s ∈ k.subscripts,
    ∀ e ∈ s.expressions, m.expression e
  subroutine : ∀ k ∈ n.nodes, k.hasLabel .callStmt → m.subroutine (Lower.childText k .subroutineNameUse)
  helpers : ∀ k ∈ n.nodes, ∀ l, k.hasLabel l → ∀ f ∈ l.helpers, m.helper f
  declares : ∀ k ∈ n.nodes, ∀ c d u, known c u → c.statement? k = some d → known d u

namespace Material

variable {m : Material} {known : Collection → UnitState → Prop} {n c : Node} {l : Label}

namespace Fits

theorem node (h : m.Fits known n) (hc : c ∈ n.nodes) : m.Fits known c where
  named k hk := h.named k (nodes_trans hc hk)
  labels k hk := h.labels k (nodes_trans hc hk)
  lexemes lx hlx := h.lexemes lx (lexemes_of_nodes hc hlx)
  expression k hk := h.expression k (nodes_trans hc hk)
  operand k hk := h.operand k (nodes_trans hc hk)
  subscripts k hk := h.subscripts k (nodes_trans hc hk)
  subroutine k hk := h.subroutine k (nodes_trans hc hk)
  helpers k hk := h.helpers k (nodes_trans hc hk)
  declares k hk := h.declares k (nodes_trans hc hk)

theorem child (h : m.Fits known n) (hc : c ∈ n.children) : m.Fits known c :=
  h.node (nodes_child hc)

theorem child? (h : m.Fits known n) (hc : n.child? l = some c) : m.Fits known c :=
  h.child (List.mem_of_find?_eq_some hc)

theorem childrenWith (h : m.Fits known n) (hc : c ∈ n.childrenWith l) : m.Fits known c :=
  h.child (List.mem_filter.1 hc).1

theorem findAll (h : m.Fits known n) (hc : c ∈ n.findAll l) : m.Fits known c :=
  h.node (List.mem_filter.1 hc).1

theorem grandchildren (h : m.Fits known n) (hc : c ∈ Lower.grandchildren n l) : m.Fits known c := by
  unfold Lower.grandchildren at hc
  cases hd : n.child? l with
  | none => simp [hd] at hc
  | some d =>
    rw [hd, Option.map_some, Option.getD_some] at hc
    exact (h.child? hd).child hc

/-- A phrase that starts with a name has one of the material. -/
theorem text (h : m.Fits known n) (hl : n.hasLabel l) (hname : l ∈ Node.nameLabels) :
    m.name n.text :=
  h.named n (nodes_self n) l hname hl

theorem childText (h : m.Fits known n) (hname : l ∈ Node.nameLabels) (hempty : m.name "") :
    m.name (Lower.childText n l) := by
  unfold Lower.childText
  cases hc : n.child? l with
  | none => exact hempty
  | some c => exact (h.child? hc).text (Node.hasLabel_child? hc) hname

theorem labelText (h : m.Fits known n) (hlabel : l ∈ [Label.lblDef, .lblRef, .sign])
    (hempty : m.text "") : m.text (Lower.childText n l) := by
  unfold Lower.childText
  cases hc : n.child? l with
  | none => exact hempty
  | some c => exact (h.child? hc).labels c (nodes_self c) l hlabel (Node.hasLabel_child? hc)

end Fits

theorem named_of_ident {x w : String} (hx : m.name x) (h : m.reading.Ident x w) : m.Named w := by
  obtain ⟨v, hv, rfl⟩ := h
  split
  · exact .marked hx hv
  · exact .word hx hv

theorem named_of_callee {x w : String} (hx : m.name x) (h : m.reading.Callee x w) : m.Named w := by
  obtain ⟨v, hv, rfl⟩ := h
  exact .word hx hv

/-! ## Steps -/

namespace Holds

variable {base s : LowerState}

theorem start (hs : known base.collection base.unit) : m.Holds known base base :=
  ⟨hs, ⟨[], rfl, by simp⟩, ⟨[], (List.append_nil _).symm, by simp⟩⟩

/-- A step that writes and reports nothing. -/
theorem step {t : LowerState} (h : m.Holds known base s) (hknown : known t.collection t.unit)
    (hlines : t.lines = s.lines) (hdiagnostics : t.diagnostics = s.diagnostics) :
    m.Holds known base t := by
  refine ⟨hknown, ?_, ?_⟩
  · rw [hlines]
    exact h.lines
  · rw [hdiagnostics]
    exact h.diagnostics

theorem line {l : Line} (h : m.Holds known base s) (hl : m.Writes l) :
    m.Holds known base { s with lines := l :: s.lines } := by
  obtain ⟨new, hnew, hall⟩ := h.lines
  refine ⟨h.known, ⟨l :: new, by rw [hnew]; rfl, ?_⟩, h.diagnostics⟩
  intro k hk
  rcases List.mem_cons.1 hk with rfl | hk
  · exact hl
  · exact hall k hk

theorem report {d : Diagnostic} (h : m.Holds known base s) (hd : m.Reports d) :
    m.Holds known base { s with diagnostics := s.diagnostics ++ [d] } := by
  obtain ⟨new, hnew, hall⟩ := h.diagnostics
  refine ⟨h.known, h.lines, new ++ [d], by rw [hnew, List.append_assoc], ?_⟩
  intro k hk
  rcases List.mem_append.1 hk with hk | hk
  · exact hall k hk
  · rw [List.mem_singleton.1 hk]
    exact hd

end Holds

end Material

/-- No label is that of an unresolved reference. -/
theorem Node.labelName_resolved (n : Node) : n.labelName ≠ Diagnostic.unresolvedReference := by
  cases n with
  | leaf i lx =>
    show lx.kind.label ≠ _
    cases lx.kind with
    | keyword k => cases k <;> decide
    | specifier k => cases k <;> decide
    | _ => decide
  | inner i l cs =>
    show l.name ≠ _
    cases l <;> decide

namespace Lower

/-- Whatever the action writes, if it succeeds, is made of the material, and what is known stays so. -/
abbrev Makes (m : Material) (known : Collection → UnitState → Prop) (base : LowerState) {α : Type}
    (act : Lower α) (post : α → Prop) : Prop :=
  Ensures (m.Holds known base) act post

section Makes

variable {m : Material} {known : Collection → UnitState → Prop} {base : LowerState}

theorem makes_table : Makes m known base table fun t => ∃ c u, known c u ∧ c.table = t := by
  intro s hs a t hrun
  obtain ⟨rfl, rfl⟩ := Prod.mk.inj (Except.ok.inj hrun)
  exact ⟨hs, _, _, hs.known, rfl⟩

theorem makes_unit : Makes m known base unit fun u => ∃ c, known c u := by
  intro s hs a t hrun
  obtain ⟨rfl, rfl⟩ := Prod.mk.inj (Except.ok.inj hrun)
  exact ⟨hs, _, hs.known⟩

theorem makes_line {c : Code} (h : m.Emitted c) : Makes m known base (line c) fun _ => True :=
  .modify (fun _ hs => hs.line h)

theorem makes_report {severity : Severity} {place : Nat × Nat} {rule message : String}
    (h : m.Reports ⟨severity, rule, place.1, place.2, message⟩) :
    Makes m known base (report severity place rule message) fun _ => True :=
  .modify (fun _ hs => hs.report h)

/-- A report of something else than a reference. -/
theorem makes_other {severity : Severity} {place : Nat × Nat} {rule message : String}
    (h : rule ≠ Diagnostic.unresolvedReference) :
    Makes m known base (report severity place rule message) fun _ => True :=
  makes_report (fun hrule => absurd hrule h)

theorem makes_warn {n : Node} {rule message : String} (h : rule ≠ Diagnostic.unresolvedReference) :
    Makes m known base (warn n rule message) fun _ => True :=
  makes_other h

theorem makes_note {n : Node} {rule message : String} (h : rule ≠ Diagnostic.unresolvedReference) :
    Makes m known base (note n rule message) fun _ => True :=
  makes_other h

theorem makes_nested {act : Lower Unit} (h : Makes m known base act fun _ => True) :
    Makes m known base (nested act) fun _ => True :=
  .nested (fun _ _ hs => hs.step hs.known rfl rfl) h

variable (law : m.Lawful known)

set_option linter.unusedSectionVars false

include law

theorem makes_modifyUnit {f : UnitState → UnitState} (h : ∀ u, (f u).settled = u.settled) :
    Makes m known base (modifyUnit f) fun _ => True :=
  .modify (fun s hs => hs.step (law.unit hs.known (h s.unit)) rfl rfl)

/-! ## Names -/

theorem makes_spell {x : String} (hx : m.name x) :
    Makes m known base (spell x) fun w => m.reading.spelled x w ∧ m.name w := by
  intro s hs a t hrun
  obtain ⟨rfl, rfl⟩ := Prod.mk.inj (Except.ok.inj hrun)
  exact ⟨hs.step (law.spell hs.known hx) rfl rfl, law.spelled hs.known hx⟩

theorem makes_callee {x : String} (hx : m.name x) :
    Makes m known base (callee x) (m.reading.Callee x) :=
  (makes_spell law hx).bind (fun w hw => .pure ⟨w, hw.1, rfl⟩)

theorem makes_isResult (x : String) :
    Makes m known base (isResult x) (m.reading.result x = ·) := by
  refine makes_unit.bind (fun u hu => .pure ?_)
  obtain ⟨c, hu⟩ := hu
  exact law.result hu x

theorem makes_ident {x : String} (hx : m.name x) :
    Makes m known base (ident x) (m.reading.Ident x) := by
  refine (makes_isResult law x).bind (fun b hb => ?_)
  subst hb
  cases hresult : m.reading.result x with
  | true => exact (makes_spell law hx).bind (fun w hw => .pure ⟨w, hw.1, by rw [hresult]; rfl⟩)
  | false =>
    refine (makes_callee law hx).imp (fun w hw => ?_)
    obtain ⟨v, hv, rfl⟩ := hw
    exact ⟨v, hv, by rw [hresult]; rfl⟩

theorem makes_named {x : String} (hx : m.name x) : Makes m known base (ident x) m.Named :=
  (makes_ident law hx).imp (fun _ hw => Material.named_of_ident hx hw)

theorem makes_idents {names : List String} (hnames : ∀ x ∈ names, m.name x) :
    Makes m known base (idents names) fun ws => ∀ w ∈ ws, m.Named w := by
  induction names with
  | nil => exact .pure (by simp)
  | cons x xs ih =>
    refine (makes_named law (hnames x (by simp))).bind (fun w hw => ?_)
    refine (ih (fun y hy => hnames y (by simp [hy]))).bind (fun ws hws => .pure ?_)
    exact List.forall_mem_cons.2 ⟨hw, hws⟩

theorem makes_spellings {names : List String} (hnames : ∀ x ∈ names, m.name x) :
    Makes m known base (spellings names) fun ws => ∀ w ∈ ws, m.name w := by
  induction names with
  | nil => exact .pure (by simp)
  | cons x xs ih =>
    refine (makes_spell law (hnames x (by simp))).bind (fun w hw => ?_)
    refine (ih (fun y hy => hnames y (by simp [hy]))).bind (fun ws hws => .pure ?_)
    exact List.forall_mem_cons.2 ⟨hw.2, hws⟩

/-! ## Expressions -/

/-- The form of a reference follows the reading. -/
theorem refForm_follows {c : Collection} {u : UnitState} (hknown : known c u) {x : String}
    (items : List Subscript) :
    (m.reading.array x → refForm c.table x items = .index) ∧
      (m.reading.procedure x → refForm c.table x items = .call) := by
  refine ⟨fun harray => ?_, fun hprocedure => ?_⟩
  · rw [refForm, if_pos (law.array hknown harray)]
  · obtain ⟨hno, hcallable⟩ := law.procedure hknown hprocedure
    rw [refForm, if_neg (by simp [hno])]
    cases hkind : c.table.procedure x <;> first | rfl | simp [hkind, SymbolKind.isCallable] at hcallable

omit law in
theorem refForm_intrinsic {t : Table} {x : String} {items : List Subscript} {f : Intrinsic}
    (h : refForm t x items = .intrinsic f) : Intrinsic.lookup? x = some f := by
  unfold refForm at h
  split at h
  · cases h
  · split at h
    · cases h
    · cases h
    · cases h
    · cases h
    · split at h
      · rename_i hf
        cases h
        exact hf
      · split at h <;> cases h

omit law in
theorem makes_typeOf (e : Expression) : Makes m known base (typeOf e) fun _ => True :=
  makes_table.bind (fun _ _ => .pure trivial)

mutual

theorem makes_expr : ∀ e : Expression, (∀ x ∈ e.names, m.name x) →
    Makes m known base (expr e) (m.reading.Renders e)
  | .constant lx, _ => by
    rw [expr]
    exact .pure (.constant lx)
  | .complex re im, _ => by
    rw [expr]
    exact .pure (.complex re im)
  | .reference lx [], h => by
    rw [expr]
    exact (makes_ident law (h _ (by simp [Expression.names]))).bind (fun w hw => .pure (.name hw))
  | .reference lx (items :: rest), h => by
    have hx : m.name lx.text := h _ (by simp [Expression.names])
    have hitems : ∀ x ∈ Subscript.namesOf items, m.name x :=
      fun x hx => h x (by simp [Expression.names, Subscript.namesOfAll, hx])
    have hrest : ∀ x ∈ Subscript.namesOfAll rest, m.name x :=
      fun x hx => h x (by simp [Expression.names, Subscript.namesOfAll, hx])
    rw [expr]
    refine makes_table.bind (fun t ht => ?_)
    obtain ⟨c, u, hknown, rfl⟩ := ht
    obtain ⟨harray, hprocedure⟩ := refForm_follows law hknown (x := lx.text) items
    have hargs := makes_arguments items hitems
    cases hform : refForm c.table lx.text items with
    | index =>
      have hno : ¬ m.reading.procedure lx.text := fun hp => nomatch hform.symm.trans (hprocedure hp)
      refine (makes_ident law hx).bind (fun w hw => ?_)
      refine (makes_subscripts items hitems).bind (fun subs hsubs => ?_)
      exact (makes_indexed (.index (.name w) subs) rest hrest).imp (fun _ => .element hno hw hsubs)
    | call =>
      have hno : ¬ m.reading.array lx.text := fun hp => nomatch hform.symm.trans (harray hp)
      refine (makes_callee law hx).bind (fun w hw => hargs.bind (fun args hargs => ?_))
      exact (makes_indexed (.call w args) rest hrest).imp (fun _ => .call hno hw hargs)
    | intrinsic f =>
      have hno : ¬ m.reading.array lx.text := fun hp => nomatch hform.symm.trans (harray hp)
      have hno' : ¬ m.reading.procedure lx.text := fun hp => nomatch hform.symm.trans (hprocedure hp)
      refine hargs.bind (fun args hargs => ?_)
      exact (makes_indexed (f.emit args) rest hrest).imp
        (fun _ => .intrinsic hno hno' (refForm_intrinsic hform) hargs)
    | unresolved =>
      have hno : ¬ m.reading.array lx.text := fun hp => nomatch hform.symm.trans (harray hp)
      have hno' : ¬ m.reading.procedure lx.text := fun hp => nomatch hform.symm.trans (hprocedure hp)
      refine (makes_report (fun _ x hx hmessage => hno' ?_)).bind (fun _ _ => ?_)
      · have hsame : lx.text = x := by simpa using hmessage
        rw [hsame]
        exact hx
      · refine (makes_callee law hx).bind (fun w hw => hargs.bind (fun args hargs => ?_))
        exact (makes_indexed (.call w args) rest hrest).imp (fun _ => .call hno hw hargs)
  | .emptyCall lx, h => by
    have hx : m.name lx.text := h _ (by simp [Expression.names])
    rw [expr]
    refine makes_table.bind (fun t ht => ?_)
    obtain ⟨c, u, hknown, rfl⟩ := ht
    simp only
    split
    · rename_i f hf
      refine .pure (.emptyIntrinsic (fun hp => ?_) ?_)
      · rw [if_pos (law.procedure hknown hp).2] at hf
        cases hf
      · split at hf
        · cases hf
        · exact hf
    · exact (makes_callee law hx).bind (fun w hw => .pure (.emptyCall hw))
  | .group e, h => by
    rw [expr]
    exact (makes_expr e h).bind (fun _ hj => .pure (.group hj))
  | .signed s e, h => by
    rw [expr]
    exact (makes_expr e h).bind (fun _ hj => .pure (.signed s hj))
  | .negated n e, h => by
    rw [expr]
    exact (makes_expr e h).bind (fun _ hj => .pure (.negated n hj))
  | .binary op l r, h => by
    have hl := makes_expr l (fun x hx => h x (by simp [Expression.names, hx]))
    have hr := makes_expr r (fun x hx => h x (by simp [Expression.names, hx]))
    by_cases hop : op = .power
    · subst hop
      rw [expr]
      exact hr.bind (fun _ hk => hl.bind (fun _ hj => .pure (.binary .power none none hj hk)))
    · rw [expr]
      · refine hl.bind (fun _ hj => hr.bind (fun _ hk => ?_))
        refine (makes_typeOf l).bind (fun lt _ => (makes_typeOf r).bind (fun rt _ => ?_))
        exact .pure (.binary op lt rt hj hk)
      · exact hop

theorem makes_subscript : ∀ s : Subscript, (∀ x ∈ s.names, m.name x) →
    Makes m known base (subscript s) (m.reading.RendersItem s)
  | .value e, h => by
    rw [subscript]
    exact (makes_expr e h).imp (fun _ => .value)
  | .span none none, _ => by
    rw [subscript]
    exact .pure .all
  | .alternate star, _ => by
    rw [subscript]
    exact .pure (.alternate star)
  | .span none (some e), h => by
    rw [subscript]
    exact (makes_expr e h).bind (fun _ hj => .pure (.upTo hj))
  | .span (some e) none, h => by
    rw [subscript]
    exact (makes_expr e h).bind (fun _ hj => .pure (.from hj))
  | .span (some a) (some b), h => by
    rw [subscript]
    refine (makes_expr a (fun x hx => h x (by simp [Subscript.names, hx]))).bind (fun _ hj => ?_)
    refine (makes_expr b (fun x hx => h x (by simp [Subscript.names, hx]))).bind (fun _ hk => ?_)
    exact .pure (.between hj hk)

theorem makes_subscripts : ∀ items : List Subscript, (∀ x ∈ Subscript.namesOf items, m.name x) →
    Makes m known base (subscripts items) (m.reading.RendersList items)
  | [], _ => by
    rw [subscripts]
    exact .pure .nil
  | s :: ss, h => by
    rw [subscripts]
    refine (makes_subscript s (fun x hx => h x (by simp [Subscript.namesOf, hx]))).bind (fun _ hj => ?_)
    refine (makes_subscripts ss (fun x hx => h x (by simp [Subscript.namesOf, hx]))).bind (fun _ hjs => ?_)
    exact .pure (.cons hj hjs)

theorem makes_arguments : ∀ items : List Subscript, (∀ x ∈ Subscript.namesOf items, m.name x) →
    Makes m known base (arguments items) (m.reading.RendersArguments items)
  | [], _ => by
    rw [arguments]
    exact .pure .nil
  | .alternate star :: ss, h => by
    rw [arguments]
    refine (makes_other (by decide)).bind (fun _ _ => ?_)
    exact (makes_arguments ss h).imp (fun _ => .drop star)
  | .value e :: ss, h => by
    rw [arguments]
    · refine (makes_subscript _ (fun x hx => h x (by simp [Subscript.namesOf, hx]))).bind (fun _ hj => ?_)
      refine (makes_arguments ss (fun x hx => h x (by simp [Subscript.namesOf, hx]))).bind (fun _ hjs => ?_)
      exact .pure (.cons hj hjs)
    · simp
  | .span a b :: ss, h => by
    rw [arguments]
    · refine (makes_subscript _ (fun x hx => h x (by simp [Subscript.namesOf, hx]))).bind (fun _ hj => ?_)
      refine (makes_arguments ss (fun x hx => h x (by simp [Subscript.namesOf, hx]))).bind (fun _ hjs => ?_)
      exact .pure (.cons hj hjs)
    · simp

theorem makes_indexed : ∀ (j : Expr) (rest : List (List Subscript)),
    (∀ x ∈ Subscript.namesOfAll rest, m.name x) →
    Makes m known base (indexed j rest) (m.reading.RendersSuffixes j rest)
  | j, [], _ => by
    rw [indexed]
    exact .pure (.nil j)
  | j, items :: rest, h => by
    rw [indexed]
    refine (makes_subscripts items (fun x hx => h x (by simp [Subscript.namesOfAll, hx]))).bind
      (fun subs hsubs => ?_)
    exact (makes_indexed _ rest (fun x hx => h x (by simp [Subscript.namesOfAll, hx]))).imp
      (fun _ => .cons hsubs)

end

end Makes

end Lower

end FortranJulia
