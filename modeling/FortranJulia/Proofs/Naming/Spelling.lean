import FortranJulia.Proofs.Emission.Ensures
import FortranJulia.Proofs.Naming.Uses

/-!
Names while a program is lowered. The spelling of a name is that of its first occurrence, so what is
written for it follows from the table at the end of the lowering, although that table is not known when
the name is written. `Spells` therefore says of an action that it only adds to the table, that it does the
same when all spellings are known from the start, as they are behind an earlier lowering, and that, if
nothing that it adds contradicts the table at the end, what it writes keeps to a naming. How the table
grows is left open: along with the spellings a growth may keep other things.
-/

namespace FortranJulia

set_option autoImplicit false

open Julia (Expr Code Line Use Binding)

/-! ## Growth of tables -/

/-- How a table changes while something is lowered: names may always be spelled, and a name that is
spelled stays so. -/
structure Table.Growth where
  rel : Table → Table → Prop
  refl : ∀ t, rel t t
  trans : ∀ {t u v}, rel t u → rel u v → rel t v
  spell : ∀ t x, rel t (t.spell x)
  spellings : ∀ {t u}, rel t u → t.spellings <+: u.spellings

namespace Table

theorem spell_spellings (t : Table) (x : String) : t.spellings <+: (t.spell x).spellings := by
  obtain ⟨more, heq, -⟩ := t.spell_eq x
  rw [heq]
  exact List.prefix_append _ _

theorem spelling?_of_prefix {t u : Table} {x w : String} (h : t.spellings <+: u.spellings)
    (hx : t.spelling? x = some w) : u.spelling? x = some w := by
  obtain ⟨more, hmore⟩ := h
  rw [spelling?, ← hmore, List.find?_append]
  rw [spelling?] at hx
  rw [hx]
  rfl

/-- What has just been spelled is spelled as in any later table. -/
theorem spelling_later {t u : Table} {x : String} (h : (t.spell x).spellings <+: u.spellings) :
    (u.spelling? x).isSome ∧ t.spelling x = u.spelling x := by
  obtain ⟨more, -, hspelled⟩ := t.spell_eq x
  have hlater := spelling?_of_prefix h hspelled
  rw [spelling, spelling, hlater]
  exact ⟨rfl, rfl⟩

/-- The table with other spellings. -/
def preset (t : Table) (words : List String) : Table :=
  { t with spellings := words }

/-- A name that is among the spellings can be spelled as often as one likes. -/
theorem spell_of_isSome {t : Table} {x : String} (h : (t.spelling? x).isSome) : t.spell x = t := by
  obtain ⟨w, hw⟩ := Option.isSome_iff_exists.1 h
  rw [spell, hw]

end Table

/-- What an earlier lowering leaves to a later one: perhaps all spellings, and what a lowering adds to or
does not change, but does not read, or reads as a set of names only. -/
structure Past where
  spellings : Option (List String) := none
  closed : List Scope := []
  errors : List DeclarationError := []
  diagnostics : List Diagnostic := []
  blockData : List String := []
  overflow : Bool := false

/-- No spelling contradicts what was known before. -/
def Past.Knows (past : Past) (words : List String) : Prop :=
  ∀ known ∈ past.spellings, words <+: known

theorem Past.Knows.earlier {past : Past} {words more : List String} (h : past.Knows more)
    (hbefore : words <+: more) : past.Knows words :=
  fun known hknown => hbefore.trans (h known hknown)

namespace Table

/-- The table behind an earlier lowering. -/
def behind (t : Table) (past : Past) : Table :=
  { t with spellings := past.spellings.getD t.spellings, closed := past.closed ++ t.closed }

/-- What is spelled is spelled in the same way if all spellings are known before. -/
theorem spell_behind {t : Table} {x : String} {past : Past} (h : past.Knows (t.spell x).spellings) :
    (t.behind past).spelling x = t.spelling x ∧
      (t.behind past).spell x = (t.spell x).behind past := by
  obtain ⟨more, hmore, -⟩ := t.spell_eq x
  cases hknown : past.spellings with
  | none =>
    have hsame : (t.behind past).spelling? x = t.spelling? x := by
      simp only [spelling?, behind, hknown, Option.getD_none]
    refine ⟨by rw [spelling, hsame, spelling], ?_⟩
    rw [spell, spell, hsame]
    cases t.spelling? x <;> simp [behind, hknown]
  | some known =>
    have hwords : (t.spell x).spellings <+: (t.behind past).spellings := by
      simpa only [behind, hknown, Option.getD_some] using h known hknown
    obtain ⟨hsome, hsame⟩ := spelling_later hwords
    refine ⟨hsame.symm, ?_⟩
    rw [spell_of_isSome hsome, hmore]
    simp [behind, recorded, hknown]

theorem modify_behind (t : Table) (f : Scope → Scope) (past : Past) :
    (t.behind past).modify f = (t.modify f).behind past := by
  cases h : t.opened <;> simp [modify, behind, h]

/-- Nothing but spellings is added. -/
def Recorded (t u : Table) : Prop :=
  ∃ more, u = t.recorded more

def Growth.recorded : Growth where
  rel := Recorded
  refl t := ⟨[], t.recorded_nil.symm⟩
  trans := by
    rintro t _ _ ⟨more, rfl⟩ ⟨others, rfl⟩
    exact ⟨more ++ others, t.recorded_recorded more others⟩
  spell t x := by
    obtain ⟨more, heq, -⟩ := t.spell_eq x
    exact ⟨more, heq⟩
  spellings := by
    rintro t _ ⟨more, rfl⟩
    exact List.prefix_append _ _

/-- The spellings are added to, whatever else happens. -/
def Growth.free : Growth where
  rel t u := t.spellings <+: u.spellings
  refl _ := List.prefix_rfl
  trans := List.IsPrefix.trans
  spell := spell_spellings
  spellings h := h

end Table

/-! ## Actions -/

/-- The state with other spellings. -/
def LowerState.preset (s : LowerState) (words : List String) : LowerState :=
  { s with collection := { s.collection with table := s.collection.table.preset words } }

/-- The collection behind an earlier lowering. -/
def Collection.behind (c : Collection) (past : Past) : Collection :=
  ⟨c.table.behind past, past.errors ++ c.errors⟩

/-- The state behind an earlier lowering. -/
def LowerState.behind (s : LowerState) (past : Past) : LowerState :=
  { s with
    collection := s.collection.behind past
    diagnostics := past.diagnostics ++ s.diagnostics
    blockData := past.blockData
    overflow := past.overflow || s.overflow }

theorem Expression.typeOf_behind (t : Table) (past : Past) (e : Expression) :
    e.typeOf (t.behind past) = e.typeOf t :=
  Expression.typeOf_scopes t _ _ e

namespace Naming

/-- How names are read in expressions; the naming leaves open what is an array and what a procedure. -/
def reading (ν : Naming) : Reading where
  spelled x w := (ν.final.spelling? x).isSome ∧ w = ν.final.spelling x
  result := ν.result
  array _ := False
  procedure _ := False

theorem ident_of_writes (ν : Naming) {x w : String} (h : ν.Writes .variable x w) : ν.reading.Ident x w :=
  ⟨_, ⟨h.1, rfl⟩, h.2⟩

theorem callee_of_writes (ν : Naming) {x w : String} (h : ν.Writes .procedure x w) :
    ν.reading.Callee x w :=
  ⟨_, ⟨h.1, rfl⟩, h.2⟩

/-- The naming is that of the unit. -/
def Fits (ν : Naming) (u : UnitState) : Prop :=
  ∀ x, ν.result x = (u.kind == .functionSubprogram && nameKey x == nameKey u.name)

theorem Fits.congr {ν : Naming} {u v : UnitState} (h : ν.Fits u) (hkind : v.kind = u.kind)
    (hname : v.name = u.name) : ν.Fits v := by
  intro x
  rw [h x, hkind, hname]

/-- What is written between two states keeps to the naming. -/
def Between (ν : Naming) (s t : LowerState) : Prop :=
  ν.Fits t.unit ∧ ∃ new, t.lines = new ++ s.lines ∧ ∀ l ∈ new, ∀ u ∈ l.uses, ν.Allows u

theorem Between.refl {ν : Naming} {s : LowerState} (h : ν.Fits s.unit) : ν.Between s s :=
  ⟨h, [], rfl, by simp⟩

theorem Between.trans {ν : Naming} {s t u : LowerState} (h : ν.Between s t) (h' : ν.Between t u) :
    ν.Between s u := by
  obtain ⟨-, new, hnew, hall⟩ := h
  obtain ⟨hfits, others, hothers, hall'⟩ := h'
  refine ⟨hfits, others ++ new, by rw [hothers, hnew, List.append_assoc], fun l hl => ?_⟩
  rcases List.mem_append.1 hl with hl | hl
  · exact hall' l hl
  · exact hall l hl

end Naming

namespace Lower

/-- An action that succeeded does the same behind an earlier lowering with the same block data and no
other spellings. -/
structure Repeats {α : Type} (act : Lower α) (s : LowerState) (a : α) (t : LowerState) : Prop where
  blockData : t.blockData = s.blockData
  run (past : Past) : past.Knows t.collection.table.spellings →
    (∀ k, k ∈ past.blockData ↔ k ∈ s.blockData) → act.run (s.behind past) = .ok (a, t.behind past)

/-- The action does the same with all spellings known. -/
theorem Repeats.preset {α : Type} {act : Lower α} {s t : LowerState} {a : α} (h : Repeats act s a t)
    {words : List String} (hwords : t.collection.table.spellings <+: words) :
    act.run (s.preset words) = .ok (a, t.preset words) := by
  have hrun := h.run { spellings := some words, blockData := s.blockData }
    (fun known hknown => Option.some.inj hknown ▸ hwords) fun _ => Iff.rfl
  have hsame : t.behind { spellings := some words, blockData := s.blockData } = t.preset words := by
    rw [← h.blockData]
    rfl
  exact hsame ▸ hrun

/-- If the action succeeds, the table grows, and the action can be repeated. If the table does not grow
beyond the one at the end of the lowering, then under a condition what is written keeps to the naming and
the value is as is said. -/
def Spells (ν : Naming) (G : Table.Growth) (pre : Prop) {α : Type} (act : Lower α) (post : α → Prop) :
    Prop :=
  ∀ s a t, act.run s = .ok (a, t) →
    G.rel s.collection.table t.collection.table ∧ Repeats act s a t ∧
      (t.collection.table.spellings <+: ν.final.spellings → pre → ν.Fits s.unit →
        ν.Between s t ∧ post a)

namespace Spells

variable {ν : Naming} {G : Table.Growth} {pre : Prop} {α β : Type}

theorem pure {a : α} {post : α → Prop} (h : pre → post a) : Spells ν G pre (Pure.pure a) post := by
  intro s b t hrun
  obtain ⟨rfl, rfl⟩ := Prod.mk.inj (Except.ok.inj hrun)
  exact ⟨G.refl _, ⟨rfl, fun _ _ _ => rfl⟩, fun _ hpre hfits => ⟨.refl hfits, h hpre⟩⟩

theorem skip : Spells ν G pre (Pure.pure ()) fun _ => True :=
  pure fun _ => trivial

/-- What the first action says of its value is a condition of the second. -/
theorem bind {act : Lower α} {f : α → Lower β} {Q : α → Prop} {post : β → Prop}
    (h : Spells ν G pre act Q) (h' : ∀ a, Spells ν G (pre ∧ Q a) (f a) post) :
    Spells ν G pre (act >>= f) post := by
  intro s b u hrun
  obtain ⟨a, t, hact, hrest⟩ := run_bind_inv hrun
  obtain ⟨hst, ⟨hblock, hagain⟩, hbefore⟩ := h s a t hact
  obtain ⟨htu, ⟨hblock', hagain'⟩, hafter⟩ := h' a t b u hrest
  have hgrows := G.spellings htu
  refine ⟨G.trans hst htu, ⟨hblock'.trans hblock, fun past hknows hpast => ?_⟩, fun hfair hpre hfits => ?_⟩
  · rw [run_bind_ok (hagain past (hknows.earlier hgrows) hpast)]
    exact hagain' past hknows (hblock ▸ hpast)
  · obtain ⟨hbetween, hmid⟩ := hbefore (hgrows.trans hfair) hpre hfits
    obtain ⟨hrest, hpost⟩ := hafter hfair ⟨hpre, hmid⟩ hbetween.1
    exact ⟨hbetween.trans hrest, hpost⟩

theorem imp {act : Lower α} {mid post : α → Prop} (h : Spells ν G pre act mid)
    (himp : ∀ a, pre → mid a → post a) : Spells ν G pre act post := by
  intro s a t hrun
  obtain ⟨hst, hrepeats, hwritten⟩ := h s a t hrun
  refine ⟨hst, hrepeats, fun hfair hpre hfits => ?_⟩
  obtain ⟨hbetween, hmid⟩ := hwritten hfair hpre hfits
  exact ⟨hbetween, himp a hpre hmid⟩

theorem weaken {pre' : Prop} {act : Lower α} {post : α → Prop} (h : Spells ν G pre act post)
    (hpre : pre' → pre) : Spells ν G pre' act post := by
  intro s a t hrun
  obtain ⟨hst, hrepeats, hwritten⟩ := h s a t hrun
  exact ⟨hst, hrepeats, fun hfair hpre' => hwritten hfair (hpre hpre')⟩

theorem throw (f : Fault) (post : α → Prop) :
    Spells ν G pre (MonadExcept.throw f : Lower α) post := by
  intro s a t hrun
  cases hrun

/-- A change of something else than the table, the block data, the lines and the name of the unit. -/
theorem modify {f : LowerState → LowerState} (htable : ∀ s, (f s).collection = s.collection)
    (hblock : ∀ s, (f s).blockData = s.blockData)
    (hbehind : ∀ s past, f (s.behind past) = (f s).behind past)
    (hlines : ∀ s, (f s).lines = s.lines) (hkind : ∀ s, (f s).unit.kind = s.unit.kind)
    (hname : ∀ s, (f s).unit.name = s.unit.name) :
    Spells ν G pre (modify f : Lower Unit) fun _ => True := by
  intro s a t hrun
  obtain ⟨-, rfl⟩ := Prod.mk.inj (Except.ok.inj hrun)
  refine ⟨by rw [htable s]; exact G.refl _, ⟨hblock s, fun past _ _ => ?_⟩, fun _ _ hfits => ?_⟩
  · rw [← hbehind]
    rfl
  · exact ⟨⟨hfits.congr (hkind s) (hname s), [], hlines s, by simp⟩, trivial⟩

/-- The state is read, but nothing in it that differs behind an earlier lowering. -/
theorem get {f : LowerState → Lower α} {post : α → Prop}
    (hbehind : ∀ (s : LowerState) (past : Past), (∀ k, k ∈ past.blockData ↔ k ∈ s.blockData) →
      f (s.behind past) = f s)
    (h : ∀ s, Spells ν G (pre ∧ True) (f s) post) :
    Spells ν G pre (get >>= f) post := by
  intro s a t hrun
  obtain ⟨hst, ⟨hblock, hagain⟩, hrest⟩ := h s s a t hrun
  refine ⟨hst, ⟨hblock, fun past hknows hpast => ?_⟩, fun hfair hpre => hrest hfair ⟨hpre, trivial⟩⟩
  show (f (s.behind past)).run (s.behind past) = _
  rw [hbehind s past hpast]
  exact hagain past hknows hpast

theorem forM {xs : List α} {f : α → Lower Unit} (h : ∀ x ∈ xs, Spells ν G pre (f x) fun _ => True) :
    Spells ν G pre (xs.forM f) fun _ => True := by
  induction xs with
  | nil => exact pure (fun _ => trivial)
  | cons x xs ih =>
    have hrest := ih fun y hy => h y (by simp [hy])
    show Spells ν G pre (f x >>= fun _ => xs.forM f) _
    exact (h x (by simp)).bind fun _ => hrest.weaken fun hboth => hboth.1

theorem foldlM {xs : List α} {f : β → α → Lower β} {post : β → Prop}
    (h : ∀ b, ∀ x ∈ xs, ∀ pre, (pre → post b) → Spells ν G pre (f b x) post) :
    ∀ {pre : Prop} {b : β}, (pre → post b) → Spells ν G pre (xs.foldlM f b) post := by
  induction xs with
  | nil => exact fun hb => pure hb
  | cons x xs ih =>
    intro pre b hb
    rw [List.foldlM_cons]
    exact (h b x (by simp) pre hb).bind
      (fun b' => ih (fun b y hy => h b y (by simp [hy])) (fun hboth => hboth.2))

end Spells

section Spells

variable {ν : Naming} {G : Table.Growth} {pre : Prop}

/-! ## Lines and diagnostics -/

theorem spells_depth (f : Nat → Nat) :
    Spells ν G pre (modify fun s => { s with depth := f s.depth } : Lower Unit) fun _ => True :=
  .modify (fun _ => rfl) (fun _ => rfl) (fun _ _ => rfl) (fun _ => rfl) (fun _ => rfl) (fun _ => rfl)

theorem spells_nested {act : Lower Unit} (h : ∀ pre, Spells ν G pre act fun _ => True) :
    Spells ν G pre (nested act) fun _ => True :=
  (spells_depth (· + 1)).bind fun _ => (h _).bind fun _ => spells_depth (· - 1)

theorem spells_line {c : Code} (h : pre → ν.AdmitsCode c) : Spells ν G pre (line c) fun _ => True := by
  intro s a t hrun
  obtain ⟨-, rfl⟩ := Prod.mk.inj (Except.ok.inj hrun)
  refine ⟨G.refl _, ⟨rfl, fun _ _ _ => rfl⟩, fun _ hpre hfits =>
    ⟨⟨hfits, [.code s.depth c], rfl, fun l hl => ?_⟩, trivial⟩⟩
  obtain rfl := List.mem_singleton.1 hl
  exact h hpre

theorem spells_report (severity : Severity) (place : Nat × Nat) (rule message : String) :
    Spells ν G pre (report severity place rule message) fun _ => True :=
  .modify (fun _ => rfl) (fun _ => rfl) (fun _ _ => by simp [LowerState.behind]) (fun _ => rfl)
    (fun _ => rfl) (fun _ => rfl)

theorem spells_warn (n : Node) (rule message : String) :
    Spells ν G pre (warn n rule message) fun _ => True :=
  spells_report _ _ _ _

theorem spells_note (n : Node) (rule message : String) :
    Spells ν G pre (note n rule message) fun _ => True :=
  spells_report _ _ _ _

theorem spells_table {α : Type} {f : Table → Lower α} {post : α → Prop}
    (hbehind : ∀ (t : Table) past, f (t.behind past) = f t)
    (h : ∀ t, Spells ν G (pre ∧ True) (f t) post) : Spells ν G pre (table >>= f) post :=
  .get (fun s past _ => hbehind s.collection.table past) fun s => h s.collection.table

theorem spells_unit : Spells ν G pre unit ν.Fits := by
  intro s a t hrun
  obtain ⟨rfl, rfl⟩ := Prod.mk.inj (Except.ok.inj hrun)
  exact ⟨G.refl _, ⟨rfl, fun _ _ _ => rfl⟩, fun _ _ hfits => ⟨.refl hfits, hfits⟩⟩

theorem spells_modifyUnit {f : UnitState → UnitState} (hkind : ∀ u, (f u).kind = u.kind)
    (hname : ∀ u, (f u).name = u.name) : Spells ν G pre (modifyUnit f) fun _ => True :=
  .modify (fun _ => rfl) (fun _ => rfl) (fun _ _ => rfl) (fun _ => rfl) (fun s => hkind s.unit)
    (fun s => hname s.unit)

theorem spells_itemsFrom {α : Type} (n : Nat) (xs : List α) :
    Spells ν G pre (itemsFrom n xs) (· = xs.drop n) := by
  unfold itemsFrom
  split
  · exact .pure fun _ => rfl
  · exact .throw _ _

theorem spells_itemsUpTo {α : Type} (n : Nat) (xs : List α) :
    Spells ν G pre (itemsUpTo n xs) (· = xs.take n) := by
  unfold itemsUpTo
  split
  · exact .pure fun _ => rfl
  · exact .throw _ _

theorem spells_comment (text : String) : Spells ν G pre (comment text) fun _ => True := by
  unfold comment
  split
  · exact spells_line fun _ => by simp
  · exact (spells_itemsFrom _ _).bind fun _ => spells_line fun _ => by simp

theorem spells_trailing (stmt : Node) : Spells ν G pre (trailing stmt) fun _ => True := by
  unfold trailing
  split
  · exact .pure fun _ => trivial
  · exact .forM fun _ _ => spells_comment _

/-! ## Names -/

theorem spells_spell (x : String) :
    Spells ν G pre (spell x) fun w => (ν.final.spelling? x).isSome ∧ w = ν.final.spelling x := by
  intro s a t hrun
  obtain ⟨rfl, rfl⟩ := Prod.mk.inj (Except.ok.inj hrun)
  refine ⟨G.spell _ _, ⟨rfl, fun past hknows _ => ?_⟩, fun hfair _ hfits =>
    ⟨⟨hfits, [], rfl, by simp⟩, Table.spelling_later hfair⟩⟩
  obtain ⟨hsame, htable⟩ := Table.spell_behind hknows
  show Except.ok ((s.collection.table.behind past).spelling x, { s.behind past with collection :=
    { s.collection.behind past with table := (s.collection.table.behind past).spell x } }) = _
  rw [hsame, htable]
  rfl

theorem spells_callee (x : String) : Spells ν G pre (callee x) (ν.Writes .procedure x) :=
  (spells_spell x).bind fun w => .pure fun h => ⟨h.2.1, by rw [h.2.2]; rfl⟩

theorem spells_function (x : String) :
    Spells ν G pre (callee x) fun w => ν.Allows (.callee w) :=
  (spells_callee x).imp fun _ _ hw => .inr ⟨x, hw⟩

theorem spells_isResult (x : String) : Spells ν G pre (isResult x) (ν.result x = ·) :=
  spells_unit.bind fun _ => .pure fun h => h.2 x

theorem spells_ident (x : String) : Spells ν G pre (ident x) (ν.Writes .variable x) := by
  refine (spells_isResult x).bind fun b => ?_
  cases b with
  | true =>
    refine (spells_spell x).bind fun w => .pure fun h => ⟨h.2.1, ?_⟩
    rw [h.2.2, Naming.written, if_pos h.1.2]
  | false =>
    refine (spells_spell x).bind fun w => .pure fun h => ⟨h.2.1, ?_⟩
    rw [h.2.2, Naming.written, if_neg (by simp [h.1.2])]

theorem spells_variable (x : String) : Spells ν G pre (ident x) fun w => ν.Allows (.value w) :=
  (spells_ident x).imp fun _ _ hw => ν.allows_variable hw

theorem spells_idents (names : List String) : ∀ {pre : Prop},
    Spells ν G pre (idents names) fun ws => ∀ w ∈ ws, ν.Allows (.value w) := by
  induction names with
  | nil => exact .pure fun _ => by simp
  | cons x xs ih =>
    intro pre
    refine (spells_variable x).bind fun w => ih.bind fun ws => .pure fun h => ?_
    exact List.forall_mem_cons.2 ⟨h.1.2, h.2⟩

theorem spells_spellings (names : List String) : ∀ {pre : Prop},
    Spells ν G pre (spellings names) fun _ => True := by
  induction names with
  | nil => exact .pure fun _ => trivial
  | cons x xs ih =>
    intro pre
    exact (spells_spell x).bind fun _ => ih.bind fun _ => .pure fun _ => trivial

theorem spells_binding : Spells ν G pre binding fun _ => True :=
  spells_unit.bind fun _ => .pure fun _ => trivial

/-! ## Expressions -/

theorem spells_typeOf (e : Expression) : Spells ν G pre (typeOf e) fun _ => True :=
  spells_table (fun t past => by rw [Expression.typeOf_behind]) fun _ => .pure fun _ => trivial

theorem lookup?_mem {x : String} {f : Intrinsic} (h : Intrinsic.lookup? x = some f) :
    f ∈ Intrinsic.all := by
  unfold Intrinsic.lookup? at h
  exact List.mem_of_find?_eq_some h

mutual

/-- Every name in an expression is written as the naming says, where it stands. -/
theorem renders_expr : ∀ (e : Expression) {pre : Prop},
    Spells ν G pre (expr e) fun j => ν.Admits j ∧ ν.reading.Renders e j
  | .constant lx, _ => by
    rw [expr]
    exact .pure fun _ => ⟨Naming.admits_juliaConstant lx, .constant lx⟩
  | .complex re im, _ => by
    rw [expr]
    refine .pure fun _ => ⟨?_, .complex re im⟩
    simp [Naming.allows_helper, Naming.admits_component]
  | .reference lx [], _ => by
    rw [expr]
    refine (spells_ident _).bind fun _ => .pure fun h => ⟨?_, .name (ν.ident_of_writes h.2)⟩
    simpa using ν.allows_variable h.2
  | .reference lx (items :: rest), pre => by
    have hcall : ∀ {pre}, Spells ν G pre (do
        let f ← callee lx.text
        let args ← arguments items
        indexed (.call f args) rest)
          fun j => ν.Admits j ∧ ν.reading.Renders (.reference lx (items :: rest)) j := by
      intro pre
      refine (spells_callee _).bind fun f => (renders_arguments items).bind fun args => ?_
      refine (renders_indexed rest fun h => ?_).imp fun j h hj => ⟨hj.1, ?_⟩
      · exact Naming.admits_call.2 ⟨.inr ⟨lx.text, h.1.2⟩, h.2.1⟩
      · exact .call id (ν.callee_of_writes h.1.2) h.2.2 hj.2
    rw [expr]
    refine spells_table (fun _ _ => rfl) fun t => ?_
    cases hform : refForm t lx.text items with
    | index =>
      refine (spells_ident _).bind fun w => (renders_subscripts items).bind fun subs => ?_
      refine (renders_indexed rest fun h => ?_).imp fun j h hj => ⟨hj.1, ?_⟩
      · exact Naming.admits_index.2 ⟨by simpa using ν.allows_variable h.1.2, h.2.1⟩
      · exact .element id (ν.ident_of_writes h.1.2) h.2.2 hj.2
    | call => exact hcall
    | intrinsic f =>
      have hknown := refForm_intrinsic hform
      refine (renders_arguments items).bind fun args => ?_
      refine (renders_indexed rest fun h => ?_).imp fun j h hj => ⟨hj.1, ?_⟩
      · exact Naming.admits_emit (lookup?_mem hknown) h.2.1
      · exact .intrinsic id id hknown h.2.2 hj.2
    | unresolved => exact (spells_report _ _ _ _).bind fun _ => hcall
  | .emptyCall lx, _ => by
    rw [expr]
    refine spells_table (fun _ _ => rfl) fun t => ?_
    simp only
    split
    · rename_i f hf
      have hknown : Intrinsic.lookup? lx.text = some f := by
        split at hf
        · cases hf
        · exact hf
      refine .pure fun _ => ⟨?_, .emptyIntrinsic id hknown⟩
      exact Naming.admits_emit (lookup?_mem hknown) (by simp)
    · refine (spells_callee _).bind fun f => .pure fun h => ⟨?_, .emptyCall (ν.callee_of_writes h.2)⟩
      have hf : ν.Allows (.callee f) := .inr ⟨lx.text, h.2⟩
      simpa using hf
  | .group e, _ => by
    rw [expr]
    exact (renders_expr e).bind fun _ => .pure fun h => ⟨by simpa using h.2.1, .group h.2.2⟩
  | .signed s e, _ => by
    rw [expr]
    exact (renders_expr e).bind fun _ => .pure fun h => ⟨by simpa using h.2.1, .signed s h.2.2⟩
  | .negated n e, _ => by
    rw [expr]
    refine (renders_expr e).bind fun _ => .pure fun h => ⟨?_, .negated n h.2.2⟩
    split <;> simpa using h.2.1
  | .binary op l r, _ => by
    by_cases hop : op = .power
    · subst hop
      rw [expr]
      refine (renders_expr r).bind fun _ => (renders_expr l).bind fun _ => .pure fun h => ⟨?_, ?_⟩
      · exact Naming.admits_operation.2 ⟨h.2.1, h.1.2.1⟩
      · exact .binary .power none none h.2.2 h.1.2.2
    · rw [expr]
      · refine (renders_expr l).bind fun _ => (renders_expr r).bind fun _ => ?_
        refine (spells_typeOf l).bind fun lt => (spells_typeOf r).bind fun rt => .pure fun h => ?_
        obtain ⟨⟨⟨⟨_, hl⟩, hr⟩, -⟩, -⟩ := h
        exact ⟨Naming.admits_combine hl.1 hr.1 lt rt, .binary op lt rt hl.2 hr.2⟩
      · exact hop

theorem renders_subscript : ∀ (s : Subscript) {pre : Prop},
    Spells ν G pre (subscript s) fun j => ν.Admits j ∧ ν.reading.RendersItem s j
  | .value e, _ => by
    rw [subscript]
    exact (renders_expr e).imp fun _ _ h => ⟨h.1, .value h.2⟩
  | .span none none, _ => by
    rw [subscript]
    exact .pure fun _ => ⟨by simp, .all⟩
  | .alternate star, _ => by
    rw [subscript]
    exact .pure fun _ => ⟨by simp, .alternate star⟩
  | .span none (some e), _ => by
    rw [subscript]
    exact (renders_expr e).bind fun _ => .pure fun h => ⟨by simpa using h.2.1, .upTo h.2.2⟩
  | .span (some e) none, _ => by
    have hend : ν.Allows (.value "end") := Naming.allows_ownValue (by decide)
    rw [subscript]
    exact (renders_expr e).bind fun _ => .pure fun h => ⟨by simpa [hend] using h.2.1, .from h.2.2⟩
  | .span (some a) (some b), _ => by
    rw [subscript]
    refine (renders_expr a).bind fun _ => (renders_expr b).bind fun _ => .pure fun h => ?_
    exact ⟨by simpa using ⟨h.1.2.1, h.2.1⟩, .between h.1.2.2 h.2.2⟩

theorem renders_subscripts : ∀ (items : List Subscript) {pre : Prop},
    Spells ν G pre (subscripts items) fun es => (∀ e ∈ es, ν.Admits e) ∧ ν.reading.RendersList items es
  | [], _ => by
    rw [subscripts]
    exact .pure fun _ => ⟨by simp, .nil⟩
  | s :: ss, _ => by
    rw [subscripts]
    refine (renders_subscript s).bind fun _ => (renders_subscripts ss).bind fun _ => .pure fun h => ?_
    exact ⟨List.forall_mem_cons.2 ⟨h.1.2.1, h.2.1⟩, .cons h.1.2.2 h.2.2⟩

theorem renders_arguments : ∀ (items : List Subscript) {pre : Prop},
    Spells ν G pre (arguments items)
      fun es => (∀ e ∈ es, ν.Admits e) ∧ ν.reading.RendersArguments items es
  | [], _ => by
    rw [arguments]
    exact .pure fun _ => ⟨by simp, .nil⟩
  | .alternate star :: ss, _ => by
    rw [arguments]
    refine (spells_report _ _ _ _).bind fun _ => ?_
    exact (renders_arguments ss).imp fun _ _ h => ⟨h.1, .drop star h.2⟩
  | .value e :: ss, _ => by
    rw [arguments]
    · refine (renders_subscript _).bind fun _ => (renders_arguments ss).bind fun _ => .pure fun h => ?_
      exact ⟨List.forall_mem_cons.2 ⟨h.1.2.1, h.2.1⟩, .cons h.1.2.2 h.2.2⟩
    · simp
  | .span a b :: ss, _ => by
    rw [arguments]
    · refine (renders_subscript _).bind fun _ => (renders_arguments ss).bind fun _ => .pure fun h => ?_
      exact ⟨List.forall_mem_cons.2 ⟨h.1.2.1, h.2.1⟩, .cons h.1.2.2 h.2.2⟩
    · simp

theorem renders_indexed : ∀ (rest : List (List Subscript)) {base : Expr} {pre : Prop},
    (pre → ν.Admits base) → Spells ν G pre (indexed base rest)
      fun j => ν.Admits j ∧ ν.reading.RendersSuffixes base rest j
  | [], base, _, h => by
    rw [indexed]
    exact .pure fun hpre => ⟨h hpre, .nil base⟩
  | items :: rest, _, _, h => by
    rw [indexed]
    refine (renders_subscripts items).bind fun subs => ?_
    refine (renders_indexed rest fun hboth => ?_).imp fun j hboth hj => ⟨hj.1, .cons hboth.2.2 hj.2⟩
    exact Naming.admits_index.2 ⟨h hboth.1, hboth.2.1⟩

end

theorem spells_expr (e : Expression) : Spells ν G pre (expr e) ν.Admits :=
  (renders_expr e).imp fun _ _ h => h.1

theorem spells_expressionOf (n : Node) : Spells ν G pre (expressionOf n) fun _ => True := by
  unfold expressionOf
  split
  · exact .pure fun _ => trivial
  · exact .throw _ _

theorem spells_exprOf (n : Node) : Spells ν G pre (exprOf n) ν.Admits :=
  (spells_expressionOf n).bind fun e => spells_expr e

theorem spells_typeOfNode (n : Node) : Spells ν G pre (typeOfNode n) fun _ => True :=
  (spells_expressionOf n).bind fun e => spells_typeOf e

theorem spells_converted (target : Option TypeName) (n : Node) :
    Spells ν G pre (converted target n) ν.Admits :=
  (spells_typeOfNode n).bind fun source => (spells_exprOf n).bind fun _ => .pure fun h =>
    Naming.admits_convertValue h.2 target source

theorem spells_rangeOf (bounds : List Node) : Spells ν G pre (rangeOf bounds) ν.Admits := by
  unfold rangeOf
  split
  · exact .pure fun _ => by simp
  · exact .pure fun _ => by simp
  · refine (spells_exprOf _).bind fun _ => (spells_exprOf _).bind fun _ => ?_
    split
    · exact .pure fun h => by simpa using ⟨h.1.2, h.2⟩
    · exact (spells_exprOf _).bind fun _ => .pure fun h => by simpa using ⟨h.1.1.2, h.2, h.1.2⟩

theorem spells_target (v : Node) : Spells ν G pre (target v) fun r => ν.Admits r.2 := by
  unfold target
  simp only
  split
  · refine spells_binding.bind fun b => (spells_variable _).bind fun w => .pure fun h => ?_
    simpa using h.2
  · refine (spells_variable _).bind fun w => ?_
    exact (renders_indexed _ fun h => by simpa using h.2).bind fun j => .pure fun h => h.2.1

end Spells

end Lower

end FortranJulia
