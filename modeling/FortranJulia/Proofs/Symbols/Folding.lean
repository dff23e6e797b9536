import FortranJulia.Proofs.Emission.Tidy
import FortranJulia.Proofs.Naming.Spelling

/-!
Symbol tables up to letter case. Which spelling of a name a table keeps depends on what was met first,
and so on the order in which a program is read. `Scope.folded` is what is left of a scope without the
spellings. What a statement declares depends on a table only through this and through the names in the
statement: statements take tables whose open scopes differ in letter case to such tables again.
-/

namespace FortranJulia

set_option autoImplicit false

/-! ## Folded scopes -/

/-- The symbol with all names in upper case. -/
def Symbol.folded (y : Symbol) : Symbol :=
  { y with name := nameKey y.name, params := y.params.map nameKey }

theorem Symbol.folded_eq_iff {a b : Symbol} : a.folded = b.folded ↔ nameKey a.name = nameKey b.name ∧
    a.type = b.type ∧ a.kind = b.kind ∧ a.dims = b.dims ∧ a.flags = b.flags ∧
    a.params.map nameKey = b.params.map nameKey := by
  simp only [folded, Symbol.mk.injEq]

/-- The scope with all names in upper case. -/
def Scope.folded (s : Scope) : Scope :=
  { s with
    name := nameKey s.name
    symbols := s.symbols.map fun e => (e.1, e.2.folded)
    formals := s.formals.map nameKey }

theorem map_eq_map {α β γ : Type} {f : α → β} {g g' : α → γ} (h : ∀ a b, f a = f b → g a = g' b) :
    ∀ {xs ys : List α}, xs.map f = ys.map f → xs.map g = ys.map g' := by
  intro xs
  induction xs with
  | nil =>
    intro ys heq
    obtain rfl := List.map_eq_nil_iff.1 heq.symm
    rfl
  | cons x xs ih =>
    intro ys heq
    obtain ⟨y, ys, rfl, hy, hys⟩ := List.map_eq_cons_iff.1 heq.symm
    rw [List.map_cons, List.map_cons, h x y hy.symm, ih hys.symm]

/-- The type of a name by its first letter is that of all its spellings. -/
theorem ImplicitRules.typeOf_congr (r : ImplicitRules) {x y : String} (hx : Text.Word x)
    (hy : Text.Word y) (hkey : nameKey x = nameKey y) : r.typeOf x = r.typeOf y := by
  have hupper : ∀ {c : Char}, Scan.isWordChar c → Text.upperChar c = c.toUpper := by
    intro c hc
    have hascii : c.toNat < 0x80 := by
      simp only [Scan.isWordChar, Scan.isLetter, Decimal.isDigit, Bool.or_eq_true, Bool.and_eq_true,
        decide_eq_true_eq, beq_iff_eq, Char.le_def, UInt32.le_iff_toNat_le] at hc
      have htoNat : c.toNat = c.val.toNat := rfl
      rcases hc with ((⟨-, hc⟩ | ⟨-, hc⟩) | rfl) | ⟨-, hc⟩
      · exact lt_of_le_of_lt hc (by decide)
      · exact lt_of_le_of_lt hc (by decide)
      · decide
      · exact lt_of_le_of_lt hc (by decide)
    rw [Text.upperChar, if_pos hascii]
  have hchars : x.toList.map Text.upperChar = y.toList.map Text.upperChar :=
    String.ofList_injective hkey
  unfold typeOf
  cases hxs : x.toList with
  | nil =>
    rw [hxs, List.map_nil] at hchars
    rw [List.map_eq_nil_iff.1 hchars.symm]
  | cons c cs =>
    rw [hxs, List.map_cons] at hchars
    obtain ⟨d, ds, hys, hd, -⟩ := List.map_eq_cons_iff.1 hchars.symm
    have hc : Text.upperChar c = c.toUpper := hupper (hx c (by simp [hxs]))
    have hd' : Text.upperChar d = d.toUpper := hupper (hy d (by simp [hys]))
    rw [hys]
    simp only
    rw [← hc, ← hd', hd]

namespace Scope

variable {s s' : Scope} {x y : String}

theorem folded_eq_iff : s.folded = s'.folded ↔ nameKey s.name = nameKey s'.name ∧ s.kind = s'.kind ∧
    (s.symbols.map fun e => (e.1, e.2.folded)) = (s'.symbols.map fun e => (e.1, e.2.folded)) ∧
    s.assigned = s'.assigned ∧ s.formals.map nameKey = s'.formals.map nameKey ∧
    s.implicit = s'.implicit := by
  simp only [folded, Scope.mk.injEq]

theorem get?_folded (s : Scope) (x : String) : s.folded.get? x = (s.get? x).map Symbol.folded := by
  have hlookup : ∀ (l : List (String × Symbol)) (k : String),
      (l.map fun e => (e.1, e.2.folded)).lookup k = (l.lookup k).map Symbol.folded := by
    intro l k
    induction l with
    | nil => rfl
    | cons e l ih =>
      rw [List.map_cons, List.lookup_cons, List.lookup_cons, ih]
      split <;> rfl
  exact hlookup s.symbols (nameKey x)

section Alike

variable (h : s.folded = s'.folded) (hkey : nameKey x = nameKey y)

include h hkey

theorem folded_get? : (s.get? x).map Symbol.folded = (s'.get? y).map Symbol.folded := by
  rw [← get?_folded, ← get?_folded, h, get?, get?, hkey]

theorem folded_getOrNew : (s.getOrNew x).folded = (s'.getOrNew y).folded := by
  have hget := folded_get? h hkey
  unfold getOrNew
  cases hx : s.get? x with
  | none =>
    rw [hx, Option.map_none] at hget
    rw [Option.map_eq_none_iff.1 hget.symm]
    show ({ name := nameKey x } : Symbol) = { name := nameKey y }
    rw [hkey]
  | some a =>
    rw [hx, Option.map_some] at hget
    obtain ⟨b, hb, hab⟩ := Option.map_eq_some_iff.1 hget.symm
    rw [hb]
    exact hab.symm

/-- Whether a symbol has something that is left without its names. -/
theorem any_congr {p : Symbol → Bool} (hp : ∀ a : Symbol, p a.folded = p a) :
    (s.get? x).any p = (s'.get? y).any p := by
  have hall : ∀ o : Option Symbol, o.any p = (o.map Symbol.folded).any p := by
    intro o
    cases o with
    | none => rfl
    | some a => exact (hp a).symm
  rw [hall (s.get? x), hall (s'.get? y), folded_get? h hkey]

/-- A change of the symbol of a name that goes by what is left without names. -/
theorem folded_update {f g : Symbol → Symbol}
    (hf : ∀ a b : Symbol, a.folded = b.folded → (f a).folded = (g b).folded) :
    (s.update x f).folded = (s'.update y g).folded := by
  have hdefine : (s.define x).folded = (s'.define y).folded := by
    have hget := folded_get? h hkey
    unfold define
    cases hx : s.get? x with
    | some a =>
      rw [hx, Option.map_some] at hget
      obtain ⟨b, hb, -⟩ := Option.map_eq_some_iff.1 hget.symm
      rw [hb]
      exact h
    | none =>
      rw [hx, Option.map_none] at hget
      rw [Option.map_eq_none_iff.1 hget.symm]
      obtain ⟨hname, hkind, hsymbols, hrest⟩ := folded_eq_iff.1 h
      refine folded_eq_iff.2 ⟨hname, hkind, ?_, hrest⟩
      rw [List.map_append, List.map_append, hsymbols]
      simp only [List.map_cons, List.map_nil, Symbol.folded, hkey]
  obtain ⟨hname, hkind, hsymbols, hrest⟩ := folded_eq_iff.1 hdefine
  refine folded_eq_iff.2 ⟨hname, hkind, ?_, hrest⟩
  simp only [update, List.map_map]
  refine map_eq_map (fun a b hab => ?_) hsymbols
  obtain ⟨hsame, hsymbol⟩ := Prod.mk.inj hab
  simp only [Function.comp_apply, hsame, hkey]
  split
  · rw [hf _ _ hsymbol]
  · exact hab

theorem folded_mark (flag : Flag) :
    (s.update x (·.mark flag)).folded = (s'.update y (·.mark flag)).folded := by
  refine folded_update h hkey fun a b hab => ?_
  have hmark : ∀ a : Symbol, (a.mark flag).folded = a.folded.mark flag := fun _ => rfl
  rw [hmark, hmark, hab]

theorem folded_declare (type : Option TypeName) : (s.declare x type).folded = (s'.declare y type).folded := by
  refine folded_update h hkey fun a b hab => ?_
  have hdeclare : ∀ a : Symbol,
      ({ a with type := type, flags := a.flags.put false .implicit } : Symbol).folded =
        { a.folded with type := type, flags := a.folded.flags.put false .implicit } := fun _ => rfl
  rw [hdeclare, hdeclare, hab]

theorem folded_declareArray (hx : Text.Word x) (hy : Text.Word y) (dims : List String) :
    (s.declareArray x dims).folded = (s'.declareArray y dims).folded := by
  obtain ⟨-, -, -, -, -, himplicit⟩ := folded_eq_iff.1 h
  refine folded_update h hkey fun a b hab => ?_
  obtain ⟨hname, htype, hkind, -, hflags, hparams⟩ := Symbol.folded_eq_iff.1 hab
  have htypeOf := s'.implicit.typeOf_congr hx hy hkey
  simp only [htype, himplicit, htypeOf, hflags]
  split <;> exact Symbol.folded_eq_iff.2 ⟨hname, rfl, hkind, rfl, rfl, hparams⟩

theorem folded_markAssigned : (s.markAssigned x).folded = (s'.markAssigned y).folded := by
  obtain ⟨-, -, -, hassigned, -⟩ := folded_eq_iff.1 h
  have hupdate := folded_mark h hkey .assigned
  obtain ⟨hname, hkind, hsymbols, hassigned', hrest⟩ := folded_eq_iff.1 hupdate
  unfold markAssigned isAssigned
  rw [hassigned, hkey]
  split
  · exact h
  · exact folded_eq_iff.2 ⟨hname, hkind, hsymbols, by simp only [hassigned'], hrest⟩

end Alike

theorem folded_setFormals (h : s.folded = s'.folded) {xs ys : List String}
    (hkeys : xs.map nameKey = ys.map nameKey) :
    (s.setFormals xs).folded = (s'.setFormals ys).folded := by
  have hfold : ∀ {xs ys : List String}, xs.map nameKey = ys.map nameKey → ∀ {s s' : Scope},
      s.folded = s'.folded → (xs.foldl addFormal s).folded = (ys.foldl addFormal s').folded := by
    intro xs
    induction xs with
    | nil =>
      intro ys hkeys s s' h
      obtain rfl := List.map_eq_nil_iff.1 hkeys.symm
      exact h
    | cons x xs ih =>
      intro ys hkeys s s' h
      obtain ⟨y, ys, rfl, hy, hys⟩ := List.map_eq_cons_iff.1 hkeys.symm
      refine ih hys.symm ?_
      have hupdate := folded_mark h hy.symm .formal
      have hformal : nameKey _ = nameKey _ :=
        congrArg Symbol.name (folded_getOrNew hupdate hy.symm)
      obtain ⟨hname, hkind, hsymbols, hassigned, hformals, himplicit⟩ := folded_eq_iff.1 hupdate
      refine folded_eq_iff.2 ⟨hname, hkind, hsymbols, hassigned, ?_, himplicit⟩
      simp only [addFormal, List.map_append, hformals, List.map_cons, List.map_nil, hformal]
  obtain ⟨hname, hkind, hsymbols, hassigned, -, himplicit⟩ := folded_eq_iff.1 h
  have hcleared : ({ s with formals := [] } : Scope).folded = ({ s' with formals := [] } : Scope).folded :=
    folded_eq_iff.2 ⟨hname, hkind, hsymbols, hassigned, rfl, himplicit⟩
  exact hfold hkeys hcleared

end Scope

/-! ## Tables -/

namespace Table

/-- The open scopes differ in letter case only. -/
def Agrees (t u : Table) : Prop :=
  ∃ s s', t.opened = some s ∧ u.opened = some s' ∧ s.folded = s'.folded

namespace Agrees

variable {t u : Table} {x : String}

theorem current (h : t.Agrees u) : t.current.folded = u.current.folded := by
  obtain ⟨s, s', hs, hs', hfolded⟩ := h
  rw [Table.current, Table.current, hs, hs']
  exact hfolded

theorem implicit (h : t.Agrees u) : t.current.implicit = u.current.implicit := by
  obtain ⟨-, -, -, -, -, himplicit⟩ := Scope.folded_eq_iff.1 h.current
  exact himplicit

/-- Spellings do not matter. -/
theorem congr (h : t.Agrees u) {t' u' : Table} (ht : t'.opened = t.opened)
    (hu : u'.opened = u.opened) : t'.Agrees u' := by
  obtain ⟨s, s', hs, hs', hfolded⟩ := h
  exact ⟨s, s', ht.trans hs, hu.trans hs', hfolded⟩

theorem spell (h : t.Agrees u) (x : String) : (t.spell x).Agrees (u.spell x) := by
  obtain ⟨more, ht, -⟩ := t.spell_eq x
  obtain ⟨others, hu, -⟩ := u.spell_eq x
  rw [ht, hu]
  exact h.congr rfl rfl

theorem modify (h : t.Agrees u) {f g : Scope → Scope}
    (hf : (f t.current).folded = (g u.current).folded) : (t.modify f).Agrees (u.modify g) := by
  obtain ⟨s, s', hs, hs', -⟩ := h
  rw [Table.current, Table.current, hs, hs'] at hf
  exact ⟨f s, g s', by simp [Table.modify, hs], by simp [Table.modify, hs'], hf⟩

end Agrees

/-- Two tables of words whose open scopes differ in letter case only. -/
structure Alike (t u : Table) : Prop where
  left : t.Tidy
  right : u.Tidy
  agrees : t.Agrees u

end Table

/-! ## Statements -/

namespace Collection

variable {c d : Collection} {n k : Node}

/-- Two tables in which a name has been spelled spell it in different letter case at most. -/
theorem key_spell (c d : Collection) (k : Node) : nameKey (c.spell k).1 = nameKey (d.spell k).1 :=
  (c.table.nameKey_spelling k.text).trans (d.table.nameKey_spelling k.text).symm

theorem agrees_spelled (h : c.table.Agrees d.table) (k : Node) {f g : Scope → Scope}
    (hf : ∀ s s' : Scope, s.folded = s'.folded → (f s).folded = (g s').folded) :
    ((c.spell k).2.modifyScope f).table.Agrees ((d.spell k).2.modifyScope g).table := by
  have hspell : (c.spell k).2.table.Agrees (d.spell k).2.table := h.spell k.text
  exact hspell.modify (hf _ _ hspell.current)

/-- A name is spelled and its symbol changed in both tables. -/
theorem agrees_update (h : c.table.Agrees d.table) (k : Node) {f : Symbol → Symbol}
    (hf : ∀ a b : Symbol, a.folded = b.folded → (f a).folded = (f b).folded) :
    ((c.spell k).2.modifyScope (·.update (c.spell k).1 f)).table.Agrees
      ((d.spell k).2.modifyScope (·.update (d.spell k).1 f)).table :=
  agrees_spelled h k fun _ _ hs => Scope.folded_update hs (key_spell c d k) hf

section Words

variable (h : c.table.Alike d.table)

include h

theorem words_spell (hk : Text.Word k.text) : Text.Word (c.spell k).1 ∧ Text.Word (d.spell k).1 :=
  ⟨h.left.spelling hk, h.right.spelling hk⟩

theorem agrees_addEntity (type : Option TypeName) (hk : Text.Word k.text) :
    (addEntity type c k).table.Agrees (addEntity type d k).table := by
  have hkey := key_spell c d k
  have hdeclared := agrees_spelled h.agrees k fun _ _ hs => Scope.folded_declare hs hkey type
  obtain ⟨hc, hd⟩ := words_spell h hk
  unfold addEntity
  simp only
  split
  · exact hdeclared.modify (Scope.folded_declareArray hdeclared.current hkey hc hd _)
  · exact hdeclared

theorem agrees_addArray (hk : Text.Word k.text) : (addArray c k).table.Agrees (addArray d k).table := by
  obtain ⟨hc, hd⟩ := words_spell h hk
  exact agrees_spelled h.agrees k fun _ _ hs =>
    Scope.folded_declareArray hs (key_spell c d k) hc hd _

theorem agrees_addCommon (hk : Text.Word k.text) :
    (addCommon c k).table.Agrees (addCommon d k).table := by
  have hkey := key_spell c d k
  have hmarked := agrees_spelled h.agrees k fun _ _ hs => Scope.folded_mark hs hkey .common
  have hwords : ∀ {e : Collection}, e.table.Tidy →
      ((e.spell k).2.modifyScope (·.update (e.spell k).1 (·.mark .common))).table.Tidy := by
    intro e he
    exact (he.spell hk).modify fun _ hs => hs.update (he.spelling hk)
      (show Symbol.Tame (·.mark .common) from Symbol.tame_mark (by simp)).keepsWords
  obtain ⟨hc, hd⟩ := words_spell h hk
  unfold addCommon
  simp only
  split
  · refine hmarked.modify (Scope.folded_declareArray hmarked.current ?_ ?_ ?_ _)
    · exact congrArg Symbol.name (Scope.folded_getOrNew hmarked.current hkey)
    · exact (hwords h.left).current.getOrNew hc
    · exact (hwords h.right).current.getOrNew hd
  · exact hmarked

end Words

/-! ## Assignments -/

theorem opened_bareNames (ns : List Node) : ∀ t : Table, (bareNames t ns).2.opened = t.opened := by
  induction ns with
  | nil => exact fun _ => rfl
  | cons k ns ih =>
    intro t
    unfold bareNames
    split
    · split
      · obtain ⟨more, hspell, -⟩ := t.spell_eq _
        exact (ih _).trans (by rw [hspell]; rfl)
      · rfl
    · rfl

/-- Which names are found does not depend on the table. -/
theorem keys_bareNames (ns : List Node) : ∀ t u : Table,
    (bareNames t ns).1.map (·.map nameKey) = (bareNames u ns).1.map (·.map nameKey) := by
  induction ns with
  | nil => exact fun _ _ => rfl
  | cons k ns ih =>
    intro t u
    unfold bareNames
    split
    · rename_i lx _
      split
      · have hrest := ih (t.spell lx.text) (u.spell lx.text)
        simp only [Option.map_map]
        have hcons : ∀ v : Table, (List.map nameKey ∘ fun args => v.spelling lx.text :: args) =
            (nameKey lx.text :: ·) ∘ List.map nameKey := by
          intro v
          funext args
          simp only [Function.comp_apply, List.map_cons, Table.nameKey_spelling]
        rw [hcons, hcons, ← Option.map_map, ← Option.map_map, hrest]
      · rfl
    · rfl

theorem opened_statementFunctionArgs (t : Table) (n : Node) :
    (statementFunctionArgs t n).2.opened = t.opened := by
  unfold statementFunctionArgs
  split
  · rfl
  · split
    · rename_i tail _
      have hopened := opened_bareNames (tail.findAll .sectionSubscript) t
      split
      · rfl
      · split
        · rename_i heq
          rw [heq] at hopened
          exact hopened
        · exact hopened
    · rfl

/-- Whether an assignment defines a statement function, and with which dummy arguments. -/
theorem keys_statementFunctionArgs {t u : Table} (h : t.Agrees u) (n : Node) :
    (statementFunctionArgs t n).1.map (·.map nameKey) =
      (statementFunctionArgs u n).1.map (·.map nameKey) := by
  have harray : ∀ x, t.isArray x = u.isArray x :=
    fun x => Scope.any_congr h.current rfl fun _ => rfl
  have hformal : ∀ x, t.current.isFormal x = u.current.isFormal x :=
    fun x => Scope.any_congr h.current rfl fun _ => rfl
  unfold statementFunctionArgs
  split
  · rfl
  · split
    · rename_i tail _
      rw [harray, hformal]
      split
      · rfl
      · have hkeys := keys_bareNames (tail.findAll .sectionSubscript) t u
        generalize bareNames t (tail.findAll .sectionSubscript) = r at hkeys
        generalize bareNames u (tail.findAll .sectionSubscript) = r' at hkeys
        obtain ⟨_ | _ | _, v⟩ := r <;> obtain ⟨_ | _ | _, v'⟩ := r' <;> simp_all
    · rfl

theorem agrees_assignment (hn : n.Worded) (h : c.table.Alike d.table) :
    (c.assignment n).table.Agrees (d.assignment n).table := by
  unfold assignment
  split
  · exact h.agrees
  · rename_i target htarget
    have hword : Text.Word target.text :=
      hn.word (nodes_child (List.mem_of_find?_eq_some htarget)) (by decide) (Node.hasLabel_child? htarget)
    have hkey := key_spell c d target
    obtain ⟨hc, hd⟩ := words_spell h hword
    have hspell : (c.spell target).2.table.Agrees (d.spell target).2.table := h.agrees.spell target.text
    have hargs := keys_statementFunctionArgs hspell n
    have htables : (statementFunctionArgs (c.spell target).2.table n).2.Agrees
        (statementFunctionArgs (d.spell target).2.table n).2 :=
      hspell.congr (opened_statementFunctionArgs _ n) (opened_statementFunctionArgs _ n)
    simp only [modifyScope]
    cases hfirst : (statementFunctionArgs (c.spell target).2.table n).1 with
    | none =>
      rw [hfirst, Option.map_none] at hargs
      rw [Option.map_eq_none_iff.1 hargs.symm]
      exact htables.modify (Scope.folded_markAssigned htables.current hkey)
    | some args =>
      rw [hfirst, Option.map_some] at hargs
      obtain ⟨args', hsecond, hsame⟩ := Option.map_eq_some_iff.1 hargs.symm
      rw [hsecond]
      refine htables.modify (Scope.folded_update htables.current hkey fun a b hab => ?_)
      obtain ⟨hname, htype, -, hdims, hflags, -⟩ := Symbol.folded_eq_iff.1 hab
      refine Symbol.folded_eq_iff.2 ⟨hname, ?_, rfl, hdims, hflags, hsame.symm⟩
      rw [htype, htables.implicit, ImplicitRules.typeOf_congr _ hc hd hkey]

/-! ## Implicit rules -/

theorem agrees_implicitRange (type : Option TypeName) (h : c.table.Agrees d.table) (range : Node) :
    (implicitRange type c range).table.Agrees (implicitRange type d range).table := by
  have hmodify : ∀ rules : ImplicitRules,
      (c.table.modify fun s => { s with implicit := rules }).Agrees
        (d.table.modify fun s => { s with implicit := rules }) := by
    intro rules
    obtain ⟨hname, hkind, hsymbols, hassigned, hformals, -⟩ := Scope.folded_eq_iff.1 h.current
    exact h.modify (Scope.folded_eq_iff.2 ⟨hname, hkind, hsymbols, hassigned, hformals, rfl⟩)
  unfold implicitRange
  rw [h.implicit]
  simp only
  split
  · split
    · split
      · exact hmodify _
      · exact h
    · exact h
  · exact h

theorem agrees_each {ns : List Node} {f : Collection → Node → Collection}
    (hf : ∀ c d : Collection, c.table.Agrees d.table → ∀ k ∈ ns, (f c k).table.Agrees (f d k).table) :
    ∀ {c d : Collection}, c.table.Agrees d.table → (c.each ns f).table.Agrees (d.each ns f).table := by
  induction ns with
  | nil => exact fun h => h
  | cons k ns ih =>
    intro c d h
    exact ih (fun c d h m hm => hf c d h m (by simp [hm])) (hf c d h k (by simp))

theorem agrees_implicitTypes (h : c.table.Agrees d.table) (n : Node) :
    (c.implicitTypes n).table.Agrees (d.implicitTypes n).table := by
  unfold implicitTypes
  split
  · obtain ⟨hname, hkind, hsymbols, hassigned, hformals, -⟩ := Scope.folded_eq_iff.1 h.current
    exact h.modify (Scope.folded_eq_iff.2 ⟨hname, hkind, hsymbols, hassigned, hformals, rfl⟩)
  · refine agrees_each (fun c d h spec _ => ?_) h
    exact agrees_each (fun c d h range _ => agrees_implicitRange _ h range) h

/-! ## All statements -/

/-- Phrases that declare something in turn. -/
theorem alike_each (hn : n.Worded) {ns : List Node} {f : Collection → Node → Collection}
    (hdeclares : ∀ c, ∀ k ∈ ns, DeclaresAll n c.table (f c k).table)
    (hf : ∀ c d : Collection, c.table.Alike d.table → ∀ k ∈ ns, (f c k).table.Agrees (f d k).table) :
    ∀ {c d : Collection}, c.table.Alike d.table → (c.each ns f).table.Alike (d.each ns f).table := by
  induction ns with
  | nil => exact fun h => h
  | cons k ns ih =>
    intro c d h
    have htidy : ∀ {e : Collection}, e.table.Tidy → (f e k).table.Tidy :=
      fun he => (hdeclares _ k (by simp)).keeps (fun _ _ => Declares.tidy hn) he
    exact ih (fun c m hm => hdeclares c m (by simp [hm])) (fun c d h m hm => hf c d h m (by simp [hm]))
      ⟨htidy h.left, htidy h.right, hf c d h k (by simp)⟩

/-- What a statement declares in one table it declares in the other. -/
theorem statement?_alike (hn : n.Worded) (h : c.table.Alike d.table) :
    ((c.statement? n).getD c).table.Alike ((d.statement? n).getD d).table := by
  have htidy : ∀ {e : Collection}, e.table.Tidy → ((e.statement? n).getD e).table.Tidy := by
    intro e he
    cases hstmt : e.statement? n with
    | none => exact he
    | some e' => exact (statement?_declares hstmt).keeps (fun _ _ => Declares.tidy hn) he
  refine ⟨htidy h.left, htidy h.right, ?_⟩
  have hword : ∀ l ∈ Node.nameLabels, ∀ k ∈ n.findAll l, Text.Word k.text := by
    intro l hl k hk
    obtain ⟨hmem, hlabel⟩ := List.mem_filter.1 hk
    exact hn.word hmem (List.mem_append_left _ hl) hlabel
  unfold statement?
  split
  · rename_i hlabel
    refine (alike_each hn (fun c k hk => addEntity_declares (Node.hasLabel_of_label? hlabel) hk _ c)
      (fun c d h k hk => ?_) h).agrees
    exact agrees_addEntity h _ (hword .entityDecl (by decide) k hk)
  · rename_i hlabel
    refine (alike_each hn (fun c k hk => addArray_declares (Node.hasLabel_of_label? hlabel) hk c)
      (fun c d h k hk => ?_) h).agrees
    exact agrees_addArray h (hword .arrayDeclarator (by decide) k hk)
  · rename_i hlabel
    refine (alike_each hn (fun c k hk => addCommon_declares (Node.hasLabel_of_label? hlabel) hk c)
      (fun c d h k hk => ?_) h).agrees
    exact agrees_addCommon h (hword .commonBlockObject (by decide) k hk)
  · refine agrees_each (fun c d h k _ => ?_) h.agrees
    exact agrees_spelled h k fun _ _ hs => Scope.folded_mark hs (key_spell c d k) .parameter
  · refine agrees_each (fun c d h k _ => agrees_update h k fun a b hab => ?_) h.agrees
    obtain ⟨hname, htype, hkind, hrest⟩ := Symbol.folded_eq_iff.1 hab
    rw [hkind]
    split
    · exact hab
    · exact Symbol.folded_eq_iff.2 ⟨hname, htype, rfl, hrest⟩
  · refine agrees_each (fun c d h k _ => agrees_update h k fun a b hab => ?_) h.agrees
    obtain ⟨hname, htype, -, hrest⟩ := Symbol.folded_eq_iff.1 hab
    exact Symbol.folded_eq_iff.2 ⟨hname, htype, rfl, hrest⟩
  · exact agrees_implicitTypes h.agrees n
  · exact agrees_assignment hn h
  · exact h.agrees
  · exact h.agrees
  · exact h.agrees
  · exact h.agrees

end Collection

end FortranJulia
