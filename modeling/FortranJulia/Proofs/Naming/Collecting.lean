import FortranJulia.Proofs.Lowering.Declarations
import FortranJulia.Proofs.Naming.Statements

/-!
Names while declarations are collected. A collection spells names as it comes by them, and what it records
depends on the spellings. So it does the same if it starts with all spellings that there will be in the
end: this holds of the statements of a unit and of its first statement, and with `Spells` of the lowering
of whole lists of statements.
-/

namespace FortranJulia

set_option autoImplicit false

open Julia (Expr Code Line)

/-! ## Steps of a collection -/

namespace Collection

/-- What is done to a collection adds to the spellings, and is the same behind an earlier lowering. -/
def Steady {α : Type} (f : Collection → α × Collection) : Prop :=
  ∀ c, c.table.spellings <+: (f c).2.table.spellings ∧
    ∀ past : Past, past.Knows (f c).2.table.spellings → f (c.behind past) = ((f c).1, (f c).2.behind past)

namespace Steady

variable {α β : Type}

theorem pure (a : α) : Steady fun c => (a, c) :=
  fun _ => ⟨List.prefix_rfl, fun _ _ => rfl⟩

theorem bind {f : Collection → α × Collection} {g : α → Collection → β × Collection} (hf : Steady f)
    (hg : ∀ a, Steady (g a)) : Steady fun c => g (f c).1 (f c).2 := by
  intro c
  obtain ⟨hfirst, hbehind⟩ := hf c
  obtain ⟨hsecond, hbehind'⟩ := hg (f c).1 (f c).2
  refine ⟨hfirst.trans hsecond, fun past hknows => ?_⟩
  simp only [hbehind past (hknows.earlier hsecond)]
  exact hbehind' past hknows

theorem congr {f g : Collection → α × Collection} (h : Steady f) (heq : ∀ c, g c = f c) : Steady g := by
  rw [show g = f from funext heq]
  exact h

/-- The collection is read, but nothing in it that differs behind an earlier lowering. -/
theorem read {r : Collection → α} {f : α → Collection → β × Collection}
    (hr : ∀ (c : Collection) past, r (c.behind past) = r c) (hf : ∀ a, Steady (f a)) :
    Steady fun c => f (r c) c := by
  intro c
  obtain ⟨hadds, hbehind⟩ := hf (r c) c
  exact ⟨hadds, fun past hknows => by simpa only [hr] using hbehind past hknows⟩

theorem ite {p : Collection → Bool} {f g : Collection → α × Collection}
    (hp : ∀ (c : Collection) past, p (c.behind past) = p c) (hf : Steady f) (hg : Steady g) :
    Steady fun c => if p c then f c else g c := by
  refine read (f := fun b c => if b then f c else g c) hp fun b => ?_
  cases b with
  | true => exact hf
  | false => exact hg

theorem each {ns : List Node} {f : Collection → Node → Collection}
    (h : ∀ k ∈ ns, Steady fun c => ((), f c k)) : Steady fun c => ((), c.each ns f) := by
  induction ns with
  | nil => exact pure ()
  | cons k ns ih => exact (h k (by simp)).bind fun _ => ih fun m hm => h m (by simp [hm])

end Steady

theorem steady_modifyScope (f : Scope → Scope) : Steady fun c => ((), c.modifyScope f) := by
  refine fun c => ⟨?_, fun past _ => ?_⟩
  · show c.table.spellings <+: (c.table.modify f).spellings
    unfold Table.modify
    split <;> exact List.prefix_rfl
  · show ((), { c.behind past with table := (c.table.behind past).modify f }) = _
    rw [Table.modify_behind]
    rfl

theorem steady_report (e : DeclarationError) : Steady fun c => ((), c.report e) :=
  fun _ => ⟨List.prefix_rfl, fun _ _ => by simp [Collection.report, Collection.behind]⟩

theorem steady_word (x : String) :
    Steady fun c => (c.table.spelling x, { c with table := c.table.spell x }) := by
  refine fun c => ⟨c.table.spell_spellings x, fun past hknows => ?_⟩
  obtain ⟨hsame, htable⟩ := Table.spell_behind hknows
  show ((c.table.behind past).spelling x, { c.behind past with table := (c.table.behind past).spell x }) = _
  rw [hsame, htable]
  rfl

theorem steady_spell (k : Node) : Steady fun c => c.spell k :=
  steady_word k.text

/-! ## Statements -/

theorem steady_update (k : Node) (f : String → Scope → Scope) :
    Steady fun c => ((), (c.spell k).2.modifyScope (f (c.spell k).1)) :=
  (steady_spell k).bind fun name => steady_modifyScope (f name)

theorem steady_addEntity (type : Option TypeName) (k : Node) :
    Steady fun c => ((), addEntity type c k) := by
  cases hspec : k.child? .arraySpec with
  | none =>
    simp only [addEntity, hspec]
    exact steady_update k fun name s => s.declare name type
  | some spec =>
    simp only [addEntity, hspec]
    exact (steady_spell k).bind fun name => (steady_modifyScope (·.declare name type)).bind fun _ =>
      steady_modifyScope (·.declareArray name spec.bounds)

theorem steady_addCommon (k : Node) : Steady fun c => ((), addCommon c k) := by
  cases hspec : k.child? .arraySpec with
  | none =>
    simp only [addCommon, hspec]
    exact steady_update k fun name s => s.markCommon name
  | some spec =>
    simp only [addCommon, hspec]
    exact (steady_spell k).bind fun name => (steady_modifyScope (·.markCommon name)).bind fun _ =>
      steady_modifyScope fun s => s.declareArray (s.getOrNew name).name spec.bounds

/-- The collection with new rules for implicit types, or a report of what is no range of letters. -/
def withRules (line : Nat) (rules : Except RangeError ImplicitRules) (c : Collection) : Collection :=
  match rules with
  | .ok rules => c.modifyScope fun s => { s with implicit := rules }
  | .error e => c.report (.range line e)

theorem steady_implicitRange (type : Option TypeName) (range : Node) :
    Steady fun c => ((), implicitRange type c range) := by
  unfold implicitRange
  extract_lets letters
  split
  · split
    · rename_i x y _ _
      refine Steady.read (r := fun c => c.table.current.implicit.setRange type x y)
        (f := fun rules c => ((), c.withRules range.place.1 rules)) (fun _ _ => rfl) fun rules => ?_
      cases rules with
      | ok rules => exact steady_modifyScope _
      | error e => exact steady_report _
    · exact steady_report _
  · exact .pure ()

theorem steady_implicitTypes (stmt : Node) : Steady fun c => ((), c.implicitTypes stmt) := by
  unfold implicitTypes
  split
  · exact steady_modifyScope _
  · exact .each fun spec _ => .each fun range _ => steady_implicitRange _ range

/-- Names are spelled up to the first phrase that is not a bare name. -/
theorem steady_bareNames (ns : List Node) :
    Steady fun c => ((bareNames c.table ns).1, { c with table := (bareNames c.table ns).2 }) := by
  induction ns with
  | nil => exact .pure _
  | cons k ns ih =>
    unfold bareNames
    split
    · rename_i lx _
      split
      · refine (steady_word lx.text).bind (g := fun w c => ((bareNames c.table ns).1.map (w :: ·),
          { c with table := (bareNames c.table ns).2 })) fun w => ?_
        exact ih.bind (g := fun args c => (args.map (w :: ·), c)) fun _ => .pure _
      · exact .pure _
    · exact .pure _

/-- The dummy arguments, if there are any. -/
def someArgs : Option (List String) → Option (List String)
  | some [] => none
  | args => args

theorem steady_statementFunctionArgs (stmt : Node) :
    Steady fun c => ((statementFunctionArgs c.table stmt).1,
      { c with table := (statementFunctionArgs c.table stmt).2 }) := by
  unfold statementFunctionArgs
  split
  · exact .pure _
  · rename_i target _
    split
    · rename_i tail _
      have hnames : Steady fun c => (someArgs (bareNames c.table (tail.findAll .sectionSubscript)).1,
          { c with table := (bareNames c.table (tail.findAll .sectionSubscript)).2 }) :=
        (steady_bareNames _).bind (g := fun args c => (someArgs args, c)) fun _ => .pure _
      refine (Steady.ite (p := fun c => c.table.isArray target.text || c.table.current.isFormal target.text)
        (fun _ _ => rfl) (.pure none) hnames).congr fun c => ?_
      split
      · rfl
      · cases bareNames c.table (tail.findAll .sectionSubscript) with
        | mk args t => rcases args with _ | _ | _ <;> rfl
    · exact .pure _

/-- The collection with a name assigned to, or defined as a statement function if it has arguments. -/
def withAssigned (name : String) (args : Option (List String)) (c : Collection) : Collection :=
  match args with
  | some args => c.modifyScope fun s => s.update name fun y =>
    { y with
      kind := .statementFunction
      params := args
      type := y.type.or (s.implicit.typeOf name) }
  | none => c.modifyScope (·.markAssigned name)

theorem steady_assignment (stmt : Node) : Steady fun c => ((), c.assignment stmt) := by
  cases htarget : stmt.child? .variableRef with
  | none =>
    simp only [assignment, htarget]
    exact .pure ()
  | some target =>
    have hrecord : ∀ (name : String) (args : Option (List String)),
        Steady fun c => ((), c.withAssigned name args) := by
      intro name args
      cases args with
      | none => exact steady_modifyScope _
      | some args => exact steady_modifyScope _
    simp only [assignment, htarget]
    exact (steady_spell target).bind fun name => (steady_statementFunctionArgs stmt).bind (hrecord name)

/-- What a statement declares. -/
theorem steady_statement? (stmt : Node) :
    Steady fun c => ((), (c.statement? stmt).getD c) := by
  unfold statement?
  split
  · exact .each fun k _ => steady_addEntity _ k
  · exact .each fun k _ => steady_update k fun name s => s.declareArray name _
  · exact .each fun k _ => steady_addCommon k
  · exact .each fun k _ => steady_update k fun name s => s.update name _
  · exact .each fun k _ => steady_update k fun name s => s.update name _
  · exact .each fun k _ => steady_update k fun name s => s.update name _
  · exact steady_implicitTypes stmt
  · exact steady_assignment stmt
  · exact .pure ()
  · exact .pure ()
  · exact .pure ()
  · exact .pure ()

/-! ## First statements -/

theorem steady_params (stmt : Option Node) : Steady fun c => c.params stmt := by
  cases stmt with
  | none => exact .pure []
  | some n =>
    have hfold : ∀ (args : List Node) (ps : List String),
        Steady fun c => args.foldl addParam (ps, c) := by
      intro args
      induction args with
      | nil => exact fun ps => .pure ps
      | cons arg args ih =>
        intro ps
        exact (steady_spell arg).bind fun w => ih (ps ++ [w])
    exact hfold _ []

theorem steady_header (unit : Node) : Steady fun c => c.header unit := by
  unfold header
  simp only
  split
  · exact (steady_params _).bind fun ps => .pure _
  · exact (steady_params _).bind fun ps => .pure _
  · exact .pure _
  · exact .pure _

theorem exit_behind (t : Table) (past : Past) : (t.behind past).exit = t.exit.behind past := by
  simp [Table.exit, Table.units, Table.behind]

theorem steady_open (name : String) (kind : ScopeKind) :
    Steady fun c => ((), { c with table := c.table.enter name kind }) := by
  refine fun c => ⟨List.prefix_rfl, fun past _ => ?_⟩
  simp only [Table.enter, behind, exit_behind]
  rfl

theorem steady_enter (h : Header) : Steady fun c => ((), c.enter h) := by
  have hopen : Steady fun c => ((),
      { c with table := ((c.table.spell h.name).enter ((c.table.spell h.name).spelling h.name)
          h.scope).modify (·.setFormals h.params) }) := by
    simp only [Table.spelling_spell]
    exact (steady_word h.name).bind fun w => (steady_open w h.scope).bind fun _ => steady_modifyScope _
  unfold enter
  simp only
  split
  · exact hopen.bind fun _ => steady_modifyScope (·.declare h.name h.type)
  · exact hopen

theorem steady_enterUnit (unit : Node) : Steady fun c => ((), c.enterUnit unit) :=
  (steady_header unit).bind fun h => steady_enter h

end Collection

/-! ## Lists of statements -/

namespace Lower

variable {ν : Naming} {pre : Prop}

/-- A step of a collection while something is lowered. -/
theorem spells_collection {f : Collection → Collection} (h : Collection.Steady fun c => ((), f c)) :
    Spells ν .free pre (modify fun s => { s with collection := f s.collection } : Lower Unit)
      fun _ => True := by
  intro s a t hrun
  obtain ⟨-, rfl⟩ := Prod.mk.inj (Except.ok.inj hrun)
  obtain ⟨hadds, hbehind⟩ := h s.collection
  refine ⟨hadds, ⟨rfl, fun past hknows _ => ?_⟩, fun _ _ hfits => ⟨⟨hfits, [], rfl, by simp⟩, trivial⟩⟩
  show Except.ok ((), { s.behind past with collection := f (s.collection.behind past) }) = _
  rw [(Prod.mk.inj (hbehind past hknows)).2]
  rfl

theorem spells_collect (stmt : Node) : Spells ν .free pre (collect stmt) fun _ => True :=
  spells_collection (Collection.steady_statement? stmt)

theorem spells_before (stmt : Node) : Spells ν .free pre (before stmt) fun _ => True :=
  (spells_collect stmt).bind fun _ => spells_opening stmt

theorem spells_single (stmt : Node) : Spells ν .free pre (simple stmt) fun _ => True := by
  refine spells_simple fun _ t f => ?_
  show t.spellings <+: (t.modify f).spellings
  unfold Table.modify
  split <;> exact List.prefix_rfl

mutual

theorem spells_statement : ∀ (n : Node) {pre : Prop}, Spells ν .free pre (statement n) fun _ => True
  | .leaf i lx, _ => by
    rw [statement]
    exact spells_single _
  | .inner i l cs, _ => by
    by_cases hblock : l = .ifConstruct
    · subst hblock
      rw [statement]
      exact spells_blocks cs
    · by_cases hif : l = .ifStmt
      · subst hif
        rw [statement]
        refine (spells_condition _).bind fun c => (spells_line fun h => h.2).bind fun _ => ?_
        exact (spells_nested fun _ => spells_action cs).bind fun _ => spells_line fun _ => by simp
      · rw [statement]
        · exact spells_single _
        · exact hblock
        · exact hif

theorem spells_blocks : ∀ (ns : List Node) {pre : Prop}, Spells ν .free pre (blocks ns) fun _ => True
  | [], _ => by
    rw [blocks]
    exact .pure fun _ => trivial
  | .leaf i lx :: rest, _ => by
    rw [blocks]
    exact (spells_blockMark _).bind fun _ => spells_blocks rest
  | .inner i l cs :: rest, _ => by
    rw [blocks]
    split
    · exact (spells_nested fun _ => spells_statements cs).bind fun _ => spells_blocks rest
    · exact (spells_blockMark _).bind fun _ => spells_blocks rest

theorem spells_action : ∀ (ns : List Node) {pre : Prop}, Spells ν .free pre (action ns) fun _ => True
  | [], _ => by
    rw [action]
    exact .throw _ _
  | [stmt], _ => by
    rw [action]
    exact (spells_collect stmt).bind fun _ => (spells_statement stmt).bind fun _ => spells_trailing stmt
  | n :: m :: rest, _ => by
    rw [action]
    · exact spells_action (m :: rest)
    · simp

theorem spells_statements : ∀ (ns : List Node) {pre : Prop},
    Spells ν .free pre (statements ns) fun _ => True
  | [], _ => by
    rw [statements]
    exact .pure fun _ => trivial
  | stmt :: rest, _ => by
    rw [statements]
    exact (spells_before stmt).bind fun _ => (spells_statement stmt).bind fun _ =>
      (spells_after stmt).bind fun _ => spells_statements rest

end

end Lower

end FortranJulia
