import FortranJulia.Lowering.Program
import FortranJulia.Proofs.Lowering.Names

/-!
What a step of lowering may do. `Evolves` relates the states before and after a step inside a
statement: it adds lines that are nested as deep as their blocks say, records spellings and
declarations of the unit at hand, adds diagnostics, and leaves all else alone. An action that `Moves`
so succeeds in every state with an open unit. Steps are put together by `bind`, so that what holds of
the small actions holds of the statements made of them.

The lines that are added are ordinary ones or returns of the values that the unit returns; the
latter stay the same throughout the unit, since their names have all been spelled when it starts.
-/

namespace FortranJulia

set_option autoImplicit false

open Julia (Expr Code Line)

/-! ## Nesting of lines -/

namespace Julia

namespace Code

/-- Does the line open a block? -/
def opens : Code → Bool
  | .functionHead _ _ | .forHead _ _ | .forPairs _ _ _ | .ifHead _ => true
  | _ => false

/-- Does the line start another part of the block around it? -/
def resumes : Code → Bool
  | .elseifHead _ | .elseHead => true
  | _ => false

def closes : Code → Bool
  | .close => true
  | _ => false

def isComment : Code → Bool
  | .comment _ => true
  | _ => false

/-- Is the line neither a return nor the head of a routine? -/
def isOrdinary : Code → Bool
  | .functionHead _ _ | .returns _ => false
  | _ => true

end Code

/-- Is the line an ordinary one or a return of some values? -/
def Line.keeps (values : List String) : Line → Bool
  | .code _ (.returns vs) => vs == values
  | .code _ c => c.isOrdinary
  | .gap => false

/-- The number of blocks that are open behind a line, if `count` are open before it: the line has to
stand as deep as the number of blocks around it, and none of the first `floor` may end with it. A
comment may stand one level further out, next to the head of its block. -/
def Line.level (floor count : Nat) : Line → Option Nat
  | .gap => some count
  | .code depth c =>
    if c.opens then if depth = count then some (count + 1) else none
    else if c.resumes then if depth + 1 = count ∧ floor ≤ depth then some count else none
    else if c.closes then if depth + 1 = count ∧ floor ≤ depth then some depth else none
    else if depth = count ∨ c.isComment ∧ depth + 1 = count then some count else none

/-- The number of blocks that are open behind some lines. -/
def levels (floor count : Nat) : List Line → Option Nat
  | [] => some count
  | l :: rest => (l.level floor count).bind (levels floor · rest)

theorem levels_append {floor : Nat} (xs ys : List Line) : ∀ count,
    levels floor count (xs ++ ys) = (levels floor count xs).bind (levels floor · ys) := by
  induction xs with
  | nil => exact fun _ => rfl
  | cons l xs ih =>
    intro count
    simp only [List.cons_append, levels, ih, Option.bind_assoc]

/-- Lines that end none of some blocks end none of fewer. -/
theorem levels_floor {floor floor' : Nat} (h : floor' ≤ floor) {xs : List Line} :
    ∀ {count count' : Nat}, levels floor count xs = some count' →
      levels floor' count xs = some count' := by
  have hline : ∀ {l : Line} {count count' : Nat}, l.level floor count = some count' →
      l.level floor' count = some count' := by
    intro l count count' hl
    cases l with
    | gap => exact hl
    | code depth c =>
      have hdepth : floor ≤ depth → floor' ≤ depth := Nat.le_trans h
      simp only [Line.level] at hl ⊢
      grind
  induction xs with
  | nil => exact fun h => h
  | cons l xs ih =>
    intro count count' hlevels
    obtain ⟨k, hk, hrest⟩ := Option.bind_eq_some_iff.1 hlevels
    exact Option.bind_eq_some_iff.2 ⟨k, hline hk, ih hrest⟩

end Julia

/-! ## Tables -/

/-- What the statements of a unit leave of its scope. -/
def Scope.frame (s : Scope) : String × ScopeKind × List String :=
  (s.name, s.kind, s.formals)

/-- A table that is built up further inside a unit: the global scope and the scopes of other units
stay, the open one keeps its frame, and spellings are added. -/
structure Table.Kin (t u : Table) : Prop where
  global : u.global = t.global
  closed : u.closed = t.closed
  opened : u.opened.map Scope.frame = t.opened.map Scope.frame
  spellings : ∃ more, u.spellings = t.spellings ++ more

namespace Table.Kin

variable {t u v : Table}

theorem refl (t : Table) : t.Kin t :=
  ⟨rfl, rfl, rfl, [], (List.append_nil _).symm⟩

theorem trans (h : t.Kin u) (h' : u.Kin v) : t.Kin v := by
  obtain ⟨more, hmore⟩ := h.spellings
  obtain ⟨others, hothers⟩ := h'.spellings
  refine ⟨h'.global.trans h.global, h'.closed.trans h.closed, h'.opened.trans h.opened,
    more ++ others, ?_⟩
  rw [hothers, hmore, List.append_assoc]

theorem recorded (t : Table) (more : List String) : t.Kin (t.recorded more) :=
  ⟨rfl, rfl, rfl, more, rfl⟩

theorem spell (t : Table) (name : String) : t.Kin (t.spell name) := by
  obtain ⟨more, heq, -⟩ := t.spell_eq name
  rw [heq]
  exact recorded t more

theorem isSome (h : t.Kin u) : u.opened.isSome = t.opened.isSome := by
  have hopened := congrArg Option.isSome h.opened
  simpa using hopened

/-- A change of the open scope that keeps its frame. -/
theorem modify (ht : t.opened.isSome) {f : Scope → Scope} (hf : ∀ s, (f s).frame = s.frame) :
    t.Kin (t.modify f) := by
  obtain ⟨s, hs⟩ := Option.isSome_iff_exists.1 ht
  have heq : t.modify f = { t with opened := some (f s) } := by
    simp [Table.modify, hs]
  rw [heq]
  refine ⟨rfl, rfl, ?_, [], (List.append_nil _).symm⟩
  simp [hs, hf]

end Table.Kin

section Frames

variable (s : Scope) (name : String)

theorem Scope.frame_update (f : Symbol → Symbol) : (s.update name f).frame = s.frame := by
  unfold Scope.update Scope.define
  split <;> rfl

theorem Scope.frame_declareArray (dims : List String) :
    (s.declareArray name dims).frame = s.frame :=
  s.frame_update name _

theorem Scope.frame_markAssigned : (s.markAssigned name).frame = s.frame := by
  unfold Scope.markAssigned
  split
  · rfl
  · exact s.frame_update name (·.mark .assigned)

end Frames

/-! ## Declarations -/

namespace Collection

/-- Does a step of a collection keep the frame of the open unit? -/
def Kin (c d : Collection) : Prop :=
  c.table.Kin d.table

theorem Kin.each {ns : List Node} {f : Collection → Node → Collection}
    (hf : ∀ (c : Collection) (n : Node), c.table.opened.isSome → c.Kin (f c n)) :
    ∀ {c : Collection}, c.table.opened.isSome → c.Kin (c.each ns f) := by
  induction ns with
  | nil => exact fun _ => Table.Kin.refl _
  | cons n ns ih =>
    intro c hc
    have hn := hf c n hc
    have hns : (f c n).Kin ((f c n).each ns f) := ih (by rw [hn.isSome]; exact hc)
    exact hn.trans hns

theorem kin_spell (c : Collection) (n : Node) : c.Kin (c.spell n).2 :=
  Table.Kin.spell c.table n.text

theorem kin_modifyScope {c : Collection} (hc : c.table.opened.isSome) {f : Scope → Scope}
    (hf : ∀ s, (f s).frame = s.frame) : c.Kin (c.modifyScope f) :=
  Table.Kin.modify hc hf

/-- A name is recorded and then declared somehow. -/
theorem kin_spelled {c : Collection} (hc : c.table.opened.isSome) (n : Node)
    {f : Scope → Scope} (hf : ∀ s, (f s).frame = s.frame) :
    c.Kin ((c.spell n).2.modifyScope f) := by
  have hspell := kin_spell c n
  exact hspell.trans (kin_modifyScope (by rw [hspell.isSome]; exact hc) hf)

theorem kin_typeDeclaration {c : Collection} (hc : c.table.opened.isSome) (stmt : Node) :
    c.Kin (c.typeDeclaration stmt) := by
  unfold typeDeclaration
  refine Kin.each (fun c decl hc => ?_) hc
  have hdeclare := kin_spelled hc decl
    (fun s => s.frame_update (c.spell decl).1 (fun y => { y with
      type := Node.typeName? (stmt.child? .typeSpec), flags := y.flags.put false .implicit }))
  simp only
  split
  · exact hdeclare.trans (kin_modifyScope (by rw [hdeclare.isSome]; exact hc)
      (fun s => s.frame_declareArray _ _))
  · exact hdeclare

theorem kin_implicitRange {c : Collection} (hc : c.table.opened.isSome) (type : Option TypeName)
    (range : Node) : c.Kin (implicitRange type c range) := by
  unfold implicitRange
  simp only
  split
  · split
    · split
      · exact kin_modifyScope hc (fun _ => rfl)
      · exact Table.Kin.refl _
    · exact Table.Kin.refl _
  · exact Table.Kin.refl _

theorem kin_bareNames (ns : List Node) : ∀ t : Table, t.Kin (bareNames t ns).2 := by
  induction ns with
  | nil => exact fun t => Table.Kin.refl t
  | cons n ns ih =>
    intro t
    unfold bareNames
    split
    · split
      · rename_i lx _ _
        exact (Table.Kin.spell t lx.text).trans (ih _)
      · exact Table.Kin.refl t
    · exact Table.Kin.refl t

theorem kin_statementFunctionArgs (t : Table) (stmt : Node) :
    t.Kin (statementFunctionArgs t stmt).2 := by
  unfold statementFunctionArgs
  split
  · exact Table.Kin.refl t
  · split
    · split
      · exact Table.Kin.refl t
      · rename_i tail _ _
        have hnames := kin_bareNames (tail.findAll .sectionSubscript) t
        split
        · rename_i heq
          rw [heq] at hnames
          exact hnames
        · exact hnames
    · exact Table.Kin.refl t

theorem kin_assignment {c : Collection} (hc : c.table.opened.isSome) (stmt : Node) :
    c.Kin (c.assignment stmt) := by
  unfold assignment
  split
  · exact Table.Kin.refl _
  · rename_i target _
    have hspell := kin_spell c target
    have hargs := kin_statementFunctionArgs (c.spell target).2.table stmt
    have hboth := hspell.trans hargs
    have hopen := hc
    rw [← hboth.isSome] at hopen
    simp only
    split
    · exact hboth.trans (Table.Kin.modify hopen (fun s => s.frame_update _ _))
    · exact hboth.trans (Table.Kin.modify hopen (fun s => s.frame_markAssigned _))

/-- The statements of a unit keep its frame. -/
theorem kin_statement? {c d : Collection} (hc : c.table.opened.isSome) {stmt : Node}
    (h : c.statement? stmt = some d) : c.Kin d := by
  unfold statement? at h
  split at h
  · obtain rfl := Option.some.inj h
    exact kin_typeDeclaration hc stmt
  · obtain rfl := Option.some.inj h
    exact Kin.each (fun c n hc => kin_spelled hc n (fun s => s.frame_declareArray _ _)) hc
  · obtain rfl := Option.some.inj h
    refine Kin.each (fun c n hc => ?_) hc
    have hcommon := kin_spelled hc n (fun s => s.frame_update (c.spell n).1 (·.mark .common))
    simp only
    split
    · exact hcommon.trans (kin_modifyScope (by rw [hcommon.isSome]; exact hc)
        (fun s => s.frame_declareArray _ _))
    · exact hcommon
  · obtain rfl := Option.some.inj h
    exact Kin.each (fun c n hc => kin_spelled hc n (fun s => s.frame_update _ _)) hc
  · obtain rfl := Option.some.inj h
    exact Kin.each (fun c n hc => kin_spelled hc n (fun s => s.frame_update _ _)) hc
  · obtain rfl := Option.some.inj h
    exact Kin.each (fun c n hc => kin_spelled hc n (fun s => s.frame_update _ _)) hc
  · obtain rfl := Option.some.inj h
    unfold implicitTypes
    split
    · exact kin_modifyScope hc (fun _ => rfl)
    · exact Kin.each (fun c spec hc => Kin.each (fun c range hc => kin_implicitRange hc _ range) hc) hc
  · obtain rfl := Option.some.inj h
    exact kin_assignment hc stmt
  · obtain rfl := Option.some.inj h
    exact Table.Kin.refl _
  · obtain rfl := Option.some.inj h
    exact Table.Kin.refl _
  · obtain rfl := Option.some.inj h
    exact Table.Kin.refl _
  · cases h

end Collection

/-! ## Steps -/

/-- What is settled about a unit before its first statement, and its open loops. -/
def UnitState.fixed (u : UnitState) : UnitState :=
  { u with declared := [], arrays := [], localsDone := false }

namespace LowerState

/-- A unit is open, so that declarations are its own, and its name and its dummy arguments have been
spelled. -/
structure Open (s : LowerState) : Prop where
  unit : s.collection.table.opened.isSome
  spelled : ∀ x ∈ s.unit.name :: s.collection.table.current.formals,
    (s.collection.table.spelling? x).isSome

/-- The values that the unit at hand returns. -/
def returned (s : LowerState) : List String :=
  if s.unit.kind == .functionSubprogram then [s.variableName s.unit.name]
  else s.collection.table.current.formals.map s.variableName

end LowerState

/-- A step inside a statement, of which `i` blocks are open before and `j` behind it. Only a format
with more blanks than there can be overflows. -/
structure Evolves (wide : Prop) (i j : Nat) (s t : LowerState) : Prop where
  depth : t.depth = s.depth
  unit : t.unit.fixed = s.unit.fixed
  blockData : t.blockData = s.blockData
  table : s.collection.table.Kin t.collection.table
  lines : ∃ new, t.lines = new.reverse ++ s.lines ∧
    Julia.levels s.depth (s.depth + i) new = some (s.depth + j) ∧ ∀ l ∈ new, l.keeps s.returned
  diagnostics : ∃ new, t.diagnostics = s.diagnostics ++ new ∧
    ∀ d ∈ new, d.rule ≠ Label.labelDoStmt.name
  overflow : t.overflow → s.overflow ∨ wide
  localsDone : s.unit.localsDone → t.unit.localsDone

section Settled

variable {s t : LowerState}

theorem Table.Kin.formals {t u : Table} (h : t.Kin u) : u.current.formals = t.current.formals := by
  have hopened := h.opened
  unfold Table.current
  cases ht : t.opened with
  | none =>
    rw [ht, Option.map_none, Option.map_eq_none_iff] at hopened
    rw [hopened, Option.getD_none, h.global]
    rfl
  | some scope =>
    rw [ht, Option.map_some, Option.map_eq_some_iff] at hopened
    obtain ⟨scope', hscope, hframe⟩ := hopened
    rw [hscope]
    exact (Prod.mk.inj (Prod.mk.inj hframe).2).2

/-- A name that has been spelled is spelled the same way for good. -/
theorem Table.Kin.spelling? {t u : Table} (h : t.Kin u) {x w : String} (hx : t.spelling? x = some w) :
    u.spelling? x = some w := by
  obtain ⟨more, hmore⟩ := h.spellings
  rw [Table.spelling?, hmore, List.find?_append]
  rw [Table.spelling?] at hx
  rw [hx]
  rfl

/-- A name that has been spelled is written the same way for good. -/
theorem variableName_kept (htable : s.collection.table.Kin t.collection.table)
    (hname : t.unit.name = s.unit.name) (hkind : t.unit.kind = s.unit.kind) {x : String}
    (hx : (s.collection.table.spelling? x).isSome) : t.variableName x = s.variableName x := by
  obtain ⟨w, hw⟩ := Option.isSome_iff_exists.1 hx
  have hsame : t.collection.table.spelling x = s.collection.table.spelling x := by
    rw [Table.spelling, Table.spelling, hw, htable.spelling? hw]
  unfold LowerState.variableName LowerState.isResult
  rw [hsame, hname, hkind]

/-- A unit that is built up further stays open and returns the same values. -/
theorem settled (hs : s.Open) (htable : s.collection.table.Kin t.collection.table)
    (hname : t.unit.name = s.unit.name) (hkind : t.unit.kind = s.unit.kind) :
    t.Open ∧ t.returned = s.returned := by
  have hvariable : ∀ x ∈ s.unit.name :: s.collection.table.current.formals,
      t.variableName x = s.variableName x :=
    fun x hx => variableName_kept htable hname hkind (hs.spelled x hx)
  refine ⟨⟨?_, ?_⟩, ?_⟩
  · rw [htable.isSome]
    exact hs.unit
  · intro x hx
    rw [hname, htable.formals] at hx
    obtain ⟨w, hw⟩ := Option.isSome_iff_exists.1 (hs.spelled x hx)
    rw [htable.spelling? hw]
    rfl
  · unfold LowerState.returned
    rw [hkind, htable.formals, hname, hvariable _ (by simp)]
    split
    · rfl
    · exact List.map_congr_left (fun x hx => hvariable x (by simp [hx]))

end Settled

namespace Evolves

variable {wide : Prop} {i j k : Nat} {s t u : LowerState}

theorem refl (s : LowerState) : Evolves wide i i s s :=
  ⟨rfl, rfl, rfl, .refl _, ⟨[], rfl, rfl, by simp⟩, ⟨[], (List.append_nil _).symm, by simp⟩, .inl, id⟩

theorem loops (h : Evolves wide i j s t) : t.unit.loops = s.unit.loops := by
  have hfixed := congrArg UnitState.loops h.unit
  exact hfixed

theorem settled (h : Evolves wide i j s t) (hs : s.Open) : t.Open ∧ t.returned = s.returned := by
  have hname := congrArg UnitState.name h.unit
  have hkind := congrArg UnitState.kind h.unit
  exact FortranJulia.settled hs h.table hname hkind

theorem trans (hs : s.Open) (h : Evolves wide i j s t) (h' : Evolves wide j k t u) :
    Evolves wide i k s u := by
  obtain ⟨new, hnew, hlevels, hkeeps⟩ := h.lines
  obtain ⟨new', hnew', hlevels', hkeeps'⟩ := h'.lines
  obtain ⟨ds, hds, hrules⟩ := h.diagnostics
  obtain ⟨ds', hds', hrules'⟩ := h'.diagnostics
  rw [(h.settled hs).2] at hkeeps'
  refine ⟨h'.depth.trans h.depth, h'.unit.trans h.unit, h'.blockData.trans h.blockData,
    h.table.trans h'.table, ⟨new ++ new', ?_, ?_, ?_⟩, ⟨ds ++ ds', ?_, ?_⟩, ?_, ?_⟩
  · rw [hnew', hnew, List.reverse_append, List.append_assoc]
  · rw [h.depth] at hlevels'
    rw [Julia.levels_append, hlevels]
    exact hlevels'
  · exact fun l hl => (List.mem_append.1 hl).elim (hkeeps l) (hkeeps' l)
  · rw [hds', hds, List.append_assoc]
  · exact fun d hd => (List.mem_append.1 hd).elim (hrules d) (hrules' d)
  · exact fun hu => (h'.overflow hu).elim h.overflow .inr
  · exact fun hs => h'.localsDone (h.localsDone hs)

/-- A change of the table that keeps the frame of the open unit. -/
theorem of_table {c : Collection} (h : s.collection.table.Kin c.table) :
    Evolves wide i i s { s with collection := c } :=
  ⟨rfl, rfl, rfl, h, ⟨[], rfl, rfl, by simp⟩, ⟨[], (List.append_nil _).symm, by simp⟩, .inl, id⟩

/-- A change of what the statements of a unit change about it. -/
theorem of_unit {v : UnitState} (h : v.fixed = s.unit.fixed) (hdone : s.unit.localsDone → v.localsDone) :
    Evolves wide i i s { s with unit := v } :=
  ⟨rfl, h, rfl, .refl _, ⟨[], rfl, rfl, by simp⟩, ⟨[], (List.append_nil _).symm, by simp⟩, .inl, hdone⟩

/-- One more line. -/
theorem of_line {c : Code}
    (hlevel : (Line.code s.depth c).level s.depth (s.depth + i) = some (s.depth + j))
    (hkeeps : (Line.code s.depth c).keeps s.returned) :
    Evolves wide i j s { s with lines := .code s.depth c :: s.lines } :=
  ⟨rfl, rfl, rfl, .refl _,
    ⟨[.code s.depth c], rfl, by simp [Julia.levels, hlevel], by simpa using hkeeps⟩,
    ⟨[], (List.append_nil _).symm, by simp⟩, .inl, id⟩

/-- A step one level deeper, seen from the block around it. -/
theorem nested (h : Evolves wide 0 0 { s with depth := s.depth + 1 } t) :
    Evolves wide 1 1 s { t with depth := t.depth - 1 } := by
  obtain ⟨new, hnew, hlevels, hkeeps⟩ := h.lines
  refine ⟨?_, h.unit, h.blockData, h.table, ⟨new, hnew, ?_, hkeeps⟩, h.diagnostics, h.overflow,
    h.localsDone⟩
  · show t.depth - 1 = s.depth
    rw [h.depth]
    rfl
  · exact Julia.levels_floor (Nat.le_succ s.depth) hlevels

end Evolves

namespace Lower

/-- The action succeeds, with a value and a state as the condition says. -/
def Does {α : Type} (act : Lower α) (s : LowerState) (post : α → LowerState → Prop) : Prop :=
  ∃ a t, act.run s = .ok (a, t) ∧ post a t

theorem Does.bind {α β : Type} {act : Lower α} {f : α → Lower β} {s : LowerState}
    {mid : α → LowerState → Prop} {post : β → LowerState → Prop} (h : act.Does s mid)
    (h' : ∀ a t, mid a t → (f a).Does t post) : (act >>= f).Does s post := by
  obtain ⟨a, t, hrun, hmid⟩ := h
  obtain ⟨b, u, hrun', hpost⟩ := h' a t hmid
  exact ⟨b, u, by rw [run_bind_ok hrun, hrun'], hpost⟩

theorem Does.imp {α : Type} {act : Lower α} {s : LowerState} {pre post : α → LowerState → Prop}
    (h : act.Does s pre) (himp : ∀ a t, pre a t → post a t) : act.Does s post := by
  obtain ⟨a, t, hrun, hpre⟩ := h
  exact ⟨a, t, hrun, himp a t hpre⟩

theorem Does.unit {β : Type} {f : UnitState → Lower β} {s : LowerState}
    {post : β → LowerState → Prop} (h : (f s.unit).Does s post) : (Lower.unit >>= f).Does s post :=
  h

/-- Whenever a unit is open, the action succeeds and makes a step inside a statement. -/
def Moves (wide : Prop) (i j : Nat) {α : Type} (act : Lower α) : Prop :=
  ∀ s : LowerState, s.Open → act.Does s fun _ t => Evolves wide i j s t

variable {wide : Prop} {i j k : Nat}

namespace Moves

variable {α β : Type}

theorem pure (a : α) : Moves wide i i (Pure.pure a : Lower α) :=
  fun s _ => ⟨a, s, rfl, .refl s⟩

theorem bind {act : Lower α} {f : α → Lower β} (h : Moves wide i j act)
    (h' : ∀ a, Moves wide j k (f a)) : Moves wide i k (act >>= f) := by
  intro s hs
  refine (h s hs).bind (fun a t hst => ?_)
  exact (h' a t (hst.settled hs).1).imp (fun _ _ htu => hst.trans hs htu)

theorem modify {f : LowerState → LowerState}
    (h : ∀ s : LowerState, s.Open → Evolves wide i j s (f s)) :
    Moves wide i j (modify f : Lower Unit) :=
  fun s hs => ⟨(), f s, rfl, h s hs⟩

theorem get : Moves wide i i (get : Lower LowerState) :=
  fun s _ => ⟨s, s, rfl, .refl s⟩

theorem table : Moves wide i i Lower.table :=
  fun s _ => ⟨_, s, rfl, .refl s⟩

theorem unit : Moves wide i i Lower.unit :=
  fun s _ => ⟨_, s, rfl, .refl s⟩

theorem modifyTable {f : Table → Table} (h : ∀ t : Table, t.opened.isSome → t.Kin (f t)) :
    Moves wide i i (Lower.modifyTable f) :=
  modify (fun _ hs => .of_table (h _ hs.unit))

theorem modifyUnit {f : UnitState → UnitState} (h : ∀ u, (f u).fixed = u.fixed)
    (hdone : ∀ u, u.localsDone → (f u).localsDone) : Moves wide i i (Lower.modifyUnit f) :=
  modify (fun s _ => .of_unit (h s.unit) (hdone s.unit))

theorem nested {act : Lower Unit} (h : Moves wide 0 0 act) : Moves wide 1 1 (nested act) := by
  intro s hs
  have hdeeper : ({ s with depth := s.depth + 1 } : LowerState).Open := ⟨hs.unit, hs.spelled⟩
  obtain ⟨a, t, hrun, hst⟩ := h _ hdeeper
  refine ⟨(), { t with depth := t.depth - 1 }, ?_, hst.nested⟩
  show (act >>= fun _ => _).run { s with depth := s.depth + 1 } = _
  rw [run_bind_ok hrun]
  rfl

theorem forM {xs : List α} {f : α → Lower Unit} (h : ∀ x ∈ xs, Moves wide i i (f x)) :
    Moves wide i i (xs.forM f) := by
  induction xs with
  | nil => exact pure ()
  | cons x xs ih =>
    show Moves wide i i (f x >>= fun _ => xs.forM f)
    exact bind (h x (by simp)) (fun _ => ih (fun y hy => h y (by simp [hy])))

theorem foldlM {xs : List α} {f : β → α → Lower β} (h : ∀ b, ∀ x ∈ xs, Moves wide i i (f b x)) :
    ∀ b, Moves wide i i (xs.foldlM f b) := by
  induction xs with
  | nil => exact fun b => pure b
  | cons x xs ih =>
    intro b
    rw [List.foldlM_cons]
    exact bind (h b x (by simp)) (fun b' => ih (fun b y hy => h b y (by simp [hy])) b')

end Moves

/-- The action moves, and its value is as the condition says. -/
def Yields (wide : Prop) (i j : Nat) {α : Type} (act : Lower α) (post : α → Prop) : Prop :=
  ∀ s : LowerState, s.Open → act.Does s fun a t => Evolves wide i j s t ∧ post a

namespace Yields

variable {α β : Type} {post : α → Prop}

theorem pure {a : α} (h : post a) : Yields wide i i (Pure.pure a : Lower α) post :=
  fun s _ => ⟨a, s, rfl, .refl s, h⟩

theorem bind {act : Lower α} {f : α → Lower β} {post' : β → Prop} (h : Yields wide i j act post)
    (h' : ∀ a, post a → Yields wide j k (f a) post') : Yields wide i k (act >>= f) post' := by
  intro s hs
  refine (h s hs).bind (fun a t ha => ?_)
  obtain ⟨hst, hpost⟩ := ha
  exact (h' a hpost t (hst.settled hs).1).imp (fun _ _ hb => ⟨hst.trans hs hb.1, hb.2⟩)

theorem moves {act : Lower α} (h : Yields wide i j act post) : Moves wide i j act :=
  fun s hs => (h s hs).imp (fun _ _ ha => ha.1)

/-- What follows may rely on the condition. -/
theorem bind_moves {act : Lower α} {f : α → Lower β} (h : Yields wide i j act post)
    (h' : ∀ a, post a → Moves wide j k (f a)) : Moves wide i k (act >>= f) := by
  have hall : Yields wide i k (act >>= f) (fun _ => True) :=
    h.bind (fun a ha s hs => (h' a ha s hs).imp (fun _ _ hst => ⟨hst, trivial⟩))
  exact hall.moves

end Yields

theorem Moves.bind_yields {α β : Type} {act : Lower α} {f : α → Lower β} {post : β → Prop}
    (h : Moves wide i j act) (h' : ∀ a, Yields wide j k (f a) post) :
    Yields wide i k (act >>= f) post := by
  have hact : Yields wide i j act (fun _ => True) :=
    fun s hs => (h s hs).imp (fun _ _ hst => ⟨hst, trivial⟩)
  exact hact.bind (fun a _ => h' a)

theorem Yields.foldlM {α β : Type} {post : β → Prop} {xs : List α} {f : β → α → Lower β}
    (h : ∀ b, post b → ∀ x ∈ xs, Yields wide i i (f b x) post) :
    ∀ b, post b → Yields wide i i (xs.foldlM f b) post := by
  induction xs with
  | nil => exact fun b hb => .pure hb
  | cons x xs ih =>
    intro b hb
    rw [List.foldlM_cons]
    exact (h b hb x (by simp)).bind (fun b' hb' =>
      ih (fun b hb y hy => h b hb y (by simp [hy])) b' hb')

/-! ## Lines -/

theorem keeps_of_ordinary {c : Code} (h : c.isOrdinary) (depth : Nat) (values : List String) :
    (Line.code depth c).keeps values := by
  cases c with
  | returns | functionHead => cases h
  | _ => rfl

/-- A line that neither opens nor ends a block. -/
theorem moves_line {c : Code} (hordinary : c.isOrdinary)
    (hplain : (c.opens || c.resumes || c.closes) = false) : Moves wide 0 0 (line c) := by
  refine .modify (fun s _ => .of_line ?_ (keeps_of_ordinary hordinary _ _))
  simp only [Bool.or_eq_false_iff] at hplain
  simp [Julia.Line.level, hplain]

theorem moves_open {c : Code} (hordinary : c.isOrdinary) (hopens : c.opens) :
    Moves wide 0 1 (line c) :=
  .modify (fun s _ => .of_line (by simp [Julia.Line.level, hopens])
    (keeps_of_ordinary hordinary _ _))

theorem moves_resume {c : Code} (hordinary : c.isOrdinary) (hresumes : c.resumes) :
    Moves wide 1 1 (line c) := by
  have hopens : c.opens = false := by cases c <;> first | rfl | cases hresumes
  exact .modify (fun s _ => .of_line (by simp [Julia.Line.level, hopens, hresumes])
    (keeps_of_ordinary hordinary _ _))

theorem moves_close : Moves wide 1 0 (line .close) :=
  .modify (fun s _ => .of_line
    (by simp [Julia.Line.level, Code.opens, Code.resumes, Code.closes]) rfl)

/-- A comment at the depth of a statement or of the head of a block in it. -/
theorem moves_commentLine (text : String) (hi : i ≤ 1) : Moves wide i i (line (.comment text)) := by
  refine .modify (fun s _ => .of_line ?_ rfl)
  obtain rfl | rfl := Nat.le_one_iff_eq_zero_or_eq_one.1 hi <;>
    simp [Julia.Line.level, Code.opens, Code.resumes, Code.closes, Code.isComment]

theorem moves_report {severity : Severity} {place : Nat × Nat} {rule message : String}
    (h : rule ≠ Label.labelDoStmt.name) : Moves wide i i (report severity place rule message) := by
  intro s _
  exact ⟨(), _, rfl, rfl, rfl, rfl, .refl _, ⟨[], rfl, rfl, by simp⟩, ⟨[_], rfl, by simpa using h⟩,
    .inl, id⟩

theorem moves_warn {n : Node} {rule message : String} (h : rule ≠ Label.labelDoStmt.name) :
    Moves wide i i (warn n rule message) :=
  moves_report h

theorem moves_note {n : Node} {rule message : String} (h : rule ≠ Label.labelDoStmt.name) :
    Moves wide i i (note n rule message) :=
  moves_report h

theorem moves_itemsUpTo {α : Type} {n : Nat} {xs : List α} (h : n ≤ xs.length) :
    Moves wide i i (itemsUpTo n xs) := by
  rw [itemsUpTo, if_pos h]
  exact .pure _

theorem moves_itemsFrom {α : Type} {n : Nat} {xs : List α} (h : n ≤ xs.length) :
    Moves wide i i (itemsFrom n xs) := by
  rw [itemsFrom, if_pos h]
  exact .pure _

theorem moves_comment (text : String) (hi : i ≤ 1) : Moves wide i i (comment text) := by
  unfold comment
  split
  · exact moves_commentLine _ hi
  · rename_i cs hne
    have hlen : 1 ≤ (Text.trimChars text.toList).length := List.length_pos_iff.2 hne
    exact .bind (moves_itemsFrom hlen) (fun _ => moves_commentLine _ hi)

theorem moves_trailing (stmt : Node) (hi : i ≤ 1) : Moves wide i i (trailing stmt) := by
  unfold trailing
  split
  · exact .pure ()
  · exact .forM (fun lx _ => moves_comment lx.text hi)

/-! ## Names -/

theorem moves_spell (name : String) : Moves wide i i (spell name) :=
  .bind .table (fun _ => .bind (.modifyTable (fun t _ => .spell t name)) (fun _ => .pure _))

theorem moves_callee (name : String) : Moves wide i i (callee name) :=
  .bind (moves_spell name) (fun _ => .pure _)

theorem moves_isResult (name : String) : Moves wide i i (isResult name) :=
  .bind .unit (fun _ => .pure _)

theorem moves_ident (name : String) : Moves wide i i (ident name) := by
  refine .bind (moves_isResult name) (fun b => ?_)
  split
  · exact .bind (moves_spell name) (fun _ => .pure _)
  · exact moves_callee name

theorem moves_binding : Moves wide i i binding :=
  .bind .unit (fun _ => .pure _)

end Lower

end FortranJulia
