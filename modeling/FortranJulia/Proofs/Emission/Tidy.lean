import FortranJulia.Proofs.Emission.Lines
import FortranJulia.Proofs.Emission.Statements
import FortranJulia.Proofs.Lowering.Declarations
import FortranJulia.Proofs.Lowering.Routines

/-!
Programs of parsed trees. The names in a symbol table are words as long as the names in the tree are,
so that everything that is lowered is made of words: every line of the program of a parsed tree is
plain.
-/

namespace FortranJulia

set_option autoImplicit false

open Julia (Expr Code Line Binding)

/-! ## Tables of words -/

/-- The names in the scope are words. -/
structure Scope.Tidy (s : Scope) : Prop where
  formals : ∀ x ∈ s.formals, Text.Word x
  symbols : ∀ e ∈ s.symbols, Text.Word e.2.name ∧ ∀ p ∈ e.2.params, Text.Word p

/-- The change of a symbol keeps it to words. -/
def Symbol.KeepsWords (f : Symbol → Symbol) : Prop :=
  ∀ y : Symbol, (Text.Word y.name ∧ ∀ p ∈ y.params, Text.Word p) →
    Text.Word (f y).name ∧ ∀ p ∈ (f y).params, Text.Word p

theorem Symbol.Tame.keepsWords {f : Symbol → Symbol} (h : Tame f) : KeepsWords f := by
  intro y hy
  rw [h.name, h.params]
  exact hy

namespace Scope.Tidy

variable {s : Scope} {x : String}

theorem update (h : s.Tidy) (hx : Text.Word x) {f : Symbol → Symbol} (hf : Symbol.KeepsWords f) :
    (s.update x f).Tidy := by
  have hdefine : (s.define x).Tidy := by
    unfold Scope.define
    split
    · exact h
    · refine ⟨h.formals, fun e he => ?_⟩
      rcases List.mem_append.1 he with he | he
      · exact h.symbols e he
      · obtain rfl := List.mem_singleton.1 he
        exact ⟨hx, by simp⟩
  refine ⟨hdefine.formals, fun e he => ?_⟩
  obtain ⟨e', he', rfl⟩ := List.mem_map.1 he
  have hthis := hdefine.symbols e' he'
  split
  · exact hf e'.2 hthis
  · exact hthis

theorem get? (h : s.Tidy) {y : Symbol} (hy : s.get? x = some y) :
    Text.Word y.name ∧ ∀ p ∈ y.params, Text.Word p := by
  obtain ⟨before, behind, hsplit, -⟩ := List.lookup_eq_some_iff.1 hy
  exact h.symbols (nameKey x, y) (by simp [hsplit])

theorem getOrNew (h : s.Tidy) (hx : Text.Word x) : Text.Word (s.getOrNew x).name := by
  unfold Scope.getOrNew
  cases hy : s.get? x with
  | none => exact hx
  | some y => exact (h.get? hy).1

theorem declareArray (h : s.Tidy) (hx : Text.Word x) (dims : List String) :
    (s.declareArray x dims).Tidy := by
  refine h.update hx (fun y hy => ?_)
  simp only
  split <;> exact hy

theorem setFormals (h : s.Tidy) {names : List String} (hnames : ∀ x ∈ names, Text.Word x) :
    (s.setFormals names).Tidy := by
  have hfold : ∀ {t : Scope}, t.Tidy → (names.foldl addFormal t).Tidy := by
    induction names with
    | nil => exact fun ht => ht
    | cons x xs ih =>
      intro t ht
      have hx := hnames x (by simp)
      have hu : (t.update x (·.mark .formal)).Tidy :=
        ht.update hx (Symbol.tame_mark (by simp)).keepsWords
      refine ih (fun y hy => hnames y (by simp [hy])) ⟨fun y hy => ?_, hu.symbols⟩
      rcases List.mem_append.1 hy with hy | hy
      · exact hu.formals y hy
      · obtain rfl := List.mem_singleton.1 hy
        exact hu.getOrNew hx
  exact hfold (t := { s with formals := [] }) ⟨by simp, h.symbols⟩

end Scope.Tidy

/-- The names in the table are words. -/
structure Table.Tidy (t : Table) : Prop where
  spellings : ∀ w ∈ t.spellings, Text.Word w
  global : t.global.Tidy
  opened : ∀ s, t.opened = some s → s.Tidy

namespace Table.Tidy

variable {t : Table} {x : String}

theorem current (h : t.Tidy) : t.current.Tidy := by
  unfold Table.current
  cases hs : t.opened with
  | none => exact h.global
  | some s => exact h.opened s hs

theorem spelling (h : t.Tidy) (hx : Text.Word x) : Text.Word (t.spelling x) := by
  unfold Table.spelling
  cases hw : t.spelling? x with
  | none => exact hx
  | some w => exact h.spellings w (List.mem_of_find?_eq_some hw)

theorem spell (h : t.Tidy) (hx : Text.Word x) : (t.spell x).Tidy := by
  unfold Table.spell
  split
  · exact h
  · refine ⟨fun w hw => ?_, h.global, h.opened⟩
    rcases List.mem_append.1 hw with hw | hw
    · exact h.spellings w hw
    · obtain rfl := List.mem_singleton.1 hw
      exact hx

theorem modify (h : t.Tidy) {f : Scope → Scope} (hf : ∀ s : Scope, s.Tidy → (f s).Tidy) :
    (t.modify f).Tidy := by
  unfold Table.modify
  split
  · rename_i s hs
    refine ⟨h.spellings, h.global, fun s' hs' => ?_⟩
    obtain rfl := Option.some.inj hs'
    exact hf s (h.opened s hs)
  · exact ⟨h.spellings, hf _ h.global, h.opened⟩

theorem function (h : t.Tidy) (hx : Text.Word x) {args : List String}
    (hargs : ∀ p ∈ args, Text.Word p) (type : Scope → Symbol → Option TypeName) :
    (t.modify fun s => s.update x fun y =>
      { y with kind := .statementFunction, params := args, type := type s y }).Tidy :=
  h.modify (fun _ hs => hs.update hx (fun _ hy => ⟨hy.1, hargs⟩))

theorem defineUnit (h : t.Tidy) (hx : Text.Word x) (kind : SymbolKind) (type : Option TypeName)
    {params : List String} (hparams : ∀ p ∈ params, Text.Word p) :
    (t.defineUnit x kind type params).Tidy := by
  have hspell := h.spell hx
  refine ⟨hspell.spellings, ?_, hspell.opened⟩
  unfold Table.defineUnit
  simp only
  exact hspell.global.update (hspell.spelling hx) (fun _ hy => ⟨hy.1, hparams⟩)

end Table.Tidy

theorem Node.Worded.mentions {n : Node} (h : n.Worded) {x : String} (hx : n.Mentions x) :
    Text.Word x := by
  rcases hx with ⟨k, hk, l, hl, hlabel, rfl⟩ | ⟨lx, hlx, hkind, rfl⟩
  · exact h.word hk (List.mem_append_left _ hl) hlabel
  · exact Text.word_of_isName ((h.lexeme lx hlx).2 (by simp [Match.isName, hkind]))

theorem Node.Worded.dimensions {n : Node} (h : n.Worded) {x : String} (hx : n.Dimensions x) :
    Text.Word x := by
  have hword : ∀ l ∈ nameLabels, ∀ k ∈ n.findAll l, Text.Word k.text := by
    intro l hl k hk
    obtain ⟨hmem, hlabel⟩ := List.mem_filter.1 hk
    exact h.word hmem (List.mem_append_left _ hl) hlabel
  rcases hx with ⟨-, k, hk, -, rfl⟩ | ⟨-, k, hk, rfl⟩ | ⟨-, k, hk, -, rfl⟩
  · exact hword .entityDecl (by decide) k hk
  · exact hword .arrayDeclarator (by decide) k hk
  · exact hword .commonBlockObject (by decide) k hk

/-- What a statement declares is named by words. -/
theorem Declares.tidy {n : Node} (h : n.Worded) {t u : Table} (hstep : Declares n t u) (ht : t.Tidy) :
    u.Tidy := by
  cases hstep with
  | spell hsource => exact ht.spell (h.mentions hsource)
  | change hsource htame =>
    exact ht.modify (fun _ hs => hs.update (ht.spelling (h.mentions hsource)) htame.keepsWords)
  | array dims hsource hspelled =>
    have hx := ht.spelling (h.dimensions hsource)
    refine ht.modify (fun _ hs => hs.declareArray ?_ dims)
    rcases hspelled with rfl | rfl
    · exact hx
    · exact ht.current.getOrNew hx
  | intrinsic hsource =>
    obtain ⟨-, k, hk, rfl⟩ := hsource
    obtain ⟨hmem, hlabel⟩ := List.mem_filter.1 hk
    have hx := ht.spelling (h.word hmem (by decide) hlabel)
    exact ht.modify (fun _ hs => hs.update hx (fun _ hy => hy))
  | function hsource hdummies type =>
    refine ht.function (ht.spelling (h.mentions hsource)) (fun p hp => ?_) type
    obtain ⟨y, hy, rfl⟩ := hdummies p hp
    exact ht.spelling (h.mentions hy)
  | @other f hsymbols hframe =>
    refine ht.modify (fun s hs => ⟨?_, ?_⟩)
    · have hformals : (f s).formals = s.formals := congrArg (·.2.2) (hframe s)
      rw [hformals]
      exact hs.formals
    · rw [hsymbols]
      exact hs.symbols

/-! ## Units of words -/

/-- The tables and the unit at hand are made of words, and the unit is of a kind and has a name. -/
structure Material.PlainUnit (kind : Label) (name : String) (c : Collection) (u : UnitState) :
    Prop where
  table : c.table.Tidy
  kind : u.kind = kind
  named : u.name = name
  word : Text.Word name
  locals : ∀ x ∈ u.locals, Text.Word x
  formats : ∀ f ∈ u.formats, ∀ g, f.2 = some g → Text.Inline g.literal

namespace Material

/-- The material of a unit of words. -/
abbrev ofUnit (kind : Label) (name : String) : Material :=
  plain fun x => kind == .functionSubprogram && nameKey x == nameKey name

theorem plain_lawful (kind : Label) (name : String) :
    (ofUnit kind name).Lawful (PlainUnit kind name) where
  unit h hsettled := by
    have hkind := congrArg UnitState.kind hsettled
    have hname := congrArg UnitState.name hsettled
    have hlocals := congrArg UnitState.locals hsettled
    have hformats := congrArg UnitState.formats hsettled
    exact ⟨h.table, hkind.trans h.kind, hname.trans h.named, h.word,
      fun x hx => h.locals x (hlocals ▸ hx), fun f hf => h.formats f (hformats ▸ hf)⟩
  spell h hx := ⟨h.table.spell hx, h.kind, h.named, h.word, h.locals, h.formats⟩
  spelled h hx := ⟨h.table.spelling hx, h.table.spelling hx⟩
  result h x := by rw [h.kind, h.named]; rfl
  array _ hx := hx.elim
  procedure _ hx := hx.elim
  current h := ⟨h.table.current.formals, fun x y hy => h.table.current.get? hy⟩
  define h hx hargs :=
    ⟨h.table.function hx hargs _, h.kind, h.named, h.word, h.locals, h.formats⟩
  name h := h.named ▸ h.word
  locals h := h.locals
  formats {c u l f} h hl := by
    obtain ⟨before, behind, hsplit, -⟩ := List.lookup_eq_some_iff.1 hl
    exact h.formats (l, some f) (by simp [hsplit]) f rfl
  expression h x hx := by
    obtain ⟨lx, hlx, rfl⟩ := h.names x hx
    exact hlx
  within h items hitems s hs :=
    (Subscript.hasEach_iff.1 (Subscript.hasAll_iff.1 h.2 items hitems) s hs).expressions
  empty := ⟨(by decide : Text.Word ""), (by decide : Text.Inline "")⟩

theorem plain_fits {kind : Label} {name : String} {n : Node} (h : n.Worded) :
    (ofUnit kind name).Fits (PlainUnit kind name) n where
  named k hk l hl hlabel := h.word hk (List.mem_append_left _ hl) hlabel
  labels := h.numbered
  lexemes lx hlx := ⟨(h.lexeme lx hlx).1, fun hkind =>
    Text.word_of_isName ((h.lexeme lx hlx).2 (by simp [Match.isName, hkind]))⟩
  expression k hk hl e he := by
    refine (h.node hk).expression ?_ he
    cases k with
    | leaf => cases hl
    | inner => rfl
  operand k hk l hl hlabel c hc e he := by
    have hlined : ∀ l ∈ Node.operandLabels, l ∉ Label.lined := by decide
    exact (h.node hk).operand hlabel (hlined l hl) hc he
  subscripts k hk hl s hs e he := by
    refine Subscript.Has.expressions ((h.node hk).subscripts ?_ s hs) e he
    cases k with
    | leaf => cases hl
    | inner => rfl
  subroutine _ _ _ := trivial
  helpers k _ l _ f hf := ⟨l, hf⟩
  declares k hk c d u hknown hd :=
    ⟨(Collection.statement?_declares hd).keeps (fun _ _ => Declares.tidy (h.node hk)) hknown.table,
      hknown.kind, hknown.named, hknown.word, hknown.locals, hknown.formats⟩

end Material

/-! ## Units -/

/-- The header of a unit of words. -/
theorem Collection.header_words {c : Collection} (hc : c.table.Tidy) {unit : Node} (h : unit.Worded) :
    (c.header unit).2.table.Tidy ∧ Text.Word (c.header unit).1.name ∧
      ∀ p ∈ (c.header unit).1.params, Text.Word p := by
  have hparams : ∀ stmt : Option Node, (∀ n, stmt = some n → n.Worded) →
      (c.params stmt).2.table.Tidy ∧ ∀ p ∈ (c.params stmt).1, Text.Word p := by
    intro stmt hstmt
    cases stmt with
    | none => exact ⟨hc, by simp [params]⟩
    | some n =>
      have hargs : ∀ k ∈ n.findAll .dummyArgName, Text.Word k.text := by
        intro k hk
        obtain ⟨hmem, hlabel⟩ := List.mem_filter.1 hk
        exact (hstmt n rfl).word hmem (by decide) hlabel
      have hfold : ∀ (args : List Node), (∀ k ∈ args, Text.Word k.text) →
          ∀ r : List String × Collection, r.2.table.Tidy → (∀ p ∈ r.1, Text.Word p) →
            (args.foldl addParam r).2.table.Tidy ∧ ∀ p ∈ (args.foldl addParam r).1, Text.Word p := by
        intro args
        induction args with
        | nil => exact fun _ r hr hps => ⟨hr, hps⟩
        | cons k args ih =>
          intro hargs r hr hps
          have hk := hargs k (by simp)
          refine ih (fun k hk => hargs k (by simp [hk])) _ (hr.spell hk) (fun p hp => ?_)
          rcases List.mem_append.1 hp with hp | hp
          · exact hps p hp
          · obtain rfl := List.mem_singleton.1 hp
            exact hr.spelling hk
      exact hfold _ hargs ([], c) hc (by simp)
  have hname : ∀ (stmt : Option Node) (l : Label), l ∈ Node.unitLabels →
      (∀ n, stmt = some n → n.Worded) → Text.Word (nameIn stmt l) := by
    intro stmt l hl hstmt
    unfold nameIn
    cases stmt with
    | none => exact (by decide : Text.Word "")
    | some n =>
      rw [Option.bind_some]
      cases hk : n.find? l with
      | none => exact (by decide : Text.Word "")
      | some k =>
        obtain ⟨hmem, hlabel⟩ := find?_mem hk
        exact (hstmt n rfl).word hmem (List.mem_append_right _ hl) hlabel
  have hchild : ∀ (l : Label) (n : Node), unit.child? l = some n → n.Worded :=
    fun l n hn => h.child (List.mem_of_find?_eq_some hn)
  unfold header
  split
  · obtain ⟨htable, hps⟩ := hparams (unit.child? .functionStmt) (hchild _)
    exact ⟨htable, hname _ _ (by decide) (hchild _), hps⟩
  · obtain ⟨htable, hps⟩ := hparams (unit.child? .subroutineStmt) (hchild _)
    exact ⟨htable, hname _ _ (by decide) (hchild _), hps⟩
  · exact ⟨hc, hname _ _ (by decide) (hchild _), by simp⟩
  · exact ⟨hc, hname _ _ (by decide) (hchild _), by simp⟩

namespace Collection

variable {c : Collection}

theorem enter_words (hc : c.table.Tidy) {h : Header} (hname : Text.Word h.name)
    (hparams : ∀ p ∈ h.params, Text.Word p) : (c.enter h).table.Tidy := by
  have hspell := hc.spell hname
  have hentered : ((c.table.spell h.name).enter ((c.table.spell h.name).spelling h.name)
      h.scope).Tidy := by
    refine ⟨hspell.spellings, hspell.global, fun s hs => ?_⟩
    obtain rfl := Option.some.inj hs
    exact ⟨by simp, by simp⟩
  have hformals := hentered.modify (fun _ hs => hs.setFormals hparams)
  unfold enter
  simp only
  split
  · exact hformals.modify (fun _ hs => hs.update hname (Symbol.tame_declare _).keepsWords)
  · exact hformals

theorem enterUnit_words (hc : c.table.Tidy) {unit : Node} (h : unit.Worded) :
    (c.enterUnit unit).table.Tidy ∧ Text.Word (c.enterUnit unit).table.current.name := by
  obtain ⟨htable, hname, hparams⟩ := header_words hc h
  obtain ⟨-, hspelled⟩ := c.header_spelled unit
  refine ⟨enter_words htable hname hparams, ?_⟩
  obtain ⟨scope, hopened, hscope, -⟩ :=
    (c.header unit).2.enter_scope (c.header unit).1 hspelled
  have hcurrent : (c.enterUnit unit).table.current = scope := by
    rw [Table.current, show (c.enterUnit unit).table.opened = some scope from hopened]
    rfl
  rw [hcurrent, hscope]
  exact htable.spelling hname

theorem addUnit_words (hc : c.table.Tidy) {unit : Node} (h : unit.Worded) :
    (c.addUnit unit).table.Tidy := by
  obtain ⟨htable, hname, hparams⟩ := header_words hc h
  rw [addUnit, register_table]
  split
  · exact htable
  · exact htable.defineUnit hname _ _ hparams

theorem exitUnit_words (hc : c.table.Tidy) : c.exitUnit.table.Tidy :=
  ⟨hc.spellings, hc.global, fun _ hs => nomatch hs⟩

end Collection

namespace Lower

/-- The names that are kept of a list stand in it. -/
theorem mem_distinctNames {names : List String} {x : String} (h : x ∈ distinctNames names) :
    x ∈ names := by
  have hfold : ∀ kept, x ∈ names.foldl (fun kept n =>
      if kept.any (nameKey · == nameKey n) then kept else n :: kept) kept → x ∈ kept ∨ x ∈ names := by
    clear h
    induction names with
    | nil => exact fun _ h => .inl h
    | cons n names ih =>
      intro kept h
      rcases ih _ h with h | h
      · simp only at h
        split at h
        · exact .inl h
        · rcases List.mem_cons.1 h with rfl | h
          · exact .inr (by simp)
          · exact .inl h
      · exact .inr (by simp [h])
  exact (hfold [] (List.mem_reverse.1 h)).resolve_left (by simp)

theorem assignedNames_words {unit : Node} (h : unit.Worded) : ∀ x ∈ assignedNames unit, Text.Word x := by
  intro x hx
  obtain ⟨v, hv, rfl⟩ := List.mem_map.1 hx
  have hmem : v ∈ unit.nodes ∧ v.hasLabel .variableRef := by
    rcases List.mem_append.1 (List.mem_filter.1 hv).1 with hv | hv
    · obtain ⟨stmt, hstmt, hchild⟩ := List.mem_filterMap.1 hv
      exact ⟨nodes_trans (List.mem_filter.1 hstmt).1 (nodes_child (List.mem_of_find?_eq_some hchild)),
        Node.hasLabel_child? hchild⟩
    · obtain ⟨list, hlist, hchild⟩ := List.mem_flatMap.1 hv
      obtain ⟨hchild, hlabel⟩ := List.mem_filter.1 hchild
      exact ⟨nodes_trans (List.mem_filter.1 hlist).1 (nodes_child hchild), hlabel⟩
  exact h.word hmem.1 (by decide) hmem.2

theorem passedNames_words {unit : Node} (h : unit.Worded) : ∀ x ∈ passedNames unit, Text.Word x := by
  intro x hx
  obtain ⟨call, hcall, hx⟩ := List.mem_flatMap.1 hx
  obtain ⟨arg, harg, hname⟩ := List.mem_filterMap.1 hx
  obtain ⟨harg, hlabel⟩ := List.mem_filter.1 harg
  have hworded : arg.Worded := by
    unfold grandchildren at harg
    cases hlist : call.child? .subroutineArgList with
    | none => simp [hlist] at harg
    | some list =>
      rw [hlist, Option.map_some, Option.getD_some] at harg
      exact ((h.node (List.mem_filter.1 hcall).1).child (List.mem_of_find?_eq_some hlist)).child harg
  unfold argumentName? at hname
  cases hfirst : arg.children.head? with
  | none => simp [hfirst] at hname
  | some n =>
    simp only [hfirst, Option.bind_eq_bind, Option.bind_some] at hname
    split at hname
    · cases hname
    · obtain ⟨-, -, e, he, lx, hlx, hx⟩ : True ∧ True ∧ ∃ e, n.expression? = some e ∧
          ∃ lx, e.bareName? = some lx ∧ some lx.text = some x := by
        simpa [Option.bind_eq_some_iff] using hname
      obtain rfl := Option.some.inj hx
      have hplain := hworded.operand hlabel (by decide) (List.mem_of_head? hfirst) he
      cases e with
      | reference n suffixes =>
        cases suffixes with
        | nil =>
          obtain rfl := Option.some.inj hlx
          exact hplain.1
        | cons => cases hlx
      | _ => cases hlx

section Survey

variable {m : Material} {known : Collection → UnitState → Prop} {base : LowerState}

theorem makes_formatsOf (stmts : List Node) : ∀ found : List (String × Option PrintFormat),
    (∀ f ∈ found, ∀ g, f.2 = some g → Text.Inline g.literal) →
    Makes m known base (formatsOf stmts found) fun fs =>
      ∀ f ∈ fs, ∀ g, f.2 = some g → Text.Inline g.literal := by
  induction stmts with
  | nil => exact fun found h => .pure h
  | cons stmt stmts ih =>
    intro found h
    refine (makes_printFormat stmt _).bind (fun f hf => ih _ (List.forall_mem_cons.2 ⟨?_, h⟩))
    intro g hg
    obtain ⟨text, htext⟩ := hf g hg
    rw [htext]
    exact Text.inline_juliaString text

/-- What is found out about a unit of words. -/
theorem makes_survey {whole : Node} (h : whole.Worded) :
    Makes m known base (survey whole) fun u => u.kind = whole.label?.getD .program ∧
      (∀ x ∈ u.locals, Text.Word x) ∧ ∀ f ∈ u.formats, ∀ g, f.2 = some g → Text.Inline g.literal := by
  refine (makes_formatsOf _ [] (by simp)).bind (fun fs hfs => .pure ⟨rfl, fun x hx => ?_, hfs⟩)
  rcases List.mem_append.1 (mem_distinctNames hx) with hx | hx
  · split at hx
    · cases hx
    · exact assignedNames_words h x hx
  · exact passedNames_words h x hx

end Survey

end Lower

/-! ## Programs -/

/-- The state is that of a unit of words, and everything written so far is plain. -/
structure LowerState.Neat (kind : Label) (name : String) (s : LowerState) : Prop where
  unit : Material.PlainUnit kind name s.collection s.unit
  lines : ∀ l ∈ s.lines, l.Plain

namespace Lower

variable {kind : Label} {name : String}

/-- Lines made of words are plain. -/
theorem Makes.neat {α : Type} {act : Lower α} {post : α → Prop}
    (h : ∀ base, Makes (.ofUnit kind name) (Material.PlainUnit kind name) base act post) :
    Ensures (LowerState.Neat kind name) act post := by
  intro s hs a t hrun
  obtain ⟨⟨hunit, ⟨new, hnew, hwrites⟩, -⟩, hpost⟩ := h s s (.start hs.unit) a t hrun
  refine ⟨⟨hunit, fun l hl => ?_⟩, hpost⟩
  rw [hnew] at hl
  rcases List.mem_append.1 hl with hl | hl
  · have hthis := hwrites l hl
    cases l with
    | code depth c => exact Material.emitted_plain hthis
    | gap => trivial
  · exact hs.lines l hl

/-- No unit is at hand between the units of a program. -/
abbrev Between : LowerState → Prop := LowerState.Neat .program ""

theorem neat_programUnit {whole : Node} (h : whole.Worded) :
    Ensures Between (programUnit whole) fun _ => True := by
  intro s hs a v hrun
  obtain ⟨u, t, hsurvey, hrun⟩ := run_bind_inv hrun
  obtain ⟨ht, hkind, hlocals, hformats⟩ :=
    Makes.neat (fun _ => makes_survey h) s hs u t hsurvey
  obtain ⟨_, t', hentered, hrun⟩ := run_bind_inv hrun
  obtain ⟨_, rfl⟩ := Prod.mk.inj (Except.ok.inj hentered)
  obtain ⟨htable, hname⟩ := Collection.enterUnit_words ht.unit.table h
  obtain ⟨_, w, hparts, hleft⟩ := run_bind_inv hrun
  obtain ⟨_, rfl⟩ := Prod.mk.inj (Except.ok.inj hleft)
  have hunit : (t.entered whole u).Neat (whole.label?.getD .program)
      (t.collection.enterUnit whole).table.current.name :=
    ⟨⟨htable, hkind, rfl, hname, hlocals, hformats⟩, ht.lines⟩
  have hall : Ensures (LowerState.Neat (whole.label?.getD .program)
      (t.collection.enterUnit whole).table.current.name) (whole.children.forM (unitPart whole))
      fun _ => True :=
    .forM (fun part hpart => Makes.neat (fun _ => makes_unitPart (Material.plain_lawful _ _)
      ⟨.stopStmt, by decide⟩ whole (Material.plain_fits (h.child hpart))))
  obtain ⟨hw, -⟩ := hall _ hunit _ _ hparts
  refine ⟨⟨⟨Collection.exitUnit_words hw.unit.table, rfl, rfl, by decide, ?_, ?_⟩, hw.lines⟩, trivial⟩
  · exact fun _ hx => nomatch hx
  · exact fun _ hf => nomatch hf

theorem neat_programUnits {units : List Node} (h : ∀ n ∈ units, n.Worded) :
    Ensures Between (programUnits units) fun _ => True := by
  induction units with
  | nil => exact .pure trivial
  | cons unit rest ih =>
    have hunit := neat_programUnit (h unit (by simp))
    cases rest with
    | nil => exact hunit
    | cons next rest =>
      refine hunit.bind (fun _ _ => Ensures.bind (.modify (fun s hs => ⟨hs.unit, ?_⟩)) (fun _ _ =>
        ih (fun n hn => h n (by simp [hn]))))
      exact List.forall_mem_cons.2 ⟨trivial, hs.lines⟩

theorem neat_sourcePart {root part : Node} (h : root.Worded)
    (hroot : root.hasLabel .program ∨ root.hasLabel .loneName) (hpart : part ∈ root.children) :
    Ensures Between (sourcePart part) fun _ => True := by
  cases part with
  | leaf i lx =>
    have hmem : lx ∈ root.lexemes :=
      lexemes_of_nodes (nodes_child hpart) (List.mem_singleton_self lx)
    have hname : ∀ x : String, Text.Word x →
        Ensures Between (callee x >>= fun w => line (.run (.name w))) fun _ => True :=
      fun x hx => Makes.neat (fun _ => (makes_callee (Material.plain_lawful _ _) hx).bind
        (fun _ hw => makes_line (.lone (Material.named_of_callee hx hw))))
    unfold sourcePart
    simp only
    split
    · rename_i hkind
      exact Makes.neat (fun _ => makes_comment ((h.lexeme lx hmem).1 (by simp [hkind])))
    · rename_i hkind
      exact hname _ (Text.word_of_isName ((h.lexeme lx hmem).2 (by simp [Match.isName, hkind])))
    · rename_i hkind
      have hedit : Match.isName lx := by
        cases root with
        | leaf => cases hpart
        | inner j l cs =>
          refine h.edits j l cs (nodes_self _) ?_ i lx hpart hkind
          simpa [Node.hasLabel, Node.label?] using hroot
      exact hname _ (Text.word_of_isName ((h.lexeme lx hmem).2 hedit))
    · exact .pure trivial
  | inner i l units =>
    unfold sourcePart
    split
    · cases ‹Node.inner _ _ _ = Node.leaf _ _›
    · rename_i heq
      obtain ⟨rfl, rfl, rfl⟩ := Node.inner.inj heq
      refine Ensures.bind (.modify (fun s hs => ⟨hs.unit, hs.lines⟩)) (fun _ _ => ?_)
      exact neat_programUnits (fun n hn => (h.child hpart).child (mem_ordered.1 hn))
    · exact .pure trivial

/-- The state in which the lowering of a parsed tree starts. -/
theorem start_between {root : Node} (h : root.Worded)
    (hroot : root.hasLabel .program ∨ root.hasLabel .loneName)
    (hparts : ∀ n ∈ root.children, n.isLeaf ∨
      n.hasLabel .executableProgram ∧ ∀ unit ∈ n.children, unit.label?.any Label.isUnit)
    (o : Options) : Between (Generator.start root o).state := by
  have hfold : ∀ (units : List Node) (c : Collection), (∀ n ∈ units, n.Worded) → c.table.Tidy →
      (units.foldl Collection.addUnit c).table.Tidy := by
    intro units
    induction units with
    | nil => exact fun _ _ hc => hc
    | cons unit units ih =>
      exact fun c hall hc => ih _ (fun n hn => hall n (by simp [hn]))
        (Collection.addUnit_words hc (hall unit (by simp)))
  have htable : (Collection.ofTree true (some root) .empty).table.Tidy := by
    rw [Collection.ofTree_units hroot hparts]
    refine hfold root.units {} (fun n hn => h.node (units_nodes hn)) ?_
    refine ⟨?_, ⟨?_, ?_⟩, ?_⟩
    all_goals exact fun _ h => nomatch h
  refine ⟨⟨htable, rfl, rfl, by decide, ?_, ?_⟩, ?_⟩
  all_goals exact fun _ h => nomatch h

end Lower

end FortranJulia
