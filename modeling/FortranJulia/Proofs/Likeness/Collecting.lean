import FortranJulia.Proofs.Likeness.Trees

/-!
Declarations in a guise. What a sketch declares is what the tree declares, in the guise, and the same
declarations are refused, at the new numbers of their lines.
-/

namespace FortranJulia

set_option autoImplicit false

namespace Node

variable (g : Guise) {n : Node}

theorem typeName?_sketch {spec : Option Node}
    (h : ∀ n ∈ spec, n.Orderly ∧ n.hasLabel .endOfStmt = false) :
    typeName? (spec.map (sketch g)) = typeName? spec := by
  cases spec with
  | none => rfl
  | some n =>
    obtain ⟨hn, hend⟩ := h n rfl
    simp only [typeName?, Option.map_some, Option.bind_some, firstLexeme?_sketch g hn hend]
    cases n.firstLexeme? <;> rfl

/-- The type in the specification below a phrase. -/
theorem typeSpec_sketch (h : n.Orderly) :
    typeName? ((n.sketch g).child? .typeSpec) = typeName? (n.child? .typeSpec) := by
  rw [child?_sketch]
  exact typeName?_sketch g fun spec hspec =>
    ⟨h.child? hspec, not_end_of_label (hasLabel_child? hspec) (by decide)⟩

theorem bounds_sketch (h : n.Orderly) : (n.sketch g).bounds = n.bounds.map g.text := by
  simp only [bounds, childrenWith_sketch, List.map_map]
  refine List.map_congr_left fun d hd => ?_
  simp only [Function.comp_apply, child?_sketch]
  cases hupper : d.child? .upperBound with
  | none => simp
  | some u =>
    have htight := (h.childrenWith hd).tight u (nodes_child (List.mem_of_find?_eq_some hupper))
      .upperBound (by decide) (hasLabel_child? hupper)
    simp [source_sketch g htight]

end Node

namespace Guise

variable (g : Guise)

def declarationError : DeclarationError → DeclarationError
  | .redefined line kind name => .redefined (g.line line) kind (g.text name)
  | .wordRange line a b => .wordRange (g.line line) (g.text a) (g.text b)
  | .range line e => .range (g.line line) e
  | .emptyTree => .emptyTree

def collection (c : Collection) : Collection :=
  ⟨g.table c.table, c.errors.map g.declarationError⟩

def header (h : Collection.Header) : Collection.Header :=
  { line := g.line h.line, name := g.text h.name, type := h.type, kind := h.kind, scope := h.scope,
    params := h.params.map g.text }

/-! ## Changes of symbols and scopes -/

variable (y : Symbol) (s : Scope)

theorem mark_symbol (f : Flag) : (g.symbol y).mark f = g.symbol (y.mark f) := by
  cases hcaps : g.caps <;> simp [symbol, on_plain, on_caps, hcaps]

theorem with_kind (k : SymbolKind) :
    { g.symbol y with kind := k } = g.symbol { y with kind := k } := by
  cases hcaps : g.caps <;> simp [symbol, on_plain, on_caps, hcaps, Symbol.caps]

theorem with_arguments (args : List String) (type : Option TypeName) :
    { g.symbol y with kind := .statementFunction, params := args.map g.text, type := type } =
      g.symbol { y with kind := .statementFunction, params := args, type := type } := by
  cases hcaps : g.caps <;> simp [symbol, text, on_plain, on_caps, hcaps, Symbol.caps]

theorem with_implicit (rules : ImplicitRules) :
    { g.scope s with implicit := rules } = g.scope { s with implicit := rules } := by
  cases hcaps : g.caps <;> simp [scope, on_plain, on_caps, hcaps, Scope.caps]

end Guise

namespace Collection

variable (g : Guise) (c : Collection) {n : Node}

/-! ## Steps -/

@[simp] theorem table_collection : (g.collection c).table = g.table c.table := rfl

theorem with_table (t : Table) :
    { g.collection c with table := g.table t } = g.collection { c with table := t } := rfl

@[simp] theorem report_collection (e : DeclarationError) :
    (g.collection c).report (g.declarationError e) = g.collection (c.report e) := by
  simp [report, Guise.collection]

theorem modifyScope_collection {f k : Scope → Scope} (h : ∀ s, k (g.scope s) = g.scope (f s)) :
    (g.collection c).modifyScope k = g.collection (c.modifyScope f) := by
  simp only [modifyScope, table_collection, g.modify_table c.table h]
  rfl

theorem spell_sketch (h : n.Orderly) (hn : n.hasLabel .endOfStmt = false) :
    (g.collection c).spell (n.sketch g) = (g.text (c.spell n).1, g.collection (c.spell n).2) := by
  simp only [spell, table_collection, Node.text_sketch g h hn, Guise.spelling_table, Guise.spell_table]
  rfl

theorem each_sketch {ns : List Node} {f k : Collection → Node → Collection}
    (h : ∀ n ∈ ns, ∀ c, k (g.collection c) (n.sketch g) = g.collection (f c n)) :
    (g.collection c).each (ns.map (Node.sketch g)) k = g.collection (c.each ns f) := by
  induction ns generalizing c with
  | nil => rfl
  | cons n ns ih =>
    have hn := h n (by simp) c
    simp only [each, List.map_cons, List.foldl_cons, hn]
    exact ih _ fun m hm => h m (by simp [hm])

/-! ## Program units -/

theorem params_sketch {stmt : Option Node} (h : ∀ n ∈ stmt, n.Orderly) :
    (g.collection c).params (stmt.map (Node.sketch g)) =
      ((c.params stmt).1.map g.text, g.collection (c.params stmt).2) := by
  cases stmt with
  | none => rfl
  | some n =>
    have hfold : ∀ (args : List Node) (ps : List String) (c : Collection),
        (∀ arg ∈ args, arg.Orderly ∧ arg.hasLabel .endOfStmt = false) →
        (args.map (Node.sketch g)).foldl
          (fun (r : List String × Collection) arg => (r.1 ++ [(r.2.spell arg).1], (r.2.spell arg).2))
          (ps.map g.text, g.collection c) =
        let r := args.foldl (fun (r : List String × Collection) arg =>
          (r.1 ++ [(r.2.spell arg).1], (r.2.spell arg).2)) (ps, c)
        (r.1.map g.text, g.collection r.2) := by
      intro args
      induction args with
      | nil => exact fun _ _ _ => rfl
      | cons arg args ih =>
        intro ps c hargs
        obtain ⟨harg, hend⟩ := hargs arg (by simp)
        have hnext := ih (ps ++ [(c.spell arg).1]) (c.spell arg).2 (fun a ha => hargs a (by simp [ha]))
        rw [List.map_append] at hnext
        rw [List.map_cons, List.foldl_cons, List.foldl_cons, spell_sketch g c harg hend]
        exact hnext
    have hargs : ∀ arg ∈ n.findAll .dummyArgName, arg.Orderly ∧ arg.hasLabel .endOfStmt = false :=
      fun arg harg => ⟨(h n rfl).findAll harg,
        Node.not_end_of_label (Node.hasLabel_findAll harg) (by decide)⟩
    have hall := hfold (n.findAll .dummyArgName) [] c hargs
    simpa [params] using hall

theorem nameIn_sketch {stmt : Option Node} (h : ∀ n ∈ stmt, n.Orderly) {l : Label}
    (hl : l ≠ .endOfStmt) : nameIn (stmt.map (Node.sketch g)) l = g.text (nameIn stmt l) := by
  cases stmt with
  | none => exact g.text_empty.symm
  | some n =>
    simp only [nameIn, Option.map_some, Option.bind_some, Node.find?_sketch]
    cases hfound : n.find? l with
    | none => exact g.text_empty.symm
    | some m =>
      obtain ⟨hm, hlabel⟩ := find?_mem hfound
      simp [Node.text_sketch g ((h n rfl).node hm) (Node.not_end_of_label hlabel hl)]

theorem header_sketch (h : n.Orderly) (hn : n.hasLabel .endOfStmt = false) :
    (g.collection c).header (n.sketch g) =
      (g.header (c.header n).1, g.collection (c.header n).2) := by
  have hstmt : ∀ l, ∀ stmt ∈ n.child? l, stmt.Orderly := fun l stmt hm => h.child? hm
  have htype : Node.typeName? (((n.child? .functionStmt).map (Node.sketch g)).bind
      (·.child? .typeSpec)) = Node.typeName? ((n.child? .functionStmt).bind (·.child? .typeSpec)) := by
    cases hstmt' : n.child? .functionStmt with
    | none => rfl
    | some m => exact Node.typeSpec_sketch g (h.child? hstmt')
  simp only [header, Node.label?_sketch, Node.place_sketch g h hn, Node.child?_sketch, htype,
    nameIn_sketch g (hstmt _) (show Label.functionName ≠ .endOfStmt by decide),
    nameIn_sketch g (hstmt _) (show Label.subroutineName ≠ .endOfStmt by decide),
    nameIn_sketch g (hstmt _) (show Label.blockDataName ≠ .endOfStmt by decide),
    nameIn_sketch g (hstmt _) (show Label.programName ≠ .endOfStmt by decide),
    params_sketch g c (hstmt _), Guise.typeOf_implicit]
  split <;> rfl

theorem register_header (h : Header) :
    (g.collection c).register (g.header h) = g.collection (c.register h) := by
  have hglobal : ((g.collection c).table.global.get? (g.text h.name)).any (·.kind.isCallable) =
      (c.table.global.get? h.name).any (·.kind.isCallable) := by
    simp [Option.any_map]
  have hdefine : ∀ c : Collection, (⟨(g.collection c).table.defineUnit (g.text h.name) h.kind h.type
      (h.params.map g.text), (g.collection c).errors⟩ : Collection) =
        g.collection ⟨c.table.defineUnit h.name h.kind h.type h.params, c.errors⟩ := by
    intro c
    rw [table_collection, Guise.defineUnit_table]
    rfl
  simp only [register, Guise.header, Guise.text_beq_empty, hglobal]
  split
  · rfl
  · split
    · have hreport := c.report_collection g (.redefined h.line h.kind h.name)
      rw [Guise.declarationError] at hreport
      rw [hreport]
      exact hdefine _
    · exact hdefine c

theorem enter_header (h : Header) : (g.collection c).enter (g.header h) = g.collection (c.enter h) := by
  have hformals : ∀ t : Table, (g.table t).modify (·.setFormals (h.params.map g.text)) =
      g.table (t.modify (·.setFormals h.params)) :=
    fun t => g.modify_table t fun s => g.setFormals_scope s h.params
  have hdeclare : ∀ t : Table, (g.table t).modify (·.declare (g.text h.name) h.type) =
      g.table (t.modify (·.declare h.name h.type)) :=
    fun t => g.modify_table t fun s => g.declare_scope s h.name h.type
  simp only [enter, Guise.header, table_collection, Guise.spell_table, Guise.spelling_table,
    Guise.enter_table, hformals, hdeclare]
  split <;> rfl

theorem enterUnit_sketch (h : n.Orderly) (hn : n.hasLabel .endOfStmt = false) :
    (g.collection c).enterUnit (n.sketch g) = g.collection (c.enterUnit n) := by
  simp only [enterUnit, header_sketch g c h hn, enter_header]

theorem exitUnit_collection : (g.collection c).exitUnit = g.collection c.exitUnit := by
  simp only [exitUnit, table_collection, Guise.exit_table]
  rfl

/-! ## Statements -/

/-- A phrase below another that is no end of a statement. -/
theorem spell_findAll {m : Node} {l : Label} (h : n.Orderly) (hm : m ∈ n.findAll l) (hl : l ≠ .endOfStmt) :
    (g.collection c).spell (m.sketch g) = (g.text (c.spell m).1, g.collection (c.spell m).2) :=
  c.spell_sketch g (h.findAll hm) (Node.not_end_of_label (Node.hasLabel_findAll hm) hl)

theorem declare_collection (x : String) (type : Option TypeName) :
    (g.collection c).modifyScope (·.declare (g.text x) type) =
      g.collection (c.modifyScope (·.declare x type)) :=
  c.modifyScope_collection g fun s => g.declare_scope s x type

theorem declareArray_collection (x : String) (dims : List String) :
    (g.collection c).modifyScope (·.declareArray (g.text x) (dims.map g.text)) =
      g.collection (c.modifyScope (·.declareArray x dims)) :=
  c.modifyScope_collection g fun s => g.declareArray_scope s x dims

theorem typeDeclaration_sketch (h : n.Orderly) :
    (g.collection c).typeDeclaration (n.sketch g) = g.collection (c.typeDeclaration n) := by
  simp only [typeDeclaration, Node.typeSpec_sketch g h, Node.findAll_sketch]
  refine c.each_sketch g fun decl hdecl c => ?_
  simp only [spell_findAll g c h hdecl (by decide), declare_collection, Node.child?_sketch]
  cases hspec : decl.child? .arraySpec with
  | none => rfl
  | some spec =>
    simp only [Option.map_some, Node.bounds_sketch g ((h.findAll hdecl).child? hspec),
      declareArray_collection]

theorem setRange_on (r : ImplicitRules) (type : Option TypeName) (x y : Char) :
    r.setRange type (g.on Char.toUpper x) (g.on Char.toUpper y) = r.setRange type x y := by
  cases hcaps : g.caps with
  | false => rw [g.on_plain hcaps, id, id]
  | true =>
    rw [g.on_caps hcaps, ImplicitRules.setRange, caseless_upperChar x, caseless_upperChar y,
      ImplicitRules.setRange]

theorem implicitRange_sketch (type : Option TypeName) (h : n.Orderly)
    (hn : n.hasLabel .endOfStmt = false) :
    implicitRange type (g.collection c) (n.sketch g) = g.collection (implicitRange type c n) := by
  have hletters : (((n.sketch g).children.filter (·.hasKind .name)).map (·.text)) =
      ((n.children.filter (·.hasKind .name)).map (·.text)).map g.text := by
    have hkind : (fun m : Node => m.hasKind .name) ∘ Node.sketch g = fun m => m.hasKind .name :=
      funext fun m => Node.hasKind_sketch g m .name
    simp only [Node.children_sketch g n hn, List.filter_map, hkind, List.map_map]
    refine List.map_congr_left fun m hm => ?_
    obtain ⟨hchild, hname⟩ := List.mem_filter.1 hm
    refine Node.text_sketch g (h.child hchild) ?_
    cases m with
    | leaf => rfl
    | inner => cases hname
  rw [implicitRange, hletters, implicitRange]
  generalize (n.children.filter (·.hasKind .name)).map (·.text) = letters
  simp only [List.head?_map, List.getLast?_map]
  cases letters.head? with
  | none => rfl
  | some a =>
    cases letters.getLast? with
    | none => rfl
    | some b =>
      have hword := c.report_collection g (.wordRange n.place.1 a b)
      simp only [Option.map_some, Guise.toList_text, Node.place_sketch g h hn]
      rcases a.toList with _ | ⟨x, _ | ⟨x', xs⟩⟩
      case cons.nil =>
        rcases b.toList with _ | ⟨y, _ | ⟨y', ys⟩⟩
        case cons.nil =>
          simp only [List.map_cons, List.map_nil, table_collection, Guise.current_table,
            Guise.implicit_scope, setRange_on]
          cases c.table.current.implicit.setRange type x y with
          | ok rules => exact c.modifyScope_collection g fun s => g.with_implicit s rules
          | error e => exact c.report_collection g (.range n.place.1 e)
        all_goals exact hword
      all_goals exact hword

theorem implicitTypes_sketch (h : n.Orderly) (hn : n.hasLabel .endOfStmt = false) :
    (g.collection c).implicitTypes (n.sketch g) = g.collection (c.implicitTypes n) := by
  simp only [implicitTypes, Node.hasToken_sketch g n hn, Node.findAll_sketch]
  split
  · exact c.modifyScope_collection g fun s => g.with_implicit s .setNone
  · refine c.each_sketch g fun spec hspec c => ?_
    simp only [Node.findAll_sketch, Node.typeSpec_sketch g (h.findAll hspec)]
    exact c.each_sketch g fun range hrange c => implicitRange_sketch g c _
      ((h.findAll hspec).findAll hrange)
      (Node.not_end_of_label (Node.hasLabel_findAll hrange) (by decide))

theorem bareNames_sketch (t : Table) {ns : List Node} (h : ∀ n ∈ ns, n.Tight) :
    bareNames (g.table t) (ns.map (Node.sketch g)) =
      ((bareNames t ns).1.map (List.map g.text), g.table (bareNames t ns).2) := by
  induction ns generalizing t with
  | nil => rfl
  | cons n ns ih =>
    have hrest := fun t => ih t fun m hm => h m (by simp [hm])
    simp only [List.map_cons, bareNames, Node.lexemes_sketch g (h n (by simp))]
    rcases n.lexemes with _ | ⟨lx, _ | ⟨lx', lxs⟩⟩
    · rfl
    · simp only [List.map_cons, List.map_nil, Guise.kind_lexeme, Guise.text_lexeme,
        Guise.spelling_table, Guise.spell_table, hrest]
      split
      · simp only [Option.map_map, Prod.mk.injEq, and_true]
        exact congrArg (Option.map · _) (funext fun _ => rfl)
      · rfl
    · rfl

theorem statementFunctionArgs_sketch (t : Table) (h : n.Orderly) :
    statementFunctionArgs (g.table t) (n.sketch g) =
      ((statementFunctionArgs t n).1.map (List.map g.text), g.table (statementFunctionArgs t n).2) := by
  simp only [statementFunctionArgs, Node.child?_sketch]
  cases htarget : n.child? .variableRef with
  | none => rfl
  | some target =>
    have htext := Node.text_sketch g (h.child? htarget)
      (Node.not_end_of_label (Node.hasLabel_child? htarget) (by decide))
    simp only [Option.map_some, Node.childrenWith_sketch, htext, Guise.isArray_table,
      Guise.current_table, Guise.isFormal_scope]
    have htails : ∀ tail ∈ target.childrenWith .complexDataRefTail, tail.Orderly :=
      fun tail htail => (h.child? htarget).childrenWith htail
    generalize target.childrenWith .complexDataRefTail = tails at htails ⊢
    rcases tails with _ | ⟨tail, _ | ⟨tail', tails⟩⟩
    case cons.nil =>
      have hsubs : ∀ m ∈ tail.findAll .sectionSubscript, m.Tight := fun m hm =>
        (htails tail (by simp)).tight m (List.mem_filter.1 hm).1 .sectionSubscript (by decide)
          (Node.hasLabel_findAll hm)
      simp only [List.map_cons, List.map_nil, Node.findAll_sketch, bareNames_sketch g t hsubs]
      split
      · rfl
      · rcases bareNames t (tail.findAll .sectionSubscript) with ⟨_ | ⟨_ | ⟨x, xs⟩⟩, u⟩ <;> rfl
    all_goals rfl

theorem assignment_sketch (h : n.Orderly) :
    (g.collection c).assignment (n.sketch g) = g.collection (c.assignment n) := by
  simp only [assignment, Node.child?_sketch]
  cases htarget : n.child? .variableRef with
  | none => rfl
  | some target =>
    have hspell := c.spell_sketch g (h.child? htarget)
      (Node.not_end_of_label (Node.hasLabel_child? htarget) (by decide))
    simp only [Option.map_some, hspell, table_collection, statementFunctionArgs_sketch g _ h]
    generalize (c.spell target).1 = x
    rcases statementFunctionArgs (c.spell target).2.table n with ⟨_ | args, t⟩
    · exact modifyScope_collection g ⟨t, (c.spell target).2.errors⟩ fun s => g.markAssigned_scope s x
    · refine modifyScope_collection g ⟨t, (c.spell target).2.errors⟩ fun s =>
        g.update_scope s x fun y => ?_
      simp only [Guise.implicit_scope, Guise.typeOf_implicit, Guise.type_symbol]
      exact g.with_arguments y args _

theorem statement?_sketch (h : n.Orderly) :
    (g.collection c).statement? (n.sketch g) = (c.statement? n).map g.collection := by
  have hupdate : ∀ {l : Label} {m : Node} (c : Collection) (f : Symbol → Symbol), m ∈ n.findAll l →
      l ≠ .endOfStmt → (∀ y, f (g.symbol y) = g.symbol (f y)) →
      ((g.collection c).spell (m.sketch g)).2.modifyScope
          (·.update ((g.collection c).spell (m.sketch g)).1 f) =
        g.collection ((c.spell m).2.modifyScope (·.update (c.spell m).1 f)) := by
    intro l m c f hm hl hf
    rw [spell_findAll g c h hm hl]
    exact modifyScope_collection g _ fun s => g.update_scope s _ hf
  simp only [statement?, Node.label?_sketch, Node.findAll_sketch]
  split
  case h_1 => exact congrArg some (c.typeDeclaration_sketch g h)
  case h_2 =>
    refine congrArg some (c.each_sketch g fun decl hdecl c => ?_)
    have hdims : ((((decl.sketch g).child? .arraySpec).map (·.bounds)).getD []) =
        (((decl.child? .arraySpec).map (·.bounds)).getD []).map g.text := by
      rw [Node.child?_sketch]
      cases hspec : decl.child? .arraySpec with
      | none => rfl
      | some spec => simp [Node.bounds_sketch g ((h.findAll hdecl).child? hspec)]
    simp only [spell_findAll g c h hdecl (by decide), hdims, declareArray_collection]
  case h_3 =>
    refine congrArg some (c.each_sketch g fun object hobject c => ?_)
    have hcommon : ∀ (c : Collection) x, (g.collection c).modifyScope (·.markCommon (g.text x)) =
        g.collection (c.modifyScope (·.markCommon x)) :=
      fun c x => c.modifyScope_collection g fun s => g.markCommon_scope s x
    simp only [spell_findAll g c h hobject (by decide), hcommon, Node.child?_sketch]
    cases hspec : object.child? .arraySpec with
    | none => rfl
    | some spec =>
      refine modifyScope_collection g _ fun s => ?_
      simp only [Guise.getOrNew_scope, Guise.name_symbol,
        Node.bounds_sketch g ((h.findAll hobject).child? hspec), Guise.declareArray_scope]
  case h_4 =>
    exact congrArg some (c.each_sketch g fun m hm c =>
      hupdate c (·.mark .parameter) hm (by decide) (g.mark_symbol · .parameter))
  case h_5 =>
    refine congrArg some (c.each_sketch g fun m hm c => hupdate c _ hm (by decide) fun y => ?_)
    rw [Guise.kind_symbol]
    split
    · rfl
    · exact g.with_kind y .externalName
  case h_6 =>
    exact congrArg some (c.each_sketch g fun m hm c =>
      hupdate c (fun y => { y with kind := .intrinsic }) hm (by decide) (g.with_kind · .intrinsic))
  case h_7 hlabel =>
    exact congrArg some (c.implicitTypes_sketch g h
      (Node.not_end_of_label (l := .implicitStmt) (by simp [Node.hasLabel, hlabel]) (by decide)))
  case h_8 => exact congrArg some (c.assignment_sketch g h)
  all_goals rfl

end Collection

end FortranJulia
