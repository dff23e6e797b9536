import FortranJulia.Proofs.Lowering.Routines
import FortranJulia.Proofs.Parsing.Words
import Mathlib.Logic.Relation

/-!
What declarations do to a symbol table. Whatever a statement declares, it spells names that stand in
it, gives arrays their dimensions, makes names intrinsic or statement functions, and otherwise changes
neither the name, the dummy arguments nor the dimensions of a symbol. `Declares` lists these steps, and
`statement?_declares` says that a statement takes no others: what every step keeps is kept.
-/

namespace FortranJulia

set_option autoImplicit false

/-! ## Steps -/

namespace Node

/-- The name stands in the phrase, at the front of a phrase for a name or as a token. -/
def Mentions (n : Node) (x : String) : Prop :=
  (∃ k ∈ n.nodes, ∃ l ∈ nameLabels, k.hasLabel l ∧ x = k.text) ∨
    ∃ lx ∈ n.lexemes, lx.kind = .name ∧ x = lx.text

/-- The statement declares the name with dimensions. -/
def Dimensions (n : Node) (x : String) : Prop :=
  (n.hasLabel .typeDeclarationStmt ∧
      ∃ k ∈ n.findAll .entityDecl, k.hasChild .arraySpec ∧ x = k.text) ∨
    (n.hasLabel .dimensionStmt ∧ ∃ k ∈ n.findAll .arrayDeclarator, x = k.text) ∨
    (n.hasLabel .commonStmt ∧
      ∃ k ∈ n.findAll .commonBlockObject, k.hasChild .arraySpec ∧ x = k.text)

/-- The statement lists the name as that of an intrinsic function. -/
def ListsIntrinsic (n : Node) (x : String) : Prop :=
  n.hasLabel .intrinsicStmt ∧ ∃ k ∈ n.findAll .intrinsicProcedureName, x = k.text

variable {n m : Node} {x : String}

theorem hasLabel_of_label? {l : Label} (h : n.label? = some l) : n.hasLabel l := by
  simp [hasLabel, h]

theorem child?_isSome (n : Node) (l : Label) : (n.child? l).isSome = n.hasChild l := by
  rw [Bool.eq_iff_iff, child?, hasChild, List.find?_isSome, List.any_eq_true]

theorem mentions_findAll {k : Node} {l : Label} (hl : l ∈ nameLabels) (hk : k ∈ n.findAll l) :
    n.Mentions k.text := by
  obtain ⟨hmem, hlabel⟩ := List.mem_filter.1 hk
  exact .inl ⟨k, hmem, l, hl, hlabel, rfl⟩

end Node

/-- The change of a symbol keeps its name, its dummy arguments and whether it is an array, and makes it
at most external. -/
structure Symbol.Tame (f : Symbol → Symbol) : Prop where
  name : ∀ y, (f y).name = y.name
  params : ∀ y, (f y).params = y.params
  array : ∀ y, (f y).isArray = y.isArray
  kind : ∀ y, (f y).kind = y.kind ∨ (f y).kind = .externalName

theorem Symbol.tame_mark {flag : Flag} (h : flag ≠ .array) : Tame (·.mark flag) :=
  ⟨fun _ => rfl, fun _ => rfl, fun _ => by cases flag <;> first | rfl | exact absurd rfl h,
    fun _ => .inl rfl⟩

theorem Symbol.tame_declare (type : Option TypeName) :
    Tame fun y => { y with type := type, flags := y.flags.put false .implicit } :=
  ⟨fun _ => rfl, fun _ => rfl, fun _ => rfl, fun _ => .inl rfl⟩

/-- A step of what a statement declares. -/
inductive Declares (n : Node) : Table → Table → Prop
  | spell {t : Table} {x : String} (source : n.Mentions x) : Declares n t (t.spell x)
  | change {t : Table} {x : String} {f : Symbol → Symbol} (source : n.Mentions x)
    (tame : Symbol.Tame f) : Declares n t (t.modify (·.update (t.spelling x) f))
  | array {t : Table} {x y : String} (dims : List String) (source : n.Dimensions x)
    (spelled : y = t.spelling x ∨ y = (t.current.getOrNew (t.spelling x)).name) :
    Declares n t (t.modify (·.declareArray y dims))
  | intrinsic {t : Table} {x : String} (source : n.ListsIntrinsic x) :
    Declares n t (t.modify (·.update (t.spelling x) fun y => { y with kind := .intrinsic }))
  | function {t : Table} {x : String} {args : List String} (source : n.Mentions x)
    (dummies : ∀ p ∈ args, ∃ y, n.Mentions y ∧ p = t.spelling y) (type : Scope → Symbol → Option TypeName) :
    Declares n t (t.modify fun s => s.update (t.spelling x) fun y =>
      { y with kind := .statementFunction, params := args, type := type s y })
  | other {t : Table} {f : Scope → Scope} (symbols : ∀ s, (f s).symbols = s.symbols)
    (frame : ∀ s, (f s).frame = s.frame) : Declares n t (t.modify f)

/-- Steps one after the other. -/
abbrev DeclaresAll (n : Node) : Table → Table → Prop :=
  Relation.ReflTransGen (Declares n)

/-- Steps of which the last gives the name its dimensions, after it has been spelled. -/
def DeclaresArray (n : Node) (x : String) (t u : Table) : Prop :=
  ∃ v y dims, DeclaresAll n t v ∧ (v.spelling? x).isSome ∧
    (y = v.spelling x ∨ y = (v.current.getOrNew (v.spelling x)).name) ∧
    u = v.modify (·.declareArray y dims)

theorem DeclaresArray.declares {n : Node} {x : String} {t u : Table} (h : DeclaresArray n x t u)
    (hx : n.Dimensions x) : DeclaresAll n t u := by
  obtain ⟨v, y, dims, hsteps, -, hspelled, rfl⟩ := h
  exact hsteps.tail (.array dims hx hspelled)

/-! ## Names that are spelled -/

namespace Table

theorem spelling_spell (t : Table) (x : String) : (t.spell x).spelling x = t.spelling x := by
  obtain ⟨more, -, hspelled⟩ := t.spell_eq x
  rw [spelling, hspelled]
  rfl

theorem spelling_modify (t : Table) (f : Scope → Scope) (x : String) :
    (t.modify f).spelling x = t.spelling x := by
  unfold modify
  split <;> rfl

theorem modify_congr {t : Table} {f g : Scope → Scope} (h : f t.current = g t.current) :
    t.modify f = t.modify g := by
  unfold modify
  unfold current at h
  split <;> simp_all

theorem modify_modify (t : Table) (f g : Scope → Scope) :
    (t.modify f).modify g = t.modify (fun s => g (f s)) := by
  cases h : t.opened <;> simp [modify, h]

/-- A name that is assigned for the first time is marked and listed. -/
theorem modify_markAssigned {t : Table} {x : String} (h : ¬ t.current.isAssigned x) :
    t.modify (·.markAssigned x) = (t.modify (·.update x (·.mark .assigned))).modify
      (fun s => { s with assigned := s.assigned ++ [nameKey x] }) := by
  rw [modify_modify]
  exact modify_congr (if_neg h)

/-- A name that is spelled keeps its spelling. -/
theorem Kin.spelling {t u : Table} (h : t.Kin u) {x : String} (hx : (t.spelling? x).isSome) :
    u.spelling x = t.spelling x := by
  obtain ⟨w, hw⟩ := Option.isSome_iff_exists.1 hx
  rw [Table.spelling, Table.spelling, hw, h.spelling? hw]

/-- A name that has just been spelled keeps its spelling. -/
theorem Kin.spelling_spell {t u : Table} {x : String} (h : (t.spell x).Kin u) :
    u.spelling x = t.spelling x :=
  (h.spelling (t.spell_isSome x)).trans (t.spelling_spell x)

theorem current_modify (t : Table) (f : Scope → Scope) : (t.modify f).current = f t.current := by
  unfold modify current
  split <;> simp_all

end Table

namespace Collection

variable {n : Node} {c d : Collection}

/-- Steps of phrases in turn. -/
theorem declares_each {ns : List Node} {f : Collection → Node → Collection}
    (hf : ∀ c, ∀ k ∈ ns, DeclaresAll n c.table (f c k).table) :
    ∀ c : Collection, DeclaresAll n c.table (c.each ns f).table := by
  induction ns with
  | nil => exact fun _ => .refl
  | cons k ns ih =>
    intro c
    exact (hf c k (by simp)).trans (ih (fun c m hm => hf c m (by simp [hm])) (f c k))

/-- A name is spelled and then declared somehow. -/
theorem declares_spelled {k : Node} (hk : n.Mentions k.text) {f : Symbol → Symbol}
    (hf : Symbol.Tame f) :
    DeclaresAll n c.table ((c.spell k).2.modifyScope (·.update (c.spell k).1 f)).table := by
  have hstep : Declares n (c.table.spell k.text)
      ((c.table.spell k.text).modify (·.update ((c.table.spell k.text).spelling k.text) f)) :=
    .change hk hf
  rw [Table.spelling_spell] at hstep
  exact .tail (.single (.spell hk)) hstep

/-- What is declared by a phrase of a type declaration. -/
def addEntity (type : Option TypeName) (c : Collection) (decl : Node) : Collection :=
  let (name, c) := c.spell decl
  let c := c.modifyScope (·.declare name type)
  match decl.child? .arraySpec with
  | some spec => c.modifyScope (·.declareArray name spec.bounds)
  | none => c

/-- What is declared by a phrase of a DIMENSION statement. -/
def addArray (c : Collection) (decl : Node) : Collection :=
  let (name, c) := c.spell decl
  let dims := ((decl.child? .arraySpec).map (·.bounds)).getD []
  c.modifyScope (·.declareArray name dims)

/-- What is declared by a phrase of a COMMON statement. -/
def addCommon (c : Collection) (object : Node) : Collection :=
  let (name, c) := c.spell object
  let c := c.modifyScope (·.markCommon name)
  match object.child? .arraySpec with
  | some spec => c.modifyScope fun s => s.declareArray (s.getOrNew name).name spec.bounds
  | none => c

section Arrays

variable {k : Node}

/-- A name that is spelled and declared is spelled as before. -/
theorem spelling_declared (c : Collection) (k : Node) (f : Scope → Scope) :
    let t := ((c.spell k).2.modifyScope f).table
    t.spelling k.text = (c.spell k).1 ∧ (t.spelling? k.text).isSome := by
  have hspelling? : ((c.table.spell k.text).modify f).spelling? k.text =
      (c.table.spell k.text).spelling? k.text := by
    unfold Table.modify
    split <;> rfl
  refine ⟨?_, ?_⟩
  · show ((c.table.spell k.text).modify f).spelling k.text = c.table.spelling k.text
    rw [Table.spelling_modify, Table.spelling_spell]
  · show (((c.table.spell k.text).modify f).spelling? k.text).isSome
    rw [hspelling?]
    exact c.table.spell_isSome k.text

theorem addEntity_array (hk : n.Mentions k.text) (hspec : k.hasChild .arraySpec)
    (type : Option TypeName) (c : Collection) :
    DeclaresArray n k.text c.table (addEntity type c k).table := by
  obtain ⟨spec, hspec⟩ := Option.isSome_iff_exists.1 ((k.child?_isSome .arraySpec).trans hspec)
  obtain ⟨hname, hspelled⟩ := spelling_declared c k (·.declare (c.spell k).1 type)
  refine ⟨_, (c.spell k).1, spec.bounds, declares_spelled hk (Symbol.tame_declare type), hspelled,
    .inl hname.symm, ?_⟩
  unfold addEntity
  rw [hspec]
  rfl

theorem addArray_array (hk : n.Mentions k.text) (c : Collection) :
    DeclaresArray n k.text c.table (addArray c k).table :=
  ⟨_, c.table.spelling k.text, _, .single (.spell hk), c.table.spell_isSome k.text,
    .inl (c.table.spelling_spell k.text).symm, rfl⟩

theorem addCommon_array (hk : n.Mentions k.text) (hspec : k.hasChild .arraySpec) (c : Collection) :
    DeclaresArray n k.text c.table (addCommon c k).table := by
  obtain ⟨spec, hspec⟩ := Option.isSome_iff_exists.1 ((k.child?_isSome .arraySpec).trans hspec)
  have htame : Symbol.Tame (·.mark .common) := Symbol.tame_mark (by simp)
  obtain ⟨hname, hspelled⟩ := spelling_declared c k (·.markCommon (c.spell k).1)
  let t := ((c.spell k).2.modifyScope (·.markCommon (c.spell k).1)).table
  refine ⟨t, (t.current.getOrNew (c.spell k).1).name, spec.bounds, declares_spelled hk htame, hspelled,
    .inr (by rw [hname]), ?_⟩
  unfold addCommon
  rw [hspec]
  exact Table.modify_congr rfl

theorem addEntity_declares (hn : n.hasLabel .typeDeclarationStmt) (hk : k ∈ n.findAll .entityDecl)
    (type : Option TypeName) (c : Collection) : DeclaresAll n c.table (addEntity type c k).table := by
  have hmentions : n.Mentions k.text := Node.mentions_findAll (by decide) hk
  by_cases hspec : k.hasChild .arraySpec
  · exact (addEntity_array hmentions hspec type c).declares (.inl ⟨hn, k, hk, hspec, rfl⟩)
  · unfold addEntity
    rw [← Node.child?_isSome, Option.not_isSome_iff_eq_none] at hspec
    rw [hspec]
    exact declares_spelled hmentions (Symbol.tame_declare type)

theorem addArray_declares (hn : n.hasLabel .dimensionStmt) (hk : k ∈ n.findAll .arrayDeclarator)
    (c : Collection) : DeclaresAll n c.table (addArray c k).table :=
  (addArray_array (Node.mentions_findAll (by decide) hk) c).declares (.inr (.inl ⟨hn, k, hk, rfl⟩))

theorem addCommon_declares (hn : n.hasLabel .commonStmt) (hk : k ∈ n.findAll .commonBlockObject)
    (c : Collection) : DeclaresAll n c.table (addCommon c k).table := by
  have hmentions : n.Mentions k.text := Node.mentions_findAll (by decide) hk
  by_cases hspec : k.hasChild .arraySpec
  · exact (addCommon_array hmentions hspec c).declares (.inr (.inr ⟨hn, k, hk, hspec, rfl⟩))
  · unfold addCommon
    rw [← Node.child?_isSome, Option.not_isSome_iff_eq_none] at hspec
    rw [hspec]
    exact declares_spelled hmentions (Symbol.tame_mark (by simp))

/-- The phrases of a statement in turn, one of which declares an array. -/
theorem array_each {ns : List Node} {f : Collection → Node → Collection}
    (hf : ∀ c, ∀ m ∈ ns, DeclaresAll n c.table (f c m).table) (hk : k ∈ ns) {x : String}
    (hthis : ∀ c, DeclaresArray n x c.table (f c k).table) (c : Collection) :
    ∃ t, DeclaresArray n x c.table t ∧ DeclaresAll n t (c.each ns f).table := by
  obtain ⟨front, back, rfl⟩ := List.append_of_mem hk
  have hsplit : c.each (front ++ k :: back) f = (f (c.each front f) k).each back f := by
    simp only [each, List.foldl_append, List.foldl_cons]
  obtain ⟨v, y, dims, hsteps, hrest⟩ := hthis (c.each front f)
  rw [hsplit]
  refine ⟨_, ⟨v, y, dims, ?_, hrest⟩, declares_each (fun c m hm => hf c m (by simp [hm])) _⟩
  exact (declares_each (fun c m hm => hf c m (by simp [hm])) c).trans hsteps

end Arrays

theorem declares_bareNames (ns : List Node) (hns : ∀ k ∈ ns, ∀ lx ∈ k.lexemes, lx ∈ n.lexemes) :
    ∀ t : Table, DeclaresAll n t (bareNames t ns).2 ∧ ∀ args, (bareNames t ns).1 = some args →
      ∀ p ∈ args, ∃ y, n.Mentions y ∧ p = (bareNames t ns).2.spelling y := by
  induction ns with
  | nil =>
    intro t
    refine ⟨.refl, fun args hargs => ?_⟩
    obtain rfl := Option.some.inj hargs
    simp
  | cons k ns ih =>
    intro t
    unfold bareNames
    split
    · rename_i lx hlx
      split
      · rename_i hname
        have hmentions : n.Mentions lx.text :=
          .inr ⟨lx, hns k (by simp) lx (by rw [hlx]; simp), eq_of_beq hname, rfl⟩
        obtain ⟨hsteps, hspelled⟩ := ih (fun m hm => hns m (by simp [hm])) (t.spell lx.text)
        have hkin := kin_bareNames ns (t.spell lx.text)
        refine ⟨.head (.spell hmentions) hsteps, fun args hargs => ?_⟩
        obtain ⟨more, hmore, rfl⟩ := Option.map_eq_some_iff.1 hargs
        exact List.forall_mem_cons.2 ⟨⟨lx.text, hmentions, hkin.spelling_spell.symm⟩, hspelled more hmore⟩
      · exact ⟨.refl, nofun⟩
    · exact ⟨.refl, nofun⟩

theorem declares_statementFunctionArgs (t : Table) (n : Node) :
    DeclaresAll n t (statementFunctionArgs t n).2 ∧ ∀ args, (statementFunctionArgs t n).1 = some args →
      ∀ p ∈ args, ∃ y, n.Mentions y ∧ p = (statementFunctionArgs t n).2.spelling y := by
  unfold statementFunctionArgs
  split
  · exact ⟨.refl, nofun⟩
  · rename_i target htarget
    split
    · rename_i tail htail
      split
      · exact ⟨.refl, nofun⟩
      · have hns : ∀ k ∈ tail.findAll .sectionSubscript, ∀ lx ∈ k.lexemes, lx ∈ n.lexemes := by
          intro k hk lx hlx
          have htailMem : tail ∈ target.children :=
            (List.mem_filter.1 (show tail ∈ target.childrenWith _ by rw [htail]; simp)).1
          have hnode : k ∈ n.nodes :=
            nodes_trans (nodes_child (List.mem_of_find?_eq_some htarget))
              (nodes_trans (nodes_child htailMem) (List.mem_filter.1 hk).1)
          exact lexemes_of_nodes hnode hlx
        have hnames := declares_bareNames _ hns t
        split
        · rename_i heq
          rw [heq] at hnames
          exact ⟨hnames.1, nofun⟩
        · exact hnames
    · exact ⟨.refl, nofun⟩

theorem declares_markAssigned {t : Table} {x : String} (h : n.Mentions x) :
    DeclaresAll n t (t.modify (·.markAssigned (t.spelling x))) := by
  by_cases hassigned : t.current.isAssigned (t.spelling x)
  · have hsame : t.modify (·.markAssigned (t.spelling x)) = t.modify id :=
      Table.modify_congr (if_pos hassigned)
    rw [hsame]
    exact .single (.other (fun _ => rfl) (fun _ => rfl))
  · rw [Table.modify_markAssigned hassigned]
    exact .tail (.single (.change h (Symbol.tame_mark (by simp)))) (.other (fun _ => rfl) (fun _ => rfl))

theorem declares_assignment (c : Collection) (n : Node) :
    DeclaresAll n c.table (c.assignment n).table := by
  unfold assignment
  split
  · exact .refl
  · rename_i target htarget
    have hmentions : n.Mentions target.text :=
      .inl ⟨target, nodes_child (List.mem_of_find?_eq_some htarget), .variableRef, by decide,
        Node.hasLabel_child? htarget, rfl⟩
    obtain ⟨hsteps, hspelled⟩ := declares_statementFunctionArgs (c.table.spell target.text) n
    have hkin := kin_statementFunctionArgs (c.table.spell target.text) n
    have hboth := Relation.ReflTransGen.head (Declares.spell hmentions) hsteps
    have hname : c.table.spelling target.text =
        (statementFunctionArgs (c.table.spell target.text) n).2.spelling target.text :=
      hkin.spelling_spell.symm
    simp only [spell, modifyScope, hname]
    split
    · rename_i args hargs
      exact hboth.tail (.function hmentions (hspelled args hargs)
        (fun s y => y.type.or (s.implicit.typeOf _)))
    · exact hboth.trans (declares_markAssigned hmentions)

theorem declares_implicitTypes (c : Collection) (n : Node) :
    DeclaresAll n c.table (c.implicitTypes n).table := by
  have hmodify : ∀ {t : Table} (f : Scope → ImplicitRules),
      DeclaresAll n t (t.modify fun s => { s with implicit := f s }) :=
    fun f => .single (.other (fun _ => rfl) (fun _ => rfl))
  unfold implicitTypes
  split
  · exact hmodify _
  · refine declares_each (fun c spec _ => declares_each (fun c range _ => ?_) c) c
    unfold implicitRange
    simp only
    split
    · split
      · split
        · exact hmodify _
        · exact .refl
      · exact .refl
    · exact .refl

/-- A statement declares step by step. -/
theorem statement?_declares {c d : Collection} {n : Node} (h : c.statement? n = some d) :
    DeclaresAll n c.table d.table := by
  unfold statement? at h
  split at h
  · rename_i hlabel
    obtain rfl := Option.some.inj h
    exact declares_each (fun c k hk => addEntity_declares (Node.hasLabel_of_label? hlabel) hk _ c) c
  · rename_i hlabel
    obtain rfl := Option.some.inj h
    exact declares_each (fun c k hk => addArray_declares (Node.hasLabel_of_label? hlabel) hk c) c
  · rename_i hlabel
    obtain rfl := Option.some.inj h
    exact declares_each (fun c k hk => addCommon_declares (Node.hasLabel_of_label? hlabel) hk c) c
  · obtain rfl := Option.some.inj h
    exact declares_each (fun c k hk => declares_spelled (Node.mentions_findAll (by decide) hk)
      (Symbol.tame_mark (by simp))) c
  · obtain rfl := Option.some.inj h
    refine declares_each (fun c k hk => declares_spelled (Node.mentions_findAll (by decide) hk)
      ⟨fun y => ?_, fun y => ?_, fun y => ?_, fun y => ?_⟩) c
    · split <;> rfl
    · split <;> rfl
    · split <;> rfl
    · split
      · exact .inl rfl
      · exact .inr rfl
  · rename_i hlabel
    obtain rfl := Option.some.inj h
    refine declares_each (fun c k hk => ?_) c
    have hstep : Declares n (c.table.spell k.text) ((c.table.spell k.text).modify
        (·.update ((c.table.spell k.text).spelling k.text) fun y => { y with kind := .intrinsic })) :=
      .intrinsic ⟨Node.hasLabel_of_label? hlabel, k, hk, rfl⟩
    rw [Table.spelling_spell] at hstep
    exact .tail (.single (.spell (Node.mentions_findAll (by decide) hk))) hstep
  · obtain rfl := Option.some.inj h
    exact declares_implicitTypes c n
  · obtain rfl := Option.some.inj h
    exact declares_assignment c n
  · obtain rfl := Option.some.inj h
    exact .refl
  · obtain rfl := Option.some.inj h
    exact .refl
  · obtain rfl := Option.some.inj h
    exact .refl
  · cases h

/-- A statement that gives a name dimensions does so in one of its steps. -/
theorem statement?_array {c d : Collection} {n : Node} {x : String} (hx : n.Dimensions x)
    (h : c.statement? n = some d) :
    ∃ t, DeclaresArray n x c.table t ∧ DeclaresAll n t d.table := by
  rcases hx with ⟨hn, k, hk, hspec, rfl⟩ | ⟨hn, k, hk, rfl⟩ | ⟨hn, k, hk, hspec, rfl⟩
  · rw [statement?, eq_of_beq hn] at h
    obtain rfl := Option.some.inj h
    exact array_each (fun c m hm => addEntity_declares hn hm _ c) hk
      (addEntity_array (Node.mentions_findAll (by decide) hk) hspec _) c
  · rw [statement?, eq_of_beq hn] at h
    obtain rfl := Option.some.inj h
    exact array_each (fun c m hm => addArray_declares hn hm c) hk
      (addArray_array (Node.mentions_findAll (by decide) hk)) c
  · rw [statement?, eq_of_beq hn] at h
    obtain rfl := Option.some.inj h
    exact array_each (fun c m hm => addCommon_declares hn hm c) hk
      (addCommon_array (Node.mentions_findAll (by decide) hk) hspec) c

end Collection

/-- What every step of a statement keeps is kept by the statement. -/
theorem DeclaresAll.keeps {n : Node} {t u : Table} (h : DeclaresAll n t u) {inv : Table → Prop}
    (hstep : ∀ t u, Declares n t u → inv t → inv u) (ht : inv t) : inv u := by
  induction h with
  | refl => exact ht
  | tail _ hlast ih => exact hstep _ _ hlast ih

end FortranJulia
