import FortranJulia.Proofs.LetterCase.Trees
import FortranJulia.Proofs.Likeness.Names
import FortranJulia.Proofs.Parsing.Ends

/-!
Sketches of trees. The sketch of a tree shows it in a guise, without what no lowering looks at: the
numbers of the nodes, and the line ends in the phrases that end statements. What is looked up in a
sketch is what is looked up in the tree, in the guise. The first word of a phrase is found again only
if no end of a statement comes before it, which is so in the trees of programs.
-/

namespace FortranJulia

set_option autoImplicit false

/-! ## Tokens -/

namespace Guise

variable (g : Guise)

def literal : Literal → Literal :=
  g.on Literal.caps

def lexeme (lx : Lexeme) : Lexeme :=
  { kind := lx.kind, text := g.text lx.text, value := lx.value.map g.literal,
    line := g.line lx.line, col := lx.col }

variable (lx : Lexeme)

@[simp] theorem kind_lexeme : (g.lexeme lx).kind = lx.kind := rfl

@[simp] theorem text_lexeme : (g.lexeme lx).text = g.text lx.text := rfl

@[simp] theorem value_lexeme : (g.lexeme lx).value = lx.value.map g.literal := rfl

@[simp] theorem line_lexeme : (g.lexeme lx).line = g.line lx.line := rfl

@[simp] theorem col_lexeme : (g.lexeme lx).col = lx.col := rfl

@[simp] theorem literal_int (n : Int) : g.literal (.int n) = .int n := by
  cases hcaps : g.caps <;> simp [literal, on_plain, on_caps, hcaps, Literal.caps]

@[simp] theorem literal_real (x : Binary64) : g.literal (.real x) = .real x := by
  cases hcaps : g.caps <;> simp [literal, on_plain, on_caps, hcaps, Literal.caps]

@[simp] theorem literal_text (s : String) : g.literal (.text s) = .text (g.text s) := by
  cases hcaps : g.caps <;> simp [literal, text, on_plain, on_caps, hcaps, Literal.caps]

@[simp] theorem literal_truth (b : Bool) : g.literal (.truth b) = .truth b := by
  cases hcaps : g.caps <;> simp [literal, on_plain, on_caps, hcaps, Literal.caps]

theorem lexeme_same : same.lexeme = id := by
  funext lx
  have hvalue : lx.value.map same.literal = lx.value := by
    rw [literal, on_plain _ rfl, Option.map_id, id]
  rw [lexeme, hvalue]
  rfl

theorem lexeme_upper : upper.lexeme = Lexeme.caps := by
  funext lx
  rw [lexeme, literal, on_caps _ rfl]
  rfl

/-- The source that tokens spell. -/
theorem sourceOf_lexemes (lexemes : List Lexeme) :
    sourceOf (lexemes.map g.lexeme) = g.text (sourceOf lexemes) := by
  have hwritten : ∀ f : Lexeme → Lexeme, (∀ lx, (f lx).kind = lx.kind) →
      (∀ lx, (f lx).text = g.text lx.text) →
      sourceOf (lexemes.map g.lexeme) = sourceOf (lexemes.map f) := by
    intro f hkind htext
    simp only [sourceOf, List.map_map]
    congr 1
    exact List.map_congr_left fun lx _ => by simp [hkind, htext]
  cases hcaps : g.caps with
  | false =>
    rw [hwritten id (fun _ => rfl) (by simp [text, on_plain, hcaps]), text, g.on_plain hcaps,
      List.map_id]
    rfl
  | true =>
    rw [hwritten Lexeme.caps (fun _ => rfl) (by simp [text, on_caps, hcaps]), text, g.on_caps hcaps]
    exact sourceOf_caps lexemes

end Guise

namespace Node

/-! ## Sketches -/

/-- Does the phrase that ends a statement show this part of it? -/
def remains (n : Node) : Bool :=
  !n.isLeaf || n.hasKind .comment

mutual

/-- The tree in a guise. -/
def sketch (g : Guise) : Node → Node
  | .leaf _ lx => .leaf 0 (g.lexeme lx)
  | .inner _ l cs =>
    .inner 0 l (if l == .endOfStmt then (sketchAll g cs).filter remains else sketchAll g cs)

def sketchAll (g : Guise) : List Node → List Node
  | [] => []
  | n :: ns => sketch g n :: sketchAll g ns

end

variable (g : Guise)

-- The lemmas below share these equations.
attribute [local simp] sketch sketchAll

theorem sketchAll_eq_map (ns : List Node) : sketchAll g ns = ns.map (sketch g) := by
  induction ns with
  | nil => rfl
  | cons n ns ih => rw [sketchAll, ih, List.map_cons]

@[simp] theorem sketch_leaf (i : Nat) (lx : Lexeme) : sketch g (.leaf i lx) = .leaf 0 (g.lexeme lx) := by
  rw [sketch]

theorem sketch_inner {l : Label} (hl : l ≠ .endOfStmt) (i : Nat) (cs : List Node) :
    sketch g (.inner i l cs) = .inner 0 l (cs.map (sketch g)) := by
  rw [sketch, if_neg (by simpa using hl), sketchAll_eq_map]

theorem sketch_end (i : Nat) (cs : List Node) :
    sketch g (.inner i .endOfStmt cs) = .inner 0 .endOfStmt ((cs.map (sketch g)).filter remains) := by
  rw [sketch, sketchAll_eq_map]
  rfl

/-! ## One node -/

variable (n : Node) (l : Label)

@[simp] theorem isLeaf_sketch : (n.sketch g).isLeaf = n.isLeaf := by
  cases n <;> simp [isLeaf, sketch]

@[simp] theorem label?_sketch : (n.sketch g).label? = n.label? := by
  cases n <;> simp [label?, sketch]

@[simp] theorem labelName_sketch : (n.sketch g).labelName = n.labelName := by
  cases n <;> simp [labelName, sketch]

@[simp] theorem lexeme?_sketch : (n.sketch g).lexeme? = n.lexeme?.map g.lexeme := by
  cases n <;> simp [lexeme?, sketch]

@[simp] theorem hasLabel_sketch : (n.sketch g).hasLabel l = n.hasLabel l := by
  simp [hasLabel]

@[simp] theorem hasKind_sketch (k : Kind) : (n.sketch g).hasKind k = n.hasKind k := by
  simp only [hasKind, lexeme?_sketch, Option.any_map]
  rfl

@[simp] theorem remains_sketch : (n.sketch g).remains = n.remains := by
  simp [remains]

theorem remains_of_label {n : Node} {l : Label} (h : n.hasLabel l) : n.remains := by
  cases n with
  | leaf => cases h
  | inner => rfl

/-! ## Children -/

theorem children_sketch (h : n.hasLabel .endOfStmt = false) :
    (n.sketch g).children = n.children.map (sketch g) := by
  cases n with
  | leaf => simp [children]
  | inner i l cs =>
    rw [sketch_inner g (by simpa [hasLabel, label?] using h)]
    rfl

/-- The children that show; in a phrase that ends no statement all do. -/
theorem children_shown : ∃ kept : Node → Bool, (∀ c : Node, ∀ l, c.hasLabel l → kept c) ∧
    (n.sketch g).children = (n.children.filter kept).map (sketch g) := by
  cases hend : n.hasLabel .endOfStmt with
  | false => exact ⟨fun _ => true, by simp, by simp [children_sketch g n hend]⟩
  | true =>
    refine ⟨remains, fun c l h => remains_of_label h, ?_⟩
    cases n with
    | leaf => cases hend
    | inner i l cs =>
      obtain rfl : l = .endOfStmt := by simpa [hasLabel, label?] using hend
      rw [sketch_end, children, children, List.filter_map]
      congr 1
      exact List.filter_congr (fun c _ => by simp)

@[simp] theorem childrenWith_sketch :
    (n.sketch g).childrenWith l = (n.childrenWith l).map (sketch g) := by
  obtain ⟨kept, hkept, hchildren⟩ := children_shown g n
  simp only [childrenWith, hchildren, List.filter_map, List.filter_filter]
  congr 1
  refine List.filter_congr (fun c _ => ?_)
  cases hl : c.hasLabel l <;> simp [hl, hkept c l]

theorem child?_eq_head? : n.child? l = (n.childrenWith l).head? := by
  rw [child?, childrenWith, List.head?_filter]

@[simp] theorem child?_sketch : (n.sketch g).child? l = (n.child? l).map (sketch g) := by
  rw [child?_eq_head?, child?_eq_head?, childrenWith_sketch, List.head?_map]

theorem hasChild_eq_isSome : n.hasChild l = (n.child? l).isSome := by
  rw [hasChild, child?, List.isSome_find?]

@[simp] theorem hasChild_sketch : (n.sketch g).hasChild l = n.hasChild l := by
  rw [hasChild_eq_isSome, hasChild_eq_isSome, child?_sketch, Option.isSome_map]

theorem hasToken_sketch (h : n.hasLabel .endOfStmt = false) (k : Kind) :
    (n.sketch g).hasToken k = n.hasToken k := by
  simp only [hasToken, children_sketch g n h, List.any_map]
  exact congrArg _ (funext fun c => hasKind_sketch g c k)

/-! ## The subtree -/

section Found

variable {g l}

theorem nodesOf_remains (ns : List Node) :
    (nodesOf (ns.filter remains)).filter (·.hasLabel l) = (nodesOf ns).filter (·.hasLabel l) := by
  induction ns with
  | nil => rfl
  | cons n ns ih =>
    cases hn : n.remains with
    | true =>
      rw [List.filter_cons_of_pos hn, nodesOf, nodesOf, List.filter_append, List.filter_append, ih]
    | false =>
      rw [List.filter_cons_of_neg (by simp [hn]), nodesOf, List.filter_append, ih]
      cases n with
      | leaf => simp [nodes, hasLabel, label?]
      | inner => simp [remains, isLeaf] at hn

theorem findOf?_remains (ns : List Node) : findOf? l (ns.filter remains) = findOf? l ns := by
  induction ns with
  | nil => rfl
  | cons n ns ih =>
    cases hn : n.remains with
    | true => rw [List.filter_cons_of_pos hn, findOf?, findOf?, ih]
    | false =>
      rw [List.filter_cons_of_neg (by simp [hn]), findOf?, ih]
      cases n with
      | leaf => rfl
      | inner => simp [remains, isLeaf] at hn

/-- The children of a sketch may be taken for those of the phrase by what does not look at leaves. -/
theorem sketch_children {β : Type} {f : List Node → β} (h : ∀ ns, f (ns.filter remains) = f ns)
    (i : Nat) (m : Label) (cs : List Node) :
    f (sketch g (.inner i m cs)).children = f (cs.map (sketch g)) := by
  by_cases hm : m = .endOfStmt
  · subst hm
    rw [sketch_end, children, h]
  · rw [sketch_inner g hm, children]

end Found

theorem nodes_eq (i : Nat) (m : Label) (cs : List Node) :
    (Node.inner i m cs).nodes = .inner i m cs :: nodesOf cs := by
  rw [nodes]

theorem sketch_eq (i : Nat) (m : Label) (cs : List Node) :
    sketch g (.inner i m cs) = .inner 0 m (sketch g (.inner i m cs)).children := by
  rw [sketch]
  rfl

mutual

theorem findAll_sketch : ∀ n : Node, (n.sketch g).findAll l = (n.findAll l).map (sketch g)
  | .leaf i lx => by simp [findAll, nodes, hasLabel, label?]
  | .inner i m cs => by
    have hbelow := findAllOf_sketch cs
    rw [← sketch_children (f := fun ns => (nodesOf ns).filter (·.hasLabel l)) nodesOf_remains i m cs]
      at hbelow
    have hself := hasLabel_sketch g (.inner i m cs) l
    rw [findAll, findAll, sketch_eq, nodes_eq, nodes_eq, List.filter_cons, hbelow, ← sketch_eq, hself,
      List.filter_cons]
    split <;> simp

theorem findAllOf_sketch : ∀ ns : List Node, (nodesOf (ns.map (sketch g))).filter (·.hasLabel l) =
    ((nodesOf ns).filter (·.hasLabel l)).map (sketch g)
  | [] => rfl
  | n :: ns => by
    have hn := findAll_sketch n
    rw [findAll, findAll] at hn
    rw [List.map_cons, nodesOf, nodesOf, List.filter_append, hn, findAllOf_sketch ns,
      List.filter_append, List.map_append]

end

mutual

theorem find?_sketch : ∀ n : Node, (n.sketch g).find? l = (n.find? l).map (sketch g)
  | .leaf i lx => by simp [find?]
  | .inner i m cs => by
    have hbelow := findOf?_sketch cs
    rw [← sketch_children (f := findOf? l) findOf?_remains i m cs] at hbelow
    rw [sketch_eq, find?, hbelow, ← sketch_eq, find?]
    split <;> simp

theorem findOf?_sketch : ∀ ns : List Node,
    findOf? l (ns.map (sketch g)) = (findOf? l ns).map (sketch g)
  | [] => rfl
  | n :: ns => by
    rw [List.map_cons, findOf?, findOf?, find?_sketch n, findOf?_sketch ns]
    cases n.find? l <;> rfl

end

attribute [simp] findAll_sketch find?_sketch

end Node

/-! ## Words of a tree -/

/-- The text has no letters, so that it is the same in all guises. -/
def Text.Letterless (s : String) : Prop :=
  s.toList.all fun c => !c.isAlpha

instance (s : String) : Decidable (Text.Letterless s) :=
  inferInstanceAs (Decidable (_ = true))

theorem Guise.text_of_letterless (g : Guise) {s : String} (h : Text.Letterless s) : g.text s = s :=
  g.eq_of_text h (g.text_text s)

namespace Node

/-- The tree is laid out as those of programs: no phrase but the end of a statement starts with one,
some phrases hold none, statement labels are numbers, and the level of program units has given way. -/
structure Orderly (n : Node) : Prop where
  led : ∀ i l cs, .inner i l cs ∈ n.nodes → l ≠ .endOfStmt → Led cs
  tight : ∀ k ∈ n.nodes, ∀ l ∈ tightLabels, k.hasLabel l → k.Tight
  blocks : ∀ i l cs, .inner i l cs ∈ n.nodes → l ∈ blockLabels → ∀ c ∈ cs, c.hasLabel .endOfStmt = false
  numbers : ∀ k ∈ n.nodes, ∀ l ∈ numberLabels, k.hasLabel l → Text.Letterless k.text
  digits : ∀ lx ∈ n.lexemes, lx.kind = .integerConst → Text.Letterless lx.text
  units : ∀ k ∈ n.nodes, k.hasLabel .programUnit = false

variable {n m : Node} {l : Label}

namespace Orderly

theorem node (h : n.Orderly) (hm : m ∈ n.nodes) : m.Orderly where
  led i l cs hk := h.led i l cs (nodes_trans hm hk)
  tight k hk := h.tight k (nodes_trans hm hk)
  blocks i l cs hk := h.blocks i l cs (nodes_trans hm hk)
  numbers k hk := h.numbers k (nodes_trans hm hk)
  digits lx hlx := h.digits lx (lexemes_of_nodes hm hlx)
  units k hk := h.units k (nodes_trans hm hk)

theorem child (h : n.Orderly) (hm : m ∈ n.children) : m.Orderly :=
  h.node (nodes_child hm)

theorem child? (h : n.Orderly) (hm : n.child? l = some m) : m.Orderly :=
  h.child (List.mem_of_find?_eq_some hm)

theorem childrenWith (h : n.Orderly) (hm : m ∈ n.childrenWith l) : m.Orderly :=
  h.child (List.mem_filter.1 hm).1

theorem findAll (h : n.Orderly) (hm : m ∈ n.findAll l) : m.Orderly :=
  h.node (List.mem_filter.1 hm).1

end Orderly

/-- A node has one label at most. -/
theorem not_end_of_label (h : n.hasLabel l) (hl : l ≠ .endOfStmt) : n.hasLabel .endOfStmt = false := by
  cases n with
  | leaf => rfl
  | inner i l' cs =>
    obtain rfl : l' = l := by simpa [hasLabel, label?] using h
    simpa [hasLabel, label?] using hl

theorem firstLexeme?_sketch (g : Guise) (h : n.Orderly) (hn : n.hasLabel .endOfStmt = false) :
    (n.sketch g).firstLexeme? = n.firstLexeme?.map g.lexeme := by
  induction n using Node.induction with
  | leaf i lx => simp [firstLexeme?]
  | inner i l cs ih =>
    have hl : l ≠ .endOfStmt := by simpa [hasLabel, label?] using hn
    have hled := h.led i l cs (nodes_self _) hl
    have hbelow : ∀ c ∈ cs, c.hasLabel .endOfStmt = false →
        (c.sketch g).firstLexeme? = c.firstLexeme?.map g.lexeme :=
      fun c hc => ih c hc (h.child hc)
    rw [sketch_inner g hl, firstLexeme?, firstLexeme?]
    clear ih h hn
    induction cs with
    | nil => rfl
    | cons c cs ih =>
      obtain ⟨hc, hrest⟩ := hled
      rw [List.map_cons, firstLexemeOf?, firstLexemeOf?, hbelow c (by simp) hc]
      cases hfirst : c.firstLexeme? with
      | some lx => rfl
      | none => exact ih (hrest.resolve_left (by simp [hfirst])) fun d hd => hbelow d (by simp [hd])

section Words

variable (g : Guise) (h : n.Orderly) (hn : n.hasLabel .endOfStmt = false)

include h hn

theorem text_sketch : (n.sketch g).text = g.text n.text := by
  rw [text, firstLexeme?_sketch g h hn, text]
  cases n.firstLexeme? with
  | none => exact g.text_empty.symm
  | some lx => rfl

theorem place_sketch : (n.sketch g).place = (g.line n.place.1, n.place.2) := by
  rw [place, firstLexeme?_sketch g h hn, place]
  cases n.firstLexeme? with
  | none => simp [g.line_zero]
  | some lx => rfl

end Words

/-- A phrase without ends of statements shows all of its tokens. -/
theorem lexemes_sketch (g : Guise) (h : n.Tight) : (n.sketch g).lexemes = n.lexemes.map g.lexeme := by
  induction n using Node.induction with
  | leaf i lx => simp [lexemes]
  | inner i l cs ih =>
    have hl : l ≠ .endOfStmt := by simpa [hasLabel, label?] using h.not_end
    have hbelow : ∀ c ∈ cs, (c.sketch g).lexemes = c.lexemes.map g.lexeme :=
      fun c hc => ih c hc (h.child hc)
    rw [sketch_inner g hl, lexemes, lexemes]
    clear ih h
    induction cs with
    | nil => rfl
    | cons c cs ih =>
      rw [List.map_cons, lexemesOf, lexemesOf, hbelow c (by simp),
        ih (fun d hd => hbelow d (by simp [hd])), List.map_append]

theorem source_sketch (g : Guise) (h : n.Tight) : (n.sketch g).source = g.text n.source := by
  rw [source, lexemes_sketch g h, source, g.sourceOf_lexemes]

/-! ## Phrases -/

/-- An orderly tree that is no end of a statement. -/
structure Phrase (n : Node) : Prop where
  orderly : n.Orderly
  inside : n.hasLabel .endOfStmt = false

namespace Phrase

theorem child? (h : n.Phrase) (hm : n.child? l = some m) (hl : l ≠ .endOfStmt) : m.Phrase :=
  ⟨h.orderly.child? hm, not_end_of_label (hasLabel_child? hm) hl⟩

theorem childrenWith (h : n.Phrase) (hm : m ∈ n.childrenWith l) (hl : l ≠ .endOfStmt) : m.Phrase :=
  ⟨h.orderly.childrenWith hm, not_end_of_label (hasLabel_childrenWith hm) hl⟩

theorem findAll (h : n.Phrase) (hm : m ∈ n.findAll l) (hl : l ≠ .endOfStmt) : m.Phrase :=
  ⟨h.orderly.findAll hm, not_end_of_label (hasLabel_findAll hm) hl⟩

theorem tight (h : n.Phrase) (hl : l ∈ tightLabels) (hlabel : n.hasLabel l) : n.Tight :=
  h.orderly.tight n (nodes_self n) l hl hlabel

theorem number (h : n.Phrase) (hl : l ∈ numberLabels) (hlabel : n.hasLabel l) : Text.Letterless n.text :=
  h.orderly.numbers n (nodes_self n) l hl hlabel

end Phrase

/-- An orderly tree in which no statement ends. -/
structure Compact (n : Node) : Prop where
  orderly : n.Orderly
  tight : n.Tight

namespace Compact

theorem phrase (h : n.Compact) : n.Phrase :=
  ⟨h.orderly, h.tight.not_end⟩

theorem child (h : n.Compact) (hm : m ∈ n.children) : m.Compact :=
  ⟨h.orderly.child hm, h.tight.child hm⟩

theorem child? (h : n.Compact) (hm : n.child? l = some m) : m.Compact :=
  h.child (List.mem_of_find?_eq_some hm)

theorem childrenWith (h : n.Compact) (hm : m ∈ n.childrenWith l) : m.Compact :=
  h.child (List.mem_filter.1 hm).1

end Compact

theorem Phrase.compact (h : n.Phrase) (hl : l ∈ tightLabels) (hlabel : n.hasLabel l) : n.Compact :=
  ⟨h.orderly, h.tight hl hlabel⟩

theorem Phrase.compact? (h : n.Phrase) (hm : n.child? l = some m) (hl : l ∈ tightLabels) : m.Compact :=
  ⟨h.orderly.child? hm, (h.orderly.child? hm).tight m (nodes_self m) l hl (hasLabel_child? hm)⟩

end Node

end FortranJulia
