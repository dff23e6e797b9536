import FortranJulia.Proofs.LetterCase.Scanning
import FortranJulia.Symbol.Collect
import FortranJulia.Tree.Expression

/-!
Syntax trees up to letter case. A tree in upper case has the labels, numbers and places of the tree,
and what is looked up in it is what is looked up in the tree, in upper case.
-/

namespace FortranJulia

set_option autoImplicit false

/-- The source that tokens spell keeps upper case: blanks between them depend on their kinds. -/
theorem sourceOf_caps (lexemes : List Lexeme) :
    sourceOf (lexemes.map Lexeme.caps) = (sourceOf lexemes).toUpper := by
  let upper (acc : String × Option Kind) : String × Option Kind := (acc.1.toUpper, acc.2)
  have hstart : (("", none) : String × Option Kind) = upper ("", none) := by simp [upper]
  unfold sourceOf spelled
  simp only [List.map_map, List.foldl_map]
  change Prod.fst (List.foldl _ _ _) = Prod.fst (upper (List.foldl _ _ _))
  refine congrArg Prod.fst (Eq.trans (congrArg (List.foldl _ · lexemes) hstart)
    (List.foldl_hom upper ?_))
  rintro ⟨text, before⟩ lx
  by_cases hend : lx.kind.endsStatement
  · simp [Lexeme.caps, upper, hend]
  · cases before with
    | none => simp [Lexeme.caps, upper, hend]
    | some k =>
      simp only [Function.comp_apply, Lexeme.caps, upper, hend, Bool.false_eq_true, if_false, bne,
        toUpper_beq_empty, append_toUpper, Prod.mk.injEq, and_true]
      split
      · rw [toUpper_of_chars (s := " ") rfl]
      · rw [toUpper_eq_empty.2 rfl]

namespace Node

mutual

/-- The tree with its texts in upper case. -/
def caps : Node → Node
  | .leaf i lx => .leaf i lx.caps
  | .inner i l cs => .inner i l (capsAll cs)

def capsAll : List Node → List Node
  | [] => []
  | n :: ns => caps n :: capsAll ns

end

theorem capsAll_eq_map (ns : List Node) : capsAll ns = ns.map caps := by
  induction ns with
  | nil => rfl
  | cons n ns ih => rw [capsAll, ih, List.map_cons]

/-! ## One node -/

@[simp] theorem caps_leaf (i : Nat) (lx : Lexeme) : caps (.leaf i lx) = .leaf i lx.caps := by
  rw [caps]

@[simp] theorem caps_inner (i : Nat) (l : Label) (cs : List Node) :
    caps (.inner i l cs) = .inner i l (cs.map caps) := by
  rw [caps, capsAll_eq_map]

@[simp] theorem kind_caps (lx : Lexeme) : lx.caps.kind = lx.kind := rfl

@[simp] theorem text_caps_lexeme (lx : Lexeme) : lx.caps.text = lx.text.toUpper := rfl

variable (n : Node) (l : Label)

@[simp] theorem children_caps : n.caps.children = n.children.map caps := by
  cases n <;> simp [children]

@[simp] theorem isLeaf_caps : n.caps.isLeaf = n.isLeaf := by
  cases n <;> simp [isLeaf]

@[simp] theorem labelName_caps : n.caps.labelName = n.labelName := by
  cases n <;> simp [labelName]

@[simp] theorem lexeme?_caps : n.caps.lexeme? = n.lexeme?.map Lexeme.caps := by
  cases n <;> simp [lexeme?]

@[simp] theorem label?_caps : n.caps.label? = n.label? := by
  cases n <;> simp [label?]

@[simp] theorem hasLabel_caps : n.caps.hasLabel l = n.hasLabel l := by
  simp [hasLabel]

@[simp] theorem hasKind_caps (k : Kind) : n.caps.hasKind k = n.hasKind k := by
  cases n <;> simp [hasKind, lexeme?]

@[simp] theorem hasLabel_comp_caps : (hasLabel l) ∘ caps = hasLabel l :=
  funext fun n => hasLabel_caps n l

/-! ## Children -/

@[simp] theorem child?_caps : n.caps.child? l = (n.child? l).map caps := by
  simp [child?, List.find?_map]

@[simp] theorem childrenWith_caps : n.caps.childrenWith l = (n.childrenWith l).map caps := by
  simp [childrenWith, List.filter_map]

@[simp] theorem hasChild_caps : n.caps.hasChild l = n.hasChild l := by
  simp [hasChild, List.any_map]

@[simp] theorem hasToken_caps (k : Kind) : n.caps.hasToken k = n.hasToken k := by
  simp only [hasToken, children_caps, List.any_map]
  exact congrArg _ (funext fun n => hasKind_caps n k)

/-! ## The subtree -/

mutual

theorem nodes_caps : ∀ n : Node, n.caps.nodes = n.nodes.map caps
  | .leaf i lx => by simp [nodes]
  | .inner i l cs => by
    rw [caps_inner, nodes, nodesOf_caps cs, nodes, List.map_cons, caps_inner]

theorem nodesOf_caps : ∀ ns : List Node, nodesOf (ns.map caps) = (nodesOf ns).map caps
  | [] => by simp [nodesOf]
  | n :: ns => by
    rw [List.map_cons, nodesOf, nodesOf, nodes_caps n, nodesOf_caps ns, List.map_append]

end

mutual

theorem lexemes_caps : ∀ n : Node, n.caps.lexemes = n.lexemes.map Lexeme.caps
  | .leaf i lx => by simp [lexemes]
  | .inner i l cs => by rw [caps_inner, lexemes, lexemesOf_caps cs, lexemes]

theorem lexemesOf_caps : ∀ ns : List Node, lexemesOf (ns.map caps) = (lexemesOf ns).map Lexeme.caps
  | [] => by simp [lexemesOf]
  | n :: ns => by
    rw [List.map_cons, lexemesOf, lexemesOf, lexemes_caps n, lexemesOf_caps ns, List.map_append]

end

mutual

theorem firstLexeme?_caps : ∀ n : Node, n.caps.firstLexeme? = n.firstLexeme?.map Lexeme.caps
  | .leaf i lx => by simp [firstLexeme?]
  | .inner i l cs => by rw [caps_inner, firstLexeme?, firstLexemeOf?_caps cs, firstLexeme?]

theorem firstLexemeOf?_caps :
    ∀ ns : List Node, firstLexemeOf? (ns.map caps) = (firstLexemeOf? ns).map Lexeme.caps
  | [] => by simp [firstLexemeOf?]
  | n :: ns => by
    rw [List.map_cons, firstLexemeOf?, firstLexemeOf?, firstLexeme?_caps n, firstLexemeOf?_caps ns]
    cases n.firstLexeme? <;> rfl

end

mutual

theorem find?_caps (l : Label) : ∀ n : Node, n.caps.find? l = (n.find? l).map caps
  | .leaf i lx => by simp [find?]
  | .inner i m cs => by
    rw [caps_inner, find?, findOf?_caps l cs, find?]
    split <;> simp

theorem findOf?_caps (l : Label) :
    ∀ ns : List Node, findOf? l (ns.map caps) = (findOf? l ns).map caps
  | [] => by simp [findOf?]
  | n :: ns => by
    rw [List.map_cons, findOf?, findOf?, find?_caps l n, findOf?_caps l ns]
    cases n.find? l <;> rfl

end

attribute [simp] lexemes_caps firstLexeme?_caps find?_caps

@[simp] theorem text_caps : n.caps.text = n.text.toUpper := by
  rw [text, firstLexeme?_caps, text]
  cases n.firstLexeme? with
  | none => exact (toUpper_eq_empty.2 rfl).symm
  | some lx => rfl

@[simp] theorem place_caps : n.caps.place = n.place := by
  rw [place, firstLexeme?_caps, place]
  cases n.firstLexeme? <;> rfl

@[simp] theorem findAll_caps : n.caps.findAll l = (n.findAll l).map caps := by
  simp [findAll, nodes_caps, List.filter_map]

@[simp] theorem source_caps : n.caps.source = n.source.toUpper := by
  rw [source, lexemes_caps, source, sourceOf_caps]

@[simp] theorem typeName?_caps (spec : Option Node) :
    typeName? (spec.map caps) = typeName? spec := by
  cases spec with
  | none => rfl
  | some n =>
    simp only [typeName?, Option.map_some, Option.bind_some, firstLexeme?_caps]
    cases n.firstLexeme? <;> rfl

@[simp] theorem bounds_caps : n.caps.bounds = n.bounds.map String.toUpper := by
  simp only [bounds, childrenWith_caps, List.map_map]
  refine List.map_congr_left fun d _ => ?_
  cases hd : d.child? .upperBound <;> simp [hd]

end Node

/-! ## Expressions -/

def Component.caps (c : Component) : Component :=
  ⟨c.sign.map Lexeme.caps, c.number.caps⟩

mutual

def Expression.caps : Expression → Expression
  | .constant lx => .constant lx.caps
  | .complex re im => .complex re.caps im.caps
  | .reference lx suffixes => .reference lx.caps (Subscript.capsLists suffixes)
  | .emptyCall lx => .emptyCall lx.caps
  | .group e => .group e.caps
  | .signed s e => .signed s.caps e.caps
  | .negated n e => .negated n e.caps
  | .binary op l r => .binary op l.caps r.caps

def Subscript.caps : Subscript → Subscript
  | .value e => .value e.caps
  | .span none none => .span none none
  | .span none (some b) => .span none (some b.caps)
  | .span (some a) none => .span (some a.caps) none
  | .span (some a) (some b) => .span (some a.caps) (some b.caps)
  | .alternate lx => .alternate lx.caps

def Subscript.capsAll : List Subscript → List Subscript
  | [] => []
  | s :: ss => s.caps :: Subscript.capsAll ss

def Subscript.capsLists : List (List Subscript) → List (List Subscript)
  | [] => []
  | ss :: rest => Subscript.capsAll ss :: Subscript.capsLists rest

end

namespace Part

def caps : Part → Part
  | .token lx => .token lx.caps
  | .expr e => .expr e.caps
  | .operation op e => .operation op e.caps
  | .sign lx => .sign lx.caps
  | .name lx => .name lx.caps
  | .component c => .component c.caps
  | .subscript s => .subscript s.caps
  | .suffix items => .suffix (Subscript.capsAll items)
  | .other => .other

theorem applyAll_caps (ps : List Part) (e : Expression) :
    applyAll e.caps (ps.map caps) = (applyAll e ps).caps := by
  induction ps generalizing e with
  | nil => rfl
  | cons p ps ih =>
    cases p with
    | operation op r =>
      have hbinary := ih (.binary op e r)
      rw [Expression.caps] at hbinary
      exact hbinary
    | _ => rfl

theorem chain_caps (ps : List Part) : chain (ps.map caps) = (chain ps).caps := by
  cases ps with
  | nil => rfl
  | cons p ps =>
    cases p with
    | expr e => exact applyAll_caps ps e
    | sign s =>
      cases ps with
      | nil => rfl
      | cons q ps =>
        cases q with
        | expr e =>
          have hsigned := applyAll_caps ps (.signed s e)
          rw [Expression.caps] at hsigned
          exact hsigned
        | _ => rfl
    | _ => rfl

theorem negations_caps (ps : List Part) (count : Nat) :
    negations count (ps.map caps) = (negations count ps).caps := by
  induction ps generalizing count with
  | nil => rfl
  | cons p ps ih =>
    cases p with
    | token lx => exact ih (count + 1)
    | expr e =>
      cases ps with
      | nil =>
        simp only [List.map_cons, List.map_nil, caps, negations]
        split
        · rfl
        · rw [Expression.caps]
      | cons => rfl
    | _ => rfl

theorem operationOf_caps (op? : Option BinaryOp) (e : Expression) :
    operationOf op? e.caps = (operationOf op? e).caps := by
  cases op? <;> rfl

@[simp] theorem suffix?_caps (p : Part) : p.caps.suffix? = p.suffix?.map Subscript.capsAll := by
  cases p <;> rfl

@[simp] theorem subscript?_caps (p : Part) : p.caps.subscript? = p.subscript?.map Subscript.caps := by
  cases p <;> rfl

theorem suffixes_caps (ps : List Part) :
    (ps.map caps).filterMap suffix? = Subscript.capsLists (ps.filterMap suffix?) := by
  induction ps with
  | nil => rfl
  | cons p ps ih =>
    rw [List.map_cons, List.filterMap_cons, List.filterMap_cons, suffix?_caps, ih]
    cases p.suffix? <;> rfl

theorem subscripts_caps (ps : List Part) :
    (ps.map caps).filterMap subscript? = Subscript.capsAll (ps.filterMap subscript?) := by
  induction ps with
  | nil => rfl
  | cons p ps ih =>
    rw [List.map_cons, List.filterMap_cons, List.filterMap_cons, subscript?_caps, ih]
    cases p.subscript? <;> rfl

theorem ite_other_caps (b : Bool) (p : Part) :
    (if b then p.caps else .other) = (if b then p else other).caps := by
  cases b <;> rfl

theorem subscriptOf_caps (ps : List Part) : subscriptOf (ps.map caps) = (subscriptOf ps).caps := by
  rcases ps with _ | ⟨p, _ | ⟨q, _ | ⟨r, _ | ⟨t, ps⟩⟩⟩⟩ <;> try rfl
  · cases p <;> try rfl
    exact ite_other_caps _ (.subscript (.span none none))
  · cases p <;> try rfl
    all_goals cases q <;> try rfl
    · exact ite_other_caps _ (.subscript (.span none (some _)))
    · exact ite_other_caps _ (.subscript (.alternate _))
  all_goals
    cases p <;> try rfl
    all_goals cases q <;> try rfl
    all_goals cases r <;> rfl

theorem ofInner_caps (l : Label) (ps : List Part) :
    ofInner l (ps.map caps) = (ofInner l ps).caps := by
  cases l
  case expr | orOperand | level4Expr | level3Expr | level2Expr | addOperand | multOperand =>
    exact chain_caps ps
  case andOperand => exact negations_caps ps 0
  case sectionSubscript => exact subscriptOf_caps ps
  case sectionSubscriptList => exact congrArg suffix (subscripts_caps ps)
  case nameDataRef =>
    cases ps with
    | nil => rfl
    | cons p ps =>
      cases p with
      | name lx =>
        show expr (.reference lx.caps ((ps.map caps).filterMap suffix?)) = _
        rw [suffixes_caps]
        rfl
      | _ => rfl
  case functionReference =>
    cases ps with
    | nil => rfl
    | cons p ps => cases p <;> rfl
  case orOp | andOp | relOp | addOp | multOp =>
    rcases ps with _ | ⟨p, _ | ⟨q, _ | ⟨r, ps⟩⟩⟩ <;> try rfl
    all_goals cases p <;> try rfl
    all_goals cases q <;> try rfl
    all_goals exact (operationOf_caps _ _)
  case concatOp | powerOp | complexDataRefTail | primary =>
    rcases ps with _ | ⟨p, _ | ⟨q, _ | ⟨r, _ | ⟨t, ps⟩⟩⟩⟩ <;> try rfl
    all_goals cases p <;> try rfl
    all_goals cases q <;> try rfl
    all_goals cases r <;> try rfl
  case sign | refName | logicalConstant | unsignedArithmeticConstant | complexComponent =>
    rcases ps with _ | ⟨p, _ | ⟨q, _ | ⟨r, ps⟩⟩⟩ <;> try rfl
    all_goals cases p <;> try rfl
    all_goals cases q <;> rfl
  case complexConst =>
    rcases ps with _ | ⟨p, _ | ⟨q, _ | ⟨r, _ | ⟨t, _ | ⟨u, _ | ⟨v, ps⟩⟩⟩⟩⟩⟩ <;> try rfl
    all_goals cases p <;> try rfl
    all_goals cases q <;> try rfl
    all_goals cases r <;> try rfl
    all_goals cases t <;> try rfl
    all_goals cases u <;> rfl
  all_goals rfl

mutual

theorem ofNode_caps : ∀ n : Node, ofNode n.caps = (ofNode n).caps
  | .leaf _ lx => by rw [Node.caps_leaf]; rfl
  | .inner _ l cs => by
    rw [Node.caps_inner, ofNode, ofNode, ofNodes_caps cs, ofInner_caps]

theorem ofNodes_caps : ∀ ns : List Node, ofNodes (ns.map Node.caps) = (ofNodes ns).map caps
  | [] => rfl
  | n :: ns => by
    rw [List.map_cons, ofNodes, ofNodes, ofNode_caps n, ofNodes_caps ns, List.map_cons]

end

end Part

namespace Node

@[simp] theorem expression?_caps (n : Node) :
    n.caps.expression? = n.expression?.map Expression.caps := by
  rw [expression?, Part.ofNode_caps, expression?]
  cases Part.ofNode n <;> rfl

@[simp] theorem subscripts_caps (n : Node) :
    n.caps.subscripts = Subscript.capsAll n.subscripts := by
  rw [subscripts, Part.ofNode_caps, Part.suffix?_caps, subscripts]
  cases (Part.ofNode n).suffix? <;> rfl

end Node

end FortranJulia
