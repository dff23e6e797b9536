import FortranJulia.Proofs.Emission.Balance
import FortranJulia.Proofs.Likeness.Generation

/-!
Comments are carried over. A comment stands between program units or in the end of a statement, and each
statement of a parsed tree is either closed by its end or made of such statements. So the parts of a source
tell all of its comments once, in their order, and as no other line of code starts with their marker, the
comments of the program are those of the source.
-/

namespace FortranJulia

set_option autoImplicit false

open Julia (Code Line)

/-! ## Where comments stand -/

/-- What the comments among some tokens tell. -/
def Lower.told (lxs : List Lexeme) : List String :=
  (lxs.filter (·.kind == .comment)).map (Lower.remark ·.text)

namespace Node

/-- The labels of the parts of an IF block. -/
def armLabels : List Label :=
  [.conditionalBody, .ifThenStmt, .elseIfStmt, .elseStmt, .endIfStmt]

/-- Comments stand where lowering looks for them. -/
structure Noted (n : Node) : Prop where
  quiet : n.Quiet
  ended {i : Nat} {l : Label} {cs : List Node} : .inner i l cs ∈ n.nodes → l ∈ endedLabels →
    ∃ (front : List Node) (e : Node), cs = front ++ [e] ∧ e.hasLabel .endOfStmt ∧
      ∀ c ∈ front, c.Tight
  action {i : Nat} {cs : List Node} : .inner i .ifStmt cs ∈ n.nodes →
    ∃ (front : List Node) (a : Node), cs = front ++ [a] ∧ a.IsStatement ∧ ∀ c ∈ front, c.Tight
  arms {i : Nat} {cs : List Node} : .inner i .ifConstruct cs ∈ n.nodes →
    ∀ c ∈ cs, ∃ l ∈ armLabels, c.label? = some l
  list {i : Nat} {l : Label} {cs : List Node} : .inner i l cs ∈ n.nodes →
    l = .body ∨ l = .conditionalBody → ∀ c ∈ cs, c.IsStatement

namespace Noted

variable {n m : Node}

theorem node (h : n.Noted) (hm : m ∈ n.nodes) : m.Noted where
  quiet i l cs hmem := h.quiet i l cs (nodes_trans hm hmem)
  ended hmem := h.ended (nodes_trans hm hmem)
  action hmem := h.action (nodes_trans hm hmem)
  arms hmem := h.arms (nodes_trans hm hmem)
  list hmem := h.list (nodes_trans hm hmem)

theorem child (h : n.Noted) (hm : m ∈ n.children) : m.Noted :=
  h.node (nodes_child hm)

end Noted

/-- What the comments in a tree tell. -/
def remarks (n : Node) : List String :=
  Lower.told n.lexemes

theorem remarks_inner (i : Nat) (l : Label) (cs : List Node) :
    (Node.inner i l cs).remarks = cs.flatMap remarks := by
  show (Node.inner i l cs).comments.map _ = _
  rw [comments_inner, List.map_flatMap]
  rfl

theorem remarks_leaf {i : Nat} {lx : Lexeme} (h : lx.kind ≠ .comment) : (Node.leaf i lx).remarks = [] := by
  simp [remarks, Lower.told, lexemes, h]

/-- Where no statement ends there are no comments. -/
theorem remarks_tight {i : Nat} {l : Label} {cs : List Node} (h : (Node.inner i l cs).Quiet)
    (hl : l ≠ .endOfStmt) {c : Node} (hc : c ∈ cs) (htight : c.Tight) : c.remarks = [] := by
  induction c using Node.induction generalizing i l cs with
  | leaf j lx => exact remarks_leaf (h i l cs (nodes_self _) hl j lx hc)
  | inner j m ds ih =>
    have hquiet : (Node.inner j m ds).Quiet :=
      fun k m' es hmem => h k m' es (nodes_trans (nodes_child hc) hmem)
    have hm : m ≠ .endOfStmt := by
      rintro rfl
      exact absurd htight.not_end (by simp [hasLabel, label?])
    rw [remarks_inner, List.flatMap_eq_nil_iff]
    exact fun d hd => ih d hd hquiet hm hd (htight.child hd)

theorem remarks_front {i : Nat} {l : Label} {front : List Node} {e : Node}
    (h : (Node.inner i l (front ++ [e])).Quiet) (hl : l ≠ .endOfStmt) (hfront : ∀ c ∈ front, c.Tight) :
    (Node.inner i l (front ++ [e])).remarks = e.remarks := by
  have hnone : front.flatMap remarks = [] := by
    rw [List.flatMap_eq_nil_iff]
    exact fun c hc => remarks_tight h hl (List.mem_append_left _ hc) (hfront c hc)
  rw [remarks_inner, List.flatMap_append, hnone, List.nil_append, List.flatMap_singleton]

end Node

namespace Lower

open Node (remarks)

variable {n : Node}

theorem ne_end_of_ended {l : Label} (hl : l ∈ Node.endedLabels) : l ≠ .endOfStmt := by
  rintro rfl
  exact absurd hl (by decide)

/-- A statement with an end of its own. -/
theorem trailing_ended (h : n.Noted) {l : Label} (hlabel : n.label? = some l) (hl : l ∈ Node.endedLabels) :
    trailingRemarks n = n.remarks := by
  cases n with
  | leaf => cases hlabel
  | inner i m cs =>
    obtain rfl := Option.some.inj hlabel
    obtain ⟨front, e, rfl, he, hfront⟩ := h.ended (nodes_self _) hl
    have hchild : (Node.inner i m (front ++ [e])).child? .endOfStmt = some e := by
      have hnone : front.find? (·.hasLabel .endOfStmt) = none := by
        rw [List.find?_eq_none]
        exact fun c hc => by simp [(hfront c hc).not_end]
      rw [Node.child?, Node.children, List.find?_append, hnone]
      simp [he]
    rw [trailingRemarks, hchild, Node.remarks_front h.quiet (ne_end_of_ended hl) hfront]
    rfl

/-- A node that no statement ends in itself. -/
theorem trailing_none {i : Nat} {l : Label} {cs : List Node}
    (h : ∀ c ∈ cs, c.hasLabel .endOfStmt = false) : trailingRemarks (.inner i l cs) = [] := by
  have hchild : (Node.inner i l cs).child? .endOfStmt = none := by
    rw [Node.child?, Node.children, List.find?_eq_none]
    exact fun c hc => by simp [h c hc]
  rw [trailingRemarks, hchild]
  rfl

theorem not_end_of_statement (h : n.IsStatement) : n.hasLabel .endOfStmt = false := by
  obtain ⟨l, hl, hlabel⟩ := h
  have hne : l ≠ .endOfStmt := by
    rintro rfl
    exact absurd hl (by decide)
  simp [Node.hasLabel, hlabel, hne]

theorem ended_of_statement {l : Label} (hl : l ∈ Label.statements) (hif : l ≠ .ifStmt)
    (hblock : l ≠ .ifConstruct) : l ∈ Node.endedLabels := by
  rw [Node.endedLabels, List.mem_append, List.mem_filter]
  exact .inl ⟨hl, by simp [hif, hblock]⟩

mutual

/-- A statement tells its comments. -/
theorem statement_remarks : ∀ stmt : Node, stmt.Noted → stmt.IsStatement →
    statementRemarks stmt ++ trailingRemarks stmt = stmt.remarks
  | .leaf _ _, _, h => by
    obtain ⟨_, _, hlabel⟩ := h
    cases hlabel
  | .inner i l cs, hnoted, hstmt => by
    obtain ⟨m, hm, hlabel⟩ := hstmt
    obtain rfl := Option.some.inj hlabel
    by_cases hif : l = .ifStmt
    · subst hif
      obtain ⟨front, a, rfl, ha, hfront⟩ := hnoted.action (nodes_self _)
      have hnone : ∀ c ∈ front, c.remarks = [] := fun c hc =>
        Node.remarks_tight hnoted.quiet (by decide) (List.mem_append_left _ hc) (hfront c hc)
      have hinside : ∀ c ∈ front ++ [a], c.hasLabel .endOfStmt = false := by
        intro c hc
        rcases List.mem_append.1 hc with hc | hc
        · exact (hfront c hc).not_end
        · rw [List.mem_singleton.1 hc]
          exact not_end_of_statement ha
      rw [trailing_none hinside, List.append_nil, Node.remarks_inner]
      exact action_remarks (front ++ [a]) (by simpa using hnone)
        (fun c hc => hnoted.child hc) (by simpa using ha)
    by_cases hblock : l = .ifConstruct
    · subst hblock
      have harms := hnoted.arms (nodes_self _)
      have hinside : ∀ c ∈ cs, c.hasLabel .endOfStmt = false := by
        intro c hc
        obtain ⟨l, hl, hlabel⟩ := harms c hc
        have hne : l ≠ .endOfStmt := by
          rintro rfl
          exact absurd hl (by decide)
        simp [Node.hasLabel, hlabel, hne]
      rw [trailing_none hinside, List.append_nil, Node.remarks_inner]
      exact blocks_remarks cs (fun c hc => hnoted.child hc) harms
    · have hnothing : statementRemarks (.inner i l cs) = [] := by
        unfold statementRemarks
        split <;> first | rfl | contradiction
      rw [hnothing, List.nil_append]
      exact trailing_ended hnoted rfl (ended_of_statement hm hif hblock)

theorem blocks_remarks : ∀ ns : List Node, (∀ n ∈ ns, n.Noted) →
    (∀ n ∈ ns, ∃ l ∈ Node.armLabels, n.label? = some l) → blocksRemarks ns = ns.flatMap remarks
  | [], _, _ => rfl
  | .leaf i lx :: rest, _, harms => by
    obtain ⟨_, _, hlabel⟩ := harms _ List.mem_cons_self
    cases hlabel
  | .inner i l cs :: rest, hnoted, harms => by
    have hrest := blocks_remarks rest (fun n hn => hnoted n (List.mem_cons_of_mem _ hn))
      fun n hn => harms n (List.mem_cons_of_mem _ hn)
    have hthis := hnoted _ List.mem_cons_self
    obtain ⟨m, hm, hlabel⟩ := harms _ List.mem_cons_self
    obtain rfl := Option.some.inj hlabel
    rw [blocksRemarks, List.flatMap_cons, hrest]
    congr 1
    by_cases hlist : l = .conditionalBody
    · subst hlist
      rw [if_pos (beq_self_eq_true _), Node.remarks_inner]
      exact statements_remarks cs (fun c hc => hthis.child hc)
        (hthis.list (nodes_self _) (.inr rfl))
    · rw [if_neg (by simpa using hlist)]
      have hended : ∀ l ∈ Node.armLabels, l ≠ .conditionalBody → l ∈ Node.endedLabels := by decide
      exact trailing_ended hthis rfl (hended l hm hlist)

theorem action_remarks : ∀ ns : List Node, (∀ n ∈ ns.dropLast, n.remarks = []) → (∀ n ∈ ns, n.Noted) →
    (∀ n ∈ ns.getLast?, n.IsStatement) → actionRemarks ns = ns.flatMap remarks
  | [], _, _, _ => rfl
  | [stmt], _, hnoted, hlast => by
    rw [actionRemarks, List.flatMap_singleton]
    exact statement_remarks stmt (hnoted stmt List.mem_cons_self) (hlast stmt rfl)
  | n :: m :: rest, hfront, hnoted, hlast => by
    rw [actionRemarks.eq_3 _ _ (by simp), List.flatMap_cons, hfront n (by simp), List.nil_append]
    exact action_remarks (m :: rest) (fun k hk => hfront k (by simp [hk]))
      (fun k hk => hnoted k (List.mem_cons_of_mem _ hk)) fun k hk => hlast k (by simpa using hk)

theorem statements_remarks : ∀ ns : List Node, (∀ n ∈ ns, n.Noted) → (∀ n ∈ ns, n.IsStatement) →
    statementsRemarks ns = ns.flatMap remarks
  | [], _, _ => rfl
  | stmt :: rest, hnoted, hstmts => by
    rw [statementsRemarks, List.flatMap_cons, ← List.append_assoc,
      statement_remarks stmt (hnoted stmt List.mem_cons_self) (hstmts stmt List.mem_cons_self),
      statements_remarks rest (fun n hn => hnoted n (List.mem_cons_of_mem _ hn))
        fun n hn => hstmts n (List.mem_cons_of_mem _ hn)]

end

/-- A unit tells its comments in order. -/
theorem unit_remarks {l : Label} {head body : Option Node} {last : Node} (h : n.Noted) (hlabel : n.label? = some l)
    (hl : l.isUnit) (hparts : UnitParts l n.children head body last) : unitRemarks n = n.remarks := by
  have hends : ∀ l : Label, l.isUnit → l.unitHead ∈ Node.endedLabels ∧ l.unitEnd ∈ Node.endedLabels := by
    intro l hl
    unfold Label.isUnit at hl
    split at hl
    · decide
    · decide
    · decide
    · decide
    · cases hl
  have hended : ∀ {part : Node} {m : Label}, part ∈ n.children → part.label? = some m →
      m = l.unitHead ∨ m = l.unitEnd → partRemarks part = part.remarks := by
    intro part m hmem hpart hm
    have hm' : m ∈ Node.endedLabels := by
      rcases hm with rfl | rfl
      · exact (hends l hl).1
      · exact (hends l hl).2
    rw [← trailing_ended (h.child hmem) hpart hm', partRemarks, hpart]
    rcases hm with rfl | rfl <;> cases l <;> rfl
  have hall : ∀ part ∈ n.children, partRemarks part = part.remarks := by
    intro part hmem
    have hpart := hmem
    rw [hparts.children] at hpart
    simp only [List.mem_append, Option.mem_toList, List.mem_singleton] at hpart
    rcases hpart with hhead | hbody | rfl
    · exact hended hmem (hparts.headLabel part hhead) (.inl rfl)
    · have hlabel := hparts.bodyLabel part hbody
      cases part with
      | leaf => cases hlabel
      | inner i m cs =>
        obtain rfl := Option.some.inj hlabel
        have hthis := h.child hmem
        rw [Node.remarks_inner]
        exact statements_remarks cs (fun c hc => hthis.child hc)
          (hthis.list (nodes_self _) (.inl rfl))
    · exact hended hmem hparts.lastLabel (.inr rfl)
  rw [unitRemarks, List.flatMap_congr hall]
  cases n with
  | leaf => cases hlabel
  | inner => rw [Node.remarks_inner]; rfl

end Lower

/-! ## Comments in a text -/

namespace Text

/-- What a line of text tells, if it is a comment behind its indentation. -/
def comment? (line : List Char) : Option String :=
  if (unindented line).head? = some '#' then some (String.ofList ((unindented line).drop 2)) else none

/-- The comments of a text, line by line. -/
def comments (text : String) : List String :=
  (text.toList.splitOn '\n').filterMap comment?

end Text

namespace Julia

/-- The text of a line behind its indentation. -/
def Line.content : Line → String
  | .code _ c => c.text
  | .gap => ""

theorem Line.text_content (indent : String) (l : Line) :
    ∃ depth, l.text indent = String.join (List.replicate depth indent) ++ l.content ++ "\n" := by
  cases l with
  | code depth c => exact ⟨depth, rfl⟩
  | gap => exact ⟨0, rfl⟩

/-- How a comment is written. -/
def Line.commented (remark : String) : String :=
  if remark = "" then "#" else "# " ++ remark

theorem Line.content_of_remark {l : Line} {t : String} (h : l.remark? = some t) :
    l.content = commented t := by
  match l, h with
  | .code _ (.comment s), h =>
    obtain rfl := Option.some.inj h
    simp [content, commented, Code.text]

/-- A plain line of code stands on one line, and starts with the marker of comments only if it is one. -/
theorem Line.Plain.content {l : Line} (h : l.Plain) : Text.Inline l.content ∧
    ((Text.unindented l.content.toList).head? = some '#' → l.remark?.isSome) := by
  cases l with
  | gap => exact ⟨by decide, fun hhead => absurd hhead (by decide)⟩
  | code _ c =>
    refine ⟨h.inline, fun hhead => ?_⟩
    obtain ⟨s, rfl⟩ := h.marked hhead
    rfl

theorem Line.comment?_chars {l : Line} (h : l.Plain) {indent : String}
    (hindent : ∀ c ∈ indent.toList, Text.isIndentation c) :
    Text.comment? (l.chars indent) = l.remark? := by
  have hskip : Text.unindented (l.chars indent) = Text.unindented l.content.toList := by
    cases l with
    | code depth c => exact List.dropWhile_append_of_pos (indentation_chars hindent depth)
    | gap => rfl
  rw [Text.comment?, hskip]
  cases hremark : l.remark? with
  | some t =>
    rw [content_of_remark hremark, commented]
    split
    · subst_vars
      rfl
    · simp [Text.unindented, Text.isIndentation]
  | none =>
    rw [if_neg fun hhead => ?_]
    simpa [hremark] using h.content.2 hhead

/-- The comments of a text are those of its lines. -/
theorem comments_render {indent : String} {lines : List Line} (h : ∀ l ∈ lines, l.Plain)
    (hindent : ∀ c ∈ indent.toList, Text.isIndentation c) :
    Text.comments (Line.render indent lines) = lines.filterMap Line.remark? := by
  have hlast : Text.comment? [] = none := rfl
  rw [Text.comments, splitOn_render h hindent, List.filterMap_append, List.filterMap_map,
    List.filterMap_cons_none hlast, List.filterMap_nil, List.append_nil]
  exact List.filterMap_congr fun l hl => Line.comment?_chars (h l hl) hindent

end Julia

/-! ## Parsed trees -/

section Parsed

variable {name source : String} {p q : Parser} {root : Node}

/-- What stands in an IF block behind its first line. -/
theorem labels_of_armed : ∀ {ns : List Node}, Node.armed ns →
    ∀ n ∈ ns, ∃ l ∈ Node.armLabels, n.label? = some l := by
  have hlabel : ∀ {n : Node} {l : Label}, n.hasLabel l → l ∈ Node.armLabels →
      ∃ l ∈ Node.armLabels, n.label? = some l :=
    fun hn hl => ⟨_, hl, by simpa [Node.hasLabel] using hn⟩
  intro ns
  induction ns using Node.armed.induct with
  | case1 body last =>
    intro h n hn
    obtain ⟨hbody, hlast⟩ := Bool.and_eq_true_iff.1 h
    simp only [List.mem_cons, List.not_mem_nil, or_false] at hn
    rcases hn with rfl | rfl
    · exact hlabel hbody (by decide)
    · exact hlabel hlast (by decide)
  | case2 body next rest hrest ih =>
    intro h n hn
    rw [Node.armed.eq_2 _ _ _ hrest] at h
    simp only [Bool.and_eq_true, Bool.or_eq_true] at h
    obtain ⟨⟨hbody, hnext⟩, hmore⟩ := h
    rcases List.mem_cons.1 hn with rfl | hn
    · exact hlabel hbody (by decide)
    · rcases List.mem_cons.1 hn with rfl | hn
      · exact hnext.elim (hlabel · (by decide)) (hlabel · (by decide))
      · exact ih hmore n hn
  | case3 ns hpair hmore =>
    intro h
    rw [Node.armed.eq_3 ns hpair hmore] at h
    cases h

theorem parse_noted (hp : Parser.start? name (scan source) = some p) (hq : p.parse = .ok (.ok root, q))
    {n : Node} (hn : n ∈ root.children) : n.Noted := by
  have hmem : ∀ {m : Node}, m ∈ n.nodes → m ∈ root.nodes := nodes_trans (nodes_child hn)
  refine ⟨parse_quiet (Parser.start_sound hp) hq n hn, fun hm hl => (parse_closes hp hq (hmem hm)).ended hl,
    fun hm => parse_action hp hq (hmem hm), fun {i cs} hm c hc => ?_,
    fun hm hl => parse_list hp hq (hmem hm) hl⟩
  have hshape : (cs.head?.any (·.hasLabel .ifThenStmt) && Node.armed cs.tail) = true :=
    parse_indexable hp hq (hmem hm)
  obtain ⟨hfirst, harmed⟩ := Bool.and_eq_true_iff.1 hshape
  cases cs with
  | nil => cases hc
  | cons d ds =>
    rcases List.mem_cons.1 hc with rfl | hc
    · exact ⟨.ifThenStmt, by decide, by simpa [Node.hasLabel] using hfirst⟩
    · exact labels_of_armed harmed c hc

theorem told_append (lxs lxs' : List Lexeme) : Lower.told (lxs ++ lxs') = Lower.told lxs ++ Lower.told lxs' := by
  rw [Lower.told, List.filter_append, List.map_append]
  rfl

theorem told_flatMap (ns : List Node) : Lower.told (ns.flatMap Node.lexemes) = ns.flatMap Node.remarks := by
  induction ns with
  | nil => rfl
  | cons n ns ih => rw [List.flatMap_cons, List.flatMap_cons, told_append, ih]; rfl

theorem sourceRemarks_leaf {n : Node} (h : n.isLeaf) : Lower.sourceRemarks n = n.remarks := by
  cases n with
  | leaf i lx =>
    rw [Lower.sourceRemarks, Node.remarks, Lower.told, Node.lexemes]
    by_cases hkind : lx.kind = .comment <;> simp [hkind]
  | inner => cases h

theorem lexemes_children {n : Node} (h : n.isLeaf = false) : n.lexemes = n.children.flatMap Node.lexemes := by
  cases n with
  | leaf => cases h
  | inner i l cs =>
    rw [Node.lexemes, Node.children]
    induction cs with
    | nil => rfl
    | cons c cs ih => rw [Node.lexemesOf, ih rfl, List.flatMap_cons]

/-- What the parts of a parsed tree tell: the comments before the units, those of the units as they are
arranged, and those behind. -/
theorem parse_remarks (hp : Parser.start? name (scan source) = some p) (hq : p.parse = .ok (.ok root, q)) :
    ∃ before after, scan source = before ++ root.units.flatMap Node.lexemes ++ after ∧
      root.children.flatMap Lower.sourceRemarks = Lower.told before ++
        (Lower.arranged root.units).flatMap Node.remarks ++ Lower.told after := by
  have hleaves : ∀ {ns : List Node}, (∀ n ∈ ns, n.isLeaf) →
      ns.flatMap Lower.sourceRemarks = Lower.told (ns.flatMap Node.lexemes) ∧
        ns.filter (·.hasLabel .executableProgram) = [] := by
    intro ns hns
    rw [told_flatMap, List.filter_eq_nil_iff]
    refine ⟨List.flatMap_congr fun n hn => sourceRemarks_leaf (hns n hn), fun n hn hlabel => ?_⟩
    have hleaf := hns n hn
    cases n with
    | leaf => cases hlabel
    | inner => cases hleaf
  have hscan := parse_lexemes hp hq
  rcases parse_source hp hq with ⟨hroot, hall⟩ | ⟨hroot, front, i, units, back, hchildren, hall, hunits⟩
  · have hunits : root.units = [] := by
      rw [Node.units, Node.childrenWith, (hleaves hall).2]
      rfl
    refine ⟨scan source, [], by simp [hunits], ?_⟩
    rw [(hleaves hall).1, ← lexemes_children (by cases root <;> first | cases hroot | rfl), hscan, hunits]
    simp [Lower.arranged, Lower.told]
  · obtain ⟨hfront, hback⟩ := List.forall_mem_append.1 hall
    have hnode : Node.inner i .executableProgram units ∈ root.children := by
      rw [hchildren]
      simp
    have hrootUnits : root.units = units := by
      rw [Node.units, Node.childrenWith, hchildren, List.filter_append, (hleaves hfront).2,
        List.filter_cons_of_pos rfl, (hleaves hback).2]
      simp [Node.children]
    have hunitRemarks : ∀ unit ∈ units, Lower.unitRemarks unit = unit.remarks := by
      intro unit hunit
      have hlabel := hunits unit hunit
      cases unit with
      | leaf => cases hlabel
      | inner j l cs =>
        obtain ⟨head, body, last, hparts⟩ :=
          parse_unit hp hq (nodes_trans (nodes_child hnode) (nodes_child hunit)) hlabel
        exact Lower.unit_remarks ((parse_noted hp hq hnode).child hunit) rfl hlabel hparts
    refine ⟨front.flatMap Node.lexemes, back.flatMap Node.lexemes, ?_, ?_⟩
    · rw [← hscan, lexemes_children (by cases root <;> first | cases hroot | rfl), hchildren, hrootUnits,
        List.flatMap_append, List.flatMap_cons, lexemes_children rfl, List.append_assoc]
      rfl
    · rw [hchildren, List.flatMap_append, List.flatMap_cons, (hleaves hfront).1, (hleaves hback).1,
        hrootUnits, Lower.sourceRemarks, List.append_assoc]
      congr 2
      refine List.flatMap_congr fun unit hunit => hunitRemarks unit ?_
      rcases List.mem_append.1 hunit with hunit | hunit <;> exact (List.mem_filter.1 hunit).1

/-- The program of a parsed tree holds the comments of its source and no others: those before the first unit
come first, and those of each unit stay in order. A comment is one line, and no other line starts with its
marker behind the indentation. -/
theorem comments_carried {o : Options} (hp : Parser.start? o.source (scan source) = some p)
    (hq : p.parse = .ok (.ok root, q)) :
    ∃ lines g, (Generator.start root o).run (some root) =
        .ok (o.header ++ Line.render o.indentation lines, g) ∧
      (lines.filterMap Line.remark?).Perm (Lower.told (scan source)) ∧
      (∃ before after, scan source = before ++ root.units.flatMap Node.lexemes ++ after ∧
        lines.filterMap Line.remark? = Lower.told before ++
          (Lower.arranged root.units).flatMap (Lower.told ·.lexemes) ++ Lower.told after) ∧
      (∀ l ∈ lines, Text.Inline l.content ∧
        (∃ depth, l.text o.indentation =
          String.join (List.replicate depth o.indentation) ++ l.content ++ "\n") ∧
        ((Text.unindented l.content.toList).head? = some '#' → l.remark?.isSome) ∧
        ∀ t, l.remark? = some t → l.content = Line.commented t) ∧
      ((∀ c ∈ o.indent.toList, c = ' ' ∨ c = '\t') →
        Text.comments (Line.render o.indentation lines) = lines.filterMap Line.remark?) := by
  have hsound : root.Sound True := fun n hn => ⟨parse_indexable hp hq hn, fun _ => trivial⟩
  have hworded := parse_worded hp hq
  obtain ⟨hroot, hparts⟩ := parse_program hp hq
  obtain ⟨s, hrun, hlowered⟩ := Generator.run_lines hsound o
  have hplain : ∀ l ∈ s.lines.reverse, l.Plain := fun l hl =>
    ((Lower.Ensures.forM (fun n hn => Lower.neat_sourcePart hworded hroot hn)) _
      (Lower.start_between hworded hroot hparts o) _ _ hlowered).1.lines l (List.mem_reverse.1 hl)
  obtain ⟨before, after, hscan, htold⟩ := parse_remarks hp hq
  have hremarks : s.lines.reverse.filterMap Line.remark? = _ :=
    (Generator.run_remarks (parse_whole hp hq) o hlowered).trans htold
  refine ⟨_, _, hrun, ?_, ⟨before, after, hscan, hremarks⟩, fun l hl => ?_, fun hindent => ?_⟩
  · rw [hremarks, hscan, told_append, told_append, told_flatMap]
    refine (List.Perm.append_left _ (List.Perm.flatMap_right _ ?_)).append_right _
    exact List.perm_append_comm.trans (List.filter_append_perm (·.hasLabel .mainProgram) root.units)
  · obtain ⟨hinline, hmarked⟩ := (hplain l hl).content
    exact ⟨hinline, l.text_content _, hmarked, fun t ht => Line.content_of_remark ht⟩
  · refine Julia.comments_render hplain (Options.indentation_blank fun c hc => ?_)
    simpa [Text.isIndentation] using hindent c hc

/-- Comments before the unit, in an IF block, behind the action of a logical IF and behind the END. -/
theorem comments_carried_everywhere : ∃ p q root lines g,
    Parser.start? "" (scan "C a\nIF (X) THEN ! b\nX=1 ! c\nENDIF\nIF (X) STOP ! d\nEND ! e") = some p ∧
    p.parse = .ok (.ok root, q) ∧
    (Generator.start root { indent := " " }).run (some root) =
      .ok (({} : Options).header ++ Line.render " " lines, g) ∧
    (Text.comments (Line.render " " lines)).Perm ["a", "b", "c", "d", "e"] := by
  have hstart := start_scan "" "C a\nIF (X) THEN ! b\nX=1 ! c\nENDIF\nIF (X) STOP ! d\nEND ! e"
  have hok : ((Parser.matched? { source := "", tokens :=
      (scan "C a\nIF (X) THEN ! b\nX=1 ! c\nENDIF\nIF (X) STOP ! d\nEND ! e").toArray }).any fun _ =>
        Lower.told (scan "C a\nIF (X) THEN ! b\nX=1 ! c\nENDIF\nIF (X) STOP ! d\nEND ! e") ==
          ["a", "b", "c", "d", "e"]) = true := by
    rw [scan_within]
    decide +kernel
  obtain ⟨root, hmatched, htold⟩ := (Option.any_eq_true _ _).1 hok
  obtain ⟨q, hq⟩ := parse_of_match (Parser.start_sound hstart) hmatched
  obtain ⟨lines, g, hrun, hperm, -, -, htext⟩ := comments_carried (o := { indent := " " }) hstart hq
  refine ⟨_, q, root, lines, g, hstart, hq, hrun, ?_⟩
  rw [show Text.comments (Line.render " " lines) = _ from htext (by simp), ← eq_of_beq htold]
  exact hperm

end Parsed

end FortranJulia
