import FortranJulia.Proofs.Emission.Texts

/-!
Programs whose names are words. The names of a parsed tree are words and its other tokens stand on
one line, so the code made of them does. `Material.plain` is the material of such code, and
`Code.Plain` says of a line of code that its text has no line end, that it starts with the word for
a head exactly if it opens a block, and that it is the word `end` exactly if it closes one.
-/

namespace FortranJulia

set_option autoImplicit false

open Julia (Expr Code Line Binding)

/-! ## Expressions of parsed trees -/

/-- A part of a complex constant is made of lexemes for constants. -/
def Component.Has (const : Lexeme → Prop) (c : Component) : Prop :=
  (∀ s, c.sign = some s → const s) ∧ const c.number

mutual

/-- The lexemes of an expression that stand for names and those that stand for constants and signs are
as the conditions say. -/
def Expression.Has (name const : Lexeme → Prop) : Expression → Prop
  | .constant lx => const lx
  | .complex re im => re.Has const ∧ im.Has const
  | .reference lx suffixes => name lx ∧ Subscript.HasAll name const suffixes
  | .emptyCall lx => name lx
  | .group e | .negated _ e => e.Has name const
  | .signed s e => const s ∧ e.Has name const
  | .binary _ l r => l.Has name const ∧ r.Has name const

def Subscript.Has (name const : Lexeme → Prop) : Subscript → Prop
  | .value e => e.Has name const
  | .span none none | .alternate _ => True
  | .span none (some e) | .span (some e) none => e.Has name const
  | .span (some a) (some b) => a.Has name const ∧ b.Has name const

def Subscript.HasEach (name const : Lexeme → Prop) : List Subscript → Prop
  | [] => True
  | s :: ss => s.Has name const ∧ Subscript.HasEach name const ss

def Subscript.HasAll (name const : Lexeme → Prop) : List (List Subscript) → Prop
  | [] => True
  | items :: rest => Subscript.HasEach name const items ∧ Subscript.HasAll name const rest

end

/-- What a phrase contributes to an expression is made of such lexemes. -/
def Part.Has (name const : Lexeme → Prop) : Part → Prop
  | .token lx | .sign lx => const lx
  | .expr e | .operation _ e => e.Has name const
  | .name lx => name lx
  | .component c => c.Has const
  | .subscript s => s.Has name const
  | .suffix items => Subscript.HasEach name const items
  | .other => True

section Has

variable {name const : Lexeme → Prop}

theorem Subscript.hasEach_iff {items : List Subscript} :
    HasEach name const items ↔ ∀ s ∈ items, s.Has name const := by
  induction items with
  | nil => simp [HasEach]
  | cons s ss ih => simp [HasEach, ih]

theorem Subscript.hasAll_iff {suffixes : List (List Subscript)} :
    HasAll name const suffixes ↔ ∀ items ∈ suffixes, HasEach name const items := by
  induction suffixes with
  | nil => simp [HasAll]
  | cons items rest ih => simp [HasAll, ih]

theorem Subscript.Has.expressions {s : Subscript} (h : s.Has name const) :
    ∀ e ∈ s.expressions, e.Has name const := by
  match s, h with
  | .value e, h => simpa [Subscript.expressions, Subscript.Has] using h
  | .span none none, _ | .alternate _, _ => simp [Subscript.expressions]
  | .span none (some e), h | .span (some e) none, h =>
    simpa [Subscript.expressions, Subscript.Has] using h
  | .span (some a) (some b), h => simpa [Subscript.expressions, Subscript.Has] using h

mutual

theorem Expression.Has.names : ∀ {e : Expression}, e.Has name const →
    ∀ x ∈ e.names, ∃ lx, name lx ∧ lx.text = x
  | .constant _, _, x, hx | .complex _ _, _, x, hx => by simp [Expression.names] at hx
  | .reference lx suffixes, h, x, hx => by
    rcases List.mem_cons.1 hx with rfl | hx
    · exact ⟨lx, h.1, rfl⟩
    · exact Subscript.HasAll.names h.2 x hx
  | .emptyCall lx, h, x, hx => ⟨lx, h, (List.mem_singleton.1 hx).symm⟩
  | .group e, h, x, hx | .negated _ e, h, x, hx => Expression.Has.names (e := e) h x hx
  | .signed _ e, h, x, hx => Expression.Has.names (e := e) h.2 x hx
  | .binary _ l r, h, x, hx =>
    (List.mem_append.1 hx).elim (Expression.Has.names h.1 x) (Expression.Has.names h.2 x)

theorem Subscript.Has.names : ∀ {s : Subscript}, s.Has name const →
    ∀ x ∈ s.names, ∃ lx, name lx ∧ lx.text = x
  | .value e, h, x, hx => Expression.Has.names (e := e) h x hx
  | .span none none, _, x, hx | .alternate _, _, x, hx => by simp [Subscript.names] at hx
  | .span none (some e), h, x, hx => Expression.Has.names (e := e) h x hx
  | .span (some e) none, h, x, hx => Expression.Has.names (e := e) h x hx
  | .span (some a) (some b), h, x, hx =>
    (List.mem_append.1 hx).elim (Expression.Has.names h.1 x) (Expression.Has.names h.2 x)

theorem Subscript.HasEach.names : ∀ {items : List Subscript}, Subscript.HasEach name const items →
    ∀ x ∈ Subscript.namesOf items, ∃ lx, name lx ∧ lx.text = x
  | [], _, x, hx => by simp [Subscript.namesOf] at hx
  | _ :: _, h, x, hx =>
    (List.mem_append.1 hx).elim (Subscript.Has.names h.1 x) (Subscript.HasEach.names h.2 x)

theorem Subscript.HasAll.names : ∀ {suffixes : List (List Subscript)},
    Subscript.HasAll name const suffixes → ∀ x ∈ Subscript.namesOfAll suffixes, ∃ lx, name lx ∧ lx.text = x
  | [], _, x, hx => by simp [Subscript.namesOfAll] at hx
  | _ :: _, h, x, hx =>
    (List.mem_append.1 hx).elim (Subscript.HasEach.names h.1 x) (Subscript.HasAll.names h.2 x)

end

/-! ## Phrases of expressions -/

theorem Part.has_applyAll (ps : List Part) (hps : ∀ p ∈ ps, p.Has name const) :
    ∀ e : Expression, e.Has name const → (applyAll e ps).Has name const := by
  induction ps with
  | nil => exact fun e he => he
  | cons p ps ih =>
    intro e he
    have hp := hps p (by simp)
    cases p with
    | operation op r => exact ih (fun p hp => hps p (by simp [hp])) _ ⟨he, hp⟩
    | _ => trivial

theorem Part.has_chain {ps : List Part} (hps : ∀ p ∈ ps, p.Has name const) :
    (chain ps).Has name const := by
  unfold chain
  split
  · rename_i s e rest
    have hs : const s := hps (.sign s) (by simp)
    have he : e.Has name const := hps (.expr e) (by simp)
    exact has_applyAll rest (fun p hp => hps p (by simp [hp])) (.signed s e) ⟨hs, he⟩
  · rename_i e rest
    exact has_applyAll rest (fun p hp => hps p (by simp [hp])) e (hps (.expr e) (by simp))
  · trivial

theorem Part.has_negations (ps : List Part) (hps : ∀ p ∈ ps, p.Has name const) :
    ∀ count, (negations count ps).Has name const := by
  induction ps with
  | nil => exact fun _ => trivial
  | cons p ps ih =>
    intro count
    have hrest := ih (fun p hp => hps p (by simp [hp]))
    unfold negations
    split
    · rename_i e heq
      have he : e.Has name const := hps (.expr e) (by simp [heq])
      split <;> exact he
    · rename_i heq
      obtain ⟨-, rfl⟩ := List.cons.inj heq
      exact hrest (count + 1)
    · trivial

theorem Part.has_subscriptOf {ps : List Part} (hps : ∀ p ∈ ps, p.Has name const) :
    (subscriptOf ps).Has name const := by
  unfold subscriptOf
  split
  · exact hps (.expr _) (by simp)
  · exact hps (.expr _) (by simp)
  · exact ⟨hps (.expr _) (by simp), hps (.expr _) (by simp)⟩
  · split <;> trivial
  · split
    · exact hps (.expr _) (by simp)
    · trivial
  · split <;> trivial
  · trivial

theorem Part.has_operationOf (op? : Option BinaryOp) {e : Expression} (he : e.Has name const) :
    (operationOf op? e).Has name const := by
  cases op? with
  | none => trivial
  | some op => exact he

/-- A phrase that is not for a name is made of what its parts are made of. -/
theorem Part.has_ofInner {l : Label} {ps : List Part}
    (hname : l = .refName → ∀ lx, ps = [.token lx] → name lx)
    (hps : ∀ p ∈ ps, p.Has name const) : (ofInner l ps).Has name const := by
  unfold ofInner
  split
  case h_1 | h_2 | h_3 | h_4 | h_5 | h_6 | h_7 => exact has_chain hps
  case h_8 => exact has_negations ps hps 0
  case h_9 | h_10 | h_12 | h_15 => exact hps (.expr _) (by simp)
  case h_11 | h_13 | h_14 => exact has_operationOf _ (hps (.expr _) (by simp))
  case h_16 => exact ⟨hps (.sign _) (by simp), hps (.expr _) (by simp)⟩
  case h_17 => exact hps (.token _) (by simp)
  case h_18 e _ =>
    have he : e.Has name const := hps (.expr e) (by simp)
    exact he
  case h_19 | h_20 => exact hps (.expr _) (by simp)
  case h_21 | h_22 | h_23 => exact hps (.token _) (by simp)
  case h_24 => exact ⟨hps (.component _) (by simp), hps (.component _) (by simp)⟩
  case h_25 s n =>
    have hs : const s := hps (.sign s) (by simp)
    exact ⟨fun s' hs' => Option.some.inj hs' ▸ hs, hps (.token n) (by simp)⟩
  case h_26 => exact ⟨by simp, hps (.token _) (by simp)⟩
  case h_27 => exact hname rfl _ rfl
  case h_28 => exact hps (.name _) (by simp)
  case h_29 lx tails =>
    have hlx : name lx := hps (.name lx) (by simp)
    refine ⟨hlx, Subscript.hasAll_iff.2 (fun items hitems => ?_)⟩
    obtain ⟨p, hp, hsuffix⟩ := List.mem_filterMap.1 hitems
    have hthis := hps p (by simp [hp])
    unfold suffix? at hsuffix
    split at hsuffix
    · obtain rfl := Option.some.inj hsuffix
      exact hthis
    · cases hsuffix
  case h_30 => exact hps (.suffix _) (by simp)
  case h_31 =>
    refine Subscript.hasEach_iff.2 (fun s hs => ?_)
    obtain ⟨p, hp, hsubscript⟩ := List.mem_filterMap.1 hs
    have hthis := hps p hp
    unfold subscript? at hsubscript
    split at hsubscript
    · obtain rfl := Option.some.inj hsubscript
      exact hthis
    · cases hsubscript
  case h_32 => exact has_subscriptOf hps
  case h_33 => trivial

/-- No phrase that may hold line ends is part of an expression. -/
theorem Part.ofInner_lined {l : Label} (hl : l ∈ Label.lined) (ps : List Part) :
    ofInner l ps = .other := by
  simp only [Label.lined, List.mem_cons, List.not_mem_nil, or_false] at hl
  rcases hl with rfl | rfl | rfl | rfl <;> rfl

/-- No phrase is a token. -/
theorem Part.ofInner_ne_token {l : Label} {ps : List Part} {lx : Lexeme} :
    ofInner l ps ≠ .token lx := by
  have happly : ∀ (ps : List Part) (e : Expression), applyAll e ps ≠ .token lx := by
    intro ps
    induction ps with
    | nil => exact fun e => nofun
    | cons p ps ih =>
      intro e
      cases p with
      | operation op r => exact ih _
      | _ => exact nofun
  have hnegations : ∀ (ps : List Part) (count : Nat), negations count ps ≠ .token lx := by
    intro ps
    induction ps with
    | nil => exact fun _ => nofun
    | cons p ps ih =>
      intro count
      unfold negations
      split
      · exact nofun
      · rename_i heq
        obtain ⟨-, rfl⟩ := List.cons.inj heq
        exact ih (count + 1)
      · exact nofun
  have hchain : chain ps ≠ .token lx := by
    unfold chain
    split
    · exact happly _ _
    · exact happly _ _
    · exact nofun
  have hoperation : ∀ (op? : Option BinaryOp) (e : Expression), operationOf op? e ≠ .token lx := by
    intro op? e
    cases op? <;> exact nofun
  unfold ofInner
  split
  case h_1 | h_2 | h_3 | h_4 | h_5 | h_6 | h_7 => exact hchain
  case h_8 => exact hnegations ps 0
  case h_11 | h_13 | h_14 => exact hoperation _ _
  case h_32 =>
    unfold subscriptOf
    split
    case h_4 | h_5 | h_6 => split <;> exact nofun
    all_goals exact nofun
  all_goals exact nofun

theorem Part.mem_ofNodes {p : Part} {ns : List Node} (h : p ∈ ofNodes ns) :
    ∃ n ∈ ns, p = ofNode n := by
  induction ns with
  | nil => cases h
  | cons n ns ih =>
    rcases List.mem_cons.1 h with rfl | h
    · exact ⟨n, by simp, rfl⟩
    · obtain ⟨m, hm, rfl⟩ := ih h
      exact ⟨m, by simp [hm], rfl⟩

/-- The expression of a phrase is made of its leaves. -/
theorem Part.has_ofNode {n : Node}
    (hconst : ∀ i l cs, .inner i l cs ∈ n.nodes → l ∉ Label.lined → ∀ j lx, .leaf j lx ∈ cs → const lx)
    (hname : ∀ i j lx, .inner i .refName [.leaf j lx] ∈ n.nodes → name lx) (hn : n.isLeaf = false) :
    (ofNode n).Has name const := by
  induction n using Node.induction with
  | leaf => cases hn
  | inner i l cs ih =>
    by_cases hl : l ∈ Label.lined
    · rw [ofNode, ofInner_lined hl]
      trivial
    · have hparts : ∀ p ∈ ofNodes cs, p.Has name const := by
        intro p hp
        obtain ⟨c, hc, rfl⟩ := mem_ofNodes hp
        have hin : ∀ {m : Node}, m ∈ c.nodes → m ∈ (Node.inner i l cs).nodes :=
          fun hm => nodes_trans (nodes_child hc) hm
        cases c with
        | leaf j lx => exact hconst i l cs (nodes_self _) hl j lx hc
        | inner j m ds =>
          exact ih _ hc (fun i' l' cs' hm => hconst i' l' cs' (hin hm))
            (fun i' j' lx hm => hname i' j' lx (hin hm)) rfl
      rw [ofNode]
      refine has_ofInner ?_ hparts
      rintro rfl lx htoken
      cases cs with
      | nil => cases htoken
      | cons c cs =>
        obtain ⟨hfirst, hrest⟩ := List.cons.inj htoken
        cases cs with
        | cons => cases hrest
        | nil =>
          cases c with
          | leaf j lx' =>
            obtain rfl := Part.token.inj hfirst
            exact hname i j lx' (nodes_self _)
          | inner j m ds =>
            exact absurd hfirst ofInner_ne_token

end Has

/-- The names of the expression are words, and its constants stand on one line. -/
abbrev Expression.Plain (e : Expression) : Prop :=
  e.Has (fun lx => Text.Word lx.text) (fun lx => Text.Inline lx.text)

abbrev Subscript.Plain (s : Subscript) : Prop :=
  s.Has (fun lx => Text.Word lx.text) (fun lx => Text.Inline lx.text)

abbrev Subscript.EachPlain (items : List Subscript) : Prop :=
  Subscript.HasEach (fun lx => Text.Word lx.text) (fun lx => Text.Inline lx.text) items

namespace Node.Worded

variable {n k : Node} (h : n.Worded)

include h

theorem word (hk : k ∈ n.nodes) {l : Label} (hl : l ∈ nameLabels ++ unitLabels)
    (hlabel : k.hasLabel l) : Text.Word k.text :=
  Text.word_of_isName (h.named k hk l hl hlabel)

theorem leaf_inline {i j : Nat} {l : Label} {cs : List Node} {lx : Lexeme}
    (hn : .inner i l cs ∈ n.nodes) (hl : l ∉ Label.lined) (hleaf : .leaf j lx ∈ cs) :
    Text.Inline lx.text := by
  have hmem : lx ∈ n.lexemes := by
    refine lexemes_of_nodes hn (mem_lexemesOf.2 ⟨_, hleaf, ?_⟩)
    exact List.mem_singleton_self lx
  exact (h.lexeme lx hmem).1 (h.lines i l cs hn hl j lx hleaf)

theorem part (hn : n.isLeaf = false) :
    (Part.ofNode n).Has (fun lx => Text.Word lx.text) (fun lx => Text.Inline lx.text) :=
  Part.has_ofNode (fun _ _ _ hi hl _ _ hleaf => h.leaf_inline hi hl hleaf)
    (fun _ _ _ hi => h.word hi (l := .refName) (by decide) rfl) hn

theorem expression (hn : n.isLeaf = false) {e : Expression} (he : n.expression? = some e) :
    e.Plain := by
  have hpart := h.part hn
  unfold Node.expression? at he
  split at he
  · rename_i e' heq
    obtain rfl := Option.some.inj he
    rw [heq] at hpart
    exact hpart
  · rename_i lx heq
    cases n with
    | leaf => cases hn
    | inner => exact absurd heq Part.ofInner_ne_token
  · cases he

/-- The expression of a child, which may be a constant. -/
theorem operand {l : Label} (hlabel : n.hasLabel l) (hl : l ∉ Label.lined) {c : Node}
    (hc : c ∈ n.children) {e : Expression} (he : c.expression? = some e) : e.Plain := by
  cases n with
  | leaf => cases hc
  | inner i l' cs =>
    obtain rfl : l' = l := by simpa [Node.hasLabel, Node.label?] using hlabel
    cases c with
    | leaf j lx =>
      obtain rfl := Option.some.inj he
      exact h.leaf_inline (nodes_self _) hl hc
    | inner => exact (h.child hc).expression rfl he

theorem subscripts (hn : n.isLeaf = false) : ∀ s ∈ n.subscripts, s.Plain := by
  have hpart := h.part hn
  unfold Node.subscripts
  cases heq : Part.ofNode n with
  | suffix items =>
    rw [heq] at hpart
    exact Subscript.hasEach_iff.1 hpart
  | _ => simp [Part.suffix?]

end Node.Worded

/-! ## Code made of words -/

/-- The material of a program whose names are words. -/
def Material.plain (result : String → Bool) : Material where
  reading := { spelled := fun _ w => Text.Word w, result, array := fun _ => False,
               procedure := fun _ => False }
  expression := Expression.Plain
  name := Text.Word
  text := Text.Inline
  subroutine _ := True
  helper f := ∃ l : Label, f ∈ l.helpers

theorem word_escaped {w : String} (h : Text.Word w) : Text.Word (Lower.escaped w) := by
  have hmark : Text.Word "_" := by decide
  unfold Lower.escaped
  split
  · intro c hc
    rw [String.toList_append] at hc
    exact (List.mem_append.1 hc).elim (h c) (hmark c)
  · exact h

namespace Material

variable {result : String → Bool} {x w : String}

theorem plain_ident (h : (plain result).reading.Ident x w) : Text.Inline w := by
  obtain ⟨v, hv, rfl⟩ := h
  split
  · exact Text.inline_append.2 ⟨by decide, Text.Word.inline hv⟩
  · exact (word_escaped hv).inline

theorem plain_callee (h : (plain result).reading.Callee x w) : Text.Inline w := by
  obtain ⟨v, hv, rfl⟩ := h
  exact (word_escaped hv).inline

open Reading in
mutual

theorem inline_renders : ∀ {e : Expression} {j : Expr}, (plain result).reading.Renders e j →
    e.Plain → j.Inline
  | _, _, .constant _, h => Lexeme.inline_juliaConstant h
  | _, _, .complex re im, h => by
    have hpart : ∀ {c : Component}, c.Has (fun lx => Text.Inline lx.text) → c.julia.Inline := by
      intro c hc
      unfold Component.julia
      split
      · exact Expr.inline_signed (hc.1 _ ‹_›) (Lexeme.inline_juliaConstant hc.2)
      · exact Lexeme.inline_juliaConstant hc.2
    exact Expr.inline_call (by decide) (by simpa using ⟨hpart h.1, hpart h.2⟩)
  | _, _, .name hident, _ => plain_ident hident
  | _, _, .element _ hident hsubs hrest, h => by
    have hbase := Expr.inline_index (e := .name _) (plain_ident hident) (inline_rendersList hsubs h.2.1)
    exact inline_rendersSuffixes hrest hbase h.2.2
  | _, _, .call _ hcallee hargs hrest, h => by
    have hbase := Expr.inline_call (plain_callee hcallee) (inline_rendersArguments hargs h.2.1)
    exact inline_rendersSuffixes hrest hbase h.2.2
  | _, _, .intrinsic _ _ hknown hargs hrest, h => by
    have hbase := Intrinsic.inline_emit hknown (inline_rendersArguments hargs h.2.1)
    exact inline_rendersSuffixes hrest hbase h.2.2
  | _, _, .emptyCall hcallee, _ => Expr.inline_call (plain_callee hcallee) (by simp)
  | _, _, .emptyIntrinsic _ hknown, _ => Intrinsic.inline_emit hknown (by simp)
  | _, _, .group hbody, h => Expr.inline_paren (inline_renders hbody h)
  | _, _, .signed sign hbody, h => Expr.inline_signed h.1 (inline_renders hbody h.2)
  | _, _, .negated count hbody, h => by
    have hj := inline_renders hbody h
    refine Expr.inline_negated count ?_
    split
    · exact hj
    · exact Expr.inline_paren hj
  | _, _, .binary op leftType rightType hleft hright, h =>
    inline_combine op leftType rightType (inline_renders hleft h.1) (inline_renders hright h.2)

theorem inline_rendersItem : ∀ {s : Subscript} {j : Expr}, (plain result).reading.RendersItem s j →
    s.Plain → j.Inline
  | _, _, .value hbody, h => inline_renders hbody h
  | _, _, .all, _ => by decide
  | _, _, .upTo hlast, h =>
    Expr.inline_range (by simpa using ⟨(by decide : (Expr.number "1").Inline), inline_renders hlast h⟩)
  | _, _, .from hfirst, h =>
    Expr.inline_range (by simpa using ⟨inline_renders hfirst h, (by decide : (Expr.name "end").Inline)⟩)
  | _, _, .between hfirst hlast, h =>
    Expr.inline_range (by simpa using ⟨inline_renders hfirst h.1, inline_renders hlast h.2⟩)
  | _, _, .alternate _, _ => by decide

theorem inline_rendersList : ∀ {ss : List Subscript} {js : List Expr},
    (plain result).reading.RendersList ss js → Subscript.EachPlain ss → ∀ j ∈ js, j.Inline
  | _, _, .nil, _ => by simp
  | _, _, .cons hitem hrest, h =>
    List.forall_mem_cons.2 ⟨inline_rendersItem hitem h.1, inline_rendersList hrest h.2⟩

theorem inline_rendersArguments : ∀ {ss : List Subscript} {js : List Expr},
    (plain result).reading.RendersArguments ss js → Subscript.EachPlain ss → ∀ j ∈ js, j.Inline
  | _, _, .nil, _ => by simp
  | _, _, .cons hitem hrest, h =>
    List.forall_mem_cons.2 ⟨inline_rendersItem hitem h.1, inline_rendersArguments hrest h.2⟩
  | _, _, .drop _ hrest, h => inline_rendersArguments hrest h.2

theorem inline_rendersSuffixes : ∀ {base : Expr} {suffixes : List (List Subscript)} {j : Expr},
    (plain result).reading.RendersSuffixes base suffixes j → base.Inline →
      Subscript.HasAll (fun lx => Text.Word lx.text) (fun lx => Text.Inline lx.text) suffixes → j.Inline
  | _, _, _, .nil _, hbase, _ => hbase
  | _, _, _, .cons hsubs hrest, hbase, h =>
    inline_rendersSuffixes hrest (Expr.inline_index hbase (inline_rendersList hsubs h.1)) h.2

end

theorem inline_named (h : (plain result).Named w) : Text.Inline w := by
  cases h with
  | word _ hspelled => exact (word_escaped hspelled).inline
  | marked _ hspelled => exact Text.inline_append.2 ⟨by decide, Text.Word.inline hspelled⟩
  | unit number => exact Text.inline_append.2 ⟨by decide, Text.inline_ofInt number⟩
  | helper hknown =>
    have hall : ∀ w ∈ helperNames, Text.Inline w := by decide
    exact hall w hknown

theorem inline_helper {f : String} (h : (plain result).helper f) : Text.Inline f := by
  obtain ⟨l, hl⟩ := h
  have hall : ∀ f ∈ l.helpers, Text.Inline f := by
    unfold Label.helpers
    split <;> decide
  exact hall f hl

theorem inline_wrought {j : Expr} (h : (plain result).Wrought j) : j.Inline := by
  induction h with
  | rendered hsource hform => exact inline_renders hform hsource
  | converted target source _ ih => exact inline_convertValue target source ih
  | zero type => exact inline_zeroValue type
  | count n => exact Text.inline_digits n
  | number hsource hpart => exact Text.Inline.of_subset hsource hpart
  | constant hsource => exact hsource
  | quoted s => exact Text.inline_juliaString s
  | literal hknown =>
    have hall : ∀ s ∈ ["\" \"", "\"r+\"", "\"w+\""], Text.Inline s := by decide
    exact hall _ hknown
  | absent => decide
  | name hnamed => exact inline_named hnamed
  | own hknown =>
    have hall : ∀ s ∈ ["end", "stderr"], Text.Inline s := by decide
    exact hall _ hknown
  | signed hsign _ ih => exact Expr.inline_signed hsign ih
  | equals _ _ ih ih' => exact Expr.inline_operation (by decide) ih ih'
  | helper hknown _ ih => exact Expr.inline_call (inline_helper hknown) ih
  | @part w subs hknown _ ih =>
    have hnamed : (plain result).Named w := .helper hknown
    exact Expr.inline_index (e := .name _) (inline_named hnamed) ih
  | colon => decide
  | range _ ih => exact Expr.inline_range ih
  | vector _ ih => exact Expr.inline_vector ih
  | tuple _ ih => exact Expr.inline_tuple ih
  | spread _ ih => exact Expr.inline_spread ih
  | generator _ hindex _ ih ih' => exact Expr.inline_generator ih (inline_named hindex) ih'
  | flattened hindex _ _ ih ih' =>
    have hitems := Text.inline_append.1 ih'
    exact Expr.inline_flattened (inline_named hindex) ih hitems.1
  | conditional _ _ _ ih ih' ih'' => exact Expr.inline_conditional ih ih' ih''

theorem inline_target {j : Expr} (h : (plain result).Target j) : j.Inline := by
  induction h with
  | name hnamed => exact inline_named hnamed
  | index _ hsubs ih => exact Expr.inline_index ih (fun j hj => inline_wrought (hsubs j hj))

theorem inline_called {j : Expr} (h : (plain result).Called j) : j.Inline := by
  cases h with
  | subroutine _ hcallee hargs =>
    exact Expr.inline_call (plain_callee hcallee) (fun j hj => inline_wrought (hargs j hj))
  | helper hknown hargs =>
    exact Expr.inline_call (inline_helper hknown) (fun j hj => inline_wrought (hargs j hj))

end Material

end FortranJulia
