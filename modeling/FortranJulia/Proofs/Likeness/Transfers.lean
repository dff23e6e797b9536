import FortranJulia.Lowering.InputOutput
import FortranJulia.Proofs.LetterCase.Formats
import FortranJulia.Proofs.Likeness.Declarations

/-!
Input and output side by side. A format specification reads the same in a guise, so that it becomes a
string that reads the same, or is refused in the same words; units become handles of the same names.
-/

namespace FortranJulia

set_option autoImplicit false

open Julia (Expr Code Binding)

/-! ## Specifications -/

namespace Format

/-- What is read of two specifications: lists of items that print alike, or errors in the same words. -/
inductive Readings (g : Guise) (spec spec' : String) :
    Except ReadError (List Item) → Except ReadError (List Item) → Prop where
  | items {is is' : List Item} (text : g.text (printItems is).text = g.text (printItems is').text)
    (values : (printItems is).values = (printItems is').values)
    (error : (printItems is).error = (printItems is').error) : Readings g spec spec' (.ok is) (.ok is')
  | error {e e' : ReadError} (h : g.text (e.message spec) = g.text (e'.message spec')) :
    Readings g spec spec' (.error e) (.error e')

theorem readings_alike {g : Guise} {spec spec' : String} (h : g.text spec = g.text spec') :
    Readings g spec spec' (read spec) (read spec') := by
  cases hcaps : g.caps with
  | false =>
    obtain rfl : spec = spec' := by simpa [Guise.text, g.on_plain hcaps] using h
    cases read spec with
    | error e => exact .error rfl
    | ok is => exact .items rfl rfl rfl
  | true =>
    simp only [Guise.text, g.on_caps hcaps] at h
    have hread := read_toUpper spec
    rw [h, read_toUpper spec'] at hread
    rcases hr : read spec with e | is <;> rcases hr' : read spec' with e' | is' <;>
      rw [hr, hr'] at hread <;> simp only [Except.mapError, Except.map] at hread <;> try cases hread
    · have he : e'.caps = e.caps := Except.error.inj hread
      refine .error ?_
      simp only [Guise.text, g.on_caps hcaps]
      rw [← message_toUpper, h, ← he, message_toUpper]
    · have his : Item.capsAll is' = Item.capsAll is := by
        rw [capsAll_eq_map, capsAll_eq_map]
        exact Except.ok.inj hread
      have hprint := printItems_caps is
      have hprint' := printItems_caps is'
      rw [his] at hprint'
      refine .items ?_ (hprint.values.symm.trans hprint'.values) (hprint.error.symm.trans hprint'.error)
      simpa only [Guise.text, g.on_caps hcaps] using hprint.text.symm.trans hprint'.text

end Format

namespace Lower

variable {g : Guise}

/-! ## Formats -/

/-- Formats that read the same, or none. -/
abbrev FormatsAlike (g : Guise) : Option PrintFormat → Option PrintFormat → Prop :=
  Option.Rel (PrintFormat.Alike g)

theorem agrees_printFormat {n : Node} (h : n.Phrase) {spec spec' : String} (hs : g.text spec = g.text spec') :
    Agrees g [] (FormatsAlike g) (printFormat n spec) (printFormat (n.sketch g) spec') := by
  unfold printFormat
  rw [Node.labelName_sketch]
  have hread := Format.readings_alike hs
  generalize Format.read spec = r, Format.read spec' = r' at hread ⊢
  cases hread with
  | error hmessage => exact (agrees_warn h.labelName_ne hmessage h).bind fun _ _ _ => .pure .none
  | @items is is' htext hvalues herror =>
    simp only [← herror]
    split
    · refine .pure (.some ⟨?_, hvalues.symm⟩)
      rw [← g.juliaString_text, g.text_append, htext, ← g.text_append, g.juliaString_text]
    · have hoverflow : Agrees g [] Eq (modify fun s => { s with overflow := true } : Lower Unit)
          (modify fun s => { s with overflow := true }) :=
        .modify (fun _ _ hs => { hs with overflow := rfl }) fun _ => (List.append_nil _).symm
      exact hoverflow.bind fun _ _ _ => .pure .none
    · exact (agrees_warn h.labelName_ne rfl h).bind fun _ _ _ => .pure .none

theorem fortranConstant_toUpper (s : String) :
    (Text.fortranConstant s.toUpper).toUpper = (Text.fortranConstant s).toUpper := by
  have hchar : ∀ c : Char, ((if c.toUpper == '\'' then ['\'', '\''] else [c.toUpper]).map Char.toUpper) =
      (if c == '\'' then ['\'', '\''] else [c]).map Char.toUpper :=
    Caseless.of_letters
      (f := fun c => (if c == '\'' then ['\'', '\''] else [c]).map Char.toUpper) (by decide)
  apply toUpper_eq_of_toList
  simp only [Text.fortranConstant, String.toList_ofList, List.map_cons, List.map_append,
    List.map_flatMap, toList_toUpper, List.flatMap_map, hchar]

theorem formatSpec_sketch {spec : Option Node} (h : ∀ n ∈ spec, n.Tight) :
    g.text (formatSpec spec) = g.text (formatSpec (spec.map (Node.sketch g))) := by
  cases spec with
  | none => rfl
  | some n =>
    simp only [formatSpec, Option.map_some, Node.lexemes_sketch g (h n rfl), g.text_separated,
      List.map_map]
    congr 1
    refine List.map_congr_left fun lx _ => ?_
    simp only [Function.comp_apply, Guise.kind_lexeme, Guise.textValue_lexeme, Guise.text_lexeme]
    split
    · exact (g.text_congr fortranConstant_toUpper _).symm
    · exact (g.text_congr fortranConstant_toUpper _).symm
    · exact (g.text_text _).symm

theorem innerSpec_text (text : String) : g.text (innerSpec (g.text text)) = g.text (innerSpec text) := by
  refine g.text_congr (fun s => ?_) text
  have hend : ∀ (d : Char) (o : Option Char), d.isAlpha = false →
      (o.map Char.toUpper == some d) = (o == some d) := by
    intro d o hd
    cases o with
    | none => rfl
    | some c =>
      have hc := (Caseless.beq hd) c
      simpa using hc
  simp only [innerSpec, toList_toUpper, trimChars_toUpper, List.head?_map, List.getLast?_map,
    hend '(' _ (by decide), hend ')' _ (by decide), ← List.map_drop, ← List.map_dropLast]
  split <;> simp only [ofList_toUpper, map_toUpper_map]

theorem agrees_labelledFormat {id : Node} (h : id.Phrase) (label : String) :
    Agrees g [] (FormatsAlike g) (labelledFormat id label) (labelledFormat (id.sketch g) label) := by
  unfold labelledFormat
  refine agrees_unit.bind fun u u' hu => ?_
  have hlookup : Option.Rel (FormatsAlike g) (u.formats.lookup label) (u'.formats.lookup label) := by
    have hformats := hu.formats
    generalize u.formats = fs at hformats
    generalize u'.formats = fs' at hformats
    induction hformats with
    | nil => exact .none
    | cons hf _ ih =>
      obtain ⟨hlabel, hformat⟩ := hf
      rw [List.lookup_cons, List.lookup_cons, hlabel]
      split
      · exact .some hformat
      · exact ih
  generalize u.formats.lookup label = o, u'.formats.lookup label = o' at hlookup ⊢
  cases hlookup with
  | some hf => exact .pure hf
  | none => exact (agrees_warn (by decide) rfl h).bind fun _ _ _ => .pure .none

theorem agrees_tokenFormat {id : Node} (h : id.Phrase) {lx : Lexeme} (hlx : lx ∈ id.lexemes) :
    Agrees g [] (FormatsAlike g) (tokenFormat id lx) (tokenFormat (id.sketch g) (g.lexeme lx)) := by
  unfold tokenFormat
  rw [Guise.kind_lexeme]
  split
  · exact .pure .none
  · rename_i hkind
    rw [Guise.text_lexeme, g.text_of_letterless (h.orderly.digits lx hlx hkind)]
    exact agrees_labelledFormat h _
  · rw [Guise.textValue_lexeme]
    exact agrees_printFormat h (innerSpec_text _).symm
  · exact (agrees_warn (by decide) rfl h).bind fun _ _ _ => .pure .none

theorem agrees_formatOf {id : Option Node} (h : ∀ n ∈ id, n.Compact) :
    Agrees g [] (FormatsAlike g) (formatOf id) (formatOf (id.map (Node.sketch g))) := by
  cases id with
  | none => exact .pure .none
  | some id =>
    have hcompact := h id rfl
    have hid := hcompact.phrase
    have hwarn : ∀ message, Agrees g [] (FormatsAlike g)
        (do warn id Label.formatIdentifier.name message; return none)
        (do warn (id.sketch g) Label.formatIdentifier.name message; return none) :=
      fun message => (agrees_warn (by decide) rfl hid).bind fun _ _ _ => .pure .none
    simp only [formatOf, Option.map_some, Node.children_sketch g id hid.inside, List.head?_map]
    cases hhead : id.children.head? with
    | none => exact .pure .none
    | some n =>
      have hchild : n ∈ id.children := List.mem_of_head? hhead
      have hn := (hcompact.child hchild).phrase
      cases n with
      | leaf i lx =>
        simp only [Option.map_some, Node.sketch_leaf]
        exact agrees_tokenFormat hid (lexemes_of_nodes (nodes_child hchild) (by simp [Node.lexemes]))
      | inner i l cs =>
        have hl : l ≠ .endOfStmt := by simpa [Node.hasLabel, Node.label?] using hn.inside
        have htext := Node.text_sketch g hn.orderly hn.inside
        have hlexemes := Node.lexemes_sketch g (hcompact.child hchild).tight
        have hlabel := fun l' => Node.hasLabel_sketch g (.inner i l cs) l'
        rw [Node.sketch_inner g hl] at htext hlexemes hlabel
        simp only [Option.map_some, Node.sketch_inner g hl, hlabel, htext, hlexemes]
        refine .ite Iff.rfl (fun _ => ?_) fun _ => .ite Iff.rfl (fun hlbl => ?_) fun _ => hwarn _
        · have hmem : ∀ lx ∈ (Node.inner i l cs).lexemes, lx ∈ id.lexemes :=
            fun lx hlx => lexemes_of_nodes (nodes_child hchild) hlx
          generalize (Node.inner i l cs).lexemes = lxs at hmem ⊢
          rcases lxs with _ | ⟨lx, _ | ⟨lx', lxs⟩⟩
          · exact hwarn _
          · exact agrees_tokenFormat hid (hmem lx (by simp))
          · exact hwarn _
        · rw [g.text_of_letterless (hn.number (by decide) hlbl)]
          exact agrees_labelledFormat hid _

/-! ## Units -/

/-- Handles whose names read the same. -/
inductive Handle.Alike (g : Guise) : Handle → Handle → Prop where
  | console : Alike g .console .console
  | errors : Alike g .errors .errors
  | file {h h' : String} (hh : g.text h = g.text h') : Alike g (.file h) (.file h')

namespace Handle.Alike

variable {h h' : Handle}

theorem refl (h : Handle) : Alike g h h := by
  cases h with
  | console => exact .console
  | errors => exact .errors
  | file h => exact .file rfl

theorem args (hh : Alike g h h') : List.Forall₂ (Expr.Alike g) h.args h'.args := by
  cases hh with
  | console => exact .nil
  | errors => exact .cons (.refl _) .nil
  | file hname => exact .cons (.name hname) .nil

end Handle.Alike

theorem agrees_handleOf {id : Option Node} (h : ∀ n ∈ id, n.Compact) :
    Agrees g [] (Handle.Alike g) (handleOf id) (handleOf (id.map (Node.sketch g))) := by
  cases id with
  | none => exact .pure .console
  | some id =>
    have hcompact := h id rfl
    have hid := hcompact.phrase
    have hconsole : Agrees g [] (Handle.Alike g) (handleOf.console id) (handleOf.console (id.sketch g)) :=
      (agrees_warn (by decide) rfl hid).bind fun _ _ _ => .pure .console
    simp only [handleOf, Option.map_some, Node.children_sketch g id hid.inside, List.head?_map]
    cases hhead : id.children.head? with
    | none => exact .pure .console
    | some first =>
      simp only [Option.map_some, Node.hasKind_sketch,
        Node.lexemes_sketch g (hcompact.child (List.mem_of_head? hhead)).tight]
      refine .ite Iff.rfl (fun _ => .pure .console) fun _ => ?_
      rcases first.lexemes with _ | ⟨lx, _ | ⟨lx', lxs⟩⟩
      · exact hconsole
      · simp only [List.map_cons, List.map_nil, Guise.kind_lexeme, Guise.value_lexeme,
          Guise.text_lexeme]
        split
        · rcases lx.value with _ | _ | _ | _ | _
          all_goals simp only [Option.map_none, Option.map_some, Guise.literal_int,
            Guise.literal_real, Guise.literal_text, Guise.literal_truth]
          · exact .pure .errors
          · exact .pure (.refl _)
          all_goals exact .pure .errors
        · refine (agrees_spell lx.text).bind ?_
          rintro w _ rfl
          exact (agrees_note (by decide) (by simp) hid).bind fun _ _ _ => .pure (.file (by simp))
        · exact hconsole
      · exact hconsole

/-- The unit among the specifiers of a list. -/
theorem specUnit_sketch {list : Option Node} (h : ∀ n ∈ list, n.Compact) :
    specUnit (list.map (Node.sketch g)) = (specUnit list).map (Node.sketch g) := by
  cases list with
  | none => rfl
  | some n =>
    have hspec : ∀ spec ∈ n.children, ((spec.sketch g).children.head?.any fun m =>
        m.hasLabel .unitIdentifier || m.hasKind (.specifier .UNIT)) =
          spec.children.head?.any fun m =>
            m.hasLabel .unitIdentifier || m.hasKind (.specifier .UNIT) := by
      intro spec hspec
      rw [Node.children_sketch g spec ((h n rfl).child hspec).phrase.inside, List.head?_map, Option.any_map]
      cases spec.children.head? <;> simp
    simp only [specUnit, Option.map_some, Option.getD_some, Node.children_sketch g n (h n rfl).phrase.inside]
    have hall := hspec
    generalize n.children = specs at hall
    clear hspec
    induction specs with
    | nil => rfl
    | cons spec specs ih =>
      rw [List.map_cons, List.find?_cons, List.find?_cons, hall spec (by simp)]
      split
      · simp
      · exact ih fun spec hspec => hall spec (by simp [hspec])

theorem compact_specUnit {list : Option Node} (h : ∀ n ∈ list, n.Compact) : ∀ n ∈ specUnit list, n.Compact := by
  intro n hn
  cases list with
  | none => cases hn
  | some m =>
    obtain ⟨spec, hspec, hchild⟩ := Option.bind_eq_some_iff.1 hn
    exact ((h m rfl).child (List.mem_of_find?_eq_some hspec)).child? hchild

theorem positionUnit_sketch {stmt : Node} (h : stmt.Phrase) :
    positionUnit (stmt.sketch g) = (positionUnit stmt).map (Node.sketch g) ∧
      ∀ n ∈ positionUnit stmt, n.Compact := by
  unfold positionUnit
  rw [Node.child?_sketch, Node.child?_sketch]
  cases hlist : stmt.child? .positionSpecList with
  | none => exact ⟨rfl, fun n hn => h.compact? hn (by decide)⟩
  | some list =>
    have hcompact : ∀ n ∈ some list, n.Compact := by
      rintro n ⟨⟩
      exact h.compact? hlist (by decide)
    exact ⟨specUnit_sketch hcompact, compact_specUnit hcompact⟩

/-- The same unit and format. -/
structure Control.Alike (g : Guise) (c c' : Control) : Prop where
  unit : c'.unit = c.unit.map (Node.sketch g)
  format : c'.format = c.format.map (Node.sketch g)
  positional : c'.positional = c.positional
  compactUnit : ∀ n ∈ c.unit, n.Compact
  compactFormat : ∀ n ∈ c.format, n.Compact

theorem agrees_control {c c' : Control} (hc : c.Alike g c') {spec : Node} (h : spec.Compact) :
    Agrees g [] (Control.Alike g) (control c spec) (control c' (spec.sketch g)) := by
  unfold control
  rw [Node.children_sketch g spec h.phrase.inside, List.head?_map]
  cases hhead : spec.children.head? with
  | none => exact .pure hc
  | some first =>
    have hfirst := h.child (List.mem_of_head? hhead)
    cases first with
    | leaf i lx =>
      simp only [Option.map_some, Node.sketch_leaf, Guise.kind_lexeme, Guise.text_lexeme,
        Node.child?_sketch]
      split
      · exact .pure { hc with format := rfl, compactFormat := fun n hn => h.child? hn }
      · exact .pure { hc with unit := rfl, compactUnit := fun n hn => h.child? hn }
      · exact (agrees_warn (by decide) (by simp) h.phrase).bind fun _ _ _ => .pure hc
    | inner i l cs =>
      have hl : l ≠ .endOfStmt := by simpa [Node.hasLabel, Node.label?] using hfirst.phrase.inside
      have hself : ∀ n ∈ some (Node.inner i l cs), n.Compact := by
        rintro n ⟨⟩
        exact hfirst
      simp only [Option.map_some, Node.sketch_inner g hl, hc.positional]
      split
      · exact .pure { hc with
          unit := by simp [Node.sketch_inner g hl], positional := rfl, compactUnit := hself }
      · exact .pure { hc with
          format := by simp [Node.sketch_inner g hl], positional := rfl, compactFormat := hself }
      · exact .pure { hc with positional := rfl }

theorem agrees_controls {list : Option Node} (h : ∀ n ∈ list, n.Compact) :
    Agrees g [] (Control.Alike g) (controls list) (controls (list.map (Node.sketch g))) := by
  have hempty : Control.Alike g {} {} := ⟨rfl, rfl, rfl, nofun, nofun⟩
  cases list with
  | none => exact .pure hempty
  | some n =>
    simp only [controls, Option.map_some, Option.getD_some, Node.childrenWith_sketch]
    refine .foldlM (fun spec hspec c c' hc => ?_) hempty
    exact agrees_control hc ((h n rfl).childrenWith hspec)

/-! ## Output -/

mutual

theorem agrees_impliedDo : ∀ n : Node, n.Phrase → Reads g (impliedDo n) (impliedDo (n.sketch g))
  | .leaf i lx, _ => by
    rw [Node.sketch_leaf, impliedDo, impliedDo]
    exact .pure (.verbatim (by simp))
  | .inner i l cs, h => by
    have hl : l ≠ .endOfStmt := by simpa [Node.hasLabel, Node.label?] using h.inside
    have hchildren : ∀ c ∈ cs, c.Orderly := fun c hc => h.orderly.child hc
    have hchild : childText (.inner 0 l (cs.map (Node.sketch g))) .impliedDoVariable =
        g.text (childText (.inner i l cs) .impliedDoVariable) := by
      rw [← Node.sketch_inner g hl]
      exact childText_sketch h (by decide)
    have hbounds : (Node.inner 0 l (cs.map (Node.sketch g))).childrenWith .expr =
        ((Node.inner i l cs).childrenWith .expr).map (Node.sketch g) := by
      rw [← Node.sketch_inner g hl]
      exact Node.childrenWith_sketch g _ _
    rw [Node.sketch_inner g hl, impliedDo, impliedDo]
    simp only [hchild, hbounds]
    refine (agrees_ident _).bind ?_
    rintro v _ rfl
    refine (agrees_rangeOf _).bind fun r r' hr => (agrees_impliedLists cs hchildren).bind
      fun es es' hes => ?_
    rcases hes with _ | ⟨he, _ | ⟨hb, hes⟩⟩
    · exact .pure (Expr.Alike.flattened (by simp) hr rfl)
    · rename_i e e'
      have hspread := he.spread
      cases he' : e.isSpread with
      | true =>
        obtain ⟨a, rfl⟩ := Expr.isSpread_iff.1 he'
        obtain ⟨b, rfl⟩ := Expr.isSpread_iff.1 (hspread ▸ he')
        exact .pure (.flattened (by simp) hr he.of_spreads)
      | false =>
        rw [he'] at hspread
        split
        · rename_i heq
          cases heq
          cases he'
        · rename_i heq
          cases heq
          split
          · rename_i heq
            cases heq
            cases hspread
          · rename_i heq
            cases heq
            exact .pure (.generator he (by simp) hr)
          · rename_i hno
            exact absurd rfl (hno e')
        · rename_i hno
          exact absurd rfl (hno e)
    · have htuple := Expr.Alike.tuple (.cons he (.cons hb hes))
      split
      · rename_i heq
        cases heq
      · rename_i heq
        cases heq
      · split
        · rename_i heq
          cases heq
        · rename_i heq
          cases heq
        · exact .pure (Expr.Alike.flattened (g.text_text v).symm hr htuple.same)

theorem agrees_impliedLists : ∀ cs : List Node, (∀ c ∈ cs, c.Orderly) →
    Agrees g [] (List.Forall₂ (Expr.Alike g)) (impliedLists cs) (impliedLists (cs.map (Node.sketch g)))
  | [], _ => by
    rw [List.map_nil, impliedLists]
    exact .pure .nil
  | .leaf i lx :: rest, h => by
    rw [List.map_cons, Node.sketch_leaf, impliedLists, impliedLists]
    exact agrees_impliedLists rest fun c hc => h c (by simp [hc])
  | .inner i l items :: rest, h => by
    have hrest := agrees_impliedLists rest fun c hc => h c (by simp [hc])
    have hitems := agrees_impliedItems items fun c hc => (h (.inner i l items) (by simp)).child hc
    rw [List.map_cons, impliedLists]
    by_cases hl : l = .outputItemList
    · subst hl
      rw [Node.sketch_inner g (by decide), impliedLists]
      exact hitems
    · rw [Node.sketch_eq, impliedLists, if_neg (by simpa using hl), if_neg (by simpa using hl)]
      exact hrest

theorem agrees_impliedItems : ∀ items : List Node, (∀ c ∈ items, c.Orderly) →
    Agrees g [] (List.Forall₂ (Expr.Alike g)) (impliedItems items) (impliedItems (items.map (Node.sketch g)))
  | [], _ => by
    rw [List.map_nil, impliedItems]
    exact .pure .nil
  | n :: rest, h => by
    have hrest := agrees_impliedItems rest fun c hc => h c (by simp [hc])
    have hn := h n (by simp)
    rw [List.map_cons, impliedItems, impliedItems, Node.label?_sketch]
    split
    · rename_i hl
      have hinside := Node.not_end_of_label (l := .outputImpliedDo) (n := n) (by simp [Node.hasLabel, hl])
        (by decide)
      exact (agrees_impliedDo n ⟨hn, hinside⟩).bind fun _ _ hj => hrest.bind fun _ _ hjs =>
        .pure (.cons hj.spreads hjs)
    · exact (agrees_exprOf n).bind fun _ _ hj => hrest.bind fun _ _ hjs => .pure (.cons hj hjs)
    · exact hrest

end

/-- Items that read the same. -/
structure OutputItem.Alike (g : Guise) (i i' : OutputItem) : Prop where
  expr : i.expr.Alike g i'.expr
  implied : i'.implied = i.implied

namespace OutputItem.Alike

variable {i i' : OutputItem}

theorem printed (h : i.Alike g i') : i.printed.Alike g i'.printed := by
  unfold OutputItem.printed
  rw [h.implied]
  split
  · exact .call rfl (.cons h.expr (.cons (.refl _) .nil))
  · exact h.expr

theorem formatted (h : i.Alike g i') : i.formatted.Alike g i'.formatted := by
  unfold OutputItem.formatted
  rw [h.implied]
  split
  · exact h.expr.spreads
  · exact h.expr

end OutputItem.Alike

theorem agrees_outputItems {ns : List Node} (h : ∀ n ∈ ns, n.Orderly) :
    Agrees g [] (List.Forall₂ (OutputItem.Alike g)) (outputItems ns)
      (outputItems (ns.map (Node.sketch g))) := by
  induction ns with
  | nil => exact .pure .nil
  | cons n rest ih =>
    have hrest := ih fun c hc => h c (by simp [hc])
    rw [List.map_cons]
    unfold outputItems
    rw [Node.label?_sketch]
    split
    · rename_i hl
      have hinside := Node.not_end_of_label (l := .outputImpliedDo) (n := n) (by simp [Node.hasLabel, hl])
        (by decide)
      exact (agrees_impliedDo n ⟨h n (by simp), hinside⟩).bind fun _ _ hj => hrest.bind fun _ _ hjs =>
        .pure (.cons ⟨hj, rfl⟩ hjs)
    · exact (agrees_exprOf n).bind fun _ _ hj => hrest.bind fun _ _ hjs => .pure (.cons ⟨hj, rfl⟩ hjs)
    · exact hrest

theorem alike_intersperse {es es' : List Expr} (h : List.Forall₂ (Expr.Alike g) es es') (sep : Expr) :
    List.Forall₂ (Expr.Alike g) (es.intersperse sep) (es'.intersperse sep) := by
  induction h with
  | nil => exact .nil
  | cons hj hjs ih =>
    cases hjs with
    | nil => exact .cons hj .nil
    | cons hk hks => exact .cons hj (.cons (.refl sep) ih)

theorem agrees_output {stmt : Node} (h : stmt.Phrase) {handle handle' : Handle}
    (hhandle : handle.Alike g handle') {format : Option Node} (hformat : ∀ n ∈ format, n.Compact) :
    Agrees g [] Eq (output stmt handle format)
      (output (stmt.sketch g) handle' (format.map (Node.sketch g))) := by
  unfold output
  rw [grandchildren_sketch (by decide), Node.labelName_sketch]
  refine (agrees_outputItems fun n hn => orderly_grandchildren h.orderly hn).bind
    fun items items' hitems => (agrees_formatOf hformat).bind fun f f' hf => ?_
  cases hf with
  | none =>
    have hprinted : List.Forall₂ (Expr.Alike g) (items.map (·.printed)) (items'.map (·.printed)) :=
      List.forall₂_map_left_iff.2 (List.forall₂_map_right_iff.2 (hitems.imp fun _ _ hi => hi.printed))
    exact agrees_line rfl (.run (.call rfl (List.rel_append hhandle.args (alike_intersperse hprinted _))))
  | @some f f' hf =>
    have himplied : items'.any (·.implied) = items.any (·.implied) := by
      induction hitems with
      | nil => rfl
      | cons hi _ ih => rw [List.any_cons, List.any_cons, hi.implied, ih]
    have hformatted : List.Forall₂ (Expr.Alike g) (items.map (·.formatted)) (items'.map (·.formatted)) :=
      List.forall₂_map_left_iff.2 (List.forall₂_map_right_iff.2 (hitems.imp fun _ _ hi => hi.formatted))
    have hline : Agrees g [] Eq
        (line (.run (.call "@printf" (handle.args ++ .str f.literal :: items.map (·.formatted)))))
        (line (.run (.call "@printf" (handle'.args ++ .str f'.literal :: items'.map (·.formatted))))) :=
      agrees_line rfl (.run (.call rfl
        (List.rel_append hhandle.args (.cons (.str hf.literal) hformatted))))
    simp only [himplied, ← hitems.length_eq, hf.values]
    exact .ite Iff.rfl (fun _ => (agrees_note h.labelName_ne rfl h).bind fun _ _ _ => hline) fun _ => hline

theorem agrees_printStmt {stmt : Node} (h : stmt.Phrase) :
    Agrees g [] Eq (printStmt stmt) (printStmt (stmt.sketch g)) := by
  unfold printStmt
  rw [Node.child?_sketch]
  exact agrees_output h .console fun n hn => h.compact? hn (by decide)

theorem agrees_writeStmt {stmt : Node} (h : stmt.Phrase) :
    Agrees g [] Eq (writeStmt stmt) (writeStmt (stmt.sketch g)) := by
  unfold writeStmt
  rw [Node.child?_sketch]
  refine (agrees_controls fun n hn => h.compact? hn (by decide)).bind fun c c' hc => ?_
  rw [hc.unit, hc.format]
  exact (agrees_handleOf hc.compactUnit).bind fun _ _ hh => agrees_output h hh hc.compactFormat

/-! ## Input -/

theorem agrees_readItems (k : Nat) {items : List Node} (h : ∀ n ∈ items, n.Phrase) :
    Agrees g [] Eq (readItems k items) (readItems k (items.map (Node.sketch g))) := by
  induction items generalizing k with
  | nil => exact .pure rfl
  | cons item rest ih =>
    have hitem := h item (by simp)
    have hrest := ih (k + 1) fun n hn => h n (by simp [hn])
    have hrefuse : Agrees g [] Eq (readItems.refuse item) (readItems.refuse (item.sketch g)) :=
      agrees_warn (by decide) rfl hitem
    rw [List.map_cons]
    unfold readItems
    simp only [Node.hasLabel_sketch]
    refine .ite Iff.rfl (fun _ => ?_) fun _ => ?_
    · refine (agrees_target hitem).bind ?_
      rintro ⟨b, left⟩ ⟨b', left'⟩ ⟨hb, hleft⟩
      obtain rfl : b = b' := hb.symm
      exact (agrees_line rfl (.assign b (.cons hleft .nil) (.refl _))).bind fun _ _ _ => hrest
    · rw [grandchildren_sketch (by decide)]
      have hparts : ∀ v ∈ grandchildren item .inputItemList, v.Orderly :=
        fun v hv => orderly_grandchildren hitem.orderly hv
      generalize grandchildren item .inputItemList = parts at hparts ⊢
      cases rest with
      | cons next rest => exact hrefuse.bind fun _ _ _ => hrest
      | nil =>
        rcases parts with _ | ⟨v, _ | ⟨w, parts⟩⟩
        · exact hrefuse.bind fun _ _ _ => hrest
        · simp only [List.map_cons, List.map_nil, Node.hasLabel_sketch, Node.childrenWith_sketch,
            childText_sketch hitem (show Label.impliedDoVariable ≠ .endOfStmt by decide)]
          refine .ite Iff.rfl (fun hv => ?_) fun _ => hrefuse.bind fun _ _ _ => hrest
          have hphrase : v.Phrase := ⟨hparts v (by simp), Node.not_end_of_label hv (by decide)⟩
          refine (agrees_ident _).bind ?_
          rintro index _ rfl
          refine (agrees_rangeOf _).bind fun r r' hr => ?_
          refine (agrees_line rfl (.forPairs hr (.refl _))).bind fun _ _ _ => ?_
          refine (agrees_nested (agrees_assigned hphrase (.refl _))).bind fun _ _ _ => ?_
          exact (agrees_line rfl (.refl .close)).bind fun _ _ _ => hrest
        · exact hrefuse.bind fun _ _ _ => hrest

theorem agrees_readRecord {handle handle' : Handle} (hh : handle.Alike g handle') {items : List Node}
    (h : ∀ n ∈ items, n.Phrase) :
    Agrees g [] Eq (readStmt.readRecord handle items)
      (readStmt.readRecord handle' (items.map (Node.sketch g))) := by
  refine agrees_binding.bind ?_
  rintro b _ rfl
  refine (agrees_line rfl ?_).bind fun _ _ _ => agrees_readItems 1 h
  exact .assign b (.cons (.refl _) .nil) (.call rfl hh.args)

/-- Input into items, after the unit and the format are known. -/
theorem agrees_readStmt {stmt : Node} (h : stmt.Phrase) :
    Agrees g [] Eq (readStmt stmt) (readStmt (stmt.sketch g)) := by
  have hitems : (grandchildren (stmt.sketch g) .inputItemList).filter
      (fun n => n.hasLabel .variableRef || n.hasLabel .inputImpliedDo) =
        ((grandchildren stmt .inputItemList).filter fun n =>
          n.hasLabel .variableRef || n.hasLabel .inputImpliedDo).map (Node.sketch g) := by
    rw [grandchildren_sketch (by decide), List.filter_map]
    exact congrArg _ (List.filter_congr fun n _ => by simp)
  have hphrases : ∀ n ∈ (grandchildren stmt .inputItemList).filter (fun n =>
      n.hasLabel .variableRef || n.hasLabel .inputImpliedDo), n.Phrase := by
    intro n hn
    obtain ⟨hmem, hlabel⟩ := List.mem_filter.1 hn
    refine ⟨orderly_grandchildren h.orderly hmem, ?_⟩
    rcases Bool.or_eq_true_iff.1 hlabel with hl | hl <;> exact Node.not_end_of_label hl (by decide)
  unfold readStmt
  rw [Node.child?_sketch, Node.child?_sketch]
  extract_lets handle₀ format items rest format' items' rest'
  replace hitems : items' = items.map (Node.sketch g) := hitems
  replace hphrases : ∀ n ∈ items, n.Phrase := hphrases
  clear_value items items'
  subst hitems
  have hrest : ∀ r {handle handle' : Handle} {format : Option Node}, handle.Alike g handle' →
      (∀ n ∈ format, n.Compact) →
      Agrees g [] Eq (rest r handle format) (rest' r handle' (format.map (Node.sketch g))) := by
    intro r handle handle' format hhandle hformat
    simp -zeta only [rest, rest']
    refine (agrees_formatOf hformat).bind fun f f' hf => ?_
    extract_lets record input record' input'
    have hrecord : record.Alike g record' := .call rfl hhandle.args
    have hinput : ∀ r, Agrees g [] Eq (input r) (input' r) := by
      intro r
      simp only [input, input']
      rcases items with _ | ⟨item, _ | ⟨next, items⟩⟩
      · exact agrees_line rfl (.run hrecord)
      · have hitem := hphrases item (by simp)
        simp only [List.map_cons, List.map_nil, Node.hasLabel_sketch,
          Node.text_sketch g hitem.orderly hitem.inside]
        refine .ite Iff.rfl (fun _ => ?_) fun _ => agrees_readRecord hhandle hphrases
        refine (agrees_target hitem).bind ?_
        rintro ⟨b, left⟩ ⟨b', left'⟩ ⟨hb, hleft⟩
        obtain rfl : b = b' := hb.symm
        refine agrees_table.bind ?_
        rintro t _ rfl
        refine agrees_line rfl (.assign b (.cons hleft .nil) ?_)
        rw [Guise.typeOf_table]
        split
        · exact hrecord
        · exact .call rfl (.cons hrecord .nil)
      · exact agrees_readRecord hhandle hphrases
    have hsome : f'.isSome = f.isSome := by
      cases hf <;> rfl
    rw [hsome]
    exact .ite Iff.rfl (fun _ => (agrees_note (by decide) rfl h).bind fun r _ _ => hinput r) fun _ => hinput ()
  cases hlist : stmt.child? .ioControlSpecList with
  | none => exact hrest () .console fun n hn => h.compact? hn (by decide)
  | some list =>
    have hcompact : ∀ n ∈ some list, n.Compact := by
      rintro n ⟨⟩
      exact h.compact? hlist (by decide)
    refine (agrees_controls hcompact).bind fun c c' hc => ?_
    rw [hc.unit, hc.format]
    exact (agrees_handleOf hc.compactUnit).bind fun _ _ hh => hrest () hh hc.compactFormat

/-! ## Files -/

/-- Connections of files that read the same. -/
structure Connection.Alike (g : Guise) (c c' : Connection) : Prop where
  file : Option.Rel (Expr.Alike g) c.file c'.file
  status : c'.status = c.status

/-- The status in the text of an expression. -/
theorem status_alike {s s' : String} (h : g.text s = g.text s') :
    Text.upper (String.ofList (Text.dropTrailing (· == '"') (s'.toList.dropWhile (· == '"')))) =
      Text.upper (String.ofList (Text.dropTrailing (· == '"') (s.toList.dropWhile (· == '"')))) := by
  have hquote : Caseless (· == '"') := .beq (by decide)
  refine upper_congr (toUpper_eq_of_toList ?_)
  simp only [String.toList_ofList]
  rw [← hquote.dropTrailing, ← hquote.dropTrailing, ← hquote.dropWhile, ← hquote.dropWhile,
    toList_eq_of_toUpper (g.toUpper_congr h)]

theorem agrees_connect {c c' : Connection} (hc : c.Alike g c') {spec : Node} (h : spec.Phrase) :
    Agrees g [] (Connection.Alike g) (connect c spec) (connect c' (spec.sketch g)) := by
  unfold connect
  rw [Node.children_sketch g spec h.inside, List.head?_map]
  cases hhead : spec.children.head? with
  | none => exact .pure hc
  | some first =>
    cases first with
    | inner i l cs =>
      rw [Option.map_some, Node.sketch_eq]
      exact .pure hc
    | leaf i lx =>
      simp only [Option.map_some, Node.sketch_leaf, Guise.kind_lexeme, Guise.text_lexeme,
        Node.child?_sketch]
      have hnote : ∀ {act act' : Lower Unit}, Agrees g [] Eq act act' →
          Agrees g [] (Connection.Alike g) (do act; return c) (do act'; return c') :=
        fun hact => hact.bind fun _ _ _ => .pure hc
      generalize lx.kind = kind
      cases kind with
      | specifier word =>
        cases word with
        | FILE =>
          cases spec.child? .expr with
          | none => exact .pure hc
          | some e => exact (agrees_exprOf e).bind fun _ _ hj => .pure ⟨.some hj, hc.status⟩
        | STATUS =>
          cases spec.child? .expr with
          | none => exact .pure hc
          | some e =>
            exact (agrees_exprOf e).bind fun _ _ hj => .pure ⟨hc.file, status_alike hj.same⟩
        | ACCESS | FORM | RECL | BLANK => exact hnote (agrees_note (by decide) (by simp) h)
        | ERR | IOSTAT => exact hnote (agrees_warn (by decide) (by simp) h)
        | _ => exact .pure hc
      | _ => exact .pure hc

theorem alike_openMode (status : String) {file file' : Expr} (h : file.Alike g file') :
    (openMode status file).Alike g (openMode status file') := by
  unfold openMode
  split
  · exact .refl _
  · exact .refl _
  · exact .refl _
  · exact .refl _
  · exact .conditional (.call rfl (.cons h .nil)) (.refl _) (.refl _)

theorem drop_alike {s s' : String} (n : Nat) (h : g.text s = g.text s') :
    g.text (String.ofList (s.toList.drop n)) = g.text (String.ofList (s'.toList.drop n)) := by
  have hchars := congrArg String.toList h
  rw [g.toList_text, g.toList_text] at hchars
  rw [← String.toList_inj, g.toList_text, g.toList_text, String.toList_ofList, String.toList_ofList,
    List.map_drop, List.map_drop, hchars]

theorem agrees_openStmt {stmt : Node} (h : stmt.Phrase) :
    Agrees g [] Eq (openStmt stmt) (openStmt (stmt.sketch g)) := by
  have hcompact : ∀ n ∈ stmt.child? .connectSpecList, n.Compact := fun n hn => h.compact? hn (by decide)
  unfold openStmt
  rw [Node.child?_sketch]
  extract_lets list list'
  have hlist : list' = list.map (Node.sketch g) := rfl
  rw [hlist, specUnit_sketch hcompact]
  refine (agrees_handleOf (compact_specUnit hcompact)).bind fun handle handle' hh => ?_
  cases hh with
  | console => exact agrees_warn (by decide) rfl h
  | errors => exact agrees_warn (by decide) rfl h
  | @file name name' hname =>
    have hconnect : Agrees g [] (Connection.Alike g)
        (((list.map (·.childrenWith .connectSpec)).getD []).foldlM connect {})
        ((((list.map (Node.sketch g)).map (·.childrenWith .connectSpec)).getD []).foldlM connect {}) := by
      have hempty : Connection.Alike g {} {} := ⟨.none, rfl⟩
      cases hl : list with
      | none => exact .pure hempty
      | some n =>
        simp only [Option.map_some, Option.getD_some, Node.childrenWith_sketch]
        refine .foldlM (fun spec hspec c c' hc => ?_) hempty
        exact agrees_connect hc ((hcompact n hl).childrenWith hspec).phrase
    refine hconnect.bind fun c c' hc => ?_
    have hnamed : g.text (Text.juliaString ("fort." ++ String.ofList (name.toList.drop 1))) =
        g.text (Text.juliaString ("fort." ++ String.ofList (name'.toList.drop 1))) :=
      g.juliaString_congr (by rw [g.text_append, g.text_append, drop_alike 1 hname])
    have hopen : ∀ {file file' : Expr}, file.Alike g file' → Agrees g [] Eq
        (line (.assign .globally [.name name] (.call "open" [file, openMode c.status file])))
        (line (.assign .globally [.name name'] (.call "open" [file', openMode c'.status file']))) := by
      intro file file' hfile
      rw [hc.status]
      exact agrees_line rfl (.assign _ (.cons (.name hname) .nil)
        (.call rfl (.cons hfile (.cons (alike_openMode _ hfile) .nil))))
    have hfile := hc.file
    generalize c.file = file, c'.file = file' at hfile ⊢
    cases hfile with
    | some hfile => exact hopen hfile
    | none =>
      refine (agrees_note (by decide) ?_ h).bind fun _ _ _ => hopen (.str hnamed)
      rw [g.text_append, hnamed, g.text_append]

/-- A call of a function of a handle. -/
theorem agrees_onFile (f : String) {unit : Option Node} (h : ∀ n ∈ unit, n.Compact) :
    Agrees g [] Eq (onFile f unit) (onFile f (unit.map (Node.sketch g))) := by
  unfold onFile
  refine (agrees_handleOf h).bind fun handle handle' hh => ?_
  cases hh with
  | console => exact .pure rfl
  | errors => exact .pure rfl
  | file hname => exact agrees_line rfl (.run (.call rfl (.cons (.name hname) .nil)))

end Lower

end FortranJulia
