import FortranJulia.Lowering.State
import FortranJulia.Proofs.Likeness.Code
import FortranJulia.Proofs.Likeness.Collecting

/-!
Two lowerings side by side. One state follows another in a guise if it holds the same in the guise: the
same symbols, lines that read the same, and the same diagnostics at the new numbers of their lines. Two
actions agree if they keep this up and come to related values, or meet the same fault; what the first
one tells, in the comments that it writes, is counted at the same time.
-/

namespace FortranJulia

set_option autoImplicit false

open Julia (Expr Code Line Binding)

/-! ## Comments -/

/-- The text of a comment without its marker and the blanks around it. -/
def Lower.remark (text : String) : String :=
  match Text.trimChars text.toList with
  | [] => ""
  | _ :: cs => Text.trim (String.ofList cs)

namespace Julia

/-- What the line tells the reader, if it is a comment. -/
def Code.remark? : Code → Option String
  | .comment s => some s
  | _ => none

def Line.remark? : Line → Option String
  | .code _ c => c.remark?
  | .gap => none

end Julia

/-- The comments written so far, in order. -/
def LowerState.remarks (s : LowerState) : List String :=
  s.lines.reverse.filterMap Line.remark?

/-! ## States -/

/-- The formats read the same in the guise. -/
structure PrintFormat.Alike (g : Guise) (f f' : PrintFormat) : Prop where
  literal : g.text f.literal = g.text f'.literal
  values : f'.values = f.values

/-- The messages of a rule read the same in the guise. Those about program units list errors in
declarations, at the new numbers of their lines. -/
inductive Message.Alike (g : Guise) : String → String → String → Prop where
  | same {rule m m' : String} (hrule : rule ≠ Diagnostic.programUnit) (h : g.text m = g.text m') :
    Alike g rule m m'
  | errors (es : List DeclarationError) :
    Alike g Diagnostic.programUnit (Expr.separated "\n" (es.map DeclarationError.message))
      (Expr.separated "\n" ((es.map g.declarationError).map DeclarationError.message))

structure Diagnostic.Alike (g : Guise) (d d' : Diagnostic) : Prop where
  severity : d'.severity = d.severity
  rule : d'.rule = d.rule
  place : ∃ line : Nat, d.line = line ∧ d'.line = g.line line
  col : d'.col = d.col
  message : Message.Alike g d.rule d.message d'.message

/-- A format with its label. -/
def LabelledAlike (g : Guise) (f f' : String × Option PrintFormat) : Prop :=
  f'.1 = f.1 ∧ Option.Rel (PrintFormat.Alike g) f.2 f'.2

structure UnitState.Alike (g : Guise) (u u' : UnitState) : Prop where
  kind : u'.kind = u.kind
  name : u'.name = g.text u.name
  formats : List.Forall₂ (LabelledAlike g) u.formats u'.formats
  targets : u'.targets = u.targets
  common : u'.common = u.common
  params : u'.params = u.params
  declared : u'.declared = u.declared
  arrays : u'.arrays = u.arrays
  loops : u'.loops = u.loops
  locals : u'.locals = u.locals.map g.text
  localsDone : u'.localsDone = u.localsDone

namespace UnitState.Alike

variable {g : Guise} {u u' : UnitState}

theorem isGlobal (h : Alike g u u') : u'.isGlobal = u.isGlobal := by
  rw [UnitState.isGlobal, h.kind, UnitState.isGlobal]

theorem isRoutine (h : Alike g u u') : u'.isRoutine = u.isRoutine := by
  rw [UnitState.isRoutine, h.kind, UnitState.isRoutine]

/-- The unit before any is at hand. -/
theorem empty (g : Guise) : Alike g {} {} where
  kind := rfl
  name := g.text_empty.symm
  formats := .nil
  targets := rfl
  common := rfl
  params := rfl
  declared := rfl
  arrays := rfl
  loops := rfl
  locals := rfl
  localsDone := rfl

end UnitState.Alike

/-- The second state is the first one in the guise. -/
structure LowerState.Alike (g : Guise) (s s' : LowerState) : Prop where
  collection : s'.collection = g.collection s.collection
  diagnostics : List.Forall₂ (Diagnostic.Alike g) s.diagnostics s'.diagnostics
  blockData : s'.blockData = s.blockData
  lines : List.Forall₂ (Line.Alike g) s.lines s'.lines
  depth : s'.depth = s.depth
  unit : s.unit.Alike g s'.unit
  overflow : s'.overflow = s.overflow

/-! ## Rules of diagnostics -/

theorem Label.name_ne {l : Label} (h : l ≠ .programUnit) : l.name ≠ Diagnostic.programUnit := by
  cases l <;> first | contradiction | decide

theorem Kind.label_ne (k : Kind) : k.label ≠ Diagnostic.programUnit := by
  cases k with
  | keyword k => cases k <;> decide
  | specifier k => cases k <;> decide
  | _ => decide

/-- No phrase has the name of the rule about program units. -/
theorem Node.Phrase.labelName_ne {n : Node} (h : n.Phrase) : n.labelName ≠ Diagnostic.programUnit := by
  cases n with
  | leaf i lx => exact Kind.label_ne lx.kind
  | inner i l cs =>
    refine Label.name_ne ?_
    rintro rfl
    exact absurd (h.orderly.units _ (nodes_self _)) (by simp [Node.hasLabel, Node.label?])

/-! ## Actions -/

namespace Lower

/-- Results of a lowering and of one in the guise, with the comments written in the end. -/
inductive Concur (g : Guise) (said : List String) {α β : Type} (R : α → β → Prop) :
    Except Fault (α × LowerState) → Except Fault (β × LowerState) → Prop where
  | ok {a : α} {b : β} {t t' : LowerState} (value : R a b) (state : t.Alike g t') (remarks : t.remarks = said) :
    Concur g said R (.ok (a, t)) (.ok (b, t'))
  | fault (f : Fault) : Concur g said R (.error f) (.error f)

/-- From a state and one that follows it, the actions come to states of which one follows the other, and
to related values. The first one writes comments with the texts that are told. -/
def Agrees (g : Guise) (told : List String) {α β : Type} (R : α → β → Prop) (act : Lower α)
    (act' : Lower β) : Prop :=
  ∀ s s', LowerState.Alike g s s' → Concur g (s.remarks ++ told) R (act.run s) (act'.run s')

namespace Agrees

variable {g : Guise} {told told' : List String} {α β γ δ : Type} {R : α → β → Prop} {R' : γ → δ → Prop}

theorem pure {a : α} {b : β} (h : R a b) : Agrees g [] R (Pure.pure a) (Pure.pure b) :=
  fun _ _ hs => .ok h hs (List.append_nil _).symm

theorem imp {act : Lower α} {act' : Lower β} {S : α → β → Prop} (h : Agrees g told R act act')
    (himp : ∀ a b, R a b → S a b) : Agrees g told S act act' := by
  intro s s' hs
  have hact := h s s' hs
  generalize act.run s = r, act'.run s' = r' at hact ⊢
  cases hact with
  | ok value state remarks => exact .ok (himp _ _ value) state remarks
  | fault f => exact .fault f

theorem follow {act : Lower α} {act' : Lower β} {f : α → Lower γ} {f' : β → Lower δ}
    (h : Agrees g told R act act') (hrest : ∀ a b, R a b → Agrees g told' R' (f a) (f' b)) :
    Agrees g (told ++ told') R' (act >>= f) (act' >>= f') := by
  intro s s' hs
  have hact := h s s' hs
  rw [StateT.run_bind, StateT.run_bind]
  generalize act.run s = r, act'.run s' = r' at hact ⊢
  cases hact with
  | ok value state remarks =>
    rw [← List.append_assoc, ← remarks]
    exact hrest _ _ value _ _ state
  | fault f => exact .fault f

/-- After an action that writes no comments. -/
theorem bind {act : Lower α} {act' : Lower β} {f : α → Lower γ} {f' : β → Lower δ}
    (h : Agrees g [] R act act') (hrest : ∀ a b, R a b → Agrees g told R' (f a) (f' b)) :
    Agrees g told R' (act >>= f) (act' >>= f') :=
  h.follow hrest

/-- Before an action that writes no comments. -/
theorem before {act : Lower α} {act' : Lower β} {f : α → Lower γ} {f' : β → Lower δ}
    (h : Agrees g told R act act') (hrest : ∀ a b, R a b → Agrees g [] R' (f a) (f' b)) :
    Agrees g told R' (act >>= f) (act' >>= f') := by
  simpa using h.follow hrest

theorem throw (f : Fault) : Agrees g told R (MonadExcept.throw f) (MonadExcept.throw f) :=
  fun _ _ _ => .fault f

theorem get : Agrees g [] (LowerState.Alike g) (get : Lower LowerState) get :=
  fun _ _ hs => .ok hs hs (List.append_nil _).symm

theorem modify {f f' : LowerState → LowerState} (h : ∀ s s', s.Alike g s' → (f s).Alike g (f' s'))
    (hlines : ∀ s, (f s).remarks = s.remarks ++ told) :
    Agrees g told Eq (modify f : Lower Unit) (modify f') :=
  fun _ _ hs => .ok rfl (h _ _ hs) (hlines _)

theorem ite {c c' : Prop} [Decidable c] [Decidable c'] {a b : Lower α} {a' b' : Lower β} (h : c' ↔ c)
    (hyes : c → Agrees g told R a a') (hno : ¬c → Agrees g told R b b') :
    Agrees g told R (if c then a else b) (if c' then a' else b') := by
  by_cases hc : c
  · rw [if_pos hc, if_pos (h.2 hc)]
    exact hyes hc
  · rw [if_neg hc, if_neg fun hc' => hc (h.1 hc')]
    exact hno hc

/-- One action after the other for the members of a list. -/
theorem forM {xs : List α} {k : α → β} {f : α → Lower Unit} {f' : β → Lower Unit} {tells : α → List String}
    (h : ∀ x ∈ xs, Agrees g (tells x) Eq (f x) (f' (k x))) :
    Agrees g (xs.flatMap tells) Eq (xs.forM f) ((xs.map k).forM f') := by
  induction xs with
  | nil => exact .pure rfl
  | cons x xs ih => exact (h x (by simp)).follow fun _ _ _ => ih fun y hy => h y (by simp [hy])

theorem forM_silent {xs : List α} {k : α → β} {f : α → Lower Unit} {f' : β → Lower Unit}
    (h : ∀ x ∈ xs, Agrees g [] Eq (f x) (f' (k x))) :
    Agrees g [] Eq (xs.forM f) ((xs.map k).forM f') := by
  have hall : Agrees g (xs.flatMap fun _ => []) Eq (xs.forM f) ((xs.map k).forM f') := forM h
  rwa [List.flatMap_eq_nil_iff.2 fun _ _ => rfl] at hall

theorem foldlM {xs : List α} {k : α → β} {f : γ → α → Lower γ} {f' : δ → β → Lower δ}
    (h : ∀ x ∈ xs, ∀ c d, R' c d → Agrees g [] R' (f c x) (f' d (k x))) {c : γ} {d : δ} (hcd : R' c d) :
    Agrees g [] R' (xs.foldlM f c) ((xs.map k).foldlM f' d) := by
  induction xs generalizing c d with
  | nil => exact .pure hcd
  | cons x xs ih =>
    simp only [List.map_cons, List.foldlM_cons]
    exact (h x (by simp) c d hcd).bind fun _ _ hnext => ih (fun y hy => h y (by simp [hy])) hnext

end Agrees

/-! ## Steps -/

variable {g : Guise}

theorem agrees_table : Agrees g [] (fun t t' => t' = g.table t) table table :=
  Agrees.get.bind fun s s' hs => .pure (by rw [hs.collection]; rfl)

theorem agrees_unit : Agrees g [] (UnitState.Alike g) unit unit :=
  Agrees.get.bind fun _ _ hs => .pure hs.unit

theorem agrees_modifyTable {f f' : Table → Table} (h : ∀ t, f' (g.table t) = g.table (f t)) :
    Agrees g [] Eq (modifyTable f) (modifyTable f') := by
  refine .modify (fun s s' hs => { hs with collection := ?_ }) fun s => (List.append_nil _).symm
  simp only [hs.collection, Collection.table_collection, h]
  rfl

theorem agrees_modifyUnit {f f' : UnitState → UnitState} (h : ∀ u u', u.Alike g u' → (f u).Alike g (f' u')) :
    Agrees g [] Eq (modifyUnit f) (modifyUnit f') :=
  .modify (fun _ _ hs => { hs with unit := h _ _ hs.unit }) fun _ => (List.append_nil _).symm

/-- A line of code, or a comment with its text. -/
theorem agrees_written {c c' : Code} (h : c.Alike g c') :
    Agrees g c.remark?.toList Eq (line c) (line c') := by
  refine .modify (fun s s' hs => { hs with lines := ?_ }) fun s => ?_
  · rw [hs.depth]
    exact .cons (.code _ h) hs.lines
  · simp only [LowerState.remarks, List.reverse_cons, List.filterMap_append, Line.remark?,
      List.filterMap_cons]
    cases c.remark? <;> rfl

theorem agrees_line {c c' : Code} (hc : c.remark? = none) (h : c.Alike g c') :
    Agrees g [] Eq (line c) (line c') := by
  have hline := agrees_written h
  rwa [hc] at hline

theorem agrees_nested {told : List String} {act act' : Lower Unit} (h : Agrees g told Eq act act') :
    Agrees g told Eq (nested act) (nested act') := by
  have hdepth : ∀ f : Nat → Nat, Agrees g [] Eq
      (modify fun s => { s with depth := f s.depth } : Lower Unit)
      (modify fun s => { s with depth := f s.depth }) :=
    fun f => .modify (fun _ _ hs => { hs with depth := congrArg f hs.depth })
      fun _ => (List.append_nil _).symm
  exact (hdepth (· + 1)).bind fun _ _ _ => h.before fun _ _ _ => hdepth (· - 1)

/-! ## Diagnostics -/

theorem agrees_report (severity : Severity) {place place' : Nat × Nat} {rule message message' : String}
    (hrule : rule ≠ Diagnostic.programUnit) (hplace : place' = (g.line place.1, place.2))
    (h : g.text message = g.text message') :
    Agrees g [] Eq (report severity place rule message) (report severity place' rule message') := by
  subst hplace
  refine .modify (fun s s' hs => { hs with diagnostics := ?_ }) fun _ => (List.append_nil _).symm
  exact List.rel_append hs.diagnostics (.cons ⟨rfl, rfl, ⟨place.1, rfl, rfl⟩, rfl, .same hrule h⟩ .nil)

variable {n : Node} {rule message message' : String} (hrule : rule ≠ Diagnostic.programUnit)
  (h : g.text message = g.text message')

include hrule h

theorem agrees_warn (hn : n.Phrase) :
    Agrees g [] Eq (warn n rule message) (warn (n.sketch g) rule message') :=
  agrees_report _ hrule (Node.place_sketch g hn.orderly hn.inside) h

theorem agrees_note (hn : n.Phrase) :
    Agrees g [] Eq (note n rule message) (note (n.sketch g) rule message') :=
  agrees_report _ hrule (Node.place_sketch g hn.orderly hn.inside) h

omit hrule h

/-! ## Comments -/

theorem comment_eq (text : String) : comment text = line (.comment (remark text)) := by
  unfold comment remark
  cases Text.trimChars text.toList with
  | nil => rfl
  | cons c cs =>
    simp only [itemsFrom, if_pos (Nat.le_add_left 1 cs.length), List.length_cons, pure_bind]
    rfl

theorem trimChars_toUpper (cs : List Char) :
    Text.trimChars (cs.map Char.toUpper) = (Text.trimChars cs).map Char.toUpper := by
  have hblank : Caseless Text.isBlank := .of_letters (by decide)
  rw [Text.trimChars, hblank.dropWhile, hblank.dropTrailing, Text.trimChars]

theorem remark_text (text : String) : g.text (remark (g.text text)) = g.text (remark text) := by
  refine g.text_congr (fun s => ?_) text
  rw [remark, toList_toUpper, trimChars_toUpper, remark]
  cases Text.trimChars s.toList with
  | nil => rfl
  | cons c cs =>
    rw [List.map_cons]
    simp only [Text.trim, String.toList_ofList, trimChars_toUpper, ofList_toUpper, List.map_map,
      caseless_toUpper.comp]

theorem agrees_comment (text : String) :
    Agrees g [remark text] Eq (comment text) (comment (g.text text)) := by
  rw [comment_eq, comment_eq]
  exact agrees_written (.comment (remark_text text).symm)

end Lower

namespace Node

/-- The comments among the tokens of a tree. -/
def comments (n : Node) : List Lexeme :=
  n.lexemes.filter (·.kind == .comment)

theorem comments_leaf (i : Nat) (lx : Lexeme) :
    (Node.leaf i lx).comments = if lx.kind == .comment then [lx] else [] := by
  rw [comments, lexemes, List.filter_singleton]
  cases lx.kind == .comment <;> rfl

theorem comments_inner (i : Nat) (l : Label) (cs : List Node) :
    (Node.inner i l cs).comments = cs.flatMap comments := by
  rw [comments, lexemes]
  induction cs with
  | nil => rfl
  | cons c cs ih => rw [lexemesOf, List.filter_append, ih, List.flatMap_cons, comments]

/-- All comments show in a sketch. -/
theorem comments_sketch (g : Guise) (n : Node) : (n.sketch g).comments = n.comments.map g.lexeme := by
  induction n using Node.induction with
  | leaf i lx =>
    rw [sketch_leaf, comments_leaf, comments_leaf, Guise.kind_lexeme]
    split <;> rfl
  | inner i l cs ih =>
    have hcs : (cs.map (sketch g)).flatMap comments = (cs.flatMap comments).map g.lexeme := by
      rw [List.flatMap_map, List.map_flatMap]
      exact List.flatMap_congr ih
    by_cases hl : l = .endOfStmt
    · subst hl
      rw [sketch_end, comments_inner, comments_inner, ← hcs]
      generalize cs.map (sketch g) = ds
      induction ds with
      | nil => rfl
      | cons d ds ihd =>
        cases hd : d.remains with
        | true => rw [List.filter_cons_of_pos hd, List.flatMap_cons, List.flatMap_cons, ihd]
        | false =>
          have hnone : d.comments = [] := by
            cases d with
            | leaf j lx =>
              rw [comments_leaf, if_neg]
              simpa [remains, isLeaf, hasKind, lexeme?] using hd
            | inner => simp [remains, isLeaf] at hd
          rw [List.filter_cons_of_neg (by simp [hd]), List.flatMap_cons, hnone, List.nil_append, ihd]
    · rw [sketch_inner g hl, comments_inner, comments_inner, hcs]

end Node

namespace Lower

variable {g : Guise}

/-- What the comments at the end of a statement tell. -/
def trailingRemarks (stmt : Node) : List String :=
  ((stmt.child? .endOfStmt).map fun e => e.comments.map (remark ·.text)).getD []

theorem agrees_trailing (stmt : Node) :
    Agrees g (trailingRemarks stmt) Eq (trailing stmt) (trailing (stmt.sketch g)) := by
  unfold trailing trailingRemarks
  rw [Node.child?_sketch]
  cases stmt.child? .endOfStmt with
  | none => exact .pure rfl
  | some e =>
    have hcomments := Node.comments_sketch g e
    rw [Node.comments] at hcomments
    have hall : Agrees g (e.comments.flatMap fun lx => [remark lx.text]) Eq
        (e.comments.forM fun lx => comment lx.text)
        ((e.comments.map g.lexeme).forM fun lx => comment lx.text) :=
      .forM fun lx _ => agrees_comment lx.text
    simp only [Option.map_some, Option.getD_some, hcomments]
    rwa [← List.map_eq_flatMap] at hall

/-! ## Names -/

theorem agrees_spell (x : String) :
    Agrees g [] (fun w w' => w' = g.text w) (spell x) (spell (g.text x)) := by
  refine agrees_table.bind ?_
  rintro t _ rfl
  exact (agrees_modifyTable (g.spell_table x)).bind fun _ _ _ => .pure (g.spelling_table x t)

theorem escaped_text (w : String) : escaped (g.text w) = g.text (escaped w) := by
  have hmark : g.text "_" = "_" := g.text_of_letterless (by decide)
  unfold escaped
  rw [g.toLower_text]
  split
  · rw [g.text_append, hmark]
  · rfl

theorem agrees_callee (x : String) :
    Agrees g [] (fun w w' => w' = g.text w) (callee x) (callee (g.text x)) :=
  (agrees_spell x).bind fun w _ hw => .pure (by rw [hw, escaped_text])

theorem agrees_isResult (x : String) : Agrees g [] Eq (isResult x) (isResult (g.text x)) :=
  agrees_unit.bind fun u u' hu => .pure (by rw [hu.kind, hu.name, g.nameKey_text, g.nameKey_text])

theorem agrees_ident (x : String) :
    Agrees g [] (fun w w' => w' = g.text w) (ident x) (ident (g.text x)) := by
  have hmark : g.text "_" = "_" := g.text_of_letterless (by decide)
  refine (agrees_isResult x).bind ?_
  rintro isResult _ rfl
  refine .ite Iff.rfl (fun _ => ?_) fun _ => agrees_callee x
  exact (agrees_spell x).bind fun w _ hw => .pure (by rw [hw, g.text_append, hmark])

theorem agrees_binding : Agrees g [] Eq binding binding :=
  agrees_unit.bind fun u u' hu => .pure (by rw [hu.isGlobal])

/-! ## Parts of lists -/

variable {α β : Type} {R : α → β → Prop} {xs : List α} {ys : List β}

theorem agrees_itemsFrom (n : Nat) (h : List.Forall₂ R xs ys) :
    Agrees g [] (List.Forall₂ R) (itemsFrom n xs) (itemsFrom n ys) := by
  unfold itemsFrom
  rw [h.length_eq]
  split
  · exact .pure (List.forall₂_drop n h)
  · exact .throw _

theorem agrees_itemsUpTo (n : Nat) (h : List.Forall₂ R xs ys) :
    Agrees g [] (List.Forall₂ R) (itemsUpTo n xs) (itemsUpTo n ys) := by
  unfold itemsUpTo
  rw [h.length_eq]
  split
  · exact .pure (List.forall₂_take n h)
  · exact .throw _

end Lower

end FortranJulia
