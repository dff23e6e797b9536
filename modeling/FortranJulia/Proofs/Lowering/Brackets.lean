import FortranJulia.Proofs.Lowering.Blocks
import FortranJulia.Proofs.Lowering.Calls

/-!
The brackets of a unit: which blocks its code opens, divides and closes, one after the other. They are
read off the source list by list, where a loop is closed by the statement of its own list that carries
its label. The lowering closes loops by their depth, whatever list they were opened in. The two agree
as long as no part of an IF block leaves a loop open: then the loops at the right depth are those that
the list at hand has opened.
-/

namespace FortranJulia

set_option autoImplicit false

open Julia (Expr Code Line)

/-! ## Brackets of code -/

namespace Julia

/-- A block of code. -/
inductive Block where
  | routine
  | branch
  | loop (label : String)
  deriving DecidableEq, Repr

/-- What a line does to the blocks around it. -/
inductive Bracket where
  | opens (block : Block)
  | resumes
  | closes (block : Block)
  deriving DecidableEq, Repr

namespace Bracket

/-- Does the line do this? -/
def fits : Bracket → Code → Bool
  | .opens .routine, .functionHead _ _ => true
  | .opens .branch, .ifHead _ => true
  | .opens (.loop _), .forHead _ _ => true
  | .resumes, c => c.resumes
  | .closes _, c => c.closes
  | _, _ => false

/-- Is a block open before the line that the line divides or closes? -/
def before : Bracket → Nat
  | .opens _ => 0
  | _ => 1

/-- Is the block of the line open behind it? -/
def behind : Bracket → Nat
  | .closes _ => 0
  | _ => 1

/-- The blocks that are open behind a line, innermost first. It divides or closes the innermost block
only, and only an IF block can be divided. -/
def nest : Bracket → List Block → Option (List Block)
  | .opens block, around => some (block :: around)
  | .resumes, .branch :: around => some (.branch :: around)
  | .closes block, inner :: around => if block = inner then some around else none
  | _, _ => none

end Bracket

/-- The blocks that are open behind some lines. -/
def nest (around : List Block) (bs : List Bracket) : Option (List Block) :=
  bs.foldlM (fun blocks b => b.nest blocks) around

/-- The lines do what the brackets say, one after the other, with `d` blocks open before and `e` behind
them. What stands between two of these lines opens no block that it does not close, and the other way
round. -/
inductive Bracketed : Nat → List Bracket → List Line → Nat → Prop where
  | stop {d : Nat} {between : List Line} (h : levels d d between = some d) : Bracketed d [] between d
  | next {d e : Nat} {b : Bracket} {bs : List Bracket} {c : Code} {between rest : List Line}
    (h : levels (d + b.before) (d + b.before) between = some (d + b.before)) (hc : b.fits c)
    (hrest : Bracketed (d + b.behind) bs rest e) :
    Bracketed (d + b.before) (b :: bs) (between ++ .code d c :: rest) e

namespace Bracketed

variable {d e f : Nat} {bs cs : List Bracket} {ls ks : List Line}

theorem complete {before : List Line} (h : levels d d before = some d) (h' : Bracketed d bs ls e) :
    Bracketed d bs (before ++ ls) e := by
  have happend : ∀ {d : Nat} {xs ys : List Line}, levels d d xs = some d → levels d d ys = some d →
      levels d d (xs ++ ys) = some d := by
    intro d xs ys hxs hys
    rw [levels_append, hxs]
    exact hys
  cases h' with
  | stop hbetween => exact .stop (happend h hbetween)
  | next hbetween hc hrest =>
    rw [← List.append_assoc]
    exact .next (happend h hbetween) hc hrest

theorem trans (h : Bracketed d bs ls e) (h' : Bracketed e cs ks f) :
    Bracketed d (bs ++ cs) (ls ++ ks) f := by
  induction h with
  | stop hbetween => exact complete hbetween h'
  | next hbetween hc _ ih =>
    rw [List.append_assoc]
    exact .next hbetween hc (ih h')

theorem line {b : Bracket} {c : Code} (hc : b.fits c) (d : Nat) :
    Bracketed (d + b.before) [b] [.code d c] (d + b.behind) := by
  have hnone : levels (d + b.before) (d + b.before) [] = some (d + b.before) := rfl
  exact .next hnone hc (.stop rfl)

end Bracketed

end Julia

open Julia (Block Bracket Bracketed)

/-! ## Brackets of the source -/

namespace Node

/-- The label of the loop that a statement opens, if it opens one. -/
def opened (stmt : Node) : List String :=
  if stmt.hasLabel .labelDoStmt && (stmt.child? .loopControl).isSome then
    [labelKey (Lower.childText stmt .doLblRef)]
  else []

/-- The label that a statement carries, which is that of its END IF if it is a block. -/
def closing (stmt : Node) : String :=
  if stmt.hasLabel .ifConstruct then (stmt.children.getLast?.map Lower.labelOf).getD ""
  else Lower.labelOf stmt

/-- Do loops with the label end with the statement? -/
def ends (stmt : Node) (label : String) : Bool :=
  stmt.closing != "" && label == stmt.closing

/-- The labels of the loops that a list of statements leaves open, innermost first, if it has opened
those with the labels `own` so far. -/
def openLoops (own : List String) : List Node → List String
  | [] => own
  | stmt :: rest => openLoops ((stmt.opened ++ own).dropWhile stmt.ends) rest

/-- What the line of a statement between the parts of an IF block does. -/
def markBrackets : Label → List Bracket
  | .ifThenStmt => [.opens .branch]
  | .elseIfStmt | .elseStmt => [.resumes]
  | .endIfStmt => [.closes .branch]
  | _ => []

/-- Loops are opened, the last one innermost. -/
def opens (labels : List String) : List Bracket :=
  labels.map fun label => .opens (.loop label)

/-- Loops are closed, the first one innermost. -/
def closes (labels : List String) : List Bracket :=
  labels.map fun label => .closes (.loop label)

mutual

/-- The brackets of a statement. -/
def brackets : Node → List Bracket
  | .leaf _ _ => []
  | .inner i l cs =>
    match l with
    | .ifConstruct => partBrackets cs
    | .ifStmt => .opens .branch :: (actionBrackets cs ++ [.closes .branch])
    | _ => opens (opened (.inner i l cs))

/-- The brackets of the parts of an IF block. -/
def partBrackets : List Node → List Bracket
  | [] => []
  | .leaf _ _ :: rest => partBrackets rest
  | .inner _ l cs :: rest =>
    (if l == .conditionalBody then listBrackets [] cs else markBrackets l) ++ partBrackets rest

/-- The brackets of the statement of a logical IF. -/
def actionBrackets : List Node → List Bracket
  | [] => []
  | [stmt] => brackets stmt
  | _ :: rest => actionBrackets rest

/-- The brackets of a list of statements that has opened loops with some labels so far. -/
def listBrackets (own : List String) : List Node → List Bracket
  | [] => []
  | stmt :: rest =>
    brackets stmt ++ closes ((stmt.opened ++ own).takeWhile stmt.ends) ++
      listBrackets ((stmt.opened ++ own).dropWhile stmt.ends) rest

end

/-- No part of an IF block leaves a loop open. -/
def Closed (n : Node) : Prop :=
  ∀ part ∈ n.findAll .conditionalBody, openLoops [] part.children = []

theorem Closed.child {n m : Node} (h : n.Closed) (hm : m ∈ n.children) : m.Closed := by
  intro part hpart
  obtain ⟨hmem, hlabel⟩ := List.mem_filter.1 hpart
  exact h part (List.mem_filter.2 ⟨nodes_trans (nodes_child hm) hmem, hlabel⟩)

theorem Closed.grandchildren {n m : Node} {l : Label} (h : n.Closed)
    (hm : m ∈ Lower.grandchildren n l) : m.Closed := by
  unfold Lower.grandchildren at hm
  cases hc : n.child? l with
  | none => simp [hc] at hm
  | some c =>
    rw [hc, Option.map_some, Option.getD_some] at hm
    have hmem : c ∈ n.children := List.mem_of_find?_eq_some hc
    exact (h.child hmem).child hm

theorem Closed.part {n : Node} (h : n.Closed) (hlabel : n.hasLabel .conditionalBody) :
    openLoops [] n.children = [] :=
  h n (List.mem_filter.2 ⟨nodes_self n, hlabel⟩)

theorem partBrackets_mark {part : Node} {l : Label} (hl : part.label? = some l)
    (hne : l ≠ .conditionalBody) (rest : List Node) :
    partBrackets (part :: rest) = markBrackets l ++ partBrackets rest := by
  cases part with
  | leaf => cases hl
  | inner k l' cs =>
    obtain rfl : l' = l := Option.some.inj hl
    rw [partBrackets, if_neg (by simpa using hne)]

theorem partBrackets_body {part : Node} (hl : part.hasLabel .conditionalBody) (rest : List Node) :
    partBrackets (part :: rest) = listBrackets [] part.children ++ partBrackets rest := by
  cases part with
  | leaf => cases hl
  | inner k l cs =>
    obtain rfl : l = .conditionalBody := by simpa [hasLabel, label?] using hl
    rw [partBrackets, if_pos (beq_self_eq_true _)]
    rfl

end Node

/-! ## Lists of statements in a state -/

/-- Loops that were opened one inside the other, the outermost one at a depth. -/
def Stacked (base : Nat) : List OpenLoop → Prop
  | [] => True
  | loop :: rest => loop.depth = base + rest.length ∧ Stacked base rest

theorem Stacked.below {base : Nat} {own : List OpenLoop} (h : Stacked base own) :
    ∀ loop ∈ own, loop.depth < base + own.length := by
  induction own with
  | nil => simp
  | cons loop rest ih =>
    obtain ⟨hdepth, hrest⟩ := h
    intro other hmem
    rw [List.length_cons]
    rcases List.mem_cons.1 hmem with rfl | hmem
    · omega
    · have hother := ih hrest other hmem
      omega

/-- In the state the list of statements at a depth has opened the loops with some labels. The loops
that were open before it are too far out to be closed in it. -/
structure Stands (base : Nat) (outer : List OpenLoop) (labels : List String) (s : LowerState) :
    Prop where
  depth : s.depth = base + labels.length
  loops : ∃ own, s.unit.loops = own ++ outer ∧ own.map (·.label) = labels ∧ Stacked base own
  outer : ∀ loop ∈ outer, loop.depth + 1 < base

/-- Between the states the loops with some warnings are reported to be left open, and no others. -/
def Warns (ws : List Diagnostic) (s t : LowerState) : Prop :=
  ∃ found, t.diagnostics = s.diagnostics ++ found ∧
    found.filter (·.rule == Label.labelDoStmt.name) = ws

theorem Warns.of_eq {s t : LowerState} (h : t.diagnostics = s.diagnostics) : Warns [] s t :=
  ⟨[], by rw [h, List.append_nil], rfl⟩

theorem Warns.trans {ws vs : List Diagnostic} {s t u : LowerState} (h : Warns ws s t)
    (h' : Warns vs t u) : Warns (ws ++ vs) s u := by
  obtain ⟨found, hfound, hws⟩ := h
  obtain ⟨others, hothers, hvs⟩ := h'
  refine ⟨found ++ others, by rw [hothers, hfound, List.append_assoc], ?_⟩
  rw [List.filter_append, hws, hvs]

/-- A step whose lines do what the brackets say, of which `i` other blocks are open before and `j`
behind it, and which reports some loops. -/
structure Lays (bs : List Bracket) (ws : List Diagnostic) (i j : Nat) (s t : LowerState) : Prop where
  lines : ∃ new, t.lines = new.reverse ++ s.lines ∧ Bracketed (s.depth + i) bs new (t.depth + j)
  reports : Warns ws s t

section Steps

variable {base i j k : Nat} {outer : List OpenLoop} {labels : List String} {bs cs : List Bracket}
  {s t u : LowerState}

namespace Stands

theorem congr (h : Stands base outer labels s) (hdepth : t.depth = s.depth)
    (hloops : t.unit.loops = s.unit.loops) : Stands base outer labels t :=
  ⟨hdepth.trans h.depth, by rw [hloops]; exact h.loops, h.outer⟩

/-- A part of an IF block starts a list of its own one level deeper. -/
theorem deeper (h : Stands base outer labels s) :
    Stands (s.depth + 1) s.unit.loops [] (Lower.deeper s) := by
  obtain ⟨own, hloops, hlabels, hstacked⟩ := h.loops
  have hlength : own.length = labels.length := by rw [← hlabels, List.length_map]
  refine ⟨rfl, ⟨[], rfl, rfl, trivial⟩, fun loop hmem => ?_⟩
  rw [hloops] at hmem
  have hdepth := h.depth
  rcases List.mem_append.1 hmem with hmem | hmem
  · have hbelow := hstacked.below loop hmem
    omega
  · have houter := h.outer loop hmem
    omega

theorem openLoop (h : Stands base outer labels s) (v : String) (r : Expr) (loop : OpenLoop)
    (hloop : loop.depth = s.depth) : Stands base outer (loop.label :: labels) (s.openLoop v r loop) := by
  obtain ⟨own, hloops, hlabels, hstacked⟩ := h.loops
  have hlength : own.length = labels.length := by rw [← hlabels, List.length_map]
  refine ⟨?_, ⟨loop :: own, ?_, ?_, ?_, hstacked⟩, h.outer⟩
  · show s.depth + 1 = base + (labels.length + 1)
    rw [h.depth, Nat.add_assoc]
  · show loop :: s.unit.loops = loop :: own ++ outer
    rw [hloops, List.cons_append]
  · rw [List.map_cons, hlabels]
  · rw [hloop, h.depth, hlength]

end Stands

namespace Lays

variable {ws vs : List Diagnostic}

theorem refl (s : LowerState) : Lays [] [] i i s s :=
  ⟨⟨[], rfl, .stop rfl⟩, .of_eq rfl⟩

theorem trans (h : Lays bs ws i j s t) (h' : Lays cs vs j k t u) :
    Lays (bs ++ cs) (ws ++ vs) i k s u := by
  obtain ⟨new, hnew, hlines⟩ := h.lines
  obtain ⟨new', hnew', hlines'⟩ := h'.lines
  refine ⟨⟨new ++ new', ?_, hlines.trans hlines'⟩, h.reports.trans h'.reports⟩
  rw [hnew', hnew, List.reverse_append, List.append_assoc]

end Lays

theorem Evolves.warns {wide : Prop} (h : Evolves wide i j s t) : Warns [] s t := by
  obtain ⟨found, hfound, hrules⟩ := h.diagnostics
  refine ⟨found, hfound, List.filter_eq_nil_iff.2 (fun d hd => ?_)⟩
  simpa using hrules d hd

theorem Evolves.lays {wide : Prop} (h : Evolves wide 0 0 s t) : Lays [] [] 0 0 s t := by
  obtain ⟨new, hnew, hlevels, -⟩ := h.lines
  refine ⟨⟨new, hnew, ?_⟩, h.warns⟩
  rw [h.depth]
  exact .stop hlevels

end Steps

instance : Nonempty Expr :=
  ⟨.verbatim ""⟩

namespace Lower

variable {wide : Prop} {i j k : Nat} {labels labels' labels'' : List String} {bs cs : List Bracket}

/-- The open blocks around the code of a list of statements: `i` IF blocks inside the loops with some
labels. -/
def stack (labels : List String) (i : Nat) (around : List Block) : List Block :=
  List.replicate i .branch ++ (labels.map .loop ++ around)

/-- Among statements that have opened loops with some labels, the action succeeds and does what the
brackets say, which are nested as they have to be. -/
structure Draws (labels labels' : List String) (i j : Nat) (bs : List Bracket) {α : Type}
    (act : Lower α) : Prop where
  nests : ∀ around, Julia.nest (stack labels i around) bs = some (stack labels' j around)
  run : ∀ base outer s, s.Open → Stands base outer labels s →
    act.Does s fun _ t => t.Open ∧ Stands base outer labels' t ∧ Lays bs [] i j s t

/-- A step that opens and closes no loop. -/
theorem Moves.draws {α : Type} {act : Lower α} (h : Moves wide 0 0 act) :
    Draws labels labels 0 0 [] act := by
  refine ⟨fun _ => rfl, fun base outer s hs hstands => (h s hs).imp (fun _ t hst => ?_)⟩
  exact ⟨(hst.settled hs).1, hstands.congr hst.depth hst.loops, hst.lays⟩

namespace Draws

variable {α β : Type} {act : Lower α} {f : α → Lower β}

theorem pure (a : α) : Draws labels labels i i [] (Pure.pure a : Lower α) :=
  ⟨fun _ => rfl, fun _ _ s hs hstands => ⟨a, s, rfl, hs, hstands, .refl s⟩⟩

theorem bind [Nonempty α] (h : Draws labels labels' i j bs act)
    (h' : ∀ a, Draws labels' labels'' j k cs (f a)) :
    Draws labels labels'' i k (bs ++ cs) (act >>= f) := by
  refine ⟨fun around => ?_, fun base outer s hs hstands => ?_⟩
  · have a : α := Classical.ofNonempty
    rw [Julia.nest, List.foldlM_append]
    exact Option.bind_eq_some_iff.2 ⟨_, h.nests around, (h' a).nests around⟩
  · refine (h.run base outer s hs hstands).bind (fun a t ht => ?_)
    obtain ⟨htopen, htstands, hst⟩ := ht
    refine ((h' a).run base outer t htopen htstands).imp (fun _ u hu => ?_)
    exact ⟨hu.1, hu.2.1, hst.trans hu.2.2⟩

/-- A step without brackets comes first. -/
theorem after [Nonempty α] (h : Draws labels labels i i [] act)
    (h' : ∀ a, Draws labels labels' i j bs (f a)) : Draws labels labels' i j bs (act >>= f) :=
  h.bind h'

/-- A step without brackets follows. -/
theorem before [Nonempty α] (h : Draws labels labels' i j bs act)
    (h' : ∀ a, Draws labels' labels' j j [] (f a)) : Draws labels labels' i j bs (act >>= f) := by
  have hboth := h.bind h'
  rwa [List.append_nil] at hboth

theorem forM {xs : List α} {f : α → Lower Unit} (h : ∀ x ∈ xs, Draws labels labels i i [] (f x)) :
    Draws labels labels i i [] (xs.forM f) := by
  induction xs with
  | nil => exact pure ()
  | cons x xs ih =>
    show Draws labels labels i i [] (f x >>= fun _ => xs.forM f)
    exact after (h x (by simp)) (fun _ => ih (fun y hy => h y (by simp [hy])))

/-- A list of statements of its own, one level deeper. -/
theorem nested {act : Lower Unit} (h : Draws [] [] 0 0 bs act) :
    Draws labels labels 1 1 bs (nested act) := by
  refine ⟨fun around => h.nests (stack labels 1 around), fun base outer s hs hstands => ?_⟩
  obtain ⟨_, t, hrun, ht, hinner, hlays⟩ :=
    h.run (s.depth + 1) s.unit.loops (deeper s) ⟨hs.unit, hs.spelled⟩ hstands.deeper
  have hdepth : t.depth = s.depth + 1 := hinner.depth
  have hloops : t.unit.loops = s.unit.loops := by
    obtain ⟨own, hown, hlabels, -⟩ := hinner.loops
    rw [hown, List.map_eq_nil_iff.1 hlabels, List.nil_append]
  obtain ⟨new, hnew, hlines⟩ := hlays.lines
  refine ⟨(), { t with depth := t.depth - 1 }, ?_, ⟨ht.unit, ht.spelled⟩,
    hstands.congr ?_ hloops, ⟨new, hnew, ?_⟩, hlays.reports⟩
  · show (act >>= fun _ => _).run (deeper s) = _
    rw [run_bind_ok hrun]
    rfl
  · show t.depth - 1 = s.depth
    rw [hdepth, Nat.add_sub_cancel]
  · show Bracketed (s.depth + 1) bs new (t.depth - 1 + 1)
    rw [hdepth, Nat.add_sub_cancel]
    rw [hdepth] at hlines
    exact hlines

end Draws

/-! ## Lines -/

/-- A line that opens, divides or closes an IF block. -/
theorem draws_line {b : Bracket} {c : Code} (hc : b.fits c) (hnests : ∀ around,
    b.nest (List.replicate b.before .branch ++ around) =
      some (List.replicate b.behind .branch ++ around)) :
    Draws labels labels b.before b.behind [b] (line c) := by
  refine ⟨fun around => ?_, fun base outer s hs hstands => ?_⟩
  · rw [Julia.nest, List.foldlM_cons, stack, hnests]
    rfl
  · refine ⟨(), { s with lines := .code s.depth c :: s.lines }, rfl, ⟨hs.unit, hs.spelled⟩,
      hstands.congr rfl rfl, ⟨[.code s.depth c], rfl, ?_⟩, .of_eq rfl⟩
    exact .line hc s.depth

/-- A comment may stand next to the head of its block. -/
theorem draws_comment (text : String) (hi : i ≤ 1) : Draws labels labels i i [] (comment text) := by
  have hline : ∀ c : String, Draws labels labels i i [] (line (.comment c)) := by
    refine fun c => ⟨fun _ => rfl, fun base outer s hs hstands => ?_⟩
    refine ⟨(), { s with lines := .code s.depth (.comment c) :: s.lines }, rfl,
      ⟨hs.unit, hs.spelled⟩, hstands.congr rfl rfl, ⟨[.code s.depth (.comment c)], rfl, .stop ?_⟩,
      .of_eq rfl⟩
    obtain rfl | rfl := Nat.le_one_iff_eq_zero_or_eq_one.1 hi <;>
      simp [Julia.levels, Line.level, Code.opens, Code.resumes, Code.closes, Code.isComment]
  unfold comment
  split
  · exact hline _
  · rename_i hne
    have hlen : 1 ≤ (Text.trimChars text.toList).length := List.length_pos_iff.2 hne
    rw [itemsFrom, if_pos hlen]
    exact hline _

theorem draws_trailing (stmt : Node) (hi : i ≤ 1) : Draws labels labels i i [] (trailing stmt) := by
  unfold trailing
  split
  · exact .pure ()
  · exact .forM (fun lx _ => draws_comment lx.text hi)

/-- A condition is written without any lines. -/
theorem draws_condition {stmt : Node} (h : stmt.Sound wide) :
    Draws labels labels i i [] (condition stmt) := by
  have hquiet : ∀ s, (condition stmt).Does s fun _ t => Quiet s t := by
    intro s
    unfold condition
    split
    · rename_i e he
      obtain ⟨v, hv⟩ := Option.isSome_iff_exists.1
        ((h.child? he).expression? (Node.hasLabel_child? he))
      have hrun : exprOf e = expr v := by
        rw [exprOf, expressionOf, hv]
        rfl
      rw [hrun]
      exact (writing_settles.expr v s).imp (fun _ _ hst => hst.1)
    · exact ⟨_, s, rfl, .refl s⟩
  refine ⟨fun _ => rfl, fun base outer s hs hstands => ?_⟩
  refine ((hquiet s).and (moves_condition (i := 0) h s hs)).imp (fun _ t hst => ?_)
  obtain ⟨⟨-, hdepth, hlines⟩, hevolves⟩ := hst
  refine ⟨(hevolves.settled hs).1, hstands.congr hevolves.depth hevolves.loops,
    ⟨[], hlines, ?_⟩, hevolves.warns⟩
  rw [hdepth]
  exact .stop rfl

/-! ## Loops -/

theorem draws_doStmt {stmt : Node} (h : stmt.Sound wide) (hlabel : stmt.hasLabel .labelDoStmt) :
    Draws labels (stmt.opened ++ labels) 0 0 (Node.opens stmt.opened) (doStmt stmt) := by
  cases hcontrol : stmt.child? .loopControl with
  | none =>
    have hopened : stmt.opened = [] := by simp [Node.opened, hcontrol]
    have hnone : doStmt stmt = Pure.pure () := by rw [doStmt, hcontrol]
    rw [hopened, hnone]
    exact .pure ()
  | some control =>
    have hopened : stmt.opened = [labelKey (childText stmt .doLblRef)] := by
      simp [Node.opened, hcontrol, hlabel]
    rw [hopened]
    refine ⟨fun _ => rfl, fun base outer s hs hstands => ?_⟩
    obtain ⟨t, v, r, hst, hrun⟩ := doStmt_run h hcontrol hs
    have hpasses : Passes wide t (t.openLoop v r (loopOf stmt t.depth)) := passes_openLoop t v r _
    have hhead : Lays [.opens (.loop (labelKey (childText stmt .doLblRef)))] [] 0 0 t
        (t.openLoop v r (loopOf stmt t.depth)) :=
      ⟨⟨[.code t.depth (.forHead v r)], rfl, .line (b := .opens (.loop _)) rfl t.depth⟩, .of_eq rfl⟩
    exact ⟨(), _, hrun, (hpasses.settled (hst.settled hs).1).1,
      (hstands.congr hst.depth hst.loops).openLoop v r (loopOf stmt t.depth) rfl,
      hst.lays.trans hhead⟩

/-- The innermost loop of a list is closed. -/
theorem closeLoop_stands {base : Nat} {outer : List OpenLoop} {label : String} {s : LowerState}
    (h : Stands base outer (label :: labels) s) :
    ∃ loop rest, s.unit.loops = loop :: rest ∧ loop.label = label ∧ loop.depth + 1 = s.depth ∧
      Stands base outer labels (s.closeLoop rest) ∧
      Lays [.closes (.loop label)] [] 0 0 s (s.closeLoop rest) := by
  obtain ⟨own, hloops, hlabels, hstacked⟩ := h.loops
  obtain ⟨loop, own, rfl, hlabel, hrest⟩ := List.map_eq_cons_iff.1 hlabels
  have hlength : own.length = labels.length := by rw [← hrest, List.length_map]
  have hdepth : s.depth = base + labels.length + 1 := h.depth
  refine ⟨loop, own ++ outer, hloops, hlabel, ?_, ⟨?_, ⟨own, rfl, hrest, hstacked.2⟩, h.outer⟩,
    ⟨[.code (s.depth - 1) .close], rfl, ?_⟩, .of_eq rfl⟩
  · rw [hstacked.1, hdepth, hlength]
  · show s.depth - 1 = base + labels.length
    rw [hdepth, Nat.add_sub_cancel]
  · show Bracketed s.depth [_] [_] (s.depth - 1)
    rw [hdepth, Nat.add_sub_cancel]
    exact .line (b := .closes _) rfl _

/-- The loops of a list that end with a label are closed, and none from outside it. -/
theorem draws_closeLoops (label : String) :
    Draws labels (labels.dropWhile (· == label)) 0 0
      (Node.closes (labels.takeWhile (· == label)))
      (Lower.unit >>= fun u => closeLoops label u.loops) := by
  refine ⟨fun around => ?_, fun base outer s hs hstands => Does.unit ?_⟩
  · induction labels with
    | nil => rfl
    | cons first rest ih =>
      cases hfirst : first == label with
      | false => simp [hfirst, Node.closes, Julia.nest, stack]
      | true =>
        simpa [hfirst, Node.closes, Julia.nest, stack, Bracket.nest] using ih
  · induction labels generalizing s with
    | nil =>
      obtain ⟨own, hloops, hlabels, -⟩ := hstands.loops
      obtain rfl := List.map_eq_nil_iff.1 hlabels
      rw [List.nil_append] at hloops
      rw [hloops]
      cases outer with
      | nil => exact ⟨(), s, rfl, hs, hstands, .refl s⟩
      | cons loop rest =>
        -- The next loop was opened further out.
        have hfar : ¬ (loop.label = label ∧ loop.depth + 1 = s.depth) := by
          have houter := hstands.outer loop (by simp)
          have hdepth : s.depth = base := hstands.depth
          omega
        refine ⟨(), s, ?_, hs, hstands, .refl s⟩
        rw [closeLoops_cons label hloops, if_neg hfar]
    | cons first rest ih =>
      obtain ⟨loop, others, hloops, hlabel, hdepth, hclosed, hlays⟩ := closeLoop_stands hstands
      rw [hloops]
      unfold Does
      rw [closeLoops_cons label hloops]
      cases hfirst : first == label with
      | false =>
        rw [beq_eq_false_iff_ne] at hfirst
        rw [if_neg (by rw [hlabel]; exact fun hsame => hfirst hsame.1)]
        refine ⟨(), s, rfl, hs, ?_, ?_⟩
        · rwa [List.dropWhile_cons_of_neg (by simpa using hfirst)]
        · rw [List.takeWhile_cons_of_neg (by simpa using hfirst)]
          exact .refl s
      | true =>
        rw [if_pos ⟨hlabel.trans (eq_of_beq hfirst), hdepth⟩]
        have hopen : (s.closeLoop others).Open := ⟨hs.unit, hs.spelled⟩
        obtain ⟨_, t, hrun, ht, hstands', hlays'⟩ := ih _ hopen hclosed
        refine ⟨(), t, hrun, ht, ?_, ?_⟩
        · rwa [List.dropWhile_cons_of_pos (by simpa using hfirst)]
        · rw [List.takeWhile_cons_of_pos (by simpa using hfirst)]
          exact hlays.trans hlays'

theorem closingLabel_eq {stmt : Node} (h : stmt.Sound wide) :
    closingLabel stmt = Pure.pure stmt.closing := by
  unfold closingLabel Node.closing lastOf
  split
  · rename_i hl
    cases hlast : stmt.children.getLast? with
    | none => exact absurd (List.getLast?_eq_none_iff.1 hlast) (ifConstruct_ne_nil h hl)
    | some last => rfl
  · rfl

theorem draws_after {stmt : Node} (h : stmt.Sound wide) :
    Draws labels (labels.dropWhile stmt.ends) 0 0 (Node.closes (labels.takeWhile stmt.ends))
      (after stmt) := by
  unfold after
  refine .after (draws_trailing stmt (Nat.zero_le 1)) (fun _ => ?_)
  rw [closingLabel_eq h, pure_bind]
  split
  · rename_i hlabel
    have hends : stmt.ends = (· == stmt.closing) := by
      funext label
      rw [Node.ends, hlabel, Bool.true_and]
    rw [hends]
    exact draws_closeLoops stmt.closing
  · rename_i hlabel
    have hends : stmt.ends = fun _ => false := by
      funext label
      rw [Bool.not_eq_true] at hlabel
      rw [Node.ends, hlabel, Bool.false_and]
    have hnone : labels.takeWhile (fun _ => false) = [] ∧ labels.dropWhile (fun _ => false) = labels := by
      cases labels <;> exact ⟨rfl, rfl⟩
    rw [hends, hnone.1, hnone.2]
    exact .pure ()

/-! ## Statements -/

/-- The lines between the parts of an IF block. -/
theorem draws_ifThen {stmt : Node} (h : stmt.Sound wide) (hl : stmt.label? = some .ifThenStmt) :
    Draws labels labels 0 1 [.opens .branch] (blockMark stmt) := by
  have hmark : Moves wide 0 0 (labelMark stmt) := moves_labelMark stmt
  unfold blockMark
  rw [hl]
  refine .after hmark.draws (fun _ => .after (draws_condition h) (fun c => ?_))
  refine .before ?_ (fun _ => draws_trailing stmt (Nat.le_refl 1))
  exact draws_line (b := .opens .branch) rfl (fun _ => rfl)

theorem draws_else {stmt : Node} (h : stmt.Sound wide)
    (hl : stmt.label? = some .elseIfStmt ∨ stmt.label? = some .elseStmt) :
    Draws labels labels 1 1 [.resumes] (blockMark stmt) := by
  have hline : ∀ {c : Code}, c.resumes → Draws labels labels 1 1 [.resumes] (line c) :=
    fun hc => draws_line (b := .resumes) hc (fun _ => rfl)
  unfold blockMark
  rcases hl with hl | hl
  · rw [hl]
    refine .after (draws_condition h) (fun c => .before (hline rfl) (fun _ => ?_))
    exact draws_trailing stmt (Nat.le_refl 1)
  · rw [hl]
    exact .before (hline rfl) (fun _ => draws_trailing stmt (Nat.le_refl 1))

theorem draws_endIf {stmt : Node} (hl : stmt.label? = some .endIfStmt) :
    Draws labels labels 1 0 [.closes .branch] (blockMark stmt) := by
  have hmark : Moves False 0 0 (labelMark stmt) := moves_labelMark stmt
  unfold blockMark
  rw [hl]
  refine .after hmark.draws.nested (fun _ => .before ?_ (fun _ => ?_))
  · exact draws_line (b := .closes .branch) rfl (fun _ => by simp [Bracket.nest, Bracket.before, Bracket.behind])
  · exact draws_trailing stmt (Nat.zero_le 1)

theorem draws_simple {stmt : Node} (h : stmt.Sound wide) :
    Draws labels (stmt.opened ++ labels) 0 0 (Node.opens stmt.opened) (simple stmt) := by
  by_cases hl : stmt.label? = some .labelDoStmt
  · rw [simple, hl]
    exact draws_doStmt h (by simp [Node.hasLabel, hl])
  · have hopened : stmt.opened = [] := by simp [Node.opened, Node.hasLabel, hl]
    rw [hopened]
    exact (moves_simple h hl).draws

/-- The statement of a logical IF is the last one, and it opens no loop. -/
theorem ifStmt_opened {k : Nat} {cs : List Node} (h : (Node.inner k .ifStmt cs).Sound wide) :
    ∀ n, cs.getLast? = some n → n.opened = [] := by
  have hn : cs.getLast?.any (fun c => !c.hasLabel .labelDoStmt && !c.hasLabel .ifConstruct) = true :=
    (h _ (nodes_self _)).1
  intro n hlast
  rw [hlast] at hn
  simp only [Option.any_some, Bool.and_eq_true, Bool.not_eq_true'] at hn
  rw [Node.opened, hn.1, Bool.false_and]
  rfl

mutual

theorem draws_statement : ∀ n : Node, n.Sound wide → n.Closed → ∀ labels,
    Draws labels (n.opened ++ labels) 0 0 n.brackets (statement n)
  | .leaf k lx, h, _, labels => by
    rw [statement, Node.brackets]
    exact draws_simple h
  | .inner k l cs, h, hclosed, labels => by
    have hcs : ∀ n ∈ cs, n.Sound wide := fun n hn => h.child hn
    have hclosedCs : ∀ n ∈ cs, n.Closed := fun n hn => hclosed.child hn
    unfold Node.brackets
    split
    · have hparts : (cs.head?.any (·.hasLabel .ifThenStmt) && Node.armed cs.tail) = true :=
        (h _ (nodes_self _)).1
      match cs, hcs, hclosedCs, hparts with
      | first :: rest, hcs, hclosedCs, hparts =>
        obtain ⟨hfirst, hrest⟩ := Bool.and_eq_true_iff.1 hparts
        have hlabel : first.label? = some .ifThenStmt := eq_of_beq hfirst
        have harms := draws_arms rest (fun n hn => hcs n (by simp [hn]))
          (fun n hn => hclosedCs n (by simp [hn])) hrest labels
        rw [statement, blocks_mark (by simp [hlabel]), Node.partBrackets_mark hlabel (by decide)]
        exact (draws_ifThen (hcs first (by simp)) hlabel).bind (fun _ => harms)
    · have haction := draws_action cs (ifStmt_ne_nil h) hcs hclosedCs (ifStmt_opened h) []
      rw [statement]
      refine .after (draws_condition h) (fun c => ?_)
      refine Draws.bind (draws_line (b := .opens .branch) rfl (fun _ => rfl)) (fun _ => ?_)
      refine haction.nested.bind (fun _ => ?_)
      exact draws_line (b := .closes .branch) rfl
        (fun _ => by simp [Bracket.nest, Bracket.before, Bracket.behind])
    · rename_i hconstruct hlogical
      rw [statement]
      · exact draws_simple h
      · exact hconstruct
      · exact hlogical

/-- What follows a condition of an IF block closes it. -/
theorem draws_arms : ∀ ns : List Node, (∀ n ∈ ns, n.Sound wide) → (∀ n ∈ ns, n.Closed) →
    Node.armed ns → ∀ labels, Draws labels labels 1 0 (Node.partBrackets ns) (blocks ns)
  | [], _, _, h, _ => by cases h
  | [_], _, _, h, _ => by cases h
  | .leaf k lx :: [_], _, _, h, _ => by cases h
  | .leaf k lx :: _ :: _ :: _, _, _, h, _ => by cases h
  | .inner k l cs :: [last], hns, hclosed, h, labels => by
    obtain ⟨hbody, hlast⟩ := Bool.and_eq_true_iff.1 h
    have hlabel : last.label? = some .endIfStmt := eq_of_beq hlast
    have hthis := hns (.inner k l cs) (by simp)
    have hclosedThis := hclosed (.inner k l cs) (by simp)
    have hlist := draws_statements cs (fun n hn => hthis.child hn) (fun n hn => hclosedThis.child hn) []
    rw [show Node.openLoops [] cs = [] from hclosedThis.part hbody] at hlist
    rw [blocks_body hbody, blocks_mark (by simp [hlabel]), blocks, Node.partBrackets_body hbody,
      Node.partBrackets_mark hlabel (by decide)]
    refine hlist.nested.bind (fun _ => ?_)
    exact (draws_endIf hlabel).bind (fun _ => .pure ())
  | .inner k l cs :: next :: third :: rest, hns, hclosed, h, labels => by
    simp only [Node.armed, Bool.and_eq_true, Bool.or_eq_true] at h
    obtain ⟨⟨hbody, hnext⟩, hrest⟩ := h
    have hlabel : next.label? = some .elseIfStmt ∨ next.label? = some .elseStmt :=
      hnext.imp eq_of_beq eq_of_beq
    have hthis := hns (.inner k l cs) (by simp)
    have hclosedThis := hclosed (.inner k l cs) (by simp)
    have hlist := draws_statements cs (fun n hn => hthis.child hn) (fun n hn => hclosedThis.child hn) []
    rw [show Node.openLoops [] cs = [] from hclosedThis.part hbody] at hlist
    have harms := draws_arms (third :: rest) (fun n hn => hns n (by simp_all))
      (fun n hn => hclosed n (by simp_all)) hrest labels
    have hmark : Node.partBrackets (next :: third :: rest) =
        .resumes :: Node.partBrackets (third :: rest) := by
      rcases hlabel with hl | hl <;> exact Node.partBrackets_mark hl (by decide) _
    rw [blocks_body hbody, blocks_mark (by rcases hlabel with hl | hl <;> simp [hl]),
      Node.partBrackets_body hbody, hmark]
    refine hlist.nested.bind (fun _ => ?_)
    exact (draws_else (hns next (by simp)) hlabel).bind (fun _ => harms)

theorem draws_action : ∀ ns : List Node, ns ≠ [] → (∀ n ∈ ns, n.Sound wide) → (∀ n ∈ ns, n.Closed) →
    (∀ n, ns.getLast? = some n → n.opened = []) → ∀ labels,
      Draws labels labels 0 0 (Node.actionBrackets ns) (action ns)
  | [], hne, _, _, _, _ => absurd rfl hne
  | [stmt], _, h, hclosed, hopened, labels => by
    have hcollect : Moves wide 0 0 (collect stmt) := moves_collect stmt
    have hstmt := draws_statement stmt (h stmt (by simp)) (hclosed stmt (by simp)) labels
    rw [hopened stmt rfl, List.nil_append] at hstmt
    rw [action, Node.actionBrackets]
    refine .after hcollect.draws (fun _ => .before hstmt (fun _ => ?_))
    exact draws_trailing stmt (Nat.zero_le 1)
  | n :: m :: rest, _, h, hclosed, hopened, labels => by
    rw [action, Node.actionBrackets]
    · exact draws_action (m :: rest) (by simp) (fun k hk => h k (by simp [hk]))
        (fun k hk => hclosed k (by simp [hk])) (fun k hk => hopened k (by simpa using hk)) labels
    · simp
    · simp

theorem draws_statements : ∀ ns : List Node, (∀ n ∈ ns, n.Sound wide) → (∀ n ∈ ns, n.Closed) →
    ∀ labels, Draws labels (Node.openLoops labels ns) 0 0 (Node.listBrackets labels ns) (statements ns)
  | [], _, _, labels => by
    rw [statements, Node.openLoops, Node.listBrackets]
    exact .pure ()
  | stmt :: rest, h, hclosed, labels => by
    have hstmt := h stmt (by simp)
    have hbefore : Moves wide 0 0 (before stmt) := moves_before stmt
    rw [statements, Node.openLoops, Node.listBrackets, List.append_assoc]
    refine .after hbefore.draws (fun _ => ?_)
    refine (draws_statement stmt hstmt (hclosed stmt (by simp)) labels).bind (fun _ => ?_)
    refine (draws_after hstmt).bind (fun _ => ?_)
    exact draws_statements rest (fun n hn => h n (by simp [hn])) (fun n hn => hclosed n (by simp [hn])) _

end

end Lower

end FortranJulia
