import FortranJulia.Proofs.Conversion.Totality
import FortranJulia.Proofs.Likeness.States
import FortranJulia.Proofs.Naming.Programs
import FortranJulia.Proofs.Symbols.Agreement

/-!
Generation is repeatable. A generator that is run again starts with the symbols, the spellings, the block
data and the diagnostics of the first run, so its second run is the first one behind an earlier lowering:
the same lines are written and the same diagnostics are added. Block data is told before the first unit
that asks for it, and units that were left are not looked at again.
-/

namespace FortranJulia

set_option autoImplicit false

open Julia (Expr Code Line)

/-! ## States at rest -/

namespace LowerState

/-- No unit is open. -/
structure Rests (s : LowerState) : Prop where
  opened : s.collection.table.opened = none
  depth : s.depth = 0
  unit : s.unit = {}

/-- What a later lowering finds that starts in the state. -/
def history (s : LowerState) : Past where
  closed := s.collection.table.closed
  errors := s.collection.errors
  diagnostics := s.diagnostics
  blockData := s.blockData
  overflow := s.overflow

/-- The state without a history. -/
def bare (s : LowerState) : LowerState :=
  { s with
    collection := { table := { s.collection.table with closed := [] } }
    diagnostics := []
    blockData := []
    overflow := false }

theorem behind_history (s : LowerState) : s.bare.behind s.history = s := by
  simp [bare, behind, history, Collection.behind, Table.behind]

/-- States at rest with the same units differ in their histories and their lines only. -/
theorem bare_behind {s u : LowerState} (hs : s.Rests) (hu : u.Rests)
    (hglobal : u.collection.table.global = s.collection.table.global) (hlines : u.lines = s.lines) :
    s.bare.behind { u.history with spellings := some u.collection.table.spellings } = u := by
  obtain ⟨⟨⟨_, _, _, _⟩, _⟩, _, _, _, _, _, _⟩ := s
  obtain ⟨⟨⟨_, _, _, _⟩, _⟩, _, _, _, _, _, _⟩ := u
  obtain ⟨rfl, rfl, rfl⟩ := hs
  obtain ⟨rfl, rfl, rfl⟩ := hu
  obtain rfl := hglobal
  obtain rfl := hlines
  simp [bare, behind, history, Collection.behind, Table.behind]

end LowerState

/-! ## Parts of a source -/

namespace Lower

/-- A lowering of parts of a source that succeeded: it adds block data and spellings, leaves no unit open,
and does the same behind an earlier lowering. The keys are those that block data units may give. -/
structure Recurs (keys : List String) (act : Lower Unit) (s t : LowerState) : Prop where
  spellings : s.collection.table.spellings <+: t.collection.table.spellings
  rests : s.Rests → t.Rests
  run : s.blockData ⊆ keys → ∃ added, t.blockData = added ++ s.blockData ∧ added ⊆ keys ∧
    ∀ past : Past, past.Knows t.collection.table.spellings → past.blockData ⊆ keys →
      act.run (s.behind past) = .ok ((), t.behind { past with blockData := added ++ past.blockData })

namespace Recurs

variable {keys : List String} {s t u : LowerState}

/-- A lowering of something that neither adds nor asks for block data. -/
theorem plain {act : Lower Unit} (hspellings : s.collection.table.spellings <+: t.collection.table.spellings)
    (hrests : s.Rests → t.Rests) (hblock : t.blockData = s.blockData)
    (hrun : ∀ past : Past, past.Knows t.collection.table.spellings →
      act.run (s.behind past) = .ok ((), t.behind past)) : Recurs keys act s t :=
  ⟨hspellings, hrests, fun _ => ⟨[], hblock, List.nil_subset _, fun past hknows _ => hrun past hknows⟩⟩

theorem bind {act : Lower Unit} {rest : Lower Unit} (h : Recurs keys act s t)
    (h' : Recurs keys rest t u) : Recurs keys (act >>= fun _ => rest) s u := by
  refine ⟨h.spellings.trans h'.spellings, fun hs => h'.rests (h.rests hs), fun hkeys => ?_⟩
  obtain ⟨added, hblock, hadded, hrun⟩ := h.run hkeys
  have hkeys' : t.blockData ⊆ keys := by
    rw [hblock]
    exact List.append_subset.2 ⟨hadded, hkeys⟩
  obtain ⟨others, hblock', hothers, hrun'⟩ := h'.run hkeys'
  refine ⟨others ++ added, by rw [hblock', hblock, List.append_assoc],
    List.append_subset.2 ⟨hothers, hadded⟩, fun past hknows hpast => ?_⟩
  rw [run_bind_ok (hrun past (hknows.earlier h'.spellings) hpast), List.append_assoc]
  exact hrun' { past with blockData := added ++ past.blockData } hknows
    (List.append_subset.2 ⟨hadded, hpast⟩)

end Recurs

theorem line_recurs (keys : List String) (c : Code) (s : LowerState) :
    Recurs keys (line c) s { s with lines := .code s.depth c :: s.lines } :=
  .plain List.prefix_rfl (fun h => ⟨h.opened, h.depth, h.unit⟩) rfl fun _ _ => rfl

/-- A name that a source consists of. -/
theorem lone_recurs (keys : List String) (name : String) {s t : LowerState}
    (hrun : (callee name >>= fun w => line (.run (.name w))).run s = .ok ((), t)) :
    Recurs keys (callee name >>= fun w => line (.run (.name w))) s t := by
  obtain ⟨-, rfl⟩ := Prod.mk.inj (Except.ok.inj hrun)
  refine .plain (s.collection.table.spell_spellings name) (fun h => ⟨?_, h.depth, h.unit⟩) rfl
    fun past hknows => ?_
  · obtain ⟨more, heq, -⟩ := s.collection.table.spell_eq name
    show (s.collection.table.spell name).opened = none
    rw [heq]
    exact h.opened
  · obtain ⟨hsame, htable⟩ := Table.spell_behind hknows
    show Except.ok ((), { s.behind past with
      collection := { s.collection.behind past with table := (s.collection.table.behind past).spell name }
      lines := .code s.depth (.run (.name (escaped ((s.collection.table.behind past).spelling name)))) ::
        s.lines }) = _
    rw [hsame, htable]
    rfl

/-- A unit, whatever block data was told before, as long as it is the same. -/
theorem programUnit_recurs {whole : Node} {s t : LowerState}
    (hrun : (programUnit whole).run s = .ok ((), t)) :
    s.collection.table.spellings <+: t.collection.table.spellings ∧ t.Rests ∧
      (programUnit whole).Repeats s () t := by
  obtain ⟨hspellings, hrepeats⟩ := programUnit_repeats hrun
  refine ⟨hspellings, ?_, hrepeats⟩
  obtain ⟨_, r, -, hrest⟩ := run_bind_inv hrun
  obtain ⟨_, r', -, hrest⟩ := run_bind_inv hrest
  obtain ⟨_, v, -, hleft⟩ := run_bind_inv hrest
  obtain ⟨-, rfl⟩ := Prod.mk.inj (Except.ok.inj hleft)
  exact ⟨rfl, rfl, rfl⟩

theorem programUnits_recur (units : List Node) : ∀ {s t : LowerState},
    (programUnits units).run s = .ok ((), t) →
      s.collection.table.spellings <+: t.collection.table.spellings ∧ (s.Rests → t.Rests) ∧
        (programUnits units).Repeats s () t := by
  induction units with
  | nil =>
    intro s t hrun
    obtain ⟨-, rfl⟩ := Prod.mk.inj (Except.ok.inj hrun)
    exact ⟨List.prefix_rfl, id, rfl, fun _ _ _ => rfl⟩
  | cons unit rest ih =>
    intro s t hrun
    cases rest with
    | nil =>
      obtain ⟨hspellings, hrests, hrepeats⟩ := programUnit_recurs hrun
      exact ⟨hspellings, fun _ => hrests, hrepeats⟩
    | cons next rest =>
      obtain ⟨_, r, hunit, hlater⟩ := run_bind_inv hrun
      obtain ⟨hspellings, hrests, hrepeats⟩ := programUnit_recurs hunit
      obtain ⟨_, r', hgap, hlater⟩ := run_bind_inv hlater
      obtain ⟨-, rfl⟩ := Prod.mk.inj (Except.ok.inj hgap)
      obtain ⟨hspellings', hrests', hrepeats'⟩ := ih hlater
      refine ⟨hspellings.trans hspellings', fun _ => hrests' ⟨hrests.opened, hrests.depth, hrests.unit⟩,
        hrepeats'.blockData.trans hrepeats.blockData, fun past hknows hpast => ?_⟩
      show (programUnit unit >>= fun _ => _).run _ = _
      rw [run_bind_ok (hrepeats.run past (hknows.earlier hspellings') hpast)]
      exact hrepeats'.run past hknows fun k => (hpast k).trans (by rw [← hrepeats.blockData])

/-- The units of a program are lowered when all of its block data has been told. -/
theorem wholeProgram_recurs {units : List Node} {s t : LowerState}
    (hrun : (wholeProgram units).run s = .ok ((), t)) :
    Recurs (blockDataKeys units) (wholeProgram units) s t := by
  obtain ⟨_, r, htold, hunits⟩ := run_bind_inv hrun
  obtain ⟨-, rfl⟩ := Prod.mk.inj (Except.ok.inj htold)
  obtain ⟨hspellings, hrests, hrepeats⟩ := programUnits_recur _ hunits
  refine ⟨hspellings, fun h => hrests ⟨h.opened, h.depth, h.unit⟩, fun hkeys =>
    ⟨_, hrepeats.blockData, List.Subset.refl _, fun past hknows hpast => ?_⟩⟩
  refine hrepeats.run { past with blockData := blockDataKeys units ++ past.blockData } hknows fun k => ?_
  have hall : ∀ {ks : List String}, ks ⊆ blockDataKeys units →
      (k ∈ blockDataKeys units ++ ks ↔ k ∈ blockDataKeys units) := fun hks => by
    rw [List.mem_append]
    exact or_iff_left_of_imp fun hk => hks hk
  exact (hall hpast).trans (hall hkeys).symm

theorem sourcePart_recurs {keys : List String} {n : Node}
    (h : n.isLeaf ∨ n.hasLabel .executableProgram ∧ blockDataKeys n.children = keys) {s t : LowerState}
    (hrun : (sourcePart n).run s = .ok ((), t)) : Recurs keys (sourcePart n) s t := by
  have hnothing : (Pure.pure () : Lower Unit).run s = .ok ((), t) → Recurs keys (Pure.pure ()) s t := by
    intro hrun
    obtain ⟨-, rfl⟩ := Prod.mk.inj (Except.ok.inj hrun)
    exact .plain List.prefix_rfl id rfl fun _ _ => rfl
  unfold sourcePart at hrun ⊢
  split at hrun
  · split at hrun
    · rw [comment_eq] at hrun ⊢
      obtain ⟨-, rfl⟩ := Prod.mk.inj (Except.ok.inj hrun)
      exact line_recurs keys _ s
    · exact lone_recurs keys _ hrun
    · exact lone_recurs keys _ hrun
    · exact hnothing hrun
  · obtain ⟨-, rfl⟩ := h.resolve_left (by simp [Node.isLeaf])
    exact wholeProgram_recurs hrun
  · exact hnothing hrun

theorem sources_recur {keys : List String} {parts : List Node}
    (h : ∀ n ∈ parts, n.isLeaf ∨ n.hasLabel .executableProgram ∧ blockDataKeys n.children = keys) :
    ∀ {s t : LowerState}, (parts.forM sourcePart).run s = .ok ((), t) →
      Recurs keys (parts.forM sourcePart) s t := by
  induction parts with
  | nil =>
    intro s t hrun
    obtain ⟨-, rfl⟩ := Prod.mk.inj (Except.ok.inj hrun)
    exact .plain List.prefix_rfl id rfl fun _ _ => rfl
  | cons part parts ih =>
    intro s t hrun
    obtain ⟨_, r, hpart, hlater⟩ := run_bind_inv hrun
    exact (sourcePart_recurs (h part (by simp)) hpart).bind (ih (fun n hn => h n (by simp [hn])) hlater)

/-- The parts of a source are lowered a second time as they were the first time: both runs are the one
that starts without a history, behind a history that tells it nothing new. -/
theorem sources_again {wide : Prop} {keys : List String} {parts : List Node}
    (hsound : ∀ n ∈ parts, n.Sound wide)
    (hkeys : ∀ n ∈ parts, n.isLeaf ∨ n.hasLabel .executableProgram ∧ blockDataKeys n.children = keys)
    {s : LowerState} (hs : s.Rests) (hlines : s.lines = []) (hblock : s.blockData ⊆ keys) :
    ∃ t added, (parts.forM sourcePart).run s = .ok ((), t) ∧
      t.diagnostics = s.diagnostics ++ added ∧
      ∀ ds, ∃ u, (parts.forM sourcePart).run { t with diagnostics := ds, lines := [] } = .ok ((), u) ∧
        u.lines = t.lines ∧ u.diagnostics = ds ++ added ∧ u.overflow = t.overflow := by
  obtain ⟨_, r, hrun, hspans⟩ := sources_spans hsound s.bare
  have hrecurs := sources_recur hkeys hrun
  obtain ⟨told, -, htold, hagain⟩ := hrecurs.run (List.nil_subset _)
  have hr := hrecurs.rests ⟨hs.opened, hs.depth, hs.unit⟩
  have hfirst := hagain s.history (fun _ h => nomatch h) hblock
  rw [LowerState.behind_history] at hfirst
  refine ⟨_, r.diagnostics, hfirst, rfl, fun ds => ?_⟩
  generalize ht : r.behind { s.history with blockData := told ++ s.history.blockData } = t
  obtain ⟨hglobal, hspellings, htold, hcode, hoverflow⟩ :
      t.collection.table.global = r.collection.table.global ∧
      t.collection.table.spellings = r.collection.table.spellings ∧ t.blockData ⊆ keys ∧
      t.lines = r.lines ∧ t.overflow = (s.overflow || r.overflow) := by
    subst ht
    exact ⟨rfl, rfl, List.append_subset.2 ⟨htold, hblock⟩, rfl, rfl⟩
  have hrests : t.Rests := by
    subst ht
    exact ⟨hr.opened, hr.depth, hr.unit⟩
  let u : LowerState := { t with diagnostics := ds, lines := [] }
  have hresumed : s.bare.behind { u.history with spellings := some u.collection.table.spellings } = u :=
    LowerState.bare_behind hs ⟨hrests.opened, hrests.depth, hrests.unit⟩ (hglobal.trans hspans.global)
      hlines.symm
  have hsecond := hagain { u.history with spellings := some u.collection.table.spellings }
    (fun known hknown => by
      obtain rfl := Option.some.inj hknown
      exact ⟨[], by rw [List.append_nil, ← hspellings]⟩) htold
  rw [hresumed] at hsecond
  refine ⟨_, hsecond, hcode.symm, rfl, ?_⟩
  show (t.overflow || r.overflow) = t.overflow
  rw [hoverflow, Bool.or_assoc, Bool.or_self]

end Lower

/-! ## Main statement -/

theorem Generator.start_rests {root : Node} (hlabel : root.hasLabel .program ∨ root.hasLabel .loneName)
    (hparts : ∀ n ∈ root.children, n.isLeaf ∨
      n.hasLabel .executableProgram ∧ ∀ unit ∈ n.children, unit.label?.any Label.isUnit)
    (o : Options) : (start root o).state.Rests := by
  refine ⟨?_, rfl, rfl⟩
  show (Collection.ofTree true (some root) .empty).table.opened = none
  rw [Collection.ofTree_units hlabel hparts]
  exact (Collection.frame_units _).2

theorem Generator.run_sources {root : Node} {g : Generator} {s : LowerState}
    (h : (root.children.forM Lower.sourcePart).run { g.state with lines := [] } = .ok ((), s)) :
    g.run (some root) = .ok (g.options.header ++ Line.render g.options.indentation s.lines.reverse,
      { g with state := { s with diagnostics := Diagnostic.sorted s.diagnostics } }) := by
  have hall : (((some root).map (·.children)).getD []).forM Lower.sourcePart =
      root.children.forM Lower.sourcePart := rfl
  rw [run, hall, h]
  rfl

/-- A parsed tree has one list of block data. -/
theorem parse_blockData {name source : String} {p q : Parser} {root : Node}
    (hp : Parser.start? name (scan source) = some p) (hq : p.parse = .ok (.ok root, q)) :
    ∃ keys, ∀ n ∈ root.children,
      n.isLeaf ∨ n.hasLabel .executableProgram ∧ Lower.blockDataKeys n.children = keys := by
  rcases parse_source hp hq with ⟨-, hleaves⟩ | ⟨-, front, i, units, back, hchildren, hleaves, -⟩
  · exact ⟨[], fun n hn => .inl (hleaves n hn)⟩
  · refine ⟨Lower.blockDataKeys units, fun n hn => ?_⟩
    rw [hchildren, List.mem_append, List.mem_cons] at hn
    rcases hn with hn | rfl | hn
    · exact .inl (hleaves n (List.mem_append_left _ hn))
    · exact .inr ⟨rfl, rfl⟩
    · exact .inl (hleaves n (List.mem_append_right _ hn))

theorem Diagnostic.sorted_perm (ds : List Diagnostic) : (sorted ds).Perm ds :=
  List.mergeSort_perm ds notAfter

theorem Diagnostic.sorted_pairwise (ds : List Diagnostic) :
    (sorted ds).Pairwise fun d e => d.line < e.line ∨ d.line = e.line ∧ d.col ≤ e.col := by
  have hiff : ∀ d e : Diagnostic,
      d.notAfter e = true ↔ d.line < e.line ∨ d.line = e.line ∧ d.col ≤ e.col := by
    simp [notAfter]
  refine (List.pairwise_mergeSort (fun d e f => ?_) (fun d e => ?_) ds).imp fun {d e} h => (hiff d e).1 h
  · simp only [hiff]
    omega
  · simp only [Bool.or_eq_true, hiff]
    omega

/-- A generator that is run twice on a parsed tree writes the same text both times. The second run adds
the diagnostics that the first one added, and those that are handed over are in the order of their
places. -/
theorem generation_repeats {source : String} {o : Options} {p q : Parser} {root : Node}
    (hp : Parser.start? o.source (scan source) = some p) (hq : p.parse = .ok (.ok root, q)) :
    ∃ text g g' added, (Generator.start root o).run (some root) = .ok (text, g) ∧
      g.run (some root) = .ok (text, g') ∧ g'.state.overflow = g.state.overflow ∧
      g.diagnostics.Perm ((Generator.start root o).diagnostics ++ added) ∧
      g'.diagnostics.Perm ((Generator.start root o).diagnostics ++ (added ++ added)) ∧
      ∀ ds ∈ [g.diagnostics, g'.diagnostics],
        ds.Pairwise fun d e => d.line < e.line ∨ d.line = e.line ∧ d.col ≤ e.col := by
  have hsound : root.Sound True := fun n hn => ⟨parse_indexable hp hq hn, fun _ => trivial⟩
  obtain ⟨hlabel, hparts⟩ := parse_program hp hq
  obtain ⟨keys, hkeys⟩ := parse_blockData hp hq
  obtain ⟨s, added, hfirst, hdiagnostics, hagain⟩ := Lower.sources_again (fun n hn => hsound.child hn)
    hkeys (Generator.start_rests hlabel hparts o) rfl (List.nil_subset _)
  obtain ⟨t, hsecond, hlines, hdiagnostics', hoverflow⟩ := hagain (Diagnostic.sorted s.diagnostics)
  have hsecond := Generator.run_sources (g := { Generator.start root o with
    state := { s with diagnostics := Diagnostic.sorted s.diagnostics } }) hsecond
  rw [hlines] at hsecond
  refine ⟨_, _, _, added, Generator.run_sources hfirst, hsecond, hoverflow, ?_, ?_, ?_⟩
  · exact (Diagnostic.sorted_perm _).trans (.of_eq hdiagnostics)
  · calc (Diagnostic.sorted t.diagnostics).Perm t.diagnostics := Diagnostic.sorted_perm _
      _ = Diagnostic.sorted s.diagnostics ++ added := hdiagnostics'
      List.Perm _ (s.diagnostics ++ added) := (Diagnostic.sorted_perm _).append_right _
      _ = (Generator.start root o).diagnostics ++ (added ++ added) := by
        rw [hdiagnostics, List.append_assoc]
        rfl
  · intro ds hds
    simp only [List.mem_cons, List.not_mem_nil, or_false] at hds
    rcases hds with rfl | rfl
    · exact Diagnostic.sorted_pairwise _
    · exact Diagnostic.sorted_pairwise _

/-- A subroutine with a statement that is not carried over. -/
theorem generation_repeats_subroutine : ∃ (p q : Parser) (root : Node) (text : String) (g g' : Generator)
      (added : List Diagnostic),
    Parser.start? "" (scan "SUBROUTINE S(X)\nREAL x\nPAUSE\nEND") = some p ∧
    p.parse = .ok (.ok root, q) ∧ root.units.length = 1 ∧
    (Generator.start root {}).run (some root) = .ok (text, g) ∧ g.run (some root) = .ok (text, g') ∧
    g'.diagnostics.Perm ((Generator.start root {}).diagnostics ++ (added ++ added)) := by
  have hstart := start_scan "" "SUBROUTINE S(X)\nREAL x\nPAUSE\nEND"
  have hok : ((Parser.matched? { source := "", tokens := (scan
      "SUBROUTINE S(X)\nREAL x\nPAUSE\nEND").toArray }).any fun root =>
        root.units.length == 1) = true := by
    rw [scan_within]
    decide +kernel
  obtain ⟨root, hmatched, hroot⟩ := (Option.any_eq_true _ _).1 hok
  obtain ⟨q, hq⟩ := parse_of_match (Parser.start_sound hstart) hmatched
  obtain ⟨text, g, g', added, hfirst, hsecond, -, -, hdiagnostics, -⟩ :=
    generation_repeats (o := {}) hstart hq
  exact ⟨_, q, root, text, g, g', added, hstart, hq, beq_iff_eq.1 hroot, hfirst, hsecond, hdiagnostics⟩

end FortranJulia
