import FortranJulia.Proofs.BlankLines.Matching
import FortranJulia.Proofs.LetterCase.Parsing
import FortranJulia.Proofs.Parsing.Furthest
import FortranJulia.Proofs.Parsing.Unfolding

/-!
Parsing with one line end more. A pattern for a whole source takes comments and line ends around what the
source holds. With a line end more behind another one, or before the end of the source, it matches where it
did before, and the tree has the same digest: line ends between units do not show in that.
-/

namespace FortranJulia

set_option autoImplicit false

open Match (Outcome)

/-! ## Digests -/

namespace Node

@[simp] theorem stays_sketch (g : Guise) (n : Node) : (n.sketch g).stays = n.stays := by
  simp only [stays, hasKind_sketch]

theorem map_filter_stays (g : Guise) (ns : List Node) :
    (ns.filter stays).map (sketch g) = (ns.map (sketch g)).filter stays := by
  simp only [List.filter_map, Function.comp_def, stays_sketch]

/-- The nodes that stay around one node, in front of one that does not. -/
theorem around {g g' : Guise} {ns ns' ms ms' : List Node} {n n' e e' : Node}
    (hns : (ns.filter stays).map (sketch g) = (ns'.filter stays).map (sketch g'))
    (hn : n.sketch g = n'.sketch g')
    (hms : (ms.filter stays).map (sketch g) = (ms'.filter stays).map (sketch g'))
    (he : e.stays = false) (he' : e'.stays = false) :
    ((ns ++ n :: (ms ++ [e])).filter stays).map (sketch g) =
      ((ns' ++ n' :: (ms' ++ [e'])).filter stays).map (sketch g') := by
  have hlast : ([e].filter stays).map (sketch g) = ([e'].filter stays).map (sketch g') := by
    rw [List.filter_singleton, List.filter_singleton, he, he']
    rfl
  have hone : ([n].filter stays).map (sketch g) = ([n'].filter stays).map (sketch g') := by
    rw [map_filter_stays, map_filter_stays, List.map_singleton, List.map_singleton, hn]
  rw [List.append_cons ns, List.append_cons ns']
  simp only [List.filter_append, List.map_append, hns, hone, hms, hlast]

/-- Children that begin with the same node and of which the same ones stay give the same digest. -/
theorem digest_congr {g g' : Guise} {ns ns' : List Node} (i i' : Nat) (l : Label)
    (hhead : ns.head?.map (sketch g) = ns'.head?.map (sketch g'))
    (hrest : (ns.filter stays).map (sketch g) = (ns'.filter stays).map (sketch g')) :
    (inner i l ns).digest g = (inner i' l ns').digest g' := by
  have hkept : (kept ns).map (sketch g) = (kept ns').map (sketch g') := by
    cases ns with
    | nil =>
      cases ns' with
      | nil => rfl
      | cons => cases hhead
    | cons n ns =>
      cases ns' with
      | nil => cases hhead
      | cons n' ns' =>
        have hn : n.sketch g = n'.sketch g' := by simpa using hhead
        rw [map_filter_stays, map_filter_stays, List.map_cons, List.map_cons, hn, List.filter_cons,
          List.filter_cons] at hrest
        rw [kept, kept, List.map_cons, List.map_cons, map_filter_stays, map_filter_stays, hn]
        split at hrest
        · exact hrest
        · rw [hrest]
  rw [digest, digest, hkept]

end Node

/-! ## Whole sources -/

/-- Comments and line ends around what a source holds. -/
def Pattern.whole (core : Pattern) : Pattern :=
  .seq (.star Grammar.commentOrNewline)
    (.seq core (.seq (.star Grammar.commentOrNewline) (.token .eof)))

/-- What a source holds: one node or a word, with a token in it. -/
structure Pattern.Core (core : Pattern) : Prop where
  steady : core.steady false
  moves : core.moves false
  single : core = .word ∨ ∃ l body, core = .node l body

namespace TreeMatch

variable {g : Guise} {tokens tokens' : Array Lexeme} {u : Nat}

theorem Runs.core_single {core : Pattern} (hcore : core.Core) {s t : State}
    (h : Runs grammar tokens core s .matched t) : ∃ n, t.kids = n :: s.kids := by
  rcases hcore.single with rfl | ⟨l, body, rfl⟩
  · cases h with
    | take => exact ⟨_, rfl⟩
  · cases h with
    | take ht => simp [accepts?] at ht
    | node => exact ⟨_, rfl⟩
    | node_back _ hne => exact absurd rfl hne

/-- What a source holds goes the same way. -/
theorem Runs.whole_widened (hw : Widened g tokens tokens' u) {core : Pattern} (hcore : core.Core)
    {s t s' : State} {o : Outcome} (h : Runs grammar tokens core.whole s o t) (ho : o ≠ .exhausted)
    (hpos : Abreast tokens u s.pos s'.pos ∨ s.pos = u ∧ s'.pos = u) (hkids : s.kids = [])
    (hkids' : s'.kids = []) :
    ∃ t', Runs grammar tokens' core.whole s' o t' ∧ (o = .matched → s.pos + 1 < tokens.size ∧
      (t.kids.reverse.filter Node.stays).map (Node.sketch g) =
        (t'.kids.reverse.filter Node.stays).map (Node.sketch .same) ∧
      (Abreast tokens u s.pos s'.pos →
        t.kids.reverse.head?.map (Node.sketch g) = t'.kids.reverse.head?.map (Node.sketch .same))) := by
  have hinside : s.pos < tokens.size := hpos.elim (·.inside hw.inside) (·.1 ▸ hw.inside)
  unfold Pattern.whole at h
  cases h with
  | exhausted => exact absurd rfl ho
  | take ht | miss ht => simp [accepts?] at ht
  | seq_stop h hne => exact absurd (h.swallows hw ho).1 hne
  | seq h₁ h₂ =>
    rename_i t₁
    obtain ⟨t₁', ns, ns', hfront⟩ := (h₁.swallows hw (by simp)).2 s' hpos
    have hbeside : Beside g tokens u t₁.kids t₁'.kids t₁ t₁' :=
      ⟨.inl hfront.pos, [], [], rfl, rfl, rfl⟩
    cases h₂ with
    | exhausted => exact absurd rfl ho
    | take ht | miss ht => simp [accepts?] at ht
    | seq_stop hfails hne =>
      obtain ⟨t₂', hrun, -⟩ := hfails.widened hw ho hcore.steady (by simp) hbeside
      exact ⟨t₂', .seq hfront.runs (.seq_stop hrun hne), fun hmatched => absurd hmatched hne⟩
    | seq hmatch h₃ =>
      obtain ⟨t₂', hrun, hpos₂, news, news', hnews, hnews', hsame⟩ :=
        hmatch.widened hw (by simp) hcore.steady (by simp) hbeside
      have hbreak := hpos₂.imp_right fun hend => And.intro hend.1 hend.2.1
      cases h₃ with
      | exhausted => exact absurd rfl ho
      | take ht | miss ht => simp [accepts?] at ht
      | seq_stop h hne => exact absurd (h.swallows hw ho).1 hne
      | seq h₄ h₅ =>
        obtain ⟨t₃', ms, ms', hback⟩ := (h₄.swallows hw (by simp)).2 t₂' hbreak
        have halike := hback.pos.alike hw
        have hadvance : s.pos + 1 < tokens.size := by
          have hle := h₁.pos_le
          have hlt := hmatch.advances hw.ends (fun _ => grammar_moves) false hcore.moves (by simp)
            (h₁.inside hinside) rfl
          have hend := hmatch.inside (h₁.inside hinside)
          omega
        obtain ⟨n, hn⟩ := hmatch.core_single hcore
        obtain rfl : news = [n] := List.append_cancel_right (hnews.symm.trans hn)
        obtain ⟨n', rfl⟩ : ∃ n', news' = [n'] := by
          rw [← List.length_eq_one_iff, ← List.length_map (Node.sketch .same), ← hsame]
          rfl
        have hsketch : n.sketch g = n'.sketch .same := by simpa using hsame
        cases h₅ with
        | exhausted => exact absurd rfl ho
        | miss ht =>
          exact ⟨_, .seq hfront.runs (.seq hrun (.seq hback.runs (.miss (p := .token .eof)
            (by simpa [accepts?, halike.kind] using ht)))), by simp⟩
        | take ht =>
          rename_i t₃
          have heof : (tokenAt tokens t₃.pos).kind = .eof := by simpa [accepts?] using ht
          have heof' : (tokenAt tokens' t₃'.pos).kind = .eof := halike.kind.trans heof
          have hall : (t₃.take tokens).kids.reverse =
              ns ++ n :: (ms ++ [.leaf t₃.count (tokenAt tokens t₃.pos)]) := by
            simp [State.take, hback.kids, hnews, hfront.kids, hkids]
          have hall' : (t₃'.take tokens').kids.reverse =
              ns' ++ n' :: (ms' ++ [.leaf t₃'.count (tokenAt tokens' t₃'.pos)]) := by
            simp [State.take, hback.kids', hnews', hfront.kids', hkids']
          refine ⟨t₃'.take tokens', .seq hfront.runs (.seq hrun (.seq hback.runs (.take
            (by simpa [accepts?] using heof')))), fun _ => ⟨hadvance, ?_, fun habreast => ?_⟩⟩
          · rw [hall, hall']
            exact Node.around hfront.rest hsketch hback.rest
              (by simp [Node.stays, Node.hasKind, Node.lexeme?, heof])
              (by simp [Node.stays, Node.hasKind, Node.lexeme?, heof'])
          · rw [hall, hall', List.head?_append, List.head?_append, Option.map_or, Option.map_or,
              hfront.head habreast, List.head?_cons, List.head?_cons, Option.map_some, Option.map_some,
              hsketch]

/-- A pattern for a whole source matches both or neither, and its trees have the same digest. -/
theorem Runs.root_widened (hw : Widened g tokens tokens' u) (hempty : u = 0 → tokens.size = 1)
    {core : Pattern} (hcore : core.Core) {l : Label} {s t s' : State} {o : Outcome}
    (h : Runs grammar tokens (.node l core.whole) s o t) (ho : o ≠ .exhausted) (hs : s.pos = 0)
    (hs' : s'.pos = 0) :
    ∃ t', Runs grammar tokens' (.node l core.whole) s' o t' ∧
      (o ≠ .matched → t.pos = 0 ∧ t'.pos = 0) ∧
      (o = .matched → ∃ n n', t.kids = n :: s.kids ∧ t'.kids = n' :: s'.kids ∧
        n.digest g = n'.digest .same) := by
  have hpos : Abreast tokens u s.enter.pos s'.enter.pos ∨ s.enter.pos = u ∧ s'.enter.pos = u := by
    rcases Nat.eq_zero_or_pos u with hu | hu
    · exact .inr ⟨hs.trans hu.symm, hs'.trans hu.symm⟩
    · exact .inl (.inl ⟨Nat.lt_of_le_of_lt (Nat.le_of_eq hs) hu, hs'.trans hs.symm⟩)
  cases h with
  | exhausted => exact absurd rfl ho
  | take ht | miss ht => simp [accepts?] at ht
  | node_back h hne =>
    obtain ⟨t', hrun, -⟩ := h.whole_widened hw hcore ho hpos rfl rfl
    exact ⟨_, .node_back hrun hne, fun _ => ⟨hs, hs'⟩, fun hmatched => absurd hmatched hne⟩
  | node h =>
    obtain ⟨t', hrun, hsame⟩ := h.whole_widened hw hcore ho hpos rfl rfl
    obtain ⟨hmore, hrest, hhead⟩ := hsame rfl
    have habreast : Abreast tokens u s.enter.pos s'.enter.pos := by
      refine hpos.resolve_right fun hzero => ?_
      have hone := hempty (hzero.1.symm.trans hs)
      omega
    refine ⟨_, .node hrun, fun hne => absurd rfl hne, fun _ => ⟨_, _, rfl, rfl, ?_⟩⟩
    exact Node.digest_congr _ _ l (hhead habreast) hrest

end TreeMatch

/-! ## Parsers -/

theorem program_core : Grammar.program = .node .program
    (Pattern.whole (.node .executableProgram (.plus Grammar.programUnit))) ∧
    Pattern.Core (.node .executableProgram (.plus Grammar.programUnit)) :=
  ⟨rfl, by decide +kernel, by decide +kernel, .inr ⟨_, _, rfl⟩⟩

theorem loneName_core : Grammar.loneName = .node .loneName (Pattern.whole .word) ∧
    Pattern.Core .word :=
  ⟨rfl, rfl, rfl, .inl rfl⟩

namespace Parser

variable {g : Guise} {u : Nat} {p p' : Parser}

/-- A match that does not depend on its bound does not reach it. -/
theorem matching_ends {pattern : Pattern} (hp : p.state.Sound p.tokens) (hrule : pattern.isRule)
    (h : Call.Settled p.tokens ⟨depthBound p.tokens, pattern, none, p.state⟩) :
    (p.matching pattern).1 ≠ .exhausted := by
  rcases rule_follows grammar (depthBound p.tokens) hrule hp.agree with
    ⟨b, n, t, hout, -, -⟩ | ⟨o, b, t, -, hout, -, -, -, hrun⟩
  · rw [matching, hout]
    simp
  · rw [matching, hout]
    rintro rfl
    exact h.1 b (hrun none)

/-- The second parser stands at the first of the tokens with a line end more, as the first one does. -/
structure Widens (g : Guise) (u : Nat) (p p' : Parser) : Prop where
  tokens : TreeMatch.Widened g p.tokens p'.tokens u
  empty : u = 0 → p.tokens.size = 1
  start : p.state.pos = 0
  start' : p'.state.pos = 0
  sound : p.state.Sound p.tokens
  sound' : p'.state.Sound p'.tokens

namespace Widens

theorem tryRoot (h : Widens g u p p') {core : Pattern} (hcore : core.Core) {l : Label}
    (hends : Call.Settled p.tokens ⟨depthBound p.tokens, .node l core.whole, none, p.state⟩)
    (hends' : Call.Settled p'.tokens ⟨depthBound p'.tokens, .node l core.whole, none, p'.state⟩) :
    ∃ found q q', p.tryRoot (.node l core.whole) = .ok (found, q) ∧
      p'.tryRoot (.node l core.whole) = .ok (found, q') ∧ (found = false → Widens g u q q') ∧
      (found → ∃ n n', q.state.tree.rootTree = .ok n ∧ q'.state.tree.rootTree = .ok n' ∧
        n.digest g = n'.digest .same) := by
  have hrule : (Pattern.node l core.whole).isRule := rfl
  have hne := matching_ends h.sound hrule hends
  have hne' := matching_ends h.sound' hrule hends'
  obtain ⟨b, htry, hsound, hbare, hroot⟩ := tryRoot_bare h.sound hrule
  obtain ⟨b', htry', hsound', hbare', hroot'⟩ := tryRoot_bare h.sound' hrule
  have hruns := TreeMatch.run_runs (Prod.eta (p.matching (.node l core.whole))).symm
  have hruns' := TreeMatch.run_runs (Prod.eta (p'.matching (.node l core.whole))).symm
  have hstart' : p'.state.bare.pos = 0 := h.start'
  obtain ⟨t', hrun, hstay, hmatch⟩ := hruns.root_widened h.tokens h.empty hcore hne h.start hstart'
  obtain ⟨ho, rfl⟩ := hrun.unique hne hruns' hne'
  rw [← ho] at htry' hroot'
  refine ⟨_, _, _, htry, htry', fun hfound => ?_, fun hfound => ?_⟩
  · obtain ⟨hpos, hpos'⟩ := hstay (by simpa using hfound)
    refine ⟨h.tokens, h.empty, ?_, ?_, hsound, hsound'⟩
    · exact (congrArg TreeMatch.State.pos hbare).trans hpos
    · exact (congrArg TreeMatch.State.pos hbare').trans hpos'
  · have hmatched : (p.matching (.node l core.whole)).1 = .matched := by simpa using hfound
    obtain ⟨n, n', hkids, hkids', hdigest⟩ := hmatch hmatched
    obtain ⟨m, hm, htree⟩ := hroot hmatched
    obtain ⟨m', hm', htree'⟩ := hroot' hmatched
    obtain rfl : m = n := List.head_eq_of_cons_eq (hm.symm.trans hkids)
    obtain rfl : m' = n' := List.head_eq_of_cons_eq (hm'.symm.trans hkids')
    exact ⟨m, m', htree, htree', hdigest⟩

/-- Both parsers find trees that have the same digest, or both meet an error. -/
theorem parse (h : Widens g u p p') (hend : EndsInEof p'.tokens) :
    (∃ n n' q q', p.parse = .ok (.ok n, q) ∧ p'.parse = .ok (.ok n', q') ∧
      n.digest g = n'.digest .same) ∨
    (∃ e e' q q', p.parse = .ok (.error e, q) ∧ p'.parse = .ok (.error e', q')) := by
  obtain ⟨hprogram, hcore⟩ := program_core
  obtain ⟨hlone, hword⟩ := loneName_core
  have hsettled := visits_settled h.sound h.tokens.ends .program
  have hsettled' := visits_settled h.sound' hend .program
  obtain ⟨found, q, q', htry, htry', hq, htree⟩ := h.tryRoot (l := .program) hcore hsettled hsettled'
  rw [← hprogram] at htry htry'
  cases found with
  | true =>
    obtain ⟨n, n', hn, hn', hdigest⟩ := htree rfl
    refine .inl ⟨n, n', q, q', ?_, ?_, hdigest⟩
    · simp only [Parser.parse, htry, finish, hn, Fault.ofArena, bind, Except.bind]
      rfl
    · simp only [Parser.parse, htry', finish, hn', Fault.ofArena, bind, Except.bind]
      rfl
  | false =>
    obtain ⟨o, hresult, ho, hstate⟩ := tryRoot_fails htry
    obtain ⟨o', hresult', ho', hstate'⟩ := tryRoot_fails htry'
    have hsettled := visits_settled h.sound h.tokens.ends (.loneName hresult ho)
    have hsettled' := visits_settled h.sound' hend (.loneName hresult' ho')
    rw [hlone] at hsettled hsettled'
    have hnext := hq rfl
    rw [hstate, hstate'] at hnext
    obtain ⟨found, r, r', hname, hname', -, htree⟩ := hnext.tryRoot (l := .loneName) hword hsettled hsettled'
    rw [← hlone, ← hstate] at hname
    rw [← hlone, ← hstate'] at hname'
    cases found with
    | true =>
      obtain ⟨n, n', hn, hn', hdigest⟩ := htree rfl
      refine .inl ⟨n, n', r, r', ?_, ?_, hdigest⟩
      · simp only [Parser.parse, htry, hname, finish, hn, Fault.ofArena, bind, Except.bind]
        rfl
      · simp only [Parser.parse, htry', hname', finish, hn', Fault.ofArena, bind, Except.bind]
        rfl
    | false =>
      refine .inr ⟨r.failure, r'.failure, r, r', ?_, ?_⟩
      · simp only [Parser.parse, htry, hname, bind, Except.bind]
        rfl
      · simp only [Parser.parse, htry', hname', bind, Except.bind]
        rfl

end Widens

end Parser

end FortranJulia
