import FortranJulia.Proofs.LetterCase.Trees
import FortranJulia.Proofs.Parsing.Yield

/-!
Parsing up to letter case. Matching looks at the kinds of tokens, and at the text of a descriptor only
for a point in it. So tokens in upper case take a match the same way and give the same tree in upper
case, or the same error.
-/

namespace FortranJulia

set_option autoImplicit false

open Match (Outcome)

namespace Node

@[simp] theorem collapse_caps (n : Node) : n.caps.collapse = n.collapse.caps := by
  cases n with
  | leaf i lx => rw [collapse, collapse, caps_leaf] <;> simp
  | inner i l cs =>
    rcases cs with _ | ⟨c, _ | ⟨d, cs⟩⟩
    · simp [collapse]
    · cases c <;> simp [collapse]
    · simp [collapse]

end Node

namespace TreeMatch

variable {grammar : Nonterminal → Pattern} {tokens : Array Lexeme}

/-! ## Tokens -/

theorem default_caps : (default : Lexeme).caps = default := by
  simp only [default, Lexeme.caps, Lexeme.endOfSource, Option.map_none, Lexeme.mk.injEq, and_true,
    true_and]
  exact toUpper_eq_empty.2 rfl

@[simp] theorem tokenAt_caps (tokens : Array Lexeme) (i : Nat) :
    tokenAt (tokens.map Lexeme.caps) i = (tokenAt tokens i).caps := by
  simp only [tokenAt, Array.size_map, Array.getD_eq_getD_getElem?, Array.getElem?_map]
  cases tokens[min i (tokens.size - 1)]? with
  | none => exact default_caps.symm
  | some lx => rfl

theorem isName_caps (lx : Lexeme) : Match.isName lx.caps = Match.isName lx := by
  have hpoint : (lx.text.toList.map Char.toUpper).contains '.' = lx.text.toList.contains '.' := by
    have hpoint : Caseless ('.' == ·) := .of_letters (by decide)
    rw [List.contains_eq_any_beq, List.contains_eq_any_beq, hpoint.any]
  simp only [Match.isName, Node.kind_caps, Node.text_caps_lexeme, toList_toUpper, hpoint]

@[simp] theorem ahead_caps (tokens : Array Lexeme) (i : Nat) :
    ahead (tokens.map Lexeme.caps) i = ahead tokens i := by
  simp [ahead]

@[simp] theorem holds_caps (tokens : Array Lexeme) (pos : Nat) (g : Guard) :
    holds (tokens.map Lexeme.caps) pos g = holds tokens pos g := by
  cases g <;> simp [holds, atLoopControl]

/-! ## States -/

/-- The state with its children in upper case. -/
def State.caps (s : State) : State :=
  { s with kids := s.kids.map Node.caps }

@[simp] theorem pos_caps (s : State) : s.caps.pos = s.pos := rfl

@[simp] theorem miss_caps (s : State) (k : Kind) : s.caps.miss k = (s.miss k).caps := rfl

@[simp] theorem missAny_caps (s : State) (ks : List Kind) : s.caps.missAny ks = (s.missAny ks).caps :=
  rfl

@[simp] theorem backTo_caps (s t : State) : s.caps.backTo t.caps = (s.backTo t).caps := rfl

@[simp] theorem enter_caps (s : State) : s.caps.enter = s.enter.caps := rfl

@[simp] theorem take_caps (tokens : Array Lexeme) (s : State) :
    s.caps.take (tokens.map Lexeme.caps) = (s.take tokens).caps := by
  simp [State.take, State.caps]

theorem leave_caps {finish : Node → Node} (hfinish : ∀ n : Node, finish n.caps = (finish n).caps)
    (s t : State) (l : Label) : s.caps.leave t.caps finish l = (s.leave t finish l).caps := by
  have hnode := hfinish (.inner s.count l t.kids.reverse)
  rw [Node.caps_inner] at hnode
  simp [State.leave, State.caps, ← hnode]

/-! ## Matching -/

/-- Tokens in upper case are matched the same way. -/
theorem run_caps (grammar : Nonterminal → Pattern) (tokens : Array Lexeme) (depth : Nat) :
    ∀ (p : Pattern) (s : State), run grammar (tokens.map Lexeme.caps) depth p s.caps =
      ((run grammar tokens depth p s).1, (run grammar tokens depth p s).2.caps) := by
  induction depth with
  | zero => exact fun p s => rfl
  | succ depth ih =>
    intro p s
    cases p with
    | token k => simp only [run, pos_caps, tokenAt_caps, Node.kind_caps]; split <;> simp
    | oneOf ks => simp only [run, pos_caps, tokenAt_caps, Node.kind_caps]; split <;> simp
    | word => simp only [run, pos_caps, tokenAt_caps, isName_caps]; split <;> simp
    | any => simp [run]
    | check g => simp [run]
    | branch g yes no => simp only [run, pos_caps, holds_caps, ih]
    | seq p₁ p₂ | star body =>
      simp only [run, ih]
      generalize run grammar tokens depth _ s = r
      obtain ⟨o, t⟩ := r
      cases o <;> simp [ih]
    | alt p₁ p₂ =>
      simp only [run, ih]
      generalize run grammar tokens depth _ s = r
      obtain ⟨o, t⟩ := r
      cases o <;> simp [ih]
    | opt body | attempt body =>
      simp only [run, ih]
      generalize run grammar tokens depth _ s = r
      obtain ⟨o, t⟩ := r
      cases o <;> simp
    | whileDo g body =>
      simp only [run, ih, pos_caps, holds_caps]
      generalize run grammar tokens depth _ s = r
      obtain ⟨o, t⟩ := r
      split
      · cases o <;> simp [ih]
      · rfl
    | node l body =>
      simp only [run, ih, enter_caps]
      generalize run grammar tokens depth _ s.enter = r
      obtain ⟨o, t⟩ := r
      cases o <;> simp [@leave_caps id fun _ => rfl]
    | level l body =>
      simp only [run, ih, enter_caps]
      generalize run grammar tokens depth _ s.enter = r
      obtain ⟨o, t⟩ := r
      cases o <;> simp [leave_caps Node.collapse_caps]
    | call phrase => simp only [run, ih]

end TreeMatch

/-! ## Parsers -/

def ParseError.caps (e : ParseError) : ParseError :=
  { e with found := e.found.caps }

namespace Parser

variable {p p' : Parser} {pattern : Pattern}

/-- What matching with trees finds from where a parser stands. -/
def matching (p : Parser) (pattern : Pattern) : Outcome × TreeMatch.State :=
  TreeMatch.run grammar p.tokens (depthBound p.tokens) pattern p.state.bare

theorem bare_of_agree {tokens : Array Lexeme} {b : Match.State} {s : TreeMatch.State}
    (h : Agree tokens b s) : b.bare = { s with kids := [] } := by
  rw [Match.State.bare, h.pos, h.count, h.reach]

/-- A parser finds what matching with trees finds. -/
theorem tryRoot_bare (hp : p.state.Sound p.tokens) (hrule : pattern.isRule) :
    ∃ b, p.tryRoot pattern = .ok ((p.matching pattern).1 == .matched, { p with state := b }) ∧
      b.Sound p.tokens ∧ b.bare = { (p.matching pattern).2 with kids := [] } ∧
      ((p.matching pattern).1 = .matched → ∃ n, (p.matching pattern).2.kids = [n] ∧
        b.tree.rootTree = .ok n) := by
  rcases rule_follows grammar (depthBound p.tokens) hrule hp.agree with
    ⟨b, n, t, hout, hready, hrun⟩ | ⟨o, b, t, ho, hout, hagree, -, -, hrun⟩
  · have hsound : Arena.Sound { b.tree with root := some n.id } :=
      ⟨hready.agree.sound.length_le, hready.agree.sound.cells⟩
    refine ⟨{ b with tree := { b.tree with root := some n.id } }, ?_, ?_, ?_, fun _ => ⟨n, ?_, ?_⟩⟩
    · simp only [tryRoot, hrun none, Match.State.commit, matching, hout, bind, Except.bind, pure,
        Except.pure]
    · exact ⟨hready.agree.state_sound.inside, hsound⟩
    · rw [matching, hout]
      show b.bare = { t with kids := [] }
      exact bare_of_agree hready.agree
    · rw [matching, hout]
      rfl
    · exact rootTree_shown hsound rfl hready.shown
  · refine ⟨b, ?_, hagree.state_sound, ?_, fun hmatched => ?_⟩
    · simp only [tryRoot, hrun none, matching, hout, bind, Except.bind, pure, Except.pure]
    · rw [matching, hout]
      exact bare_of_agree hagree
    · rw [matching, hout] at hmatched
      exact absurd hmatched ho

/-- The second parser stands where the first does, before the same tokens in upper case. -/
structure Follows (p p' : Parser) : Prop where
  source : p'.source = p.source
  tokens : p'.tokens = p.tokens.map Lexeme.caps
  state : p'.state.bare = p.state.bare
  sound : p.state.Sound p.tokens
  sound' : p'.state.Sound p'.tokens

namespace Follows

theorem matching (h : Follows p p') (pattern : Pattern) :
    p'.matching pattern = ((p.matching pattern).1, (p.matching pattern).2.caps) := by
  have hrun := TreeMatch.run_caps grammar p.tokens (depthBound p.tokens) pattern p.state.bare
  rw [Parser.matching, h.state, h.tokens, depthBound, Array.size_map]
  exact hrun

theorem failure (h : Follows p p') : p'.failure = p.failure.caps := by
  have hreach : p'.state.reach = p.state.reach := congrArg TreeMatch.State.reach h.state
  have hfound := TreeMatch.tokenAt_caps p.tokens p.state.reach.furthest
  rw [TreeMatch.tokenAt, Array.size_map] at hfound
  simp only [Parser.failure, ParseError.caps, hreach, h.source, h.tokens, Array.size_map, hfound]
  rfl

theorem tryRoot (h : Follows p p') (pattern : Pattern) (hrule : pattern.isRule) :
    ∃ found q q', p.tryRoot pattern = .ok (found, q) ∧ p'.tryRoot pattern = .ok (found, q') ∧
      Follows q q' ∧ (found → ∃ n, q.state.tree.rootTree = .ok n ∧
        q'.state.tree.rootTree = .ok n.caps) := by
  obtain ⟨b, htry, hsound, hbare, hroot⟩ := tryRoot_bare h.sound hrule
  obtain ⟨b', htry', hsound', hbare', hroot'⟩ := tryRoot_bare h.sound' hrule
  rw [h.matching] at htry' hbare' hroot'
  refine ⟨_, _, _, htry, htry', ⟨h.source, h.tokens, ?_, hsound, hsound'⟩, fun hfound => ?_⟩
  · exact hbare'.trans hbare.symm
  · obtain ⟨n, hkids, hn⟩ := hroot (by simpa using hfound)
    obtain ⟨n', hkids', hn'⟩ := hroot' (by simpa using hfound)
    have hcaps : [n'] = [n.caps] := by
      rw [← hkids']
      simp only [TreeMatch.State.caps, hkids, List.map_cons, List.map_nil]
    rw [List.singleton_inj.1 hcaps] at hn'
    exact ⟨n, hn, hn'⟩

/-- Both parsers find a tree, the same up to letter case, or both meet the same error. -/
theorem parse (h : Follows p p') :
    (∃ n q q', p.parse = .ok (.ok n, q) ∧ p'.parse = .ok (.ok n.caps, q') ∧ q'.count = q.count) ∨
    (∃ e q q', p.parse = .ok (.error e, q) ∧ p'.parse = .ok (.error e.caps, q')) := by
  have hcount : ∀ {q q' : Parser}, Follows q q' → q'.count = q.count :=
    fun h => congrArg TreeMatch.State.count h.state
  obtain ⟨found, q, q', hprogram, hprogram', hq, htree⟩ := h.tryRoot Grammar.program rfl
  cases found with
  | true =>
    obtain ⟨n, hn, hn'⟩ := htree rfl
    refine .inl ⟨n, q, q', ?_, ?_, hcount hq⟩
    · simp only [Parser.parse, hprogram, finish, hn, Fault.ofArena, bind, Except.bind]
      rfl
    · simp only [Parser.parse, hprogram', finish, hn', Fault.ofArena, bind, Except.bind]
      rfl
  | false =>
    obtain ⟨found, r, r', hname, hname', hr, htree⟩ := hq.tryRoot Grammar.loneName rfl
    cases found with
    | true =>
      obtain ⟨n, hn, hn'⟩ := htree rfl
      refine .inl ⟨n, r, r', ?_, ?_, hcount hr⟩
      · simp only [Parser.parse, hprogram, hname, finish, hn, Fault.ofArena, bind, Except.bind]
        rfl
      · simp only [Parser.parse, hprogram', hname', finish, hn', Fault.ofArena, bind, Except.bind]
        rfl
    | false =>
      refine .inr ⟨r.failure, r, r', ?_, ?_⟩
      · simp only [Parser.parse, hprogram, hname, bind, Except.bind]
        rfl
      · simp only [Parser.parse, hprogram', hname', bind, Except.bind, ← hr.failure]
        rfl

end Follows

theorem start_caps (source : String) (tokens : List Lexeme) :
    start? source (tokens.map Lexeme.caps) =
      (start? source tokens).map fun p => { p with tokens := p.tokens.map Lexeme.caps } := by
  have hlast : (tokens.map Lexeme.caps).getLast? = tokens.getLast?.map Lexeme.caps :=
    List.getLast?_map
  rw [start?, hlast, start?]
  cases tokens.getLast? with
  | none => rfl
  | some lx =>
    simp only [Option.map_some, Node.kind_caps]
    by_cases hkind : lx.kind = .eof <;> simp [hkind]

theorem start_follows {source : String} {tokens : List Lexeme} (h : start? source tokens = some p) :
    Follows p { p with tokens := p.tokens.map Lexeme.caps } := by
  have hcaps := start_caps source tokens
  rw [h] at hcaps
  exact ⟨rfl, rfl, rfl, start_sound h, start_sound hcaps⟩

end Parser

/-- Tokens in upper case have the tree of the tokens in upper case, with as many nodes made for it, or
they have the same error. -/
theorem parseChecked_caps (name : String) (tokens : List Lexeme) :
    parseChecked name (tokens.map Lexeme.caps) = (parseChecked name tokens).map fun r =>
      (r.mapError ParseError.caps).map fun found => (found.1.caps, found.2) := by
  rw [parseChecked, Parser.start_caps, parseChecked]
  cases hp : Parser.start? name tokens with
  | none =>
    simp only [Option.map_none, pure, Except.pure, Except.map, Except.mapError, ParseError.caps,
      TreeMatch.default_caps]
  | some p =>
    simp only [Option.map_some]
    rcases (Parser.start_follows hp).parse with
      ⟨n, q, q', hparse, hparse', hcount⟩ | ⟨e, q, q', hparse, hparse'⟩
    · simp only [hparse, hparse', hcount, bind, Except.bind, pure, Except.pure, Except.map,
        Except.mapError]
    · simp only [hparse, hparse', bind, Except.bind, pure, Except.pure, Except.map, Except.mapError]

end FortranJulia
