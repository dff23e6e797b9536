import FortranJulia.Proofs.Parsing.Simulation
import FortranJulia.Grammar.Parser

/-!
Backtracking leaves no trace. A rule is a pattern that makes a node of its own. In every state that
a parser comes through, and for every parent, a rule that does not match leaves the cursor, the root
and every cell as they were, and one that matches adds one child to its parent and changes no other
cell that was there.
-/

namespace FortranJulia

set_option autoImplicit false

open Match (Outcome)

/-! ## Cursors -/

namespace TreeMatch

variable {grammar : Nonterminal → Pattern} {tokens : Array Lexeme}

theorem take_pos_le (tokens : Array Lexeme) (s : State) : s.pos ≤ (s.take tokens).pos := by
  simp only [State.take]
  split <;> omega

theorem missed_pos (p : Pattern) (s : State) : (missed p s).pos = s.pos := by
  cases p <;> rfl

/-- A match never ends before the token where it began. -/
theorem Runs.pos_le {p : Pattern} {s t : State} {o : Outcome} (h : Runs grammar tokens p s o t) :
    s.pos ≤ t.pos := by
  induction h with
  | exhausted | check | check_fails | while_end => exact Nat.le_refl _
  | take => exact take_pos_le tokens _
  | miss => exact Nat.le_of_eq (missed_pos _ _).symm
  | seq _ _ ih₁ ih₂ | star_more _ _ ih₁ ih₂ | while_more _ _ _ ih₁ ih₂ => exact Nat.le_trans ih₁ ih₂
  | alt_second _ _ _ ih => exact ih
  | attempt_back | node_back | level_back => exact Nat.le_refl _
  | branch _ ih | star_end _ ih | star_stop _ ih | opt_none _ ih | call _ ih => exact ih
  | seq_stop _ _ ih | alt_first _ _ ih | opt _ _ ih | attempt _ _ ih | while_stop _ _ _ ih =>
    exact ih
  | node _ ih | level _ ih => exact ih

end TreeMatch

/-! ## Sound states -/

/-- The cursor is on a token and the arena is sound. -/
structure Match.State.Sound (tokens : Array Lexeme) (b : Match.State) : Prop where
  inside : b.pos < tokens.size
  tree : b.tree.Sound

/-- The state of a match with trees at the same token, with an empty open node. -/
def Match.State.bare (b : Match.State) : TreeMatch.State :=
  ⟨b.pos, b.tree.length, [], b.reach⟩

theorem Match.State.Sound.agree {tokens : Array Lexeme} {b : Match.State} (h : b.Sound tokens) :
    Agree tokens b b.bare :=
  ⟨rfl, h.inside, rfl, rfl, h.tree⟩

theorem Agree.state_sound {tokens : Array Lexeme} {b : Match.State} {s : TreeMatch.State}
    (h : Agree tokens b s) : b.Sound tokens :=
  ⟨h.pos ▸ h.inside, h.sound⟩

/-- Does the pattern make a node of its own? -/
def Pattern.isRule : Pattern → Bool
  | .node _ _ | .level _ _ => true
  | _ => false

/-- The parents that a match may be for: any node, and none where the pattern is a rule. -/
def Fits (p : Pattern) (b : Match.State) : Option Nat → Prop
  | none => p.isRule
  | some q => q < b.tree.length

section Rules

variable {grammar : Nonterminal → Pattern} {tokens : Array Lexeme}

theorem rule_follows (grammar : Nonterminal → Pattern) (depth : Nat) {p : Pattern} (hp : p.isRule) {b : Match.State}
    {s : TreeMatch.State} (h : Agree tokens b s) : RuleFollows grammar tokens depth p b s := by
  cases depth with
  | zero => exact .inr ⟨.exhausted, b, s, by simp, rfl, h, rfl, rfl, fun _ => rfl⟩
  | succ depth =>
    cases p with
    | node l body => exact node_follows (run_follows grammar tokens depth) l body h
    | level l body => exact level_follows (run_follows grammar tokens depth) l body h
    | _ => simp [Pattern.isRule] at hp

/-- A match in a sound state ends without a fault in a sound state. -/
theorem run_sound (grammar : Nonterminal → Pattern) (depth : Nat) {p : Pattern} {parent : Option Nat} {b : Match.State}
    (h : b.Sound tokens) (hfits : Fits p b parent) :
    ∃ o b', Match.run grammar tokens depth p parent b = .ok (o, b') ∧ b'.Sound tokens ∧
      b.tree.length ≤ b'.tree.length := by
  have hlen := Arena.contents_length h.tree
  cases parent with
  | none =>
    rcases rule_follows grammar depth hfits h.agree with
      ⟨b', n, t, -, hready, hrun⟩ | ⟨o, b', t, -, -, hagree, hcells, -, hrun⟩
    · have hle := hready.keeps.length_le
      rw [hlen, Arena.contents_length hready.agree.sound] at hle
      have hsound := hready.agree.state_sound
      exact ⟨.matched, _, hrun none, ⟨hsound.inside, ⟨hsound.tree.length_le, hsound.tree.cells⟩⟩, hle⟩
    · have hsame := congrArg List.length hcells
      rw [hlen, Arena.contents_length hagree.sound] at hsame
      exact ⟨o, b', hrun none, hagree.state_sound, Nat.le_of_eq hsame.symm⟩
  | some q =>
    obtain ⟨o, b', t, news, hrun, -, hs⟩ :=
      run_follows grammar tokens depth p q b b.bare h.agree (hlen ▸ hfits)
    have hle := hs.grows.length_le
    rw [hlen, Arena.contents_length hs.agree.sound] at hle
    exact ⟨o, b', hrun, hs.agree.state_sound, hle⟩

/-- In a sound state a rule either fails and changes nothing that can be seen, or it adds one child
to its parent and changes no other cell. -/
theorem rule_effect (grammar : Nonterminal → Pattern) (depth : Nat) {p : Pattern} (hp : p.isRule) {parent : Option Nat}
    {b : Match.State} (h : b.Sound tokens) (hparent : ∀ q, parent = some q → q < b.tree.length) :
    ∃ o b', Match.run grammar tokens depth p parent b = .ok (o, b') ∧
      (o ≠ .matched → b'.pos = b.pos ∧ b'.tree.length = b.tree.length ∧
        b'.tree.root = b.tree.root ∧ b'.tree.contents = b.tree.contents) ∧
      (o = .matched → b.pos ≤ b'.pos ∧ ∀ q, parent = some q →
        b'.tree.root = b.tree.root ∧
        (∃ c id, b.tree.contents[q]? = some c ∧ b.tree.length ≤ id ∧
          b'.tree.contents[q]? = some (c.grow [id])) ∧
        ∀ i, i < b.tree.length → i ≠ q → b'.tree.contents[i]? = b.tree.contents[i]?) := by
  have hlen := Arena.contents_length h.tree
  rcases rule_follows grammar depth hp h.agree with
    ⟨b', n, t, hout, hready, hrun⟩ | ⟨o, b', t, ho, hout, hagree, hcells, hroot, hrun⟩
  · have hpos : b.pos ≤ b'.pos := hready.agree.pos ▸ (TreeMatch.run_runs hout).pos_le
    cases parent with
    | none => exact ⟨.matched, _, hrun none, by simp, fun _ => ⟨hpos, by simp⟩⟩
    | some q =>
      have hq : q < b.tree.contents.length := hlen ▸ hparent q rfl
      obtain ⟨b'', hcommit, hs⟩ := hready.commit_some (s := b.bare) hq
      refine ⟨.matched, b'', by rw [hrun, hcommit]; rfl, by simp, fun _ => ⟨?_, ?_⟩⟩
      · exact hs.agree.pos ▸ (TreeMatch.run_runs hout).pos_le
      · rintro _ ⟨⟩
        refine ⟨hs.grows.root, ⟨_, n.id, List.getElem?_eq_getElem hq, ?_, ?_⟩, ?_⟩
        · exact hlen ▸ hready.shown.low_le
        · exact hs.grows.own _ (List.getElem?_eq_getElem hq)
        · exact fun i hi => hs.grows.others i (hlen ▸ hi)
  · refine ⟨o, b', hrun parent, fun _ => ⟨hagree.pos, ?_, hroot, hcells⟩, fun hm => absurd hm ho⟩
    exact hagree.count

end Rules

/-! ## States on the way -/

/-- A match that is called for. -/
structure Call where
  depth : Nat
  pattern : Pattern
  parent : Option Nat
  state : Match.State

def Call.result (tokens : Array Lexeme) (c : Call) : Except Fault (Outcome × Match.State) :=
  Match.run grammar tokens c.depth c.pattern c.parent c.state

/-- The matches that one match calls for in its course. -/
inductive Calls (tokens : Array Lexeme) : Call → Call → Prop where
  | branch {d : Nat} {g : Guard} {yes no : Pattern} {parent : Option Nat} {s : Match.State}
      {yesno : Bool} (hg : Match.holds tokens s.pos g = .ok yesno) :
      Calls tokens ⟨d + 1, .branch g yes no, parent, s⟩ ⟨d, if yesno then yes else no, parent, s⟩
  | seq_first {d : Nat} {p₁ p₂ : Pattern} {parent : Option Nat} {s : Match.State} :
      Calls tokens ⟨d + 1, .seq p₁ p₂, parent, s⟩ ⟨d, p₁, parent, s⟩
  | seq_second {d : Nat} {p₁ p₂ : Pattern} {parent : Option Nat} {s t : Match.State}
      (h : Call.result tokens ⟨d, p₁, parent, s⟩ = .ok (.matched, t)) :
      Calls tokens ⟨d + 1, .seq p₁ p₂, parent, s⟩ ⟨d, p₂, parent, t⟩
  | alt_first {d : Nat} {p₁ p₂ : Pattern} {parent : Option Nat} {s : Match.State} :
      Calls tokens ⟨d + 1, .alt p₁ p₂, parent, s⟩ ⟨d, p₁, parent, s⟩
  | alt_second {d : Nat} {p₁ p₂ : Pattern} {parent : Option Nat} {s t u : Match.State}
      {c : Match.Checkpoint} (h : Call.result tokens ⟨d, p₁, parent, s⟩ = .ok (.failed, t))
      (hc : s.checkpoint parent = .ok c) (hu : t.backTo c = .ok u) :
      Calls tokens ⟨d + 1, .alt p₁ p₂, parent, s⟩ ⟨d, p₂, parent, u⟩
  | star_body {d : Nat} {body : Pattern} {parent : Option Nat} {s : Match.State} :
      Calls tokens ⟨d + 1, .star body, parent, s⟩ ⟨d, body, parent, s⟩
  | star_again {d : Nat} {body : Pattern} {parent : Option Nat} {s t : Match.State}
      (h : Call.result tokens ⟨d, body, parent, s⟩ = .ok (.matched, t)) :
      Calls tokens ⟨d + 1, .star body, parent, s⟩ ⟨d, .star body, parent, t⟩
  | opt {d : Nat} {body : Pattern} {parent : Option Nat} {s : Match.State} :
      Calls tokens ⟨d + 1, .opt body, parent, s⟩ ⟨d, body, parent, s⟩
  | attempt {d : Nat} {body : Pattern} {parent : Option Nat} {s : Match.State} :
      Calls tokens ⟨d + 1, .attempt body, parent, s⟩ ⟨d, body, parent, s⟩
  | while_body {d : Nat} {g : Guard} {body : Pattern} {parent : Option Nat} {s : Match.State}
      (hg : Match.holds tokens s.pos g = .ok true) :
      Calls tokens ⟨d + 1, .whileDo g body, parent, s⟩ ⟨d, body, parent, s⟩
  | while_again {d : Nat} {g : Guard} {body : Pattern} {parent : Option Nat} {s t : Match.State}
      (hg : Match.holds tokens s.pos g = .ok true)
      (h : Call.result tokens ⟨d, body, parent, s⟩ = .ok (.matched, t)) :
      Calls tokens ⟨d + 1, .whileDo g body, parent, s⟩ ⟨d, .whileDo g body, parent, t⟩
  | node {d : Nat} {l : Label} {body : Pattern} {parent : Option Nat} {s : Match.State} :
      Calls tokens ⟨d + 1, .node l body, parent, s⟩
        ⟨d, body, some (s.push (.phrase l)).1, (s.push (.phrase l)).2⟩
  | level {d : Nat} {l : Label} {body : Pattern} {parent : Option Nat} {s : Match.State} :
      Calls tokens ⟨d + 1, .level l body, parent, s⟩
        ⟨d, body, some (s.push (.phrase l)).1, (s.push (.phrase l)).2⟩
  | call {d : Nat} {phrase : Nonterminal} {parent : Option Nat} {s : Match.State} :
      Calls tokens ⟨d + 1, .call phrase, parent, s⟩ ⟨d, grammar phrase, parent, s⟩

/-- A call in a sound state, for a parent that fits its pattern. -/
structure Call.Sound (tokens : Array Lexeme) (c : Call) : Prop where
  state : c.state.Sound tokens
  parent : Fits c.pattern c.state c.parent

theorem fits_of_le {p r : Pattern} {b b' : Match.State} {parent : Option Nat}
    (h : Fits p b parent) (hp : p.isRule = false) (hle : b.tree.length ≤ b'.tree.length) :
    Fits r b' parent := by
  cases parent with
  | none => simp [Fits, hp] at h
  | some q => exact Nat.lt_of_lt_of_le h hle

theorem result_sound {tokens : Array Lexeme} {c : Call} {o : Outcome} {t : Match.State}
    (ht : c.result tokens = .ok (o, t)) (h : c.Sound tokens) :
    t.Sound tokens ∧ c.state.tree.length ≤ t.tree.length := by
  obtain ⟨o', t', hrun, hsound, hle⟩ := run_sound grammar c.depth h.state h.parent
  rw [Call.result, hrun] at ht
  cases ht
  exact ⟨hsound, hle⟩

/-- What is left of a pattern that failed below an open node is undone at a checkpoint before it. -/
theorem undone_sound {tokens : Array Lexeme} {d : Nat} {p : Pattern} {q : Nat}
    {s t u : Match.State} {c : Match.Checkpoint} (h : s.Sound tokens) (hq : q < s.tree.length)
    {o : Outcome} (ht : Call.result tokens ⟨d, p, some q, s⟩ = .ok (o, t))
    (hc : s.checkpoint (some q) = .ok c) (hu : t.backTo c = .ok u) :
    u.Sound tokens ∧ s.tree.length ≤ u.tree.length := by
  have hlen := Arena.contents_length h.tree
  obtain ⟨o', t', _, news, hrun, -, hs⟩ :=
    run_follows grammar tokens d p q s s.bare h.agree (hlen ▸ hq)
  obtain ⟨c', hc', hback⟩ := backTo_some h.agree (hlen ▸ hq)
  obtain ⟨u', hu', hs'⟩ := hback t' _ news hs
  rw [Call.result] at ht
  cases hrun.symm.trans ht
  cases hc'.symm.trans hc
  cases hu'.symm.trans hu
  have hle := hs'.grows.length_le
  rw [hlen, Arena.contents_length hs'.agree.sound] at hle
  exact ⟨hs'.agree.state_sound, hle⟩

/-- Whatever a sound call calls for is sound. -/
theorem calls_sound {tokens : Array Lexeme} {c d : Call} (h : c.Sound tokens)
    (hcalls : Calls tokens c d) : d.Sound tokens := by
  obtain ⟨hstate, hparent⟩ := h
  cases hcalls with
  | seq_second ht | star_again ht | while_again _ ht =>
    obtain ⟨hsound, hle⟩ := result_sound ht ⟨hstate, fits_of_le hparent rfl (Nat.le_refl _)⟩
    exact ⟨hsound, fits_of_le hparent rfl hle⟩
  | @alt_second _ _ _ parent _ _ _ _ ht hc hu =>
    cases parent with
    | none => simp [Fits, Pattern.isRule] at hparent
    | some q =>
      obtain ⟨hsound, hle⟩ := undone_sound hstate hparent ht hc hu
      exact ⟨hsound, Nat.lt_of_lt_of_le hparent hle⟩
  | node | level =>
    have hagree := hstate.agree.enter
    refine ⟨(hagree _).state_sound, ?_⟩
    exact Nat.lt_succ_self _
  | _ => exact ⟨hstate, fits_of_le hparent rfl (Nat.le_refl _)⟩

/-! ## Parsers on the way -/

namespace Parser

/-- The parsers that come of starting one and parsing any number of times. -/
inductive Used : Parser → Prop where
  | start {source : String} {tokens : List Lexeme} {p : Parser}
      (h : start? source tokens = some p) : Used p
  | again {p q : Parser} {r : Except ParseError Node} (h : Used p) (hq : p.parse = .ok (r, q)) :
      Used q

/-- The calls made while a parser parses. -/
inductive Visits (p : Parser) : Call → Prop where
  | program : Visits p ⟨depthBound p.tokens, Grammar.program, none, p.state⟩
  | loneName {o : Outcome} {t : Match.State}
      (h : Call.result p.tokens ⟨depthBound p.tokens, Grammar.program, none, p.state⟩ = .ok (o, t))
      (ho : o ≠ .matched) : Visits p ⟨depthBound p.tokens, Grammar.loneName, none, t⟩
  | inner {c d : Call} (h : Visits p c) (hd : Calls p.tokens c d) : Visits p d

/-- The states that a parser comes through while it parses: those in which a match is called for,
and those in which one ends. -/
inductive Reaches (p : Parser) : Match.State → Prop where
  | before {c : Call} (h : Visits p c) : Reaches p c.state
  | after {c : Call} {o : Outcome} {t : Match.State} (h : Visits p c)
      (ht : c.result p.tokens = .ok (o, t)) : Reaches p t

theorem start_sound {source : String} {tokens : List Lexeme} {p : Parser}
    (h : start? source tokens = some p) : p.state.Sound p.tokens := by
  unfold start? at h
  split at h
  · rename_i lx hlast
    split at h
    · obtain rfl := Option.some.inj h
      refine ⟨?_, Arena.sound_empty⟩
      have hne : tokens ≠ [] := by
        rintro rfl
        simp at hlast
      simpa using List.length_pos_iff.2 hne
    · cases h
  · cases h

theorem visits_sound {p : Parser} (hp : p.state.Sound p.tokens) {c : Call} (h : p.Visits c) :
    c.Sound p.tokens := by
  induction h with
  | program => exact ⟨hp, rfl⟩
  | loneName ht _ => exact ⟨(result_sound ht ⟨hp, rfl⟩).1, rfl⟩
  | inner _ hd ih => exact calls_sound ih hd

theorem reaches_sound {p : Parser} (hp : p.state.Sound p.tokens) {s : Match.State}
    (h : p.Reaches s) : s.Sound p.tokens := by
  cases h with
  | before hv => exact (visits_sound hp hv).state
  | after hv ht => exact (result_sound ht (visits_sound hp hv)).1

theorem tryRoot_sound {p q : Parser} {pattern : Pattern} {found : Bool}
    (hp : p.state.Sound p.tokens) (hrule : pattern.isRule)
    (h : p.tryRoot pattern = .ok (found, q)) : q.state.Sound q.tokens := by
  have hfits : Fits pattern p.state none := hrule
  obtain ⟨o, b, hrun, hsound, -⟩ := run_sound grammar (depthBound p.tokens) hp hfits
  simp only [tryRoot, hrun, bind, Except.bind, pure, Except.pure] at h
  cases h
  exact hsound

theorem finish_eq {p q : Parser} {r : Except ParseError Node} (h : p.finish = .ok (r, q)) :
    p = q ∧ ∃ n, r = .ok n ∧ p.state.tree.rootTree = .ok n := by
  unfold finish at h
  cases htree : p.state.tree.rootTree with
  | error e => simp [Fault.ofArena, Except.mapError, htree, bind, Except.bind] at h
  | ok n =>
    simp only [Fault.ofArena, Except.mapError, htree, bind, Except.bind, pure, Except.pure] at h
    cases h
    exact ⟨rfl, n, rfl, rfl⟩

/-- A run that ends has tried a program and, only where that failed, a single name. -/
theorem parse_cases {p q : Parser} {r : Except ParseError Node} (h : p.parse = .ok (r, q)) :
    (p.tryRoot Grammar.program = .ok (true, q) ∧ q.finish = .ok (r, q)) ∨
    ∃ q', p.tryRoot Grammar.program = .ok (false, q') ∧
      ((q'.tryRoot Grammar.loneName = .ok (true, q) ∧ q.finish = .ok (r, q)) ∨
        (q'.tryRoot Grammar.loneName = .ok (false, q) ∧ r = .error q.failure)) := by
  unfold parse at h
  cases h₁ : p.tryRoot Grammar.program with
  | error e => simp [h₁, bind, Except.bind] at h
  | ok found =>
    obtain ⟨_ | _, q₁⟩ := found <;> simp only [h₁, bind, Except.bind] at h
    · cases h₂ : q₁.tryRoot Grammar.loneName with
      | error e => simp [h₂] at h
      | ok found =>
        obtain ⟨_ | _, q₂⟩ := found <;> simp only [h₂, pure, Except.pure] at h
        · cases h
          exact .inr ⟨q₁, rfl, .inr ⟨h₂, rfl⟩⟩
        · obtain ⟨rfl, -⟩ := finish_eq h
          exact .inr ⟨q₁, rfl, .inl ⟨h₂, h⟩⟩
    · obtain ⟨rfl, -⟩ := finish_eq h
      exact .inl ⟨rfl, h⟩

theorem used_sound {p : Parser} (h : Used p) : p.state.Sound p.tokens := by
  induction h with
  | start h => exact start_sound h
  | again _ hq ih =>
    rcases parse_cases hq with ⟨hprogram, -⟩ | ⟨q', hprogram, ⟨hname, -⟩ | ⟨hname, -⟩⟩
    · exact tryRoot_sound ih rfl hprogram
    · exact tryRoot_sound (tryRoot_sound ih rfl hprogram) rfl hname
    · exact tryRoot_sound (tryRoot_sound ih rfl hprogram) rfl hname

end Parser

/-! ## Main statement -/

theorem grammar_isRule (phrase : Nonterminal) : (grammar phrase).isRule := by
  cases phrase <;> rfl

/-- In every state that a parser comes through, a rule that does not match leaves the cursor, the
root and all cells as they were; one that matches below a node adds one new child behind the
children of that node, changes no other cell that was there, and does not move the cursor back. -/
theorem rule_leaves_no_trace {p : Parser} (hp : p.Used) {s : Match.State} (hs : p.Reaches s)
    {r : Pattern} (hr : r.isRule ∨ ∃ phrase, r = .call phrase) (depth : Nat) (parent : Option Nat)
    (hparent : ∀ q, parent = some q → q < s.tree.length) :
    ∃ o t, Match.run grammar p.tokens depth r parent s = .ok (o, t) ∧
      (o ≠ .matched → t.pos = s.pos ∧ t.tree.length = s.tree.length ∧ t.tree.root = s.tree.root ∧
        t.tree.contents = s.tree.contents) ∧
      (o = .matched → s.pos ≤ t.pos ∧ ∀ q, parent = some q →
        t.tree.root = s.tree.root ∧
        (∃ c id, s.tree.contents[q]? = some c ∧ s.tree.length ≤ id ∧
          t.tree.contents[q]? = some (c.grow [id])) ∧
        ∀ i, i < s.tree.length → i ≠ q → t.tree.contents[i]? = s.tree.contents[i]?) := by
  have hsound := Parser.reaches_sound (Parser.used_sound hp) hs
  rcases hr with hrule | ⟨phrase, rfl⟩
  · exact rule_effect grammar depth hrule hsound hparent
  · cases depth with
    | zero => exact ⟨.exhausted, s, rfl, fun _ => ⟨rfl, rfl, rfl, rfl⟩, by simp⟩
    | succ depth => exact rule_effect grammar depth (grammar_isRule phrase) hsound hparent

/-- An expression looked for below the node of a program that has just been opened. -/
theorem rule_leaves_no_trace_below_program :
    let tokens : List Lexeme := [⟨.name, "X", none, 1, 1⟩, .endOfSource 1 2]
    let p : Parser := { source := "", tokens := tokens.toArray }
    let s := (p.state.push (.phrase .program)).2
    p.Used ∧ p.Reaches s ∧ 0 < s.tree.length ∧
      ∃ o t, Match.run grammar p.tokens 50 (.call .expr) (some 0) s = .ok (o, t) ∧
        (o ≠ .matched → t.pos = s.pos ∧ t.tree.length = s.tree.length ∧
          t.tree.root = s.tree.root ∧ t.tree.contents = s.tree.contents) ∧
        (o = .matched → s.pos ≤ t.pos ∧ t.tree.root = s.tree.root ∧
          ∃ c id, s.tree.contents[0]? = some c ∧ t.tree.contents[0]? = some (c.grow [id])) := by
  intro tokens p s
  have hstart : Parser.start? "" tokens = some p := rfl
  have hdepth : Parser.depthBound p.tokens = 16383 + 1 := by simp [Parser.depthBound, p, tokens]
  have hprogram : p.Visits ⟨16383 + 1, Grammar.program, none, p.state⟩ := by
    rw [← hdepth]
    exact .program
  have hs : p.Reaches s := .before (.inner hprogram .node)
  have hlen : 0 < s.tree.length := Nat.zero_lt_one
  obtain ⟨o, t, hrun, hfailed, hmatched⟩ :=
    rule_leaves_no_trace (.start hstart) hs (.inr ⟨.expr, rfl⟩) 50 (some 0)
      (by rintro _ ⟨⟩; exact hlen)
  refine ⟨.start hstart, hs, hlen, o, t, hrun, hfailed, fun ho => ?_⟩
  obtain ⟨hpos, hchild⟩ := hmatched ho
  obtain ⟨hroot, ⟨c, id, hc, -, hgrow⟩, -⟩ := hchild 0 rfl
  exact ⟨hpos, hroot, c, id, hc, hgrow⟩

end FortranJulia
