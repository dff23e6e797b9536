import FortranJulia.Proofs.Parsing.Derivation
import Mathlib.Logic.Relation

/-!
Parsing makes progress. Three things are read off a pattern without running it: whether a match of
it surely passes a token, how long a chain of calls can be before a token is passed, and which rules
such a chain enters. On the grammar they show that every round of a repetition passes a token, that
no rule calls for itself where it stands, and that the bound on the depth of a match is never
reached, so that a deeper bound changes nothing.
-/

namespace FortranJulia

set_option autoImplicit false

open Match (Outcome)

/-! ## What a pattern does before it passes a token -/

namespace Pattern

/-- Does a match of the pattern surely pass a token? With `inside`, it is known not to start at the
end of the source, where the cursor stays on the token that is taken. -/
def moves (inside : Bool) : Pattern → Bool
  | .token k => inside || k != .eof
  | .oneOf ks => inside || !ks.contains .eof
  | .word => true
  | .any => inside
  | .branch _ yes no => yes.moves inside && no.moves inside
  | .seq p₁ p₂ => p₁.moves inside || p₂.moves false
  | .alt p₁ p₂ => p₁.moves inside && p₂.moves inside
  | .attempt body | .node _ body | .level _ body => body.moves inside
  | .call phrase => phrase != .fmtSpec
  | _ => false

/-- Does every round of every repetition pass a token? -/
def paced : Pattern → Bool
  | .branch _ p₁ p₂ | .seq p₁ p₂ | .alt p₁ p₂ => p₁.paced && p₂.paced
  | .star body => body.moves false && body.paced
  | .whileDo g body => body.moves (g.excludes .eof) && body.paced
  | .opt body | .attempt body | .node _ body | .level _ body => body.paced
  | _ => true

def height : Pattern → Nat
  | .branch _ p₁ p₂ | .seq p₁ p₂ | .alt p₁ p₂ => max p₁.height p₂.height + 1
  | .star body | .opt body | .attempt body | .whileDo _ body | .node _ body | .level _ body =>
    body.height + 1
  | _ => 1

end Pattern

/-- A bound on the chains of calls that start with a nonterminal. -/
def Nonterminal.chain : Nonterminal → Nat
  | .multOperand | .fmtSpec | .inputItem | .dataStmtObject => 11
  | .expr | .actionStmt => 27
  | .outputItem | .executableConstruct => 30

namespace Pattern

/-- A bound on the chains of calls before a token is passed. -/
def chain : Pattern → Nat
  | .branch _ p₁ p₂ | .alt p₁ p₂ => max p₁.chain p₂.chain + 1
  | .seq p₁ p₂ => max p₁.chain (if p₁.moves false then 0 else p₂.chain) + 1
  | .star body | .opt body | .attempt body | .whileDo _ body | .node _ body | .level _ body =>
    body.chain + 1
  | .call phrase => phrase.chain + 1
  | _ => 1

/-- The rules that are called for before a token is passed, where those of nonterminals are given. -/
def enters (calls : Nonterminal → List Label) : Pattern → List Label
  | .branch _ p₁ p₂ | .alt p₁ p₂ => p₁.enters calls ++ p₂.enters calls
  | .seq p₁ p₂ => p₁.enters calls ++ (if p₁.moves false then [] else p₂.enters calls)
  | .star body | .opt body | .attempt body | .whileDo _ body => body.enters calls
  | .node l body | .level l body => l :: body.enters calls
  | .call phrase => calls phrase
  | _ => []

end Pattern

/-- The rules that a nonterminal calls for before a token is passed, through so many nonterminals. -/
def Nonterminal.entersWithin : Nat → Nonterminal → List Label
  | 0, _ => []
  | count + 1, phrase => (grammar phrase).enters (entersWithin count)

/-- No chain of calls before a token goes through more than three nonterminals. -/
def Nonterminal.enters : Nonterminal → List Label :=
  Nonterminal.entersWithin 3

/-- Does no rule inside the pattern call for itself before a token is passed? -/
def Pattern.fresh : Pattern → Bool
  | .branch _ p₁ p₂ | .seq p₁ p₂ | .alt p₁ p₂ => p₁.fresh && p₂.fresh
  | .star body | .opt body | .attempt body | .whileDo _ body => body.fresh
  | .node l body | .level l body => !(body.enters Nonterminal.enters).contains l && body.fresh
  | _ => true

/-- What the matches that come up in parsing have in common. -/
structure Pattern.Orderly (p : Pattern) : Prop where
  paced : p.paced
  fresh : p.fresh
  height_le : p.height ≤ 100

/-! ## The grammar -/

theorem grammar_moves {phrase : Nonterminal} (h : phrase ≠ .fmtSpec) :
    (grammar phrase).moves false := by
  revert h
  cases phrase <;> decide

theorem grammar_chain (phrase : Nonterminal) : (grammar phrase).chain ≤ phrase.chain := by
  cases phrase <;> decide

theorem grammar_enters (phrase : Nonterminal) :
    (grammar phrase).enters Nonterminal.enters ⊆ phrase.enters := by
  cases phrase <;> decide +kernel

theorem grammarPatterns_orderly {p : Pattern} (h : p ∈ grammarPatterns) : p.Orderly := by
  have hall : ∀ p ∈ grammarPatterns, (p.paced && p.fresh && decide (p.height ≤ 100)) = true := by
    decide +kernel
  have hp := hall p h
  simp only [Bool.and_eq_true, decide_eq_true_eq] at hp
  exact ⟨hp.1.1, hp.1.2, hp.2⟩

/-- The rules that may match without passing a token: the end of a statement before the end of the
source, the body of a condition, and the text of a format. -/
def idleLabels : List Label := [.endOfStmt, .conditionalBody, .fmtSpec]

theorem rule_moves {r : Pattern} (hr : r ∈ grammarPatterns.flatMap Pattern.rules)
    (hidle : ∀ l ∈ idleLabels, r.label? ≠ some l) : r.moves false := by
  have hall : grammarPatterns.all (Pattern.everyRule fun r =>
      idleLabels.any (fun l => r.label? == some l) || r.moves false) := by
    decide +kernel
  have hor := grammar_rule hall hr
  rw [Bool.or_eq_true, List.any_eq_true] at hor
  rcases hor with ⟨l, hl, heq⟩ | hmoves
  · exact absurd (by simpa using heq) (hidle l hl)
  · exact hmoves

/-! ## Cursors -/

namespace TreeMatch

variable {grammar : Nonterminal → Pattern} {tokens : Array Lexeme}

theorem take_inside {s : State} (h : s.pos < tokens.size) : (s.take tokens).pos < tokens.size := by
  simp only [State.take]
  split <;> omega

/-- The cursor stays on the tokens, also on an end of the source that comes before the last. -/
theorem Runs.inside {p : Pattern} {s t : State} {o : Outcome} (h : Runs grammar tokens p s o t) :
    s.pos < tokens.size → t.pos < tokens.size := by
  induction h with
  | take => exact take_inside
  | miss => exact fun hs => (missed_pos _ _).symm ▸ hs
  | seq _ _ ih₁ ih₂ | star_more _ _ ih₁ ih₂ | while_more _ _ _ ih₁ ih₂ => exact fun hs => ih₂ (ih₁ hs)
  | alt_second _ _ _ ih => exact ih
  | branch _ ih | star_end _ ih | star_stop _ ih | opt_none _ ih | call _ ih => exact ih
  | seq_stop _ _ ih | alt_first _ _ ih | opt _ _ ih | attempt _ _ ih | while_stop _ _ _ ih =>
    exact ih
  | node _ ih | level _ ih => exact ih
  | _ => exact id

/-- A match of a pattern that moves ends behind the token where it began. -/
theorem Runs.advances (hend : EndsInEof tokens)
    (hgrammar : ∀ phrase, phrase ≠ .fmtSpec → (grammar phrase).moves false) {p : Pattern}
    {s t : State} {o : Outcome} (h : Runs grammar tokens p s o t) :
    ∀ inside, p.moves inside → (inside → s.pos + 1 < tokens.size) → s.pos < tokens.size →
      o = .matched → s.pos < t.pos := by
  have hfalse : ∀ u : State, (false : Bool) = true → u.pos + 1 < tokens.size := by simp
  induction h with
  | @take p s ht =>
    intro inside hp hin hs _
    have hspares : p.sparesEnd inside := by
      cases p <;> simp_all [Pattern.moves, Pattern.sparesEnd, accepts?]
    have hnext := next_of_accepts hend hs hin hspares ht
    simp only [State.take, if_pos hnext]
    omega
  | branch _ ih =>
    intro inside hp hin hs ho
    simp only [Pattern.moves, Bool.and_eq_true] at hp
    exact ih inside (by split <;> simp [hp]) hin hs ho
  | seq h₁ h₂ ih₁ ih₂ =>
    intro inside hp hin hs ho
    simp only [Pattern.moves, Bool.or_eq_true] at hp
    have hle₁ := h₁.pos_le
    have hle₂ := h₂.pos_le
    rcases hp with hp | hp
    · have hlt := ih₁ inside hp hin hs rfl
      omega
    · have hlt := ih₂ false hp (hfalse _) (h₁.inside hs) ho
      omega
  | alt_first _ _ ih =>
    intro inside hp hin hs ho
    simp only [Pattern.moves, Bool.and_eq_true] at hp
    exact ih inside hp.1 hin hs ho
  | alt_second _ _ _ ih =>
    intro inside hp hin hs ho
    simp only [Pattern.moves, Bool.and_eq_true] at hp
    exact ih inside hp.2 hin hs ho
  | attempt _ _ ih | node _ ih | level _ ih => exact ih
  | call _ ih =>
    intro inside hp hin hs ho
    exact ih false (hgrammar _ (by simpa [Pattern.moves] using hp)) (hfalse _) hs ho
  | seq_stop _ hne | while_stop _ _ hne | node_back _ hne | level_back _ hne =>
    exact fun _ _ _ _ ho => absurd ho hne
  | exhausted | miss | check_fails | attempt_back | star_stop => simp
  | _ => simp [Pattern.moves]

end TreeMatch

/-- A match in a sound state goes with trees as it goes with cells. -/
theorem result_runs {tokens : Array Lexeme} {c : Call} {o : Outcome} {t : Match.State}
    (h : c.Sound tokens) (ht : c.result tokens = .ok (o, t)) :
    ∃ u, TreeMatch.Runs grammar tokens c.pattern c.state.bare o u ∧ u.pos = t.pos := by
  obtain ⟨depth, p, parent, s⟩ := c
  obtain ⟨hs, hfits⟩ := h
  rw [Call.result] at ht
  cases parent with
  | none =>
    rcases rule_follows grammar depth hfits hs.agree with
      ⟨b, n, u, hout, hready, hrun⟩ | ⟨o', b, u, -, hout, hagree, -, -, hrun⟩
    · cases (hrun none).symm.trans ht
      exact ⟨_, TreeMatch.run_runs hout, hready.agree.pos.symm⟩
    · cases (hrun none).symm.trans ht
      exact ⟨_, TreeMatch.run_runs hout, hagree.pos.symm⟩
  | some q =>
    have hq : q < s.tree.contents.length := Arena.contents_length hs.tree ▸ hfits
    obtain ⟨o', b, u, news, hrun, hout, hsteps⟩ :=
      run_follows grammar tokens depth p q s s.bare hs.agree hq
    cases hrun.symm.trans ht
    exact ⟨_, TreeMatch.run_runs hout, hsteps.agree.pos.symm⟩

theorem result_advances {tokens : Array Lexeme} (hend : EndsInEof tokens) {c : Call}
    {t : Match.State} (h : c.Sound tokens) (ht : c.result tokens = .ok (.matched, t))
    {inside : Bool} (hmoves : c.pattern.moves inside)
    (hinside : inside → c.state.pos + 1 < tokens.size) : c.state.pos < t.pos := by
  obtain ⟨u, hruns, hpos⟩ := result_runs h ht
  have hlt := hruns.advances hend (fun _ => grammar_moves) inside hmoves hinside h.state.inside rfl
  exact hpos ▸ hlt

theorem result_pos_le {tokens : Array Lexeme} {c : Call} {o : Outcome} {t : Match.State}
    (h : c.Sound tokens) (ht : c.result tokens = .ok (o, t)) : c.state.pos ≤ t.pos := by
  obtain ⟨u, hruns, hpos⟩ := result_runs h ht
  exact hpos ▸ hruns.pos_le

/-! ## Calls -/

/-- The patterns that a pattern may call for before a token is passed. -/
inductive Opens : Pattern → Pattern → Prop where
  | branch_yes (g : Guard) (yes no : Pattern) : Opens (.branch g yes no) yes
  | branch_no (g : Guard) (yes no : Pattern) : Opens (.branch g yes no) no
  | seq_first (p₁ p₂ : Pattern) : Opens (.seq p₁ p₂) p₁
  | seq_second {p₁ : Pattern} (p₂ : Pattern) (h : p₁.moves false = false) : Opens (.seq p₁ p₂) p₂
  | alt_first (p₁ p₂ : Pattern) : Opens (.alt p₁ p₂) p₁
  | alt_second (p₁ p₂ : Pattern) : Opens (.alt p₁ p₂) p₂
  | star (body : Pattern) : Opens (.star body) body
  | opt (body : Pattern) : Opens (.opt body) body
  | attempt (body : Pattern) : Opens (.attempt body) body
  | whileDo (g : Guard) (body : Pattern) : Opens (.whileDo g body) body
  | node (l : Label) (body : Pattern) : Opens (.node l body) body
  | level (l : Label) (body : Pattern) : Opens (.level l body) body
  | call (phrase : Nonterminal) : Opens (.call phrase) (grammar phrase)

theorem Opens.chain_lt {p q : Pattern} (h : Opens p q) : q.chain < p.chain := by
  cases h with
  | seq_second p₂ h =>
    simp only [Pattern.chain, h, Bool.false_eq_true, if_false]
    omega
  | call phrase => exact Nat.lt_succ_of_le (grammar_chain phrase)
  | _ =>
    simp only [Pattern.chain]
    omega

theorem Opens.enters_subset {p q : Pattern} (h : Opens p q) :
    q.enters Nonterminal.enters ⊆ p.enters Nonterminal.enters := by
  cases h with
  | seq_second p₂ h =>
    simp only [Pattern.enters, h, Bool.false_eq_true, if_false]
    exact List.subset_append_right _ _
  | branch_yes | alt_first | seq_first => exact List.subset_append_left _ _
  | branch_no | alt_second => exact List.subset_append_right _ _
  | star | opt | attempt | whileDo => exact fun _ h => h
  | node | level => exact List.subset_cons_self _ _
  | call phrase => exact grammar_enters phrase

/-- What a rule calls for where it stands are other rules. -/
theorem Opens.not_enters {p q : Pattern} (h : Opens p q) (hp : p.fresh) {l : Label}
    (hl : p.label? = some l) : l ∉ q.enters Nonterminal.enters := by
  cases h with
  | node m body | level m body =>
    obtain rfl := Option.some.inj hl
    simp only [Pattern.fresh, Bool.and_eq_true, Bool.not_eq_true', List.contains_eq_mem,
      decide_eq_false_iff_not] at hp
    exact hp.1
  | _ => simp [Pattern.label?] at hl

theorem label_mem_enters {p : Pattern} {l : Label} (h : p.label? = some l) :
    l ∈ p.enters Nonterminal.enters := by
  cases p with
  | node m body | level m body =>
    obtain rfl := Option.some.inj h
    exact List.mem_cons_self
  | _ => simp [Pattern.label?] at h

theorem calls_orderly {tokens : Array Lexeme} {c d : Call} (h : Calls tokens c d)
    (hc : c.pattern.Orderly) : d.pattern.Orderly := by
  obtain ⟨hpaced, hfresh, hheight⟩ := hc
  cases h with
  | call => exact grammarPatterns_orderly (grammar_mem _)
  | star_again => exact ⟨hpaced, hfresh, hheight⟩
  | while_again => exact ⟨hpaced, hfresh, hheight⟩
  | @branch _ _ _ _ _ _ yesno =>
    simp only [Pattern.paced, Pattern.fresh, Pattern.height, Bool.and_eq_true] at hpaced hfresh hheight
    cases yesno
    · exact ⟨hpaced.2, hfresh.2, by simp only [Bool.false_eq_true, if_false]; omega⟩
    · exact ⟨hpaced.1, hfresh.1, by simp only [if_true]; omega⟩
  | seq_first | alt_first =>
    simp only [Pattern.paced, Pattern.fresh, Pattern.height, Bool.and_eq_true] at hpaced hfresh hheight
    exact ⟨hpaced.1, hfresh.1, by dsimp only; omega⟩
  | seq_second | alt_second =>
    simp only [Pattern.paced, Pattern.fresh, Pattern.height, Bool.and_eq_true] at hpaced hfresh hheight
    exact ⟨hpaced.2, hfresh.2, by dsimp only; omega⟩
  | star_body | while_body =>
    simp only [Pattern.paced, Pattern.fresh, Pattern.height, Bool.and_eq_true] at hpaced hfresh hheight
    exact ⟨hpaced.2, hfresh, by dsimp only; omega⟩
  | opt | attempt => exact ⟨hpaced, hfresh, Nat.le_of_succ_le hheight⟩
  | node | level =>
    simp only [Pattern.fresh, Bool.and_eq_true] at hfresh
    exact ⟨hpaced, hfresh.2, Nat.le_of_succ_le hheight⟩

/-- A call stands behind the token of the call that made it, or it is one that the other may make
before it passes a token. -/
theorem calls_pace {tokens : Array Lexeme} (hend : EndsInEof tokens) {c d : Call}
    (hc : c.Sound tokens) (hpaced : c.pattern.paced) (h : Calls tokens c d) :
    c.state.pos < d.state.pos ∨ c.state.pos = d.state.pos ∧ Opens c.pattern d.pattern := by
  have hinner : ∀ {depth : Nat} {p q : Pattern} {parent : Option Nat} {s : Match.State},
      Call.Sound tokens ⟨depth + 1, p, parent, s⟩ → p.isRule = false →
        Call.Sound tokens ⟨depth, q, parent, s⟩ :=
    fun h hp => ⟨h.state, fits_of_le h.parent hp (Nat.le_refl _)⟩
  cases h with
  | @branch _ g yes no _ _ yesno =>
    cases yesno
    · exact .inr ⟨rfl, .branch_no g yes no⟩
    · exact .inr ⟨rfl, .branch_yes g yes no⟩
  | seq_first => exact .inr ⟨rfl, .seq_first _ _⟩
  | @seq_second _ p₁ p₂ _ _ t ht =>
    have hsound := hinner (q := p₁) hc rfl
    cases hmoves : p₁.moves false with
    | true =>
      have hlt := result_advances hend hsound ht hmoves (by simp)
      exact .inl hlt
    | false =>
      rcases Nat.lt_or_eq_of_le (result_pos_le hsound ht) with hlt | heq
      · exact .inl hlt
      · exact .inr ⟨heq, .seq_second p₂ hmoves⟩
  | alt_first => exact .inr ⟨rfl, .alt_first _ _⟩
  | @alt_second _ p₁ p₂ parent s t u check ht hcheck hback =>
    have hu : s.pos = u.pos := by
      unfold Match.State.checkpoint at hcheck
      unfold Match.State.backTo at hback
      cases hmark : Fault.ofArena (s.tree.mark parent) with
      | error e => simp [hmark, bind, Except.bind] at hcheck
      | ok mark =>
        cases hroll : Fault.ofArena (t.tree.rollback check.mark) with
        | error e => simp [hroll, bind, Except.bind] at hback
        | ok tree =>
          simp only [hmark, bind, Except.bind, pure, Except.pure, Except.ok.injEq] at hcheck
          simp only [hroll, bind, Except.bind, pure, Except.pure, Except.ok.injEq] at hback
          rw [← hback, ← hcheck]
    exact .inr ⟨hu, .alt_second _ _⟩
  | star_body => exact .inr ⟨rfl, .star _⟩
  | @star_again _ body _ _ _ ht =>
    simp only [Pattern.paced, Bool.and_eq_true] at hpaced
    have hlt := result_advances hend (hinner (q := body) hc rfl) ht hpaced.1 (by simp)
    exact .inl hlt
  | opt => exact .inr ⟨rfl, .opt _⟩
  | attempt => exact .inr ⟨rfl, .attempt _⟩
  | while_body => exact .inr ⟨rfl, .whileDo _ _⟩
  | @while_again _ g body _ s _ hg ht =>
    simp only [Pattern.paced, Bool.and_eq_true] at hpaced
    have hs := hc.state.inside
    rw [holds_eq (Nat.lt_of_le_of_lt (Nat.zero_le _) hs)] at hg
    have hlt := result_advances hend (hinner (q := body) hc rfl) ht hpaced.1
      (next_of_holds hend hs (Except.ok.inj hg))
    exact .inl hlt
  | node => exact .inr ⟨rfl, .node _ _⟩
  | level => exact .inr ⟨rfl, .level _ _⟩
  | call => exact .inr ⟨rfl, .call _⟩

/-! ## Depth -/

/-- More tokens than a call can still pass, times a bound on the calls between two of them. -/
def Call.Deep (tokens : Array Lexeme) (c : Call) : Prop :=
  (tokens.size - c.state.pos) * 4096 + c.pattern.chain ≤ c.depth

theorem chain_pos (p : Pattern) : 0 < p.chain := by
  cases p <;> exact Nat.succ_pos _

theorem chain_le_height (p : Pattern) : p.chain ≤ p.height + 30 := by
  induction p with
  | call phrase => cases phrase <;> decide
  | seq p₁ p₂ ih₁ ih₂ =>
    simp only [Pattern.chain, Pattern.height]
    split <;> omega
  | _ =>
    simp only [Pattern.chain, Pattern.height]
    omega

theorem Pattern.Orderly.chain_le {p : Pattern} (h : p.Orderly) : p.chain ≤ 4096 := by
  have hchain := chain_le_height p
  have hheight := h.height_le
  omega

theorem calls_depth {tokens : Array Lexeme} {c d : Call} (h : Calls tokens c d) :
    c.depth = d.depth + 1 := by
  cases h <;> rfl

theorem calls_deep {tokens : Array Lexeme} (hend : EndsInEof tokens) {c d : Call}
    (hc : c.Sound tokens) (horderly : c.pattern.Orderly) (hdeep : c.Deep tokens)
    (h : Calls tokens c d) : d.Deep tokens := by
  have hdepth := calls_depth h
  have hchain := (calls_orderly h horderly).chain_le
  have hpos := chain_pos c.pattern
  have hinside := hc.state.inside
  unfold Call.Deep at hdeep ⊢
  rcases calls_pace hend hc horderly.paced h with hlt | ⟨heq, hopens⟩
  · -- A token was passed: what it leaves over pays for a whole chain of calls.
    rw [hdepth] at hdeep
    have hpays : (tokens.size - c.state.pos) * 4096 ≤ d.depth :=
      Nat.le_of_lt_succ (Nat.lt_of_lt_of_le (Nat.lt_add_of_pos_right hpos) hdeep)
    have hless : tokens.size - d.state.pos + 1 ≤ tokens.size - c.state.pos := by omega
    calc (tokens.size - d.state.pos) * 4096 + d.pattern.chain
        ≤ (tokens.size - d.state.pos) * 4096 + 4096 := Nat.add_le_add_left hchain _
      _ = (tokens.size - d.state.pos + 1) * 4096 := by rw [Nat.add_mul, Nat.one_mul]
      _ ≤ (tokens.size - c.state.pos) * 4096 := Nat.mul_le_mul_right 4096 hless
      _ ≤ d.depth := hpays
  · have hless := hopens.chain_lt
    rw [← heq]
    omega

/-- A result that depends on a bound does not reach it, and a larger one makes no difference. -/
def Settles (f : Nat → Except Fault (Outcome × Match.State)) (depth : Nat) : Prop :=
  (∀ t, f depth ≠ .ok (.exhausted, t)) ∧ ∀ more, depth ≤ more → f more = f depth

namespace Settles

variable {f : Nat → Except Fault (Outcome × Match.State)} {depth : Nat}

theorem const {r : Except Fault (Outcome × Match.State)} (h : ∀ t, r ≠ .ok (.exhausted, t)) :
    Settles (fun _ => r) depth :=
  ⟨h, fun _ _ => rfl⟩

theorem ended {o : Outcome} {s : Match.State} (h : o ≠ .exhausted) :
    Settles (fun _ => .ok (o, s)) depth :=
  const (fun _ ht => h (congrArg Prod.fst (Except.ok.inj ht)))

/-- A first step that does not depend on the bound. -/
theorem after {α : Type} {x : Except Fault α} {k : Nat → α → Except Fault (Outcome × Match.State)}
    (h : ∀ a, x = .ok a → Settles (fun d => k d a) depth) :
    Settles (fun d => x >>= k d) depth := by
  cases x with
  | error e => exact const (fun t ht => by cases ht)
  | ok a => exact h a rfl

theorem bind {k : Nat → Outcome × Match.State → Except Fault (Outcome × Match.State)}
    (hf : Settles f depth)
    (h : ∀ o s, f depth = .ok (o, s) → o ≠ .exhausted → Settles (fun d => k d (o, s)) depth) :
    Settles (fun d => f d >>= k d) depth := by
  obtain ⟨hends, hdeeper⟩ := hf
  have hsame : ∀ more, depth ≤ more → (f more >>= k more) = (f depth >>= k more) := by
    intro more hmore
    rw [hdeeper more hmore]
  have hk : Settles (fun d => f depth >>= k d) depth := by
    refine after (fun r hr => ?_)
    obtain ⟨o, s⟩ := r
    exact h o s hr (fun ho => hends s (ho ▸ hr))
  exact ⟨hk.1, fun more hmore => (hsame more hmore).trans (hk.2 more hmore)⟩

theorem succ (h : Settles (fun d => f (d + 1)) depth) : Settles f (depth + 1) := by
  refine ⟨h.1, fun more hmore => ?_⟩
  obtain ⟨more, rfl⟩ : ∃ k, more = k + 1 := ⟨more - 1, by omega⟩
  exact h.2 more (Nat.le_of_succ_le_succ hmore)

end Settles

/-- The match does not reach its bound, and a larger one makes no difference. -/
def Call.Settled (tokens : Array Lexeme) (c : Call) : Prop :=
  Settles (fun depth => Call.result tokens { c with depth }) c.depth

/-- A match is settled if all that it calls for are. -/
theorem settled_of_calls {tokens : Array Lexeme} {depth : Nat} {p : Pattern} {parent : Option Nat}
    {s : Match.State}
    (h : ∀ d, Calls tokens ⟨depth + 1, p, parent, s⟩ d → d.Settled tokens) :
    Call.Settled tokens ⟨depth + 1, p, parent, s⟩ := by
  refine Settles.succ ?_
  simp only [Call.result]
  have htake : Settles (fun _ => do return (.matched, ← s.take tokens parent)) depth :=
    .after (fun _ _ => .ended (by simp))
  cases p with
  | token k | oneOf ks | word =>
    simp only [Match.run]
    refine Settles.after (fun lx _ => ?_)
    split
    · exact htake
    · exact .ended (by simp)
  | any => exact htake
  | check g =>
    simp only [Match.run]
    refine Settles.after (fun yes _ => ?_)
    cases yes <;> exact .ended (by simp)
  | branch g yes no =>
    simp only [Match.run]
    exact .after (fun _ hg => h _ (.branch hg))
  | seq p₁ p₂ =>
    refine Settles.bind (h _ .seq_first) (fun o u hr ho => ?_)
    cases o with
    | matched => exact h _ (.seq_second hr)
    | _ => exact .ended ho
  | alt p₁ p₂ =>
    simp only [Match.run]
    refine Settles.after (fun c hc => ?_)
    refine Settles.bind (h _ .alt_first) (fun o u hr ho => ?_)
    cases o with
    | failed => exact .after (fun _ hback => h _ (.alt_second hr hc hback))
    | _ => exact .ended ho
  | star body =>
    refine Settles.bind (h _ .star_body) (fun o u hr ho => ?_)
    cases o with
    | matched => exact h _ (.star_again hr)
    | failed => exact .ended (by simp)
    | exhausted => exact absurd rfl ho
  | opt body =>
    refine Settles.bind (h _ .opt) (fun o u hr ho => ?_)
    cases o with
    | failed => exact .ended (by simp)
    | _ => exact .ended ho
  | attempt body =>
    simp only [Match.run]
    refine Settles.after (fun c _ => ?_)
    refine Settles.bind (h _ .attempt) (fun o u hr ho => ?_)
    cases o with
    | failed => exact .after (fun _ _ => .ended (by simp))
    | _ => exact .ended ho
  | whileDo g body =>
    simp only [Match.run]
    refine Settles.after (fun yes hg => ?_)
    cases yes with
    | false => exact .ended (by simp)
    | true =>
      refine Settles.bind (h _ (.while_body hg)) (fun o u hr ho => ?_)
      cases o with
      | matched => exact h _ (.while_again hg hr)
      | _ => exact .ended ho
  | node l body =>
    simp only [Match.run]
    refine Settles.after (fun c _ => ?_)
    refine Settles.bind (h _ .node) (fun o u hr ho => ?_)
    cases o with
    | matched => exact .after (fun _ _ => .ended (by simp))
    | _ => exact .after (fun _ _ => .ended ho)
  | level l body =>
    simp only [Match.run]
    refine Settles.after (fun c _ => ?_)
    refine Settles.bind (h _ .level) (fun o u hr ho => ?_)
    cases o with
    | matched => exact .after (fun _ _ => .after (fun _ _ => .ended (by simp)))
    | _ => exact .after (fun _ _ => .ended ho)
  | call phrase => exact h _ .call

/-- A match that may go deep enough does not reach its bound. -/
theorem deep_settled {tokens : Array Lexeme} (hend : EndsInEof tokens) {c : Call}
    (hc : c.Sound tokens) (horderly : c.pattern.Orderly) (hdeep : c.Deep tokens) :
    c.Settled tokens := by
  obtain ⟨depth, pattern, parent, s⟩ := c
  induction depth generalizing pattern parent s with
  | zero =>
    have hpos := chain_pos pattern
    simp only [Call.Deep] at hdeep
    omega
  | succ depth ih =>
    refine settled_of_calls (fun d hd => ?_)
    obtain rfl : depth = d.depth := Nat.succ.inj (calls_depth hd)
    exact ih d.pattern d.parent d.state (calls_sound hc hd) (calls_orderly hd horderly)
      (calls_deep hend hc horderly hdeep hd)

/-! ## Parsers -/

namespace Parser

theorem start_endsInEof {source : String} {tokens : List Lexeme} {p : Parser}
    (h : start? source tokens = some p) : EndsInEof p.tokens := by
  obtain rfl := start_eq h
  intro i hi
  rw [List.size_toArray] at hi
  unfold start? at h
  split at h
  · rename_i lx hlast
    split at h
    · rename_i hkind
      rw [List.getLast?_eq_getElem?, show tokens.length - 1 = i by omega] at hlast
      rw [tokenAt_eq (by rw [List.getElem?_toArray, hlast])]
      simpa using hkind
    · cases h
  · cases h

theorem tryRoot_tokens {p q : Parser} {pattern : Pattern} {found : Bool}
    (h : p.tryRoot pattern = .ok (found, q)) : q.tokens = p.tokens := by
  unfold tryRoot at h
  cases hrun : Match.run grammar p.tokens (depthBound p.tokens) pattern none p.state with
  | error e => simp [hrun, bind, Except.bind] at h
  | ok r =>
    simp only [hrun, bind, Except.bind, pure, Except.pure] at h
    cases h
    rfl

theorem used_endsInEof {p : Parser} (h : Used p) : EndsInEof p.tokens := by
  induction h with
  | start h => exact start_endsInEof h
  | again _ hq ih =>
    rcases parse_cases hq with ⟨hprogram, -⟩ | ⟨q', hprogram, ⟨hname, -⟩ | ⟨hname, -⟩⟩
    · rwa [tryRoot_tokens hprogram]
    · rwa [tryRoot_tokens hname, tryRoot_tokens hprogram]
    · rwa [tryRoot_tokens hname, tryRoot_tokens hprogram]

theorem visits_orderly {p : Parser} {c : Call} (h : p.Visits c) : c.pattern.Orderly := by
  induction h with
  | program => exact grammarPatterns_orderly (by simp [grammarPatterns])
  | loneName => exact grammarPatterns_orderly (by simp [grammarPatterns])
  | inner _ hd ih => exact calls_orderly hd ih

theorem visits_deep {p : Parser} (hp : p.state.Sound p.tokens) (hend : EndsInEof p.tokens)
    {c : Call} (h : p.Visits c) : c.Deep p.tokens := by
  have hroot : ∀ {pattern : Pattern} (t : Match.State), pattern.Orderly →
      Call.Deep p.tokens ⟨depthBound p.tokens, pattern, none, t⟩ := by
    intro pattern t horderly
    have hchain := horderly.chain_le
    have hsize : (p.tokens.size - t.pos) * 4096 ≤ p.tokens.size * 4096 :=
      Nat.mul_le_mul_right 4096 (Nat.sub_le _ _)
    simp only [Call.Deep, depthBound, Nat.add_mul]
    exact Nat.add_le_add hsize (Nat.le_trans hchain (by decide))
  induction h with
  | program => exact hroot _ (grammarPatterns_orderly (by simp [grammarPatterns]))
  | loneName => exact hroot _ (grammarPatterns_orderly (by simp [grammarPatterns]))
  | inner hv hd ih => exact calls_deep hend (visits_sound hp hv) (visits_orderly hv) ih hd

theorem visits_settled {p : Parser} (hp : p.state.Sound p.tokens) (hend : EndsInEof p.tokens)
    {c : Call} (hv : p.Visits c) : c.Settled p.tokens :=
  deep_settled hend (visits_sound hp hv) (visits_orderly hv) (visits_deep hp hend hv)

/-- Where a chain of calls has passed no token, the rule at its head is not entered again. -/
theorem visits_not_again {p : Parser} (hp : p.state.Sound p.tokens) (hend : EndsInEof p.tokens)
    {c d : Call} (hv : p.Visits c) (h : Relation.TransGen (Calls p.tokens) c d) {l : Label}
    (hl : c.pattern.label? = some l) :
    p.Visits d ∧ (c.state.pos < d.state.pos ∨
      c.state.pos = d.state.pos ∧ l ∉ d.pattern.enters Nonterminal.enters) := by
  induction h with
  | single hd =>
    refine ⟨.inner hv hd, ?_⟩
    rcases calls_pace hend (visits_sound hp hv) (visits_orderly hv).paced hd with hlt | ⟨heq, ho⟩
    · exact .inl hlt
    · exact .inr ⟨heq, ho.not_enters (visits_orderly hv).fresh hl⟩
  | tail _ hd ih =>
    obtain ⟨hvb, hpos⟩ := ih
    refine ⟨.inner hvb hd, ?_⟩
    rcases calls_pace hend (visits_sound hp hvb) (visits_orderly hvb).paced hd with hlt | ⟨heq, ho⟩
    · left
      rcases hpos with hpos | ⟨hpos, -⟩ <;> omega
    · rcases hpos with hpos | ⟨hpos, hnot⟩
      · exact .inl (heq ▸ hpos)
      · exact .inr ⟨hpos.trans heq, fun hmem => hnot (ho.enters_subset hmem)⟩

theorem tryRoot_ends {p : Parser} (hp : p.state.Sound p.tokens) (pattern : Pattern)
    (hrule : pattern.isRule) :
    ∃ found q, p.tryRoot pattern = .ok (found, q) ∧ q.state.Sound q.tokens ∧
      (found = true → ∃ n, q.finish = .ok (.ok n, q)) := by
  have hfits : Fits pattern p.state none := hrule
  obtain ⟨o, b, hrun, -, -⟩ := run_sound grammar (depthBound p.tokens) hp hfits
  have htry : p.tryRoot pattern = .ok (o == .matched, { p with state := b }) := by
    simp [tryRoot, hrun, bind, Except.bind, pure, Except.pure]
  refine ⟨_, _, htry, tryRoot_sound hp hrule htry, fun hfound => ?_⟩
  rw [hfound] at htry
  obtain ⟨n, -, -, hsound, hroot, hshown⟩ := tryRoot_found hp hrule htry
  refine ⟨n, ?_⟩
  simp [finish, Fault.ofArena, Except.mapError, rootTree_shown hsound hroot hshown, bind,
    Except.bind, pure, Except.pure]

/-- A run ends in a tree or an error. -/
theorem parse_ends {p : Parser} (hp : p.state.Sound p.tokens) : ∃ r q, p.parse = .ok (r, q) := by
  obtain ⟨found, q, hprogram, hq, hfinish⟩ := tryRoot_ends hp Grammar.program rfl
  cases found with
  | true =>
    obtain ⟨n, hn⟩ := hfinish rfl
    exact ⟨.ok n, q, by simp [parse, hprogram, hn, bind, Except.bind]⟩
  | false =>
    obtain ⟨found, q', hname, -, hfinish'⟩ := tryRoot_ends hq Grammar.loneName rfl
    cases found with
    | true =>
      obtain ⟨n, hn⟩ := hfinish' rfl
      exact ⟨.ok n, q', by simp [parse, hprogram, hname, hn, bind, Except.bind]⟩
    | false =>
      exact ⟨.error q'.failure, q',
        by simp [parse, hprogram, hname, bind, Except.bind, pure, Except.pure]⟩

end Parser

/-! ## Main statement -/

/-- Parsing ends, because it makes progress: every rule but three passes a token when it matches, a
repetition that goes round again stands at a later token, no rule is entered again at the token
where it was called for, the cursor stays on the tokens, and no match that comes up depends on the
bound on its depth. -/
theorem parsing_makes_progress {p : Parser} (hp : p.Used) :
    (∀ c : Call, c.Sound p.tokens → c.pattern ∈ grammarPatterns.flatMap Pattern.rules →
      (∀ l ∈ idleLabels, c.pattern.label? ≠ some l) →
      ∀ t, c.result p.tokens = .ok (.matched, t) → c.state.pos < t.pos) ∧
    (∀ c d, p.Visits c → Calls p.tokens c d → d.pattern = c.pattern →
      c.state.pos < d.state.pos) ∧
    (∀ c d l, p.Visits c → Relation.TransGen (Calls p.tokens) c d → c.pattern.label? = some l →
      d.pattern.label? = some l → c.state.pos < d.state.pos) ∧
    (∀ s, p.Reaches s → s.pos < p.tokens.size) ∧
    (∀ c, p.Visits c → ∃ o t, o ≠ .exhausted ∧ ∀ depth, c.depth ≤ depth →
      Match.run grammar p.tokens depth c.pattern c.parent c.state = .ok (o, t)) ∧
    ∃ r q, p.parse = .ok (r, q) := by
  have hsound := Parser.used_sound hp
  have hend := Parser.used_endsInEof hp
  refine ⟨?_, ?_, ?_, ?_, ?_, Parser.parse_ends hsound⟩
  · intro c hc hrule hidle t ht
    exact result_advances hend hc ht (rule_moves hrule hidle) (by simp)
  · intro c d hv hd hsame
    rcases calls_pace hend (Parser.visits_sound hsound hv) (Parser.visits_orderly hv).paced hd with
      hlt | ⟨-, hopens⟩
    · exact hlt
    · exact absurd hopens.chain_lt (by rw [hsame]; exact Nat.lt_irrefl _)
  · intro c d l hv hcalls hc hd
    rcases (Parser.visits_not_again hsound hend hv hcalls hc).2 with hlt | ⟨-, hnot⟩
    · exact hlt
    · exact absurd (label_mem_enters hd) hnot
  · intro s hs
    exact (Parser.reaches_sound hsound hs).inside
  · intro c hv
    have hc := Parser.visits_sound hsound hv
    obtain ⟨hends, hdeeper⟩ := Parser.visits_settled hsound hend hv
    obtain ⟨o, t, hrun, -, -⟩ := run_sound grammar c.depth hc.state hc.parent
    refine ⟨o, t, ?_, fun depth hdepth => (hdeeper depth hdepth).trans hrun⟩
    rintro rfl
    exact hends t hrun

/-- Tokens with an end of the source before the last one. -/
theorem parsing_makes_progress_early_end :
    let tokens : List Lexeme :=
      [⟨.keyword .END, "END", none, 1, 1⟩, .endOfSource 1 4, ⟨.name, "X", none, 2, 1⟩,
        .endOfSource 2 2]
    let p : Parser := { source := "", tokens := tokens.toArray }
    p.Used ∧ (∀ s, p.Reaches s → s.pos < 4) ∧ ∃ r q, p.parse = .ok (r, q) := by
  intro tokens p
  have hstart : Parser.start? "" tokens = some p := rfl
  have hused : p.Used := .start hstart
  obtain ⟨-, -, -, hinside, -, hends⟩ := parsing_makes_progress hused
  exact ⟨hused, hinside, hends⟩

end FortranJulia
