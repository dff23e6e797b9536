import FortranJulia.Grammar.Match

/-!
Matching with trees for cells. The state holds the children of the open node as trees, and a node
that does not match drops the ones it has made; nothing is marked or cut back. Matching in an arena
does the same step by step, so that what a match gives is read off here.
-/

namespace FortranJulia

set_option autoImplicit false

namespace TreeMatch

open Match (Outcome Reach isName)

/-! ## State -/

structure State where
  pos : Nat
  count : Nat
  /-- The children of the open node, last first. -/
  kids : List Node
  reach : Reach

/-- The token at an index, or the last token beyond the end. -/
def tokenAt (tokens : Array Lexeme) (i : Nat) : Lexeme :=
  tokens.getD (min i (tokens.size - 1)) default

namespace State

/-- The state with the position, the nodes and the children of an earlier one. -/
def backTo (s t : State) : State :=
  { t with pos := s.pos, count := s.count, kids := s.kids }

def miss (s : State) (k : Kind) : State :=
  { s with reach := s.reach.miss s.pos k }

def missAny (s : State) (ks : List Kind) : State :=
  { s with reach := ks.foldl (Reach.miss s.pos) s.reach }

/-- Adds the current token to the open node. The position does not leave the last token. -/
def take (tokens : Array Lexeme) (s : State) : State :=
  { s with
    pos := if s.pos + 1 < tokens.size then s.pos + 1 else s.pos
    count := s.count + 1
    kids := .leaf s.count (tokenAt tokens s.pos) :: s.kids }

/-- The state inside a new node. -/
def enter (s : State) : State :=
  { s with count := s.count + 1, kids := [] }

/-- The state after a node made of the children of the inner state `t`. -/
def leave (s t : State) (finish : Node → Node) (label : Label) : State :=
  { t with kids := finish (.inner s.count label t.kids.reverse) :: s.kids }

end State

/-! ## Tokens ahead -/

def ahead (tokens : Array Lexeme) (i : Nat) : Kind :=
  (tokenAt tokens i).kind

/-- Do a name and an equals sign stand at an index? -/
def atLoopControl (tokens : Array Lexeme) (i : Nat) : Bool :=
  (ahead tokens i == .name || ahead tokens i == .editConst) && ahead tokens (i + 1) == .equal

def holds (tokens : Array Lexeme) (pos : Nat) : Guard → Bool
  | .next ks => ks.contains (ahead tokens pos)
  | .notNext ks => !ks.contains (ahead tokens pos)
  | .moreItems => ahead tokens pos == .comma && !atLoopControl tokens (pos + 1)

/-! ## Matching -/

/-- Matches a pattern with nonterminals as the grammar defines them, to a bounded depth. -/
def run (grammar : Nonterminal → Pattern) (tokens : Array Lexeme) :
    Nat → Pattern → State → Outcome × State
  | 0, _, s => (.exhausted, s)
  | depth + 1, p, s =>
    match p with
    | .token k =>
      if (tokenAt tokens s.pos).kind == k then (.matched, s.take tokens) else (.failed, s.miss k)
    | .oneOf ks =>
      if ks.contains (tokenAt tokens s.pos).kind then (.matched, s.take tokens)
      else (.failed, s.missAny ks)
    | .word =>
      if isName (tokenAt tokens s.pos) then (.matched, s.take tokens) else (.failed, s.miss .name)
    | .any => (.matched, s.take tokens)
    | .check g => (if holds tokens s.pos g then .matched else .failed, s)
    | .branch g yes no => run grammar tokens depth (if holds tokens s.pos g then yes else no) s
    | .seq a b =>
      match run grammar tokens depth a s with
      | (.matched, t) => run grammar tokens depth b t
      | r => r
    | .alt a b =>
      match run grammar tokens depth a s with
      | (.failed, t) => run grammar tokens depth b (s.backTo t)
      | r => r
    | .star body =>
      match run grammar tokens depth body s with
      | (.matched, t) => run grammar tokens depth (.star body) t
      | (.failed, t) => (.matched, t)
      | r => r
    | .opt body =>
      match run grammar tokens depth body s with
      | (.failed, t) => (.matched, t)
      | r => r
    | .attempt body =>
      match run grammar tokens depth body s with
      | (.failed, t) => (.failed, s.backTo t)
      | r => r
    | .whileDo g body =>
      if holds tokens s.pos g then
        match run grammar tokens depth body s with
        | (.matched, t) => run grammar tokens depth (.whileDo g body) t
        | r => r
      else (.matched, s)
    | .node l body =>
      match run grammar tokens depth body s.enter with
      | (.matched, t) => (.matched, s.leave t id l)
      | (o, t) => (o, s.backTo t)
    | .level l body =>
      match run grammar tokens depth body s.enter with
      | (.matched, t) => (.matched, s.leave t Node.collapse l)
      | (o, t) => (o, s.backTo t)
    | .call phrase => run grammar tokens depth (grammar phrase) s

/-! ## What a match can do -/

/-- Does a pattern for one token take the token? -/
def accepts? : Pattern → Lexeme → Option Bool
  | .token k, lx => some (lx.kind == k)
  | .oneOf ks, lx => some (ks.contains lx.kind)
  | .word, lx => some (isName lx)
  | .any, _ => some true
  | _, _ => none

/-- The state after a token was looked for in vain. -/
def missed : Pattern → State → State
  | .token k, s => s.miss k
  | .oneOf ks, s => s.missAny ks
  | .word, s => s.miss .name
  | _, s => s

/-- The ways in which a match goes, whatever the bound on its depth. -/
inductive Runs (grammar : Nonterminal → Pattern) (tokens : Array Lexeme) :
    Pattern → State → Outcome → State → Prop where
  | exhausted (p : Pattern) (s : State) : Runs grammar tokens p s .exhausted s
  | take {p : Pattern} {s : State} (ht : accepts? p (tokenAt tokens s.pos) = some true) :
      Runs grammar tokens p s .matched (s.take tokens)
  | miss {p : Pattern} {s : State} (ht : accepts? p (tokenAt tokens s.pos) = some false) :
      Runs grammar tokens p s .failed (missed p s)
  | check {g : Guard} {s : State} (hg : holds tokens s.pos g) :
      Runs grammar tokens (.check g) s .matched s
  | check_fails {g : Guard} {s : State} (hg : holds tokens s.pos g = false) :
      Runs grammar tokens (.check g) s .failed s
  | branch {g : Guard} {yes no : Pattern} {s t : State} {o : Outcome}
      (h : Runs grammar tokens (if holds tokens s.pos g then yes else no) s o t) :
      Runs grammar tokens (.branch g yes no) s o t
  | seq {p₁ p₂ : Pattern} {s t u : State} {o : Outcome} (h₁ : Runs grammar tokens p₁ s .matched t)
      (h₂ : Runs grammar tokens p₂ t o u) : Runs grammar tokens (.seq p₁ p₂) s o u
  | seq_stop {p₁ p₂ : Pattern} {s t : State} {o : Outcome} (h : Runs grammar tokens p₁ s o t)
      (ho : o ≠ .matched) : Runs grammar tokens (.seq p₁ p₂) s o t
  | alt_first {p₁ p₂ : Pattern} {s t : State} {o : Outcome} (h : Runs grammar tokens p₁ s o t)
      (ho : o ≠ .failed) : Runs grammar tokens (.alt p₁ p₂) s o t
  | alt_second {p₁ p₂ : Pattern} {s t u : State} {o : Outcome}
      (h₁ : Runs grammar tokens p₁ s .failed t) (h₂ : Runs grammar tokens p₂ (s.backTo t) o u) :
      Runs grammar tokens (.alt p₁ p₂) s o u
  | star_more {body : Pattern} {s t u : State} {o : Outcome}
      (h₁ : Runs grammar tokens body s .matched t) (h₂ : Runs grammar tokens (.star body) t o u) :
      Runs grammar tokens (.star body) s o u
  | star_end {body : Pattern} {s t : State} (h : Runs grammar tokens body s .failed t) :
      Runs grammar tokens (.star body) s .matched t
  | star_stop {body : Pattern} {s t : State} (h : Runs grammar tokens body s .exhausted t) :
      Runs grammar tokens (.star body) s .exhausted t
  | opt {body : Pattern} {s t : State} {o : Outcome} (h : Runs grammar tokens body s o t)
      (ho : o ≠ .failed) : Runs grammar tokens (.opt body) s o t
  | opt_none {body : Pattern} {s t : State} (h : Runs grammar tokens body s .failed t) :
      Runs grammar tokens (.opt body) s .matched t
  | attempt {body : Pattern} {s t : State} {o : Outcome} (h : Runs grammar tokens body s o t)
      (ho : o ≠ .failed) : Runs grammar tokens (.attempt body) s o t
  | attempt_back {body : Pattern} {s t : State} (h : Runs grammar tokens body s .failed t) :
      Runs grammar tokens (.attempt body) s .failed (s.backTo t)
  | while_more {g : Guard} {body : Pattern} {s t u : State} {o : Outcome}
      (hg : holds tokens s.pos g) (h₁ : Runs grammar tokens body s .matched t)
      (h₂ : Runs grammar tokens (.whileDo g body) t o u) :
      Runs grammar tokens (.whileDo g body) s o u
  | while_stop {g : Guard} {body : Pattern} {s t : State} {o : Outcome}
      (hg : holds tokens s.pos g) (h : Runs grammar tokens body s o t) (ho : o ≠ .matched) :
      Runs grammar tokens (.whileDo g body) s o t
  | while_end {g : Guard} {body : Pattern} {s : State} (hg : holds tokens s.pos g = false) :
      Runs grammar tokens (.whileDo g body) s .matched s
  | node {l : Label} {body : Pattern} {s t : State}
      (h : Runs grammar tokens body s.enter .matched t) :
      Runs grammar tokens (.node l body) s .matched (s.leave t id l)
  | node_back {l : Label} {body : Pattern} {s t : State} {o : Outcome}
      (h : Runs grammar tokens body s.enter o t) (ho : o ≠ .matched) :
      Runs grammar tokens (.node l body) s o (s.backTo t)
  | level {l : Label} {body : Pattern} {s t : State}
      (h : Runs grammar tokens body s.enter .matched t) :
      Runs grammar tokens (.level l body) s .matched (s.leave t Node.collapse l)
  | level_back {l : Label} {body : Pattern} {s t : State} {o : Outcome}
      (h : Runs grammar tokens body s.enter o t) (ho : o ≠ .matched) :
      Runs grammar tokens (.level l body) s o (s.backTo t)
  | call {phrase : Nonterminal} {s t : State} {o : Outcome}
      (h : Runs grammar tokens (grammar phrase) s o t) :
      Runs grammar tokens (.call phrase) s o t

theorem run_runs {grammar : Nonterminal → Pattern} {tokens : Array Lexeme} {depth : Nat} :
    ∀ {p : Pattern} {s t : State} {o : Outcome}, run grammar tokens depth p s = (o, t) →
      Runs grammar tokens p s o t := by
  induction depth with
  | zero =>
    intro p s t o h
    obtain ⟨rfl, rfl⟩ := Prod.mk.inj h
    exact .exhausted p s
  | succ depth ih =>
    intro p s t o h
    cases p with
    | token k =>
      simp only [run] at h
      split at h <;> obtain ⟨rfl, rfl⟩ := Prod.mk.inj h
      · exact .take (by simp_all [accepts?])
      · exact .miss (p := .token k) (by simp_all [accepts?])
    | oneOf ks =>
      simp only [run] at h
      split at h <;> obtain ⟨rfl, rfl⟩ := Prod.mk.inj h
      · exact .take (by simp_all [accepts?])
      · exact .miss (p := .oneOf ks) (by simp_all [accepts?])
    | word =>
      simp only [run] at h
      split at h <;> obtain ⟨rfl, rfl⟩ := Prod.mk.inj h
      · exact .take (by simp_all [accepts?])
      · exact .miss (p := .word) (by simp_all [accepts?])
    | any =>
      obtain ⟨rfl, rfl⟩ := Prod.mk.inj h
      exact .take rfl
    | check g =>
      obtain ⟨rfl, rfl⟩ := Prod.mk.inj h
      by_cases hg : holds tokens s.pos g
      · rw [if_pos hg]
        exact .check hg
      · rw [if_neg hg]
        exact .check_fails (by simpa using hg)
    | branch g yes no => exact .branch (ih h)
    | seq p₁ p₂ =>
      simp only [run] at h
      split at h
      · rename_i u heq
        exact .seq (ih heq) (ih h)
      · rename_i hne
        exact .seq_stop (ih h) (fun ho => hne t (ho ▸ h))
    | alt p₁ p₂ =>
      simp only [run] at h
      split at h
      · rename_i u heq
        exact .alt_second (ih heq) (ih h)
      · rename_i hne
        exact .alt_first (ih h) (fun ho => hne t (ho ▸ h))
    | star body =>
      simp only [run] at h
      split at h
      · rename_i u heq
        exact .star_more (ih heq) (ih h)
      · rename_i u heq
        obtain ⟨rfl, rfl⟩ := Prod.mk.inj h
        exact .star_end (ih heq)
      · rename_i hmatched hfailed
        cases o with
        | matched => exact absurd h (hmatched t)
        | failed => exact absurd h (hfailed t)
        | exhausted => exact .star_stop (ih h)
    | opt body =>
      simp only [run] at h
      split at h
      · rename_i u heq
        obtain ⟨rfl, rfl⟩ := Prod.mk.inj h
        exact .opt_none (ih heq)
      · rename_i hne
        exact .opt (ih h) (fun ho => hne t (ho ▸ h))
    | attempt body =>
      simp only [run] at h
      split at h
      · rename_i u heq
        obtain ⟨rfl, rfl⟩ := Prod.mk.inj h
        exact .attempt_back (ih heq)
      · rename_i hne
        exact .attempt (ih h) (fun ho => hne t (ho ▸ h))
    | whileDo g body =>
      simp only [run] at h
      split at h
      · rename_i hg
        split at h
        · rename_i u heq
          exact .while_more hg (ih heq) (ih h)
        · rename_i hne
          exact .while_stop hg (ih h) (fun ho => hne t (ho ▸ h))
      · rename_i hg
        obtain ⟨rfl, rfl⟩ := Prod.mk.inj h
        exact .while_end (by simpa using hg)
    | node l body =>
      simp only [run] at h
      split at h
      · rename_i u heq
        obtain ⟨rfl, rfl⟩ := Prod.mk.inj h
        exact .node (ih heq)
      · rename_i o' u hne heq
        obtain ⟨rfl, rfl⟩ := Prod.mk.inj h
        exact .node_back (ih heq) (fun ho => hne ho)
    | level l body =>
      simp only [run] at h
      split at h
      · rename_i u heq
        obtain ⟨rfl, rfl⟩ := Prod.mk.inj h
        exact .level (ih heq)
      · rename_i o' u hne heq
        obtain ⟨rfl, rfl⟩ := Prod.mk.inj h
        exact .level_back (ih heq) (fun ho => hne ho)
    | call phrase => exact .call (ih h)

end TreeMatch

end FortranJulia
