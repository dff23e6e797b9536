import FortranJulia.Proofs.Parsing.TreeMatch

/-!
Matching on the tokens that are left. The state holds them as a list in place of a position and does not
keep the furthest token, so that a match is soon evaluated. It goes the way of a match with trees: at every
step the list is what stands from the position on.
-/

namespace FortranJulia

set_option autoImplicit false

open Match (Outcome)

namespace ListMatch

/-! ## State -/

structure State where
  /-- The tokens that are left, of which the last one stays. -/
  left : List Lexeme
  count : Nat
  /-- The children of the open node, last first. -/
  kids : List Node

/-- The token at an index, or the last token beyond the end. -/
def ahead : List Lexeme → Nat → Lexeme
  | [], _ => default
  | [lx], _ => lx
  | lx :: _ :: _, 0 => lx
  | _ :: lx :: rest, i + 1 => ahead (lx :: rest) i

/-- What is left behind a token. The last token is not passed. -/
def behind : List Lexeme → List Lexeme
  | _ :: lx :: rest => lx :: rest
  | rest => rest

namespace State

def take (s : State) : State :=
  ⟨behind s.left, s.count + 1, .leaf s.count (ahead s.left 0) :: s.kids⟩

def enter (s : State) : State :=
  ⟨s.left, s.count + 1, []⟩

def leave (s t : State) (finish : Node → Node) (label : Label) : State :=
  { t with kids := finish (.inner s.count label t.kids.reverse) :: s.kids }

end State

def atLoopControl (left : List Lexeme) (i : Nat) : Bool :=
  ((ahead left i).kind == .name || (ahead left i).kind == .editConst) &&
    (ahead left (i + 1)).kind == .equal

def holds (left : List Lexeme) : Guard → Bool
  | .next ks => ks.contains (ahead left 0).kind
  | .notNext ks => !ks.contains (ahead left 0).kind
  | .moreItems => (ahead left 0).kind == .comma && !atLoopControl left 1

/-! ## Matching -/

/-- Matches a pattern with nonterminals as the grammar defines them, to a bounded depth. -/
def run (grammar : Nonterminal → Pattern) : Nat → Pattern → State → Outcome × State
  | 0, _, s => (.exhausted, s)
  | depth + 1, p, s =>
    match p with
    | .token k => if (ahead s.left 0).kind == k then (.matched, s.take) else (.failed, s)
    | .oneOf ks => if ks.contains (ahead s.left 0).kind then (.matched, s.take) else (.failed, s)
    | .word => if Match.isName (ahead s.left 0) then (.matched, s.take) else (.failed, s)
    | .any => (.matched, s.take)
    | .check g => (if holds s.left g then .matched else .failed, s)
    | .branch g yes no => run grammar depth (if holds s.left g then yes else no) s
    | .seq a b =>
      match run grammar depth a s with
      | (.matched, t) => run grammar depth b t
      | r => r
    | .alt a b =>
      match run grammar depth a s with
      | (.failed, _) => run grammar depth b s
      | r => r
    | .star body =>
      match run grammar depth body s with
      | (.matched, t) => run grammar depth (.star body) t
      | (.failed, t) => (.matched, t)
      | r => r
    | .opt body =>
      match run grammar depth body s with
      | (.failed, t) => (.matched, t)
      | r => r
    | .attempt body =>
      match run grammar depth body s with
      | (.failed, _) => (.failed, s)
      | r => r
    | .whileDo g body =>
      if holds s.left g then
        match run grammar depth body s with
        | (.matched, t) => run grammar depth (.whileDo g body) t
        | r => r
      else (.matched, s)
    | .node l body =>
      match run grammar depth body s.enter with
      | (.matched, t) => (.matched, s.leave t id l)
      | (o, _) => (o, s)
    | .level l body =>
      match run grammar depth body s.enter with
      | (.matched, t) => (.matched, s.leave t Node.collapse l)
      | (o, _) => (o, s)
    | .call phrase => run grammar depth (grammar phrase) s

end ListMatch

/-! ## The same way as with positions -/

section Unread

variable {tokens : Array Lexeme}

/-- The state with the tokens from the position on. -/
def TreeMatch.State.unread (tokens : Array Lexeme) (s : TreeMatch.State) : ListMatch.State :=
  ⟨tokens.toList.drop s.pos, s.count, s.kids⟩

theorem drop_pos {i : Nat} (h : i < tokens.size) :
    tokens.toList.drop i = TreeMatch.tokenAt tokens i :: tokens.toList.drop (i + 1) := by
  have hmin : min i (tokens.size - 1) = i := by omega
  rw [List.drop_eq_getElem_cons (by simpa using h), TreeMatch.tokenAt, hmin, Array.getElem_toList,
    Array.getD, dif_pos h]
  rfl

theorem ahead_drop (i : Nat) : ∀ {pos : Nat}, pos < tokens.size →
    ListMatch.ahead (tokens.toList.drop pos) i = TreeMatch.tokenAt tokens (pos + i) := by
  induction i with
  | zero =>
    intro pos h
    rw [drop_pos h]
    cases tokens.toList.drop (pos + 1) <;> rfl
  | succ i ih =>
    intro pos h
    rw [drop_pos h]
    by_cases hnext : pos + 1 < tokens.size
    · rw [drop_pos hnext, ListMatch.ahead, ← drop_pos hnext, ih hnext]
      congr 1
      omega
    · have hlast : ∀ j, pos ≤ j → TreeMatch.tokenAt tokens j = TreeMatch.tokenAt tokens pos := by
        intro j hj
        rw [TreeMatch.tokenAt, TreeMatch.tokenAt, show min j (tokens.size - 1) = min pos (tokens.size - 1) by
          omega]
      rw [List.drop_eq_nil_of_le (by simpa using hnext), ListMatch.ahead, hlast (pos + (i + 1)) (by omega)]

theorem behind_drop {pos : Nat} (h : pos < tokens.size) :
    ListMatch.behind (tokens.toList.drop pos) =
      tokens.toList.drop (if pos + 1 < tokens.size then pos + 1 else pos) := by
  rw [drop_pos h]
  split
  · rename_i hnext
    rw [drop_pos hnext]
    rfl
  · rename_i hnext
    rw [drop_pos h, List.drop_eq_nil_of_le (by simpa using hnext)]
    rfl

theorem holds_drop {pos : Nat} (h : pos < tokens.size) (g : Guard) :
    ListMatch.holds (tokens.toList.drop pos) g = TreeMatch.holds tokens pos g := by
  cases g <;>
    simp [ListMatch.holds, TreeMatch.holds, ListMatch.atLoopControl, TreeMatch.atLoopControl,
      TreeMatch.ahead, ahead_drop _ h, Nat.add_assoc]

theorem take_unread {s : TreeMatch.State} (h : s.pos < tokens.size) :
    (s.unread tokens).take = (s.take tokens).unread tokens := by
  simp only [ListMatch.State.take, TreeMatch.State.unread, TreeMatch.State.take, behind_drop h,
    ahead_drop 0 h, Nat.add_zero]

/-- The states of two matches with the same outcome, in which the same tokens are left, and at least one. -/
structure Unread (tokens : Array Lexeme) (r : Outcome × TreeMatch.State)
    (r' : Outcome × ListMatch.State) : Prop where
  inside : r.2.pos < tokens.size
  same : r' = (r.1, r.2.unread tokens)

/-- A match on the tokens that are left goes the way of a match with positions. -/
theorem run_unread (grammar : Nonterminal → Pattern) (depth : Nat) :
    ∀ (p : Pattern) {s : TreeMatch.State}, s.pos < tokens.size →
      Unread tokens (TreeMatch.run grammar tokens depth p s)
        (ListMatch.run grammar depth p (s.unread tokens)) := by
  induction depth with
  | zero => exact fun _ _ h => ⟨h, rfl⟩
  | succ depth ih =>
    intro p s h
    have htake : (s.take tokens).pos < tokens.size := by
      simp only [TreeMatch.State.take]
      split <;> omega
    have htoken : ListMatch.ahead (s.unread tokens).left 0 = TreeMatch.tokenAt tokens s.pos :=
      ahead_drop 0 h
    have hholds : ∀ g, ListMatch.holds (s.unread tokens).left g = TreeMatch.holds tokens s.pos g :=
      holds_drop h
    -- What the match of a part comes to is known from the part.
    have hpart : ∀ (q : Pattern) {u : TreeMatch.State}, u.pos < tokens.size → ∃ o t,
        TreeMatch.run grammar tokens depth q u = (o, t) ∧ t.pos < tokens.size ∧
          ListMatch.run grammar depth q (u.unread tokens) = (o, t.unread tokens) :=
      fun q u hu => ⟨_, _, rfl, (ih q hu).inside, (ih q hu).same⟩
    cases p with
    | token k | oneOf ks | word =>
      rw [TreeMatch.run, ListMatch.run, htoken]
      split
      · exact ⟨htake, by rw [take_unread h]⟩
      · exact ⟨h, rfl⟩
    | any => exact ⟨htake, by rw [TreeMatch.run, ListMatch.run, take_unread h]⟩
    | check g => exact ⟨h, by rw [TreeMatch.run, ListMatch.run, hholds]⟩
    | branch g yes no =>
      rw [TreeMatch.run, ListMatch.run, hholds]
      exact ih _ h
    | seq p₁ p₂ =>
      obtain ⟨o, t, hrun, ht, hsame⟩ := hpart p₁ h
      rw [TreeMatch.run, ListMatch.run, hrun, hsame]
      cases o with
      | matched => exact ih p₂ ht
      | failed | exhausted => exact ⟨ht, rfl⟩
    | alt p₁ p₂ =>
      obtain ⟨o, t, hrun, ht, hsame⟩ := hpart p₁ h
      rw [TreeMatch.run, ListMatch.run, hrun, hsame]
      cases o with
      | failed => exact ih p₂ (s := s.backTo t) h
      | matched | exhausted => exact ⟨ht, rfl⟩
    | star body =>
      obtain ⟨o, t, hrun, ht, hsame⟩ := hpart body h
      rw [TreeMatch.run, ListMatch.run, hrun, hsame]
      cases o with
      | matched => exact ih (.star body) ht
      | failed | exhausted => exact ⟨ht, rfl⟩
    | opt body =>
      obtain ⟨o, t, hrun, ht, hsame⟩ := hpart body h
      rw [TreeMatch.run, ListMatch.run, hrun, hsame]
      cases o <;> exact ⟨ht, rfl⟩
    | attempt body =>
      obtain ⟨o, t, hrun, ht, hsame⟩ := hpart body h
      rw [TreeMatch.run, ListMatch.run, hrun, hsame]
      cases o with
      | failed => exact ⟨h, rfl⟩
      | matched | exhausted => exact ⟨ht, rfl⟩
    | whileDo g body =>
      obtain ⟨o, t, hrun, ht, hsame⟩ := hpart body h
      rw [TreeMatch.run, ListMatch.run, hholds]
      split
      · rw [hrun, hsame]
        cases o with
        | matched => exact ih (.whileDo g body) ht
        | failed | exhausted => exact ⟨ht, rfl⟩
      · exact ⟨h, rfl⟩
    | node l body | level l body =>
      obtain ⟨o, t, hrun, ht, hsame⟩ := hpart body (u := s.enter) h
      rw [TreeMatch.run, ListMatch.run, hrun, show (s.unread tokens).enter = s.enter.unread tokens from rfl,
        hsame]
      cases o with
      | matched => exact ⟨ht, rfl⟩
      | failed | exhausted => exact ⟨h, rfl⟩
    | call phrase =>
      rw [TreeMatch.run, ListMatch.run]
      exact ih _ h

end Unread

end FortranJulia
