import FortranJulia.Proofs.Parsing.Unfolding

/-!
Expressions are matched in full. A match of a phrase takes the tokens of any derivation of it,
provided that the token behind them cannot carry the phrase on. What can carry a phrase on is read
off level by level; where two choices begin alike, the one that fails is shown to.
-/

namespace FortranJulia

set_option autoImplicit false

open Match (Outcome)
open Bnf (Tree Gives production)

namespace TreeMatch

/-! ## Reading and failing -/

section Reading

variable {tokens : Array Lexeme}

/-- The state stands before these tokens, of which there is at least one. -/
structure State.Before (tokens : Array Lexeme) (s : State) (ws : List Lexeme) : Prop where
  ahead : tokens.toList.drop s.pos = ws
  some_left : ws ≠ []

theorem State.Before.tokenAt {s : State} {lx : Lexeme} {ws : List Lexeme}
    (h : s.Before tokens (lx :: ws)) : tokenAt tokens s.pos = lx := by
  have hget : tokens[s.pos]? = some lx := by
    rw [← Array.getElem?_toList, ← List.head?_drop, h.ahead]
    rfl
  exact tokenAt_eq hget

theorem State.Before.take {s : State} {lx : Lexeme} {ws : List Lexeme}
    (h : s.Before tokens (lx :: ws)) (hws : ws ≠ []) : (s.take tokens).pos = s.pos + 1 := by
  have hlen := congrArg List.length h.ahead
  have hpos := List.length_pos_of_ne_nil hws
  simp only [List.length_drop, Array.length_toList, List.length_cons] at hlen
  exact if_pos (by omega)

/-- The pattern takes the tokens `w` before `rest` and makes the trees of them. -/
def Reads (tokens : Array Lexeme) (p : Pattern) (w : List Lexeme) (ts : List Tree)
    (rest : List Lexeme) : Prop :=
  ∀ s : State, s.Before tokens (w ++ rest) → rest ≠ [] →
    ∃ t, Runs unfoldedGrammar tokens p s .matched t ∧ t.pos = s.pos + w.length ∧
      ∃ news, t.kids = news.reverse ++ s.kids ∧ Node.shapes news = ts

/-- The pattern does not match before the tokens. -/
def Fails (tokens : Array Lexeme) (p : Pattern) (ws : List Lexeme) : Prop :=
  ∀ s : State, s.Before tokens ws → ∃ t, Runs unfoldedGrammar tokens p s .failed t

/-- The pattern does not match before the tokens, and leaves nothing behind. -/
def Misses (tokens : Array Lexeme) (p : Pattern) (ws : List Lexeme) : Prop :=
  ∀ s : State, s.Before tokens ws →
    ∃ t, Runs unfoldedGrammar tokens p s .failed t ∧ t.pos = s.pos ∧ t.kids = s.kids

variable {p p₁ p₂ body : Pattern} {w v ws rest : List Lexeme} {ts us : List Tree}

theorem Misses.fails (h : Misses tokens p ws) : Fails tokens p ws := by
  intro s hs
  obtain ⟨t, ht, -, -⟩ := h s hs
  exact ⟨t, ht⟩

theorem State.Before.behind {s t : State} (h : s.Before tokens (w ++ rest))
    (hpos : t.pos = s.pos + w.length) (hrest : rest ≠ []) : t.Before tokens rest := by
  refine ⟨?_, hrest⟩
  rw [hpos, ← List.drop_drop, h.ahead, List.drop_left]

/-- One token that the pattern accepts. -/
theorem Reads.accept {lx : Lexeme} (h : accepts? p lx = some true) :
    Reads tokens p [lx] [.leaf lx] rest := by
  intro s hs hrest
  have hlx := hs.tokenAt
  refine ⟨s.take tokens, .take (by rw [hlx, h]), hs.take hrest, [.leaf s.count lx], ?_, rfl⟩
  simp [State.take, hlx]

theorem Misses.accept {lx : Lexeme} (h : accepts? p lx = some false) :
    Misses tokens p (lx :: ws) := by
  intro s hs
  refine ⟨missed p s, .miss (by rw [hs.tokenAt, h]), ?_⟩
  cases p <;> exact ⟨rfl, rfl⟩

theorem Reads.oneOf {ks : List Kind} {lx : Lexeme} (h : lx.kind ∈ ks) :
    Reads tokens (.oneOf ks) [lx] [.leaf lx] rest :=
  .accept (by simpa [accepts?] using h)

theorem Reads.token {k : Kind} {lx : Lexeme} (h : lx.kind = k) :
    Reads tokens (.token k) [lx] [.leaf lx] rest :=
  .accept (by simpa [accepts?] using h)

theorem Misses.oneOf {ks : List Kind} {lx : Lexeme} (h : lx.kind ∉ ks) :
    Misses tokens (.oneOf ks) (lx :: ws) :=
  .accept (by simpa [accepts?] using h)

theorem Misses.token {k : Kind} {lx : Lexeme} (h : lx.kind ≠ k) :
    Misses tokens (.token k) (lx :: ws) :=
  .accept (by simpa [accepts?] using h)

theorem Reads.seq (h₁ : Reads tokens p₁ w ts (v ++ rest)) (h₂ : Reads tokens p₂ v us rest) :
    Reads tokens (.seq p₁ p₂) (w ++ v) (ts ++ us) rest := by
  intro s hs hrest
  have hmiddle : v ++ rest ≠ [] := by simp [hrest]
  rw [List.append_assoc] at hs
  obtain ⟨t, ht, hpos, news, hkids, hshape⟩ := h₁ s hs hmiddle
  obtain ⟨u, hu, hpos', more, hkids', hshape'⟩ := h₂ t (hs.behind hpos hmiddle) hrest
  refine ⟨u, .seq ht hu, ?_, news ++ more, ?_, by simp [hshape, hshape']⟩
  · rw [hpos', hpos, List.length_append, Nat.add_assoc]
  · rw [hkids', hkids, List.reverse_append, List.append_assoc]

theorem Fails.seq_first (h : Fails tokens p₁ ws) : Fails tokens (.seq p₁ p₂) ws := by
  intro s hs
  obtain ⟨t, ht⟩ := h s hs
  exact ⟨t, .seq_stop ht (by simp)⟩

theorem Fails.seq_second (h₁ : Reads tokens p₁ w ts rest) (hrest : rest ≠ [])
    (h₂ : Fails tokens p₂ rest) : Fails tokens (.seq p₁ p₂) (w ++ rest) := by
  intro s hs
  obtain ⟨t, ht, hpos, -⟩ := h₁ s hs hrest
  obtain ⟨u, hu⟩ := h₂ t (hs.behind hpos hrest)
  exact ⟨u, .seq ht hu⟩

theorem Misses.seq (h : Misses tokens p₁ ws) : Misses tokens (.seq p₁ p₂) ws := by
  intro s hs
  obtain ⟨t, ht, hpos, hkids⟩ := h s hs
  exact ⟨t, .seq_stop ht (by simp), hpos, hkids⟩

theorem Reads.alt_first (h : Reads tokens p₁ w ts rest) :
    Reads tokens (.alt p₁ p₂) w ts rest := by
  intro s hs hrest
  obtain ⟨t, ht, h⟩ := h s hs hrest
  exact ⟨t, .alt_first ht (by simp), h⟩

theorem Reads.alt_second (h₁ : Fails tokens p₁ (w ++ rest)) (h₂ : Reads tokens p₂ w ts rest) :
    Reads tokens (.alt p₁ p₂) w ts rest := by
  intro s hs hrest
  obtain ⟨t, ht⟩ := h₁ s hs
  obtain ⟨u, hu, hpos, hkids⟩ := h₂ (s.backTo t) ⟨hs.ahead, hs.some_left⟩ hrest
  exact ⟨u, .alt_second ht hu, hpos, hkids⟩

theorem Fails.alt (h₁ : Fails tokens p₁ ws) (h₂ : Fails tokens p₂ ws) :
    Fails tokens (.alt p₁ p₂) ws := by
  intro s hs
  obtain ⟨t, ht⟩ := h₁ s hs
  obtain ⟨u, hu⟩ := h₂ (s.backTo t) ⟨hs.ahead, hs.some_left⟩
  exact ⟨u, .alt_second ht hu⟩

theorem Reads.star_end (h : Misses tokens body rest) : Reads tokens (.star body) [] [] rest := by
  intro s hs hrest
  obtain ⟨t, ht, hpos, hkids⟩ := h s hs
  exact ⟨t, .star_end ht, hpos, [], hkids, rfl⟩

theorem Reads.star_more (h₁ : Reads tokens body w ts (v ++ rest))
    (h₂ : Reads tokens (.star body) v us rest) :
    Reads tokens (.star body) (w ++ v) (ts ++ us) rest := by
  intro s hs hrest
  obtain ⟨u, hu, hpos, news, hkids, hshape⟩ := h₁.seq h₂ s hs hrest
  cases hu with
  | seq hu hu' => exact ⟨u, .star_more hu hu', hpos, news, hkids, hshape⟩
  | seq_stop _ ho => exact absurd rfl ho
  | take h => simp [accepts?] at h

theorem Reads.opt_none (h : Misses tokens body rest) : Reads tokens (.opt body) [] [] rest := by
  intro s hs hrest
  obtain ⟨t, ht, hpos, hkids⟩ := h s hs
  exact ⟨t, .opt_none ht, hpos, [], hkids, rfl⟩

theorem Reads.opt (h : Reads tokens body w ts rest) : Reads tokens (.opt body) w ts rest := by
  intro s hs hrest
  obtain ⟨t, ht, h⟩ := h s hs hrest
  exact ⟨t, .opt ht (by simp), h⟩

theorem Reads.attempt (h : Reads tokens body w ts rest) :
    Reads tokens (.attempt body) w ts rest := by
  intro s hs hrest
  obtain ⟨t, ht, h⟩ := h s hs hrest
  exact ⟨t, .attempt ht (by simp), h⟩

theorem Misses.attempt (h : Fails tokens body ws) : Misses tokens (.attempt body) ws := by
  intro s hs
  obtain ⟨t, ht⟩ := h s hs
  exact ⟨s.backTo t, .attempt_back ht, rfl, rfl⟩

theorem Reads.node {l : Label} (h : Reads tokens body w ts rest) :
    Reads tokens (.node l body) w [.inner l ts] rest := by
  intro s hs hrest
  obtain ⟨t, ht, hpos, news, hkids, hshape⟩ := h s.enter ⟨hs.ahead, hs.some_left⟩ hrest
  have hreverse : t.kids.reverse = news := by
    rw [hkids]
    simp [State.enter]
  refine ⟨s.leave t id l, .node ht, hpos, [.inner s.count l t.kids.reverse], rfl, ?_⟩
  rw [hreverse]
  simp [Node.shapes, Node.shape, hshape]

/-- A node takes back what its body has left behind. -/
theorem Misses.node {l : Label} (h : Fails tokens body ws) : Misses tokens (.node l body) ws := by
  intro s hs
  obtain ⟨t, ht⟩ := h s.enter ⟨hs.ahead, hs.some_left⟩
  exact ⟨s.backTo t, .node_back ht (by simp), rfl, rfl⟩

theorem Reads.call {phrase : Nonterminal} (h : Reads tokens (unfoldedGrammar phrase) w ts rest) :
    Reads tokens (.call phrase) w ts rest := by
  intro s hs hrest
  obtain ⟨t, ht, h⟩ := h s hs hrest
  exact ⟨t, .call ht, h⟩

theorem Misses.call {phrase : Nonterminal} (h : Misses tokens (unfoldedGrammar phrase) ws) :
    Misses tokens (.call phrase) ws := by
  intro s hs
  obtain ⟨t, ht, h⟩ := h s hs
  exact ⟨t, .call ht, h⟩

/-- Before the same tokens a pattern cannot take two numbers of tokens. -/
theorem Reads.length_eq {s : State} {rest' : List Lexeme} {us : List Tree}
    (h : Reads tokens p w ts rest) (h' : Reads tokens p v us rest') (hrest : rest ≠ [])
    (hrest' : rest' ≠ []) (hsame : w ++ rest = v ++ rest') (hs : s.Before tokens (w ++ rest)) :
    w.length = v.length := by
  obtain ⟨t, ht, hpos, -⟩ := h s hs hrest
  obtain ⟨t', ht', hpos', -⟩ := h' s (hsame ▸ hs) hrest'
  obtain ⟨-, rfl⟩ := ht.unique (by simp) ht' (by simp)
  omega

/-- Where a pattern matches it does not fail. -/
theorem Reads.not_fails {s : State} (h : Reads tokens p w ts rest) (hrest : rest ≠ [])
    (hs : s.Before tokens (w ++ rest)) : ¬ Fails tokens p (w ++ rest) := by
  intro hfails
  obtain ⟨t, ht, -⟩ := h s hs hrest
  obtain ⟨t', ht'⟩ := hfails s hs
  exact absurd (ht.unique (by simp) ht' (by simp)).1 (by simp)

end Reading

/-! ## Derivations taken apart -/

section Inversion

variable {w : List Lexeme} {ts : List Tree}

theorem gives_phrase {l : Label} (h : Gives (.phrase l) w ts) :
    ∃ kids, ts = [.inner l kids] ∧ Gives (production l) w kids := by
  cases h with
  | phrase _ h => exact ⟨_, rfl, h⟩

theorem gives_tokens {ks : List Kind} (h : Gives (.token ks) w ts) :
    ∃ lx, w = [lx] ∧ ts = [.leaf lx] ∧ lx.kind ∈ ks := by
  cases h with
  | token h => exact ⟨_, rfl, rfl, h⟩

theorem gives_names (h : Gives .name w ts) :
    ∃ lx, w = [lx] ∧ ts = [.leaf lx] ∧ Match.isName lx := by
  cases h with
  | name h => exact ⟨_, rfl, rfl, h⟩

theorem gives_both {a b : Bnf} (h : Gives (.seq a b) w ts) :
    ∃ w₁ w₂ ts₁ ts₂, w = w₁ ++ w₂ ∧ ts = ts₁ ++ ts₂ ∧ Gives a w₁ ts₁ ∧ Gives b w₂ ts₂ := by
  cases h with
  | seq h₁ h₂ => exact ⟨_, _, _, _, rfl, rfl, h₁, h₂⟩

theorem gives_either {a b : Bnf} (h : Gives (.alt a b) w ts) :
    Gives a w ts ∨ Gives b w ts := by
  cases h with
  | alt_first h => exact .inl h
  | alt_second h => exact .inr h

theorem gives_perhaps {a : Bnf} (h : Gives (.opt a) w ts) :
    w = [] ∧ ts = [] ∨ Gives a w ts := by
  cases h with
  | opt_none => exact .inl ⟨rfl, rfl⟩
  | opt h => exact .inr h

end Inversion

/-! ## What may stand behind a phrase -/

/-- A token of none of these kinds comes next. -/
def Ends (ks : List Kind) (rest : List Lexeme) : Prop :=
  ∃ lx tail, rest = lx :: tail ∧ lx.kind ∉ ks

/-- A slash that comes next is the first of two. -/
def Doubled (rest : List Lexeme) : Prop :=
  ∀ lx tail, rest = lx :: tail → lx.kind = .slash →
    ∃ lx' tail', tail = lx' :: tail' ∧ lx'.kind = .slash

theorem Ends.ne_nil {ks : List Kind} {rest : List Lexeme} (h : Ends ks rest) : rest ≠ [] := by
  obtain ⟨lx, tail, rfl, -⟩ := h
  simp

theorem Ends.mono {ks ks' : List Kind} {rest : List Lexeme} (h : Ends ks rest)
    (hsub : ∀ k ∈ ks', k ∈ ks) : Ends ks' rest := by
  obtain ⟨lx, tail, rfl, hlx⟩ := h
  exact ⟨lx, tail, rfl, fun hmem => hlx (hsub _ hmem)⟩

theorem Ends.cons {ks ks' : List Kind} {lx : Lexeme} {tail : List Lexeme} (hlx : lx.kind ∈ ks')
    (hks : ∀ k ∈ ks', k ∉ ks) : Ends ks (lx :: tail) :=
  ⟨lx, tail, rfl, hks _ hlx⟩

theorem Doubled.of_ne {lx : Lexeme} {tail : List Lexeme} (h : lx.kind ≠ .slash) :
    Doubled (lx :: tail) := by
  intro lx' tail' heq hslash
  obtain ⟨rfl, rfl⟩ := List.cons.inj heq
  exact absurd hslash h

theorem Ends.doubled {ks : List Kind} {rest : List Lexeme} (h : Ends ks rest)
    (hks : .slash ∈ ks) : Doubled rest := by
  obtain ⟨lx, tail, rfl, hlx⟩ := h
  exact .of_ne (fun hslash => hlx (hslash ▸ hks))

/-- The kinds that carry an operand on. -/
def factorKinds : List Kind := [.lparen, .starStar]

def productKinds : List Kind := .star :: factorKinds

def sumKinds : List Kind := .plus :: .minus :: productKinds

def concatKinds : List Kind := .slash :: sumKinds

def relationKinds : List Kind := Bnf.relations ++ concatKinds

def conjunctionKinds : List Kind := .andOp :: relationKinds

/-- The kinds that carry an expression on. -/
def exprKinds : List Kind := .orOp :: conjunctionKinds

section Phrases

variable {tokens : Array Lexeme}

/-- A pattern reads every derivation of a phrase up to a length before tokens that may follow. -/
def Covers (tokens : Array Lexeme) (n : Nat) (p : Pattern) (l : Label)
    (follow : List Lexeme → Prop) : Prop :=
  ∀ w ts rest, w.length ≤ n → Gives (.phrase l) w ts → follow rest → Reads tokens p w ts rest

theorem Covers.less {n m : Nat} {p : Pattern} {l : Label} {follow : List Lexeme → Prop}
    (h : Covers tokens n p l follow) (hm : m ≤ n) : Covers tokens m p l follow :=
  fun w ts rest hw => h w ts rest (Nat.le_trans hw hm)

/-- A phrase whose node stands around what its production derives. -/
theorem Covers.node {n : Nat} {body : Pattern} {l : Label} {follow : List Lexeme → Prop}
    (h : ∀ w ts rest, w.length ≤ n → Gives (production l) w ts → follow rest →
      Reads tokens body w ts rest) : Covers tokens n (.node l body) l follow := by
  intro w ts rest hw hder hfollow
  obtain ⟨kids, rfl, hkids⟩ := gives_phrase hder
  exact (h w kids rest hw hkids hfollow).node

/-- A repetition reads its items if each may follow the one before it, and stops behind the last. -/
theorem reads_many {n : Nat} {p : Pattern} {b : Bnf} (between : List Lexeme → Prop)
    {behind : List Lexeme → Prop}
    (hitem : ∀ w ts rest, w.length ≤ n → Gives b w ts → between rest → Reads tokens p w ts rest)
    (hnext : ∀ w ts rest, Gives b w ts → between (w ++ rest))
    (hlast : ∀ rest, behind rest → between rest) (hstop : ∀ rest, behind rest → Misses tokens p rest)
    {w : List Lexeme} {ts : List Tree} {rest : List Lexeme} (hw : w.length ≤ n)
    (h : Gives (.many b) w ts) (hrest : behind rest) :
    Reads tokens (.star p) w ts rest ∧ between (w ++ rest) := by
  generalize hb : Bnf.many b = r at h
  induction h with
  | many_end => exact ⟨.star_end (hstop rest hrest), hlast rest hrest⟩
  | @many_more _ w v ts us h₁ h₂ _ ih =>
    obtain rfl := Bnf.many.inj hb
    rw [List.length_append] at hw
    obtain ⟨hread, hbetween⟩ := ih (by omega) rfl
    refine ⟨.star_more (hitem w ts _ (by omega) h₁ hbetween) hread, ?_⟩
    rw [List.append_assoc]
    exact hnext w ts _ h₁
  | _ => cases hb

/-- An operand and any number of operators with operands. -/
theorem reads_chain {n : Nat} {p q : Pattern} {l op : Label} {between behind : List Lexeme → Prop}
    (hp : Covers tokens n p l between) (hq : Covers tokens n q op between)
    (hnext : ∀ w ts rest, Gives (production op) w ts → between (w ++ rest))
    (hlast : ∀ rest, behind rest → between rest) (hstop : ∀ rest, behind rest → Misses tokens q rest)
    {w : List Lexeme} {ts : List Tree} {rest : List Lexeme} (hw : w.length ≤ n)
    (h : Gives (.seq (.phrase l) (.many (.phrase op))) w ts) (hrest : behind rest) :
    Reads tokens (.seq p (.star q)) w ts rest := by
  obtain ⟨w₁, w₂, ts₁, ts₂, rfl, rfl, h₁, h₂⟩ := gives_both h
  rw [List.length_append] at hw
  have hnext' : ∀ w ts rest, Gives (.phrase op) w ts → between (w ++ rest) := by
    intro w ts rest h
    obtain ⟨kids, -, hkids⟩ := gives_phrase h
    exact hnext w kids rest hkids
  obtain ⟨hread, hbetween⟩ := reads_many _ hq hnext' hlast hstop (by omega) h₂ hrest
  exact (hp w₁ ts₁ _ (by omega) h₁ hbetween).seq hread

/-- An operator and its operand. -/
theorem covers_operator (op : Label) {n : Nat} {p q : Pattern} {ks : List Kind} {l : Label}
    {follow : List Lexeme → Prop} (hop : production op = .seq (.token ks) (.phrase l))
    (hq : ∀ lx, lx.kind ∈ ks → accepts? q lx = some true) (hp : Covers tokens n p l follow) :
    Covers tokens n (.node op (.seq q p)) op follow := by
  refine .node fun w ts rest hw h hrest => ?_
  rw [hop] at h
  obtain ⟨w₁, w₂, ts₁, ts₂, rfl, rfl, h₁, h₂⟩ := gives_both h
  obtain ⟨lx, rfl, rfl, hlx⟩ := gives_tokens h₁
  rw [List.length_append] at hw
  exact (Reads.accept (hq lx hlx)).seq (hp w₂ ts₂ rest (by omega) h₂ hrest)

theorem accepts_oneOf {ks : List Kind} (lx : Lexeme) (h : lx.kind ∈ ks) :
    accepts? (.oneOf ks) lx = some true := by
  simpa [accepts?] using h

theorem accepts_token {k : Kind} (lx : Lexeme) (h : lx.kind ∈ [k]) :
    accepts? (.token k) lx = some true := by
  simpa [accepts?] using h

end Phrases

end TreeMatch

end FortranJulia
