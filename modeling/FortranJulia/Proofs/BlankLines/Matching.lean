import FortranJulia.Proofs.Likeness.Generation

/-!
Matching with one line end more. A line end behind another one, or before the end of the source, is
taken where the one in front of it is: by the phrase that ends a statement, or by the source between its
units. No other phrase takes line ends, and what is asked of the tokens ahead does not tell a line end
from the end of the source. So a match goes the same way, in a source whose lines are numbered in
another way besides, and makes the same nodes but for the line ends in the ends of statements.
-/

namespace FortranJulia

set_option autoImplicit false

open Match (Outcome)

/-! ## Patterns -/

/-- Does the guard hold at a line end where it holds at the end of the source? -/
def Guard.even : Guard → Bool
  | .next ks | .notNext ks => ks.contains .newline == ks.contains .eof
  | .moreItems => true

/-- Are line ends and ends of the source taken only by the phrases that end statements? With `inside`,
the first token is known to be neither. -/
def Pattern.steady (inside : Bool) : Pattern → Bool
  | .check g => g.even
  | .branch g p₁ p₂ => g.even && p₁.steady inside && p₂.steady inside
  | .seq p₁ p₂ => p₁.steady inside && p₂.steady false
  | .alt p₁ p₂ => p₁.steady inside && p₂.steady inside
  | .star body => body.steady false
  | .opt body | .attempt body => body.steady inside
  | .whileDo g body => g.even && body.steady (g.excludes .newline && g.excludes .eof)
  | .node l body =>
    if l == .endOfStmt then .node l body == Grammar.endOfStmt else body.steady inside
  | .level l body => l != .endOfStmt && body.steady inside
  | .call _ => true
  | p => p.spares .newline inside && p.spares .eof inside

theorem grammar_steady (phrase : Nonterminal) : (grammar phrase).steady false := by
  cases phrase <;> decide +kernel

/-! ## Tokens -/

/-- The second lexeme is the first one in a guise, or both are ends of the source. -/
structure Lexeme.Alike (g : Guise) (lx lx' : Lexeme) : Prop where
  kind : lx'.kind = lx.kind
  eq : lx.kind ≠ .eof → lx' = g.lexeme lx

/-- The lexeme is neither a line end nor the end of the source. -/
def Lexeme.InLine (lx : Lexeme) : Prop :=
  lx.kind ≠ .newline ∧ lx.kind ≠ .eof

namespace TreeMatch

/-- The second tokens are the first ones in a guise, with one line end more in front of the token at an
index. Another line end stands in front of that, or it is the end of the source. -/
structure Widened (g : Guise) (tokens tokens' : Array Lexeme) (u : Nat) : Prop where
  plain : g.caps = false
  ends : EndsInEof tokens
  inside : u < tokens.size
  size : tokens'.size = tokens.size + 1
  front : ∀ i < u, Lexeme.Alike g (tokenAt tokens i) (tokenAt tokens' i)
  added : (tokenAt tokens' u).kind = .newline
  back : ∀ i, u ≤ i → Lexeme.Alike g (tokenAt tokens i) (tokenAt tokens' (i + 1))
  follows : (tokenAt tokens u).kind = .eof ∨ ∃ v, u = v + 1 ∧ (tokenAt tokens v).kind = .newline

/-- The indices are those of one token. -/
def Abreast (tokens : Array Lexeme) (u i i' : Nat) : Prop :=
  i < u ∧ i' = i ∨ u ≤ i ∧ i < tokens.size ∧ i' = i + 1

/-- The indices are those of one token, or the first is that of the end of the source and the second that
of the line end in front of it. -/
def Near (tokens : Array Lexeme) (u i i' : Nat) : Prop :=
  Abreast tokens u i i' ∨ i = u ∧ i' = u ∧ (tokenAt tokens u).kind = .eof

section Tokens

variable {g : Guise} {tokens tokens' : Array Lexeme} {u i i' : Nat} (hw : Widened g tokens tokens' u)

theorem Abreast.inside (h : Abreast tokens u i i') (hu : u < tokens.size) : i < tokens.size := by
  unfold Abreast at h
  omega

include hw

theorem Abreast.alike (h : Abreast tokens u i i') :
    Lexeme.Alike g (tokenAt tokens i) (tokenAt tokens' i') := by
  rcases h with ⟨hi, rfl⟩ | ⟨hi, -, rfl⟩
  · exact hw.front i' hi
  · exact hw.back i hi

theorem Abreast.inside' (h : Abreast tokens u i i') : i' < tokens'.size := by
  have hsize := hw.size
  have hu := hw.inside
  unfold Abreast at h
  omega

/-- Behind a token that is not the end of the source both are at the next one, or they come to the line
end that is new. -/
theorem Abreast.next (h : Abreast tokens u i i') (hk : (tokenAt tokens i).kind ≠ .eof) :
    i + 1 < tokens.size ∧ i' + 1 < tokens'.size ∧
      (Abreast tokens u (i + 1) (i' + 1) ∨ i + 1 = u ∧ i' + 1 = u) := by
  have hnext := next_of_ne_eof hw.ends (h.inside hw.inside) hk
  have hsize := hw.size
  unfold Abreast at h ⊢
  omega

theorem Near.next (h : Near tokens u i i') (hin : (tokenAt tokens i).InLine) :
    i + 1 < tokens.size ∧ i' + 1 < tokens'.size ∧ Near tokens u (i + 1) (i' + 1) := by
  rcases h with h | ⟨rfl, -, hk⟩
  · obtain ⟨hi, hi', hnext | ⟨hu, hu'⟩⟩ := h.next hw hin.2
    · exact ⟨hi, hi', .inl hnext⟩
    · refine ⟨hi, hi', .inr ⟨hu, hu', hw.follows.resolve_right ?_⟩⟩
      rintro ⟨v, hv, hk⟩
      obtain rfl : i = v := by omega
      exact hin.1 hk
  · exact absurd hk hin.2

/-- The two tokens are alike, but for a line end in front of the end of the source. -/
theorem Near.pair (h : Near tokens u i i') :
    Lexeme.Alike g (tokenAt tokens i) (tokenAt tokens' i') ∨
      (tokenAt tokens i).kind = .eof ∧ (tokenAt tokens' i').kind = .newline := by
  rcases h with h | ⟨rfl, rfl, hk⟩
  · exact .inl (h.alike hw)
  · exact .inr ⟨hk, hw.added⟩

theorem isName_alike {lx lx' : Lexeme} (h : Lexeme.Alike g lx lx') : Match.isName lx' = Match.isName lx := by
  by_cases hk : lx.kind = .eof
  · rw [Match.isName, Match.isName, h.kind, hk]
    rfl
  · have htext : lx'.text = lx.text := by
      rw [h.eq hk, Guise.text_lexeme, Guise.text, g.on_plain hw.plain, id]
    simp [Match.isName, h.kind, htext]

/-- A comma is followed by the control of a loop in both sources or in neither. -/
theorem atLoopControl_near (h : Near tokens u i i') (hk : (tokenAt tokens i).kind = .comma) :
    atLoopControl tokens' (i' + 1) = atLoopControl tokens (i + 1) := by
  have hback : ∀ j, u ≤ j → ahead tokens' (j + 1) = ahead tokens j := fun j hj => (hw.back j hj).kind
  have hfront : ∀ j < u, ahead tokens' j = ahead tokens j := fun j hj => (hw.front j hj).kind
  have hadded : ahead tokens' u = .newline := hw.added
  have hfollows : ahead tokens u = .eof ∨ ∃ v, u = v + 1 ∧ ahead tokens v = .newline := hw.follows
  have hcomma : ahead tokens i = .comma := hk
  rcases h with (⟨hi, rfl⟩ | ⟨hi, -, rfl⟩) | ⟨rfl, -, heof⟩
  · -- The new line end may be the first or the second token behind the comma.
    rcases hfollows with heof | ⟨v, rfl, hv⟩
    · rcases Nat.lt_trichotomy (i' + 1) u with hlt | heq | hgt
      · rcases Nat.lt_trichotomy (i' + 1 + 1) u with hlt' | heq' | hgt'
        · simp only [atLoopControl, hfront _ hlt, hfront _ hlt']
        · simp only [atLoopControl, hfront _ hlt, heq', hadded, heof]
          rfl
        · omega
      · simp only [atLoopControl, heq, hadded, heof]
        rfl
      · omega
    · rcases Nat.lt_trichotomy i' v with hlt | rfl | hgt
      · rcases Nat.lt_or_ge (i' + 1) v with hlt' | hge
        · simp only [atLoopControl, hfront (i' + 1) (by omega), hfront (i' + 1 + 1) (by omega)]
        · obtain rfl : v = i' + 1 := by omega
          simp only [atLoopControl, hfront (i' + 1) (by omega), hv]
          rfl
      · rw [hcomma] at hv
        cases hv
      · omega
  · simp only [atLoopControl, hback (i + 1) (by omega), hback (i + 1 + 1) (by omega)]
  · rw [hk] at heof
    cases heof

theorem holds_near (h : Near tokens u i i') {gd : Guard} (hg : gd.even) :
    holds tokens' i' gd = holds tokens i gd := by
  rcases h.pair hw with halike | ⟨heof, hnewline⟩
  · cases gd with
    | next ks | notNext ks => simp only [holds, ahead, halike.kind]
    | moreItems =>
      by_cases hk : (tokenAt tokens i).kind = .comma
      · simp only [holds, ahead, halike.kind, atLoopControl_near hw h hk]
      · simp only [holds, ahead, halike.kind, beq_false_of_ne hk, Bool.false_and]
  · cases gd with
    | next ks | notNext ks =>
      have hsame : ks.contains Kind.newline = ks.contains Kind.eof := by simpa [Guard.even] using hg
      simp only [holds, ahead, heof, hnewline, hsame]
    | moreItems =>
      simp only [holds, ahead, heof, hnewline]
      rfl

/-- A pattern for one token takes the tokens of both sources or neither. -/
theorem accepts?_near (h : Near tokens u i i') {p : Pattern} {inside : Bool} (hp : p.steady inside)
    (hin : inside → (tokenAt tokens i).InLine) :
    accepts? p (tokenAt tokens' i') = accepts? p (tokenAt tokens i) := by
  rcases h.pair hw with halike | ⟨heof, hnewline⟩
  · have hname := isName_alike hw halike
    cases p <;> simp [accepts?, halike.kind, hname]
  · cases inside with
    | true => exact absurd heof (hin rfl).2
    | false =>
      cases p with
      | token k =>
        obtain ⟨hnot, hnot'⟩ : k ≠ .newline ∧ k ≠ .eof := by
          simpa [Pattern.steady, Pattern.spares] using hp
        simp [accepts?, heof, hnewline, hnot.symm, hnot'.symm]
      | word =>
        simp only [accepts?, Match.isName, heof, hnewline]
        rfl
      | _ => simp_all [Pattern.steady, Pattern.spares, accepts?]

end Tokens

theorem inLine_of_accepts {lx : Lexeme} {p : Pattern} {inside : Bool} (hp : p.steady inside)
    (hin : inside → lx.InLine) (ht : accepts? p lx = some true) : lx.InLine := by
  cases inside with
  | true => exact hin rfl
  | false =>
    refine ⟨fun hk => ?_, fun hk => ?_⟩ <;>
      cases p <;> simp_all [Pattern.steady, Pattern.spares, accepts?, Match.isName]

theorem inLine_of_holds {tokens : Array Lexeme} {i : Nat} {gd : Guard} (hg : holds tokens i gd)
    (hexcludes : gd.excludes .newline && gd.excludes .eof) : (tokenAt tokens i).InLine :=
  ⟨ne_of_holds hg (Bool.and_eq_true_iff.1 hexcludes).1, ne_of_holds hg (Bool.and_eq_true_iff.1 hexcludes).2⟩

/-! ## States -/

/-- The states stand at tokens of one place, and their open nodes got the same children in a guise. -/
structure Beside (g : Guise) (tokens : Array Lexeme) (u : Nat) (base base' : List Node) (s s' : State) :
    Prop where
  pos : Near tokens u s.pos s'.pos
  kids : ∃ news news', s.kids = news ++ base ∧ s'.kids = news' ++ base' ∧
    news.map (Node.sketch g) = news'.map (Node.sketch .same)

namespace Beside

variable {g : Guise} {tokens tokens' : Array Lexeme} {u : Nat} {base base' : List Node} {s s' t t' : State}

theorem backTo (h : Beside g tokens u base base' s s') (t t' : State) :
    Beside g tokens u base base' (s.backTo t) (s'.backTo t') :=
  ⟨h.pos, h.kids⟩

theorem enter (h : Beside g tokens u base base' s s') : Beside g tokens u [] [] s.enter s'.enter :=
  ⟨h.pos, [], [], rfl, rfl, rfl⟩

theorem missed (h : Beside g tokens u base base' s s') (p : Pattern) :
    Beside g tokens u base base' (missed p s) (missed p s') := by
  refine ⟨?_, ?_⟩
  · rw [missed_pos, missed_pos]
    exact h.pos
  · rw [missed_kids, missed_kids]
    exact h.kids

/-- The open nodes get nodes that are the same in the guise. -/
theorem grow (h : Beside g tokens u base base' s s') (hpos : Near tokens u t.pos t'.pos) {n n' : Node}
    (hn : n.sketch g = n'.sketch .same) (hkids : t.kids = n :: s.kids) (hkids' : t'.kids = n' :: s'.kids) :
    Beside g tokens u base base' t t' := by
  obtain ⟨news, news', hnews, hnews', hsame⟩ := h.kids
  refine ⟨hpos, n :: news, n' :: news', ?_, ?_, ?_⟩
  · rw [hkids, hnews, List.cons_append]
  · rw [hkids', hnews', List.cons_append]
  · rw [List.map_cons, List.map_cons, hn, hsame]

theorem take (hw : Widened g tokens tokens' u) (h : Beside g tokens u base base' s s')
    (hin : (tokenAt tokens s.pos).InLine) :
    Beside g tokens u base base' (s.take tokens) (s'.take tokens') := by
  obtain ⟨hnext, hnext', hnear⟩ := h.pos.next hw hin
  have halike := (h.pos.pair hw).resolve_right fun hend => hin.2 hend.1
  refine h.grow ?_ ?_ rfl rfl
  · simpa only [State.take, if_pos hnext, if_pos hnext'] using hnear
  · rw [Node.sketch_leaf, Node.sketch_leaf, halike.eq hin.2, Guise.lexeme_same, id]

/-- Nodes around what was made inside. -/
theorem leave (h : Beside g tokens u base base' s s') {l : Label} (hl : l ≠ .endOfStmt)
    (hinner : Beside g tokens u [] [] t t') {finish : Node → Node}
    (hfinish : ∀ g i cs, (finish (.inner i l cs)).sketch g = finish ((Node.inner i l cs).sketch g)) :
    Beside g tokens u base base' (s.leave t finish l) (s'.leave t' finish l) := by
  obtain ⟨news, news', hnews, hnews', hsame⟩ := hinner.kids
  rw [List.append_nil] at hnews hnews'
  refine h.grow hinner.pos ?_ rfl rfl
  rw [hfinish, hfinish, Node.sketch_inner g hl, Node.sketch_inner .same hl, List.map_reverse,
    List.map_reverse, hnews, hnews', hsame]

end Beside

end TreeMatch

theorem Node.sketch_collapse {l : Label} (hl : l ≠ .endOfStmt) (g : Guise) (i : Nat) (cs : List Node) :
    (inner i l cs).collapse.sketch g = ((inner i l cs).sketch g).collapse := by
  rw [sketch_inner g hl]
  rcases cs with _ | ⟨c, _ | ⟨d, cs⟩⟩
  · exact sketch_inner g hl i []
  · cases c with
    | leaf j lx => simp [collapse, sketch_inner g hl]
    | inner j m ds =>
      have hinner : ∃ ds', (inner j m ds).sketch g = inner 0 m ds' := ⟨_, sketch.eq_2 ..⟩
      obtain ⟨ds', hds'⟩ := hinner
      simp [collapse, hds']
  · simp [collapse, sketch_inner g hl]

namespace TreeMatch

variable {g : Guise} {tokens tokens' : Array Lexeme} {u : Nat}

/-! ## Ends of statements -/

theorem Runs.oneOf {ks : List Kind} {s t : State} {o : Outcome} (h : Runs grammar tokens (.oneOf ks) s o t)
    (ho : o ≠ .exhausted) :
    o = .matched ∧ ks.contains (tokenAt tokens s.pos).kind ∧ t = s.take tokens ∨
      o = .failed ∧ ks.contains (tokenAt tokens s.pos).kind = false ∧ t = s.missAny ks := by
  cases h with
  | exhausted => exact absurd rfl ho
  | take ht => exact .inl ⟨rfl, by simpa [accepts?] using ht, rfl⟩
  | miss ht => exact .inr ⟨rfl, by simpa [accepts?] using ht, rfl⟩

/-- From both states on, comments and line ends are taken up to the same token. They are the same ones but
for line ends, and so is the first one if the states stand at the same token. -/
structure Swallowed (g : Guise) (tokens tokens' : Array Lexeme) (u : Nat) (s t s' t' : State)
    (ns ns' : List Node) : Prop where
  runs : Runs grammar tokens' (.star Grammar.commentOrNewline) s' .matched t'
  pos : Abreast tokens u t.pos t'.pos
  kids : t.kids = ns.reverse ++ s.kids
  kids' : t'.kids = ns'.reverse ++ s'.kids
  blank : ∀ n ∈ ns ++ ns', n.isLeaf ∧ (n.hasKind .comment ∨ n.hasKind .newline)
  rest : (ns.filter Node.stays).map (Node.sketch g) = (ns'.filter Node.stays).map (Node.sketch .same)
  head : Abreast tokens u s.pos s'.pos →
    ns.head?.map (Node.sketch g) = ns'.head?.map (Node.sketch .same)

namespace Swallowed

variable {s t s' t' : State} {ns ns' : List Node}

/-- Tokens that are the same in the guise are taken first. -/
theorem cons (h : Swallowed g tokens tokens' u (s.take tokens) t (s'.take tokens') t' ns ns')
    (halike : Lexeme.Alike g (tokenAt tokens s.pos) (tokenAt tokens' s'.pos))
    (hk : (tokenAt tokens s.pos).kind = .comment ∨ (tokenAt tokens s.pos).kind = .newline) :
    Swallowed g tokens tokens' u s t s' t' (.leaf s.count (tokenAt tokens s.pos) :: ns)
      (.leaf s'.count (tokenAt tokens' s'.pos) :: ns') := by
  have hne : (tokenAt tokens s.pos).kind ≠ .eof := by
    rcases hk with hk | hk <;> simp [hk]
  have hsketch : ∀ i j, (Node.leaf i (tokenAt tokens s.pos)).sketch g =
      (Node.leaf j (tokenAt tokens' s'.pos)).sketch .same := by
    intro i j
    rw [Node.sketch_leaf, Node.sketch_leaf, halike.eq hne, Guise.lexeme_same, id]
  refine ⟨.star_more (.take ?_) h.runs, h.pos, ?_, ?_, ?_, ?_, fun _ => ?_⟩
  · rcases hk with hk | hk <;> simp [accepts?, Grammar.commentOrNewline, halike.kind, hk]
  · rw [h.kids]
    simp [State.take]
  · rw [h.kids']
    simp [State.take]
  · intro n hn
    simp only [List.cons_append, List.mem_cons, List.mem_append] at hn
    rcases hn with rfl | hn | rfl | hn
    · simpa [Node.isLeaf, Node.hasKind, Node.lexeme?] using hk
    · exact h.blank n (List.mem_append_left _ hn)
    · simpa [Node.isLeaf, Node.hasKind, Node.lexeme?, halike.kind] using hk
    · exact h.blank n (List.mem_append_right _ hn)
  · have hstays : (Node.leaf s'.count (tokenAt tokens' s'.pos)).stays =
        (Node.leaf s.count (tokenAt tokens s.pos)).stays := by
      simp [Node.stays, Node.hasKind, Node.lexeme?, halike.kind]
    simp only [List.filter_cons, hstays]
    split
    · rw [List.map_cons, List.map_cons, h.rest, hsketch]
    · exact h.rest
  · simp [hsketch s.count s'.count]

/-- The new line end is taken first. -/
theorem added (hw : Widened g tokens tokens' u) (hs : s.pos = u) (hs' : s'.pos = u)
    (h : Swallowed g tokens tokens' u s t (s'.take tokens') t' ns ns') :
    Swallowed g tokens tokens' u s t s' t' ns (.leaf s'.count (tokenAt tokens' s'.pos) :: ns') := by
  have hk : (tokenAt tokens' s'.pos).kind = .newline := hs' ▸ hw.added
  refine ⟨.star_more (.take ?_) h.runs, h.pos, h.kids, ?_, ?_, ?_, fun habreast => ?_⟩
  · simp [accepts?, Grammar.commentOrNewline, hk]
  · rw [h.kids']
    simp [State.take]
  · intro n hn
    simp only [List.mem_append, List.mem_cons] at hn
    rcases hn with hn | rfl | hn
    · exact h.blank n (List.mem_append_left _ hn)
    · simp [Node.isLeaf, Node.hasKind, Node.lexeme?, hk]
    · exact h.blank n (List.mem_append_right _ hn)
  · rw [List.filter_cons_of_neg (by simp [Node.stays, Node.hasKind, Node.lexeme?, hk])]
    exact h.rest
  · unfold Abreast at habreast
    omega

end Swallowed

/-- Comments and line ends are taken up to the same token, also if a line end more comes first. -/
theorem Runs.swallows (hw : Widened g tokens tokens' u) {s t : State} {o : Outcome}
    (h : Runs grammar tokens (.star Grammar.commentOrNewline) s o t) (ho : o ≠ .exhausted) :
    o = .matched ∧ ∀ s' : State, Abreast tokens u s.pos s'.pos ∨ s.pos = u ∧ s'.pos = u →
      ∃ t' ns ns', Swallowed g tokens tokens' u s t s' t' ns ns' := by
  -- It is enough to start at the same token: otherwise the new line end is taken first.
  have hstart : ∀ {s t : State}, (∀ s' : State, Abreast tokens u s.pos s'.pos →
      ∃ t' ns ns', Swallowed g tokens tokens' u s t s' t' ns ns') → ∀ s' : State,
      Abreast tokens u s.pos s'.pos ∨ s.pos = u ∧ s'.pos = u →
        ∃ t' ns ns', Swallowed g tokens tokens' u s t s' t' ns ns' := by
    rintro s t hboth s' (habreast | ⟨hs, hs'⟩)
    · exact hboth s' habreast
    · have hinside := hw.inside
      have hnext : s'.pos + 1 < tokens'.size := by
        rw [hw.size]
        omega
      obtain ⟨t', ns, ns', hswallowed⟩ := hboth (s'.take tokens') <| by
        simp only [State.take, if_pos hnext, Abreast]
        omega
      exact ⟨t', ns, _, hswallowed.added hw hs hs'⟩
  generalize hp : Pattern.star Grammar.commentOrNewline = p at h
  induction h with
  | exhausted | star_stop => exact absurd rfl ho
  | star_more h₁ _ _ ih =>
    obtain rfl := Pattern.star.inj hp
    obtain ⟨hmatched, hrest⟩ := ih ho rfl
    refine ⟨hmatched, hstart fun s' habreast => ?_⟩
    obtain ⟨-, htaken, rfl⟩ := (h₁.oneOf (by simp)).resolve_right (by simp)
    have hk := htaken
    simp only [List.contains_eq_mem, List.mem_cons, List.not_mem_nil, or_false, decide_eq_true_eq] at hk
    obtain ⟨hnext, hnext', hpos⟩ := habreast.next hw (by rcases hk with hk | hk <;> simp [hk])
    obtain ⟨t', ns, ns', hswallowed⟩ := hrest (s'.take tokens') <| by
      simpa only [State.take, if_pos hnext, if_pos hnext'] using hpos
    exact ⟨t', _, _, hswallowed.cons (habreast.alike hw) hk⟩
  | star_end h =>
    obtain rfl := Pattern.star.inj hp
    refine ⟨rfl, hstart fun s' habreast => ?_⟩
    obtain ⟨-, hnot, rfl⟩ := (h.oneOf (by simp)).resolve_left (by simp)
    refine ⟨s'.missAny [.comment, .newline], [], [], .star_end (.miss ?_), habreast, rfl, rfl, by simp, rfl,
      fun _ => rfl⟩
    simp only [Grammar.commentOrNewline, accepts?, (habreast.alike hw).kind, hnot]
  | take ht | miss ht =>
    subst hp
    simp [accepts?] at ht
  | _ => cases hp

/-- What the end of a statement consists of. -/
theorem endOfStmt_body {body : Pattern} (h : Pattern.node .endOfStmt body = Grammar.endOfStmt) :
    body = .alt (.plus Grammar.commentOrNewline) (.check (.next [.eof])) :=
  (Pattern.node.inj h).2

theorem Swallowed.remaining {s t s' t' : State} {ns ns' : List Node}
    (h : Swallowed g tokens tokens' u s t s' t' ns ns') :
    (ns.map (Node.sketch g)).filter Node.remains = (ns'.map (Node.sketch .same)).filter Node.remains := by
  have hsame : ∀ {g : Guise} {ms : List Node}, (∀ n ∈ ms, n ∈ ns ++ ns') →
      (ms.map (Node.sketch g)).filter Node.remains = (ms.filter Node.stays).map (Node.sketch g) := by
    intro g ms hms
    rw [List.filter_map]
    refine congrArg _ (List.filter_congr fun n hn => ?_)
    obtain ⟨hleaf, hk⟩ := h.blank n (hms n hn)
    cases n with
    | leaf i lx =>
      rcases hk with hk | hk <;> simp_all [Node.remains, Node.stays, Node.isLeaf, Node.hasKind, Node.lexeme?]
    | inner => cases hleaf
  rw [hsame fun n hn => List.mem_append_left _ hn, hsame fun n hn => List.mem_append_right _ hn, h.rest]

/-- Before the end of the source the end of a statement is the new line end. -/
theorem Widened.ends_added (hw : Widened g tokens tokens' u) (heof : (tokenAt tokens u).kind = .eof)
    {s' : State} (hs' : s'.pos = u) :
    ∃ t', Runs grammar tokens' (.plus Grammar.commentOrNewline) s' .matched t' ∧
      t'.pos = u + 1 ∧ t'.kids = .leaf s'.count (tokenAt tokens' u) :: s'.kids := by
  have hnext : s'.pos + 1 < tokens'.size := by
    rw [hs', hw.size]
    exact Nat.succ_lt_succ hw.inside
  have hpos : (s'.take tokens').pos = u + 1 := by
    rw [← hs']
    exact if_pos hnext
  have hkind := (hw.back u (Nat.le_refl u)).kind
  refine ⟨(s'.take tokens').missAny [.comment, .newline],
    .seq (.take ?_) (.star_end (.miss (p := Grammar.commentOrNewline) ?_)), hpos, ?_⟩
  · simp [accepts?, Grammar.commentOrNewline, hs', hw.added]
  · rw [hpos]
    simp [accepts?, Grammar.commentOrNewline, hkind, heof]
  · simp only [State.missAny, State.take, hs']

/-- Comments and line ends, one at least, are the same ones but for line ends. -/
theorem Runs.plus_matched (hw : Widened g tokens tokens' u) {s t s' : State}
    (h : Runs grammar tokens (.plus Grammar.commentOrNewline) s .matched t)
    (hpos : Near tokens u s.pos s'.pos) (hkids : s.kids = []) (hkids' : s'.kids = []) :
    ∃ t', Runs grammar tokens' (.plus Grammar.commentOrNewline) s' .matched t' ∧
      Near tokens u t.pos t'.pos ∧ (t.kids.reverse.map (Node.sketch g)).filter Node.remains =
        (t'.kids.reverse.map (Node.sketch .same)).filter Node.remains := by
  unfold Pattern.plus at h
  cases h with
  | take ht => simp [accepts?] at ht
  | seq_stop _ hne => exact absurd rfl hne
  | seq h₁ h₂ =>
    obtain ⟨-, htaken, rfl⟩ := (h₁.oneOf (by simp)).resolve_right (by simp)
    have hk := htaken
    simp only [List.contains_eq_mem, List.mem_cons, List.not_mem_nil, or_false, decide_eq_true_eq] at hk
    have hne : (tokenAt tokens s.pos).kind ≠ .eof := by
      rcases hk with hk | hk <;> simp [hk]
    have habreast : Abreast tokens u s.pos s'.pos :=
      hpos.resolve_right fun hend => hne (hend.1 ▸ hend.2.2)
    obtain ⟨hnext, hnext', hpos'⟩ := habreast.next hw hne
    obtain ⟨t', ns, ns', hswallowed⟩ := (h₂.swallows hw (by simp)).2 (s'.take tokens') <| by
      simpa only [State.take, if_pos hnext, if_pos hnext'] using hpos'
    have hall := hswallowed.cons (habreast.alike hw) hk
    refine ⟨t', .seq (.take ?_) hswallowed.runs, .inl hswallowed.pos, ?_⟩
    · simp only [Grammar.commentOrNewline, accepts?, (habreast.alike hw).kind, htaken]
    · rw [hall.kids, hall.kids', hkids, hkids']
      simpa using hall.remaining

/-- No comment and no line end stands where there is not one at least. -/
theorem Runs.plus_stopped (hw : Widened g tokens tokens' u) {s t : State} {o : Outcome}
    (h : Runs grammar tokens (.plus Grammar.commentOrNewline) s o t) (ho : o ≠ .exhausted)
    (hne : o ≠ .matched) :
    o = .failed ∧ [Kind.comment, .newline].contains (tokenAt tokens s.pos).kind = false := by
  unfold Pattern.plus at h
  cases h with
  | exhausted => exact absurd rfl ho
  | take ht | miss ht => simp [accepts?] at ht
  | seq _ h₂ => exact absurd (h₂.swallows hw ho).1 hne
  | seq_stop h _ =>
    obtain ⟨hfailed, hnot, -⟩ := (h.oneOf ho).resolve_left fun hmatched => hne hmatched.1
    exact ⟨hfailed, hnot⟩

/-- The end of a statement goes the same way. -/
theorem Runs.ends (hw : Widened g tokens tokens' u) {body : Pattern}
    (hbody : Pattern.node .endOfStmt body = Grammar.endOfStmt) {s t s' : State} {o : Outcome}
    (h : Runs grammar tokens body s o t) (ho : o ≠ .exhausted) (hpos : Near tokens u s.pos s'.pos)
    (hkids : s.kids = []) (hkids' : s'.kids = []) :
    ∃ t', Runs grammar tokens' body s' o t' ∧ Near tokens u t.pos t'.pos ∧
      (o = .matched → (t.kids.reverse.map (Node.sketch g)).filter Node.remains =
        (t'.kids.reverse.map (Node.sketch .same)).filter Node.remains) := by
  obtain rfl := endOfStmt_body hbody
  cases h with
  | exhausted => exact absurd rfl ho
  | take ht | miss ht => simp [accepts?] at ht
  | alt_first h hne =>
    obtain rfl : o = .matched := by
      by_contra hnot
      exact hne (h.plus_stopped hw ho hnot).1
    obtain ⟨t', hrun, hpos', hsame⟩ := h.plus_matched hw hpos hkids hkids'
    exact ⟨t', .alt_first hrun hne, hpos', fun _ => hsame⟩
  | alt_second h₁ h₂ =>
    obtain ⟨-, hnot⟩ := h₁.plus_stopped hw (by simp) (by simp)
    rcases hpos.pair hw with halike | ⟨heof, hnewline⟩
    · have hmiss : Runs grammar tokens' (.plus Grammar.commentOrNewline) s' .failed
          (s'.missAny [.comment, .newline]) := by
        refine .seq_stop (.miss (p := Grammar.commentOrNewline) ?_) (by simp)
        simp only [Grammar.commentOrNewline, accepts?, halike.kind, hnot]
      have hholds : holds tokens' s'.pos (.next [.eof]) = holds tokens s.pos (.next [.eof]) := by
        simp only [holds, ahead, halike.kind]
      cases h₂ with
      | exhausted => exact absurd rfl ho
      | take ht | miss ht => simp [accepts?] at ht
      | check hg =>
        refine ⟨_, .alt_second hmiss (.check (hholds.trans hg)), hpos, fun _ => ?_⟩
        simp only [State.backTo, hkids, hkids']
        rfl
      | check_fails hg => exact ⟨_, .alt_second hmiss (.check_fails (hholds.trans hg)), hpos, by simp⟩
    · -- Nothing stands before the end of the source, and the new line end does in the second one.
      obtain ⟨hs, hs', -⟩ : s.pos = u ∧ s'.pos = u ∧ (tokenAt tokens u).kind = .eof := by
        refine hpos.resolve_left fun habreast => ?_
        rw [(habreast.alike hw).kind, heof] at hnewline
        cases hnewline
      obtain ⟨t', hrun, hpos', hadded⟩ := hw.ends_added (hs ▸ heof) hs'
      have hat : holds tokens s.pos (.next [.eof]) := by simp [holds, ahead, heof]
      cases h₂ with
      | exhausted => exact absurd rfl ho
      | take ht | miss ht => simp [accepts?] at ht
      | check_fails hg => exact absurd (hat.symm.trans hg) (by simp)
      | check =>
        refine ⟨t', .alt_first hrun (by simp), .inl (.inr ⟨?_, ?_, ?_⟩), fun _ => ?_⟩
        · exact Nat.le_of_eq hs.symm
        · exact (congrArg (· < tokens.size) hs).mpr hw.inside
        · rw [hpos']
          exact congrArg (· + 1) hs.symm
        · simp [State.backTo, hkids, hadded, hkids', Node.remains, Node.isLeaf, Node.hasKind,
            Node.lexeme?, hw.added]

/-! ## Matching -/

/-- A match of a pattern that takes line ends only in ends of statements goes the same way. -/
theorem Runs.widened (hw : Widened g tokens tokens' u) {p : Pattern} {s t : State} {o : Outcome}
    (h : Runs grammar tokens p s o t) : o ≠ .exhausted → ∀ {inside : Bool}, p.steady inside →
      (inside → (tokenAt tokens s.pos).InLine) → ∀ {base base' : List Node} {s' : State},
        Beside g tokens u base base' s s' →
          ∃ t', Runs grammar tokens' p s' o t' ∧ Beside g tokens u base base' t t' := by
  have hfalse : ∀ s : State, (false : Bool) = true → (tokenAt tokens s.pos).InLine := by simp
  induction h with
  | exhausted => exact fun ho => absurd rfl ho
  | take ht =>
    intro _ inside hp hin base base' s' hs
    have hsame := accepts?_near hw hs.pos hp hin
    exact ⟨_, .take (hsame.trans ht), hs.take hw (inLine_of_accepts hp hin ht)⟩
  | miss ht =>
    intro _ inside hp hin base base' s' hs
    have hsame := accepts?_near hw hs.pos hp hin
    exact ⟨_, .miss (hsame.trans ht), hs.missed _⟩
  | check hg =>
    intro _ inside hp hin base base' s' hs
    exact ⟨s', .check ((holds_near hw hs.pos hp).trans hg), hs⟩
  | check_fails hg =>
    intro _ inside hp hin base base' s' hs
    exact ⟨s', .check_fails ((holds_near hw hs.pos hp).trans hg), hs⟩
  | branch _ ih =>
    intro ho inside hp hin base base' s' hs
    simp only [Pattern.steady, Bool.and_eq_true] at hp
    obtain ⟨⟨hg, hyes⟩, hno⟩ := hp
    obtain ⟨t', hrun, ht'⟩ := @ih ho inside (by split <;> assumption) hin _ _ _ hs
    exact ⟨t', .branch ((holds_near hw hs.pos hg).symm ▸ hrun), ht'⟩
  | seq _ _ ih₁ ih₂ =>
    intro ho inside hp hin base base' s' hs
    obtain ⟨h₁, h₂⟩ := Bool.and_eq_true_iff.1 hp
    obtain ⟨t', hrun, ht'⟩ := ih₁ (by simp) h₁ hin hs
    obtain ⟨v', hrun', hv'⟩ := ih₂ ho h₂ (hfalse _) ht'
    exact ⟨v', .seq hrun hrun', hv'⟩
  | seq_stop _ hne ih =>
    intro ho inside hp hin base base' s' hs
    obtain ⟨t', hrun, ht'⟩ := ih ho (Bool.and_eq_true_iff.1 hp).1 hin hs
    exact ⟨t', .seq_stop hrun hne, ht'⟩
  | alt_first _ hne ih =>
    intro ho inside hp hin base base' s' hs
    obtain ⟨t', hrun, ht'⟩ := ih ho (Bool.and_eq_true_iff.1 hp).1 hin hs
    exact ⟨t', .alt_first hrun hne, ht'⟩
  | alt_second _ _ ih₁ ih₂ =>
    intro ho inside hp hin base base' s' hs
    obtain ⟨h₁, h₂⟩ := Bool.and_eq_true_iff.1 hp
    obtain ⟨t', hrun, -⟩ := ih₁ (by simp) h₁ hin hs
    obtain ⟨v', hrun', hv'⟩ := ih₂ ho h₂ hin (hs.backTo _ t')
    exact ⟨v', .alt_second hrun hrun', hv'⟩
  | star_more _ _ ih₁ ih₂ =>
    intro ho inside hp hin base base' s' hs
    obtain ⟨t', hrun, ht'⟩ := ih₁ (by simp) hp (hfalse _) hs
    obtain ⟨v', hrun', hv'⟩ := @ih₂ ho false hp (hfalse _) _ _ _ ht'
    exact ⟨v', .star_more hrun hrun', hv'⟩
  | star_end _ ih =>
    intro _ inside hp hin base base' s' hs
    obtain ⟨t', hrun, ht'⟩ := ih (by simp) hp (hfalse _) hs
    exact ⟨t', .star_end hrun, ht'⟩
  | star_stop => exact fun ho => absurd rfl ho
  | opt _ hne ih =>
    intro ho inside hp hin base base' s' hs
    obtain ⟨t', hrun, ht'⟩ := ih ho hp hin hs
    exact ⟨t', .opt hrun hne, ht'⟩
  | opt_none _ ih =>
    intro _ inside hp hin base base' s' hs
    obtain ⟨t', hrun, ht'⟩ := ih (by simp) hp hin hs
    exact ⟨t', .opt_none hrun, ht'⟩
  | attempt _ hne ih =>
    intro ho inside hp hin base base' s' hs
    obtain ⟨t', hrun, ht'⟩ := ih ho hp hin hs
    exact ⟨t', .attempt hrun hne, ht'⟩
  | attempt_back _ ih =>
    intro _ inside hp hin base base' s' hs
    obtain ⟨t', hrun, -⟩ := ih (by simp) hp hin hs
    exact ⟨_, .attempt_back hrun, hs.backTo _ t'⟩
  | while_more hg _ _ ih₁ ih₂ =>
    intro ho inside hp hin base base' s' hs
    obtain ⟨heven, hbody⟩ := Bool.and_eq_true_iff.1 hp
    obtain ⟨t', hrun, ht'⟩ := ih₁ (by simp) hbody (inLine_of_holds hg) hs
    obtain ⟨v', hrun', hv'⟩ := @ih₂ ho false hp (hfalse _) _ _ _ ht'
    exact ⟨v', .while_more ((holds_near hw hs.pos heven).trans hg) hrun hrun', hv'⟩
  | while_stop hg _ hne ih =>
    intro ho inside hp hin base base' s' hs
    obtain ⟨heven, hbody⟩ := Bool.and_eq_true_iff.1 hp
    obtain ⟨t', hrun, ht'⟩ := ih ho hbody (inLine_of_holds hg) hs
    exact ⟨t', .while_stop ((holds_near hw hs.pos heven).trans hg) hrun hne, ht'⟩
  | while_end hg =>
    intro _ inside hp hin base base' s' hs
    exact ⟨s', .while_end ((holds_near hw hs.pos (Bool.and_eq_true_iff.1 hp).1).trans hg), hs⟩
  | @node l body s t h ih =>
    intro _ inside hp hin base base' s' hs
    rw [Pattern.steady] at hp
    split at hp
    · rename_i hl
      obtain rfl : l = .endOfStmt := by simpa using hl
      obtain ⟨t', hrun, hpos, hsame⟩ := h.ends hw (by simpa using hp) (by simp) hs.enter.pos rfl rfl
      refine ⟨_, .node hrun, hs.grow hpos ?_ rfl rfl⟩
      rw [id, id, Node.sketch_end, Node.sketch_end, hsame rfl]
    · rename_i hl
      obtain ⟨t', hrun, ht'⟩ := ih (by simp) hp hin hs.enter
      exact ⟨_, .node hrun, hs.leave (by simpa using hl) ht' fun _ _ _ => rfl⟩
  | @node_back l body s t o h hne ih =>
    intro ho inside hp hin base base' s' hs
    rw [Pattern.steady] at hp
    split at hp
    · rename_i hl
      obtain rfl : l = .endOfStmt := by simpa using hl
      obtain ⟨t', hrun, -⟩ := h.ends hw (by simpa using hp) ho hs.enter.pos rfl rfl
      exact ⟨_, .node_back hrun hne, hs.backTo _ t'⟩
    · obtain ⟨t', hrun, -⟩ := ih ho hp hin hs.enter
      exact ⟨_, .node_back hrun hne, hs.backTo _ t'⟩
  | @level l body s t _ ih =>
    intro _ inside hp hin base base' s' hs
    obtain ⟨hne, hbody⟩ := Bool.and_eq_true_iff.1 hp
    have hl : l ≠ .endOfStmt := by simpa using hne
    obtain ⟨t', hrun, ht'⟩ := ih (by simp) hbody hin hs.enter
    exact ⟨_, .level hrun, hs.leave hl ht' (Node.sketch_collapse hl)⟩
  | level_back _ hne ih =>
    intro ho inside hp hin base base' s' hs
    obtain ⟨t', hrun, -⟩ := ih ho (Bool.and_eq_true_iff.1 hp).2 hin hs.enter
    exact ⟨_, .level_back hrun hne, hs.backTo _ t'⟩
  | call _ ih =>
    intro ho inside hp hin base base' s' hs
    obtain ⟨t', hrun, ht'⟩ := ih ho (grammar_steady _) (hfalse _) hs
    exact ⟨t', .call hrun, ht'⟩

end TreeMatch

end FortranJulia
