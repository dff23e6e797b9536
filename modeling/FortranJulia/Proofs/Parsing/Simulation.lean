import FortranJulia.Proofs.Parsing.Growth

/-!
Matching in an arena and matching with trees go the same way. `Agree` relates a state of the one to
a state of the other, `Steps` the pieces of a match between two such states. The main statements are
`run_agrees`, for a pattern below an open node, and `rule_agrees`, for a pattern that makes a node
of its own; neither ever meets a fault.
-/

namespace FortranJulia

set_option autoImplicit false

open Match (Outcome)

/-! ## Tokens -/

theorem current_eq_tokenAt {tokens : Array Lexeme} {i : Nat} (h : i < tokens.size) :
    Match.current tokens i = .ok (TreeMatch.tokenAt tokens i) := by
  have hmin : min i (tokens.size - 1) = i := by omega
  simp [Match.current, TreeMatch.tokenAt, hmin, h]

theorem peek_eq_tokenAt {tokens : Array Lexeme} (h : 0 < tokens.size) (i : Nat) :
    Match.peek tokens i = .ok (TreeMatch.tokenAt tokens i) := by
  have hmin : min i (tokens.size - 1) < tokens.size := by omega
  simp [Match.peek, Match.current, TreeMatch.tokenAt, hmin]

theorem holds_eq {tokens : Array Lexeme} (h : 0 < tokens.size) (pos : Nat) (g : Guard) :
    Match.holds tokens pos g = .ok (TreeMatch.holds tokens pos g) := by
  cases g <;>
    simp [Match.holds, Match.atLoopControl, TreeMatch.holds, TreeMatch.atLoopControl,
      TreeMatch.ahead, peek_eq_tokenAt h, bind, Except.bind, pure, Except.pure]

/-! ## States -/

/-- The two states are at the same token and have made the same number of nodes. -/
structure Agree (tokens : Array Lexeme) (b : Match.State) (s : TreeMatch.State) : Prop where
  pos : b.pos = s.pos
  inside : s.pos < tokens.size
  count : b.tree.length = s.count
  reach : b.reach = s.reach
  sound : b.tree.Sound

namespace Agree

variable {tokens : Array Lexeme} {b : Match.State} {s : TreeMatch.State}

theorem length (h : Agree tokens b s) : b.tree.contents.length = s.count :=
  (Arena.contents_length h.sound).trans h.count

theorem miss (h : Agree tokens b s) (k : Kind) : Agree tokens (b.miss k) (s.miss k) :=
  ⟨h.pos, h.inside, h.count, by simp [Match.State.miss, TreeMatch.State.miss, h.reach, h.pos],
    h.sound⟩

theorem missAny (h : Agree tokens b s) (ks : List Kind) :
    Agree tokens (b.missAny ks) (s.missAny ks) :=
  ⟨h.pos, h.inside, h.count,
    by simp [Match.State.missAny, TreeMatch.State.missAny, h.reach, h.pos], h.sound⟩

theorem enter (h : Agree tokens b s) (l : Label) :
    Agree tokens (b.push (.phrase l)).2 s.enter := by
  refine ⟨h.pos, h.inside, ?_, h.reach, Arena.push_sound h.sound (Cell.sound_phrase l)⟩
  have hcount := h.count
  simp [Match.State.push, Arena.push, TreeMatch.State.enter, hcount]

end Agree

/-- A piece of a match gives the open node the children `news`, in both forms. -/
structure Steps (tokens : Array Lexeme) (q : Nat) (b b' : Match.State) (s t : TreeMatch.State)
    (news : List Node) : Prop where
  agree : Agree tokens b' t
  grows : Grows q b.tree b'.tree news
  kids : t.kids = news.reverse ++ s.kids
  made : Inventory b'.tree.contents b.tree.contents.length news

namespace Steps

variable {tokens : Array Lexeme} {q : Nat} {b b' b'' : Match.State} {s t u : TreeMatch.State}
  {news more : List Node}

theorem refl (h : Agree tokens b s) : Steps tokens q b b s s [] :=
  ⟨h, Grows.refl q b.tree, rfl, .of_le (Nat.le_refl _) _⟩

theorem trans (h : Steps tokens q b b' s t news) (h' : Steps tokens q b' b'' t u more)
    (hq : q < b.tree.contents.length) : Steps tokens q b b'' s u (news ++ more) := by
  refine ⟨h'.agree, h.grows.trans h'.grows hq, ?_, h.made.append h'.made fun i hlow hi => ?_⟩
  · rw [h'.kids, h.kids, List.reverse_append, List.append_assoc]
  · exact h'.grows.others i hi (by omega)

/-- A piece that changes nothing that can be seen in the arena. -/
theorem still (h : Agree tokens b' t) (hcells : b'.tree.contents = b.tree.contents)
    (hroot : b'.tree.root = b.tree.root) (hkids : t.kids = s.kids) :
    Steps tokens q b b' s t [] := by
  refine ⟨h, ⟨hroot, ?_, ?_, ?_, by simp⟩, by simpa using hkids, .of_le ?_ _⟩
  · exact Nat.le_of_eq (congrArg List.length hcells.symm)
  · intro i _ _
    rw [hcells]
  · intro p hp
    rw [hcells, hp, List.map_nil, Cell.grow_nil, content_of_contents hp]
  · exact Nat.le_of_eq (congrArg List.length hcells)

theorem open_lt (h : Steps tokens q b b' s t news) (hq : q < b.tree.contents.length) :
    q < b'.tree.contents.length :=
  Nat.lt_of_lt_of_le hq h.grows.length_le

end Steps

/-! ## Going back -/

/-- Back at a checkpoint without an owner, the arena is as it was there. -/
theorem backTo_none {tokens : Array Lexeme} {b b' : Match.State} {s t : TreeMatch.State}
    (h : Agree tokens b s) (h' : Agree tokens b' t) (hkeeps : Keeps b.tree b'.tree) :
    ∃ b'', b'.backTo ⟨b.pos, ⟨b.tree.length, none, 0⟩⟩ = .ok b'' ∧
      Agree tokens b'' (s.backTo t) ∧ b''.tree.contents = b.tree.contents ∧
      b''.tree.root = b.tree.root := by
  have hlen := Arena.contents_length h.sound
  have hlen' := Arena.contents_length h'.sound
  have hle := hkeeps.length_le
  obtain ⟨a, hroll, hsound, hlength, hroot, hcells⟩ :=
    Arena.rollback_none h'.sound (n := b.tree.length) (c := 0) (by omega)
  refine ⟨{ b' with pos := b.pos, tree := a }, ?_, ⟨h.pos, h.inside, ?_, h'.reach, hsound⟩, ?_,
    hroot.trans hkeeps.root⟩
  · simp [Match.State.backTo, Fault.ofArena, hroll, Except.mapError, bind, Except.bind, pure,
      Except.pure]
  · simpa [TreeMatch.State.backTo] using hlength.trans h.count
  · change a.contents = _
    rw [hcells]
    apply List.ext_getElem?
    intro i
    by_cases hi : i < b.tree.length
    · rw [List.getElem?_take_of_lt hi, hkeeps.same i (by omega)]
    · rw [List.getElem?_eq_none (by simp; omega), List.getElem?_eq_none (by omega)]

/-- Back at a checkpoint for the open node, the arena is as it was there. -/
theorem backTo_some {tokens : Array Lexeme} {b : Match.State} {s : TreeMatch.State} {q : Nat}
    (h : Agree tokens b s) (hq : q < b.tree.contents.length) :
    ∃ c, b.checkpoint (some q) = .ok c ∧ ∀ b' t news, Steps tokens q b b' s t news →
      ∃ b'', b'.backTo c = .ok b'' ∧ Steps tokens q b b'' s (s.backTo t) [] := by
  have hp := List.getElem?_eq_getElem hq
  have hlen := Arena.contents_length h.sound
  refine ⟨⟨b.pos, ⟨b.tree.length, some q, b.tree.contents[q].children.length⟩⟩, ?_, ?_⟩
  · simp [Match.State.checkpoint, Fault.ofArena, Arena.mark_some h.sound hp, Except.mapError, bind,
      Except.bind, pure, Except.pure]
  intro b' t news hs
  have hlen' := Arena.contents_length hs.agree.sound
  have hle := hs.grows.length_le
  have hown := hs.grows.own _ hp
  have hcount : b.tree.contents[q].children.length ≤
      (b.tree.contents[q].grow (news.map Node.id)).children.length := by
    rw [Cell.children_grow, List.length_append]
    omega
  have hown' : (b'.tree.contents.take b.tree.length)[q]? =
      some (b.tree.contents[q].grow (news.map Node.id)) := by
    rw [List.getElem?_take_of_lt (by omega), hown]
  obtain ⟨a, hroll, hsound, hlength, hroot, hcells⟩ :=
    Arena.rollback_some hs.agree.sound (by omega) hown' hcount
  refine ⟨{ b' with pos := b.pos, tree := a }, ?_, Steps.still ⟨h.pos, h.inside, ?_, hs.agree.reach,
    hsound⟩ ?_ (hroot.trans hs.grows.root) rfl⟩
  · simp [Match.State.backTo, Fault.ofArena, hroll, Except.mapError, bind, Except.bind, pure,
      Except.pure]
  · simpa [TreeMatch.State.backTo] using hlength.trans h.count
  · change a.contents = _
    rw [hcells, Cell.keep_grow, content_of_contents hp, ← hlen]
    exact hs.grows.take_set hp

/-! ## Single tokens -/

theorem attach_ok {b : Match.State} {q i n : Nat} {a : Arena}
    (h : b.tree.attach q i = .ok (n, a)) : b.attach q i = .ok { b with tree := a } := by
  simp [Match.State.attach, Fault.ofArena, h, Except.mapError, bind, Except.bind, pure, Except.pure]

theorem take_agrees {tokens : Array Lexeme} {b : Match.State} {s : TreeMatch.State} {q : Nat}
    (h : Agree tokens b s) (hq : q < b.tree.contents.length) :
    ∃ b', b.take tokens (some q) = .ok b' ∧ Steps tokens q b b' s (s.take tokens)
      [.leaf s.count (TreeMatch.tokenAt tokens s.pos)] := by
  obtain ⟨pos, count, kids, reach⟩ := s
  obtain ⟨rfl, hinside, rfl, rfl, hsound⟩ := h
  have hpushed := Arena.push_sound hsound (Cell.sound_ofLexeme (TreeMatch.tokenAt tokens b.pos))
  have hleaf := shown_leaf hsound (TreeMatch.tokenAt tokens b.pos)
  have hmade := inventory_leaf hsound (TreeMatch.tokenAt tokens b.pos)
  obtain ⟨n, a, hattach, hs, hlen, hgrows, hmade'⟩ :=
    attach_grows hpushed (keeps_push hsound _) hleaf hmade hq
  have hattach' : (b.push (.ofLexeme (TreeMatch.tokenAt tokens b.pos))).2.attach q
      (b.push (.ofLexeme (TreeMatch.tokenAt tokens b.pos))).1 = .ok { b with tree := a } :=
    attach_ok hattach
  refine ⟨{ b with pos := if b.pos + 1 < tokens.size then b.pos + 1 else b.pos, tree := a }, ?_,
    ⟨rfl, ?_, hlen, rfl, hs⟩, hgrows, rfl, hmade'⟩
  · simp only [Match.State.take, current_eq_tokenAt hinside, hattach', bind, Except.bind, pure,
      Except.pure]
  · simp only [TreeMatch.State.take] at hinside ⊢
    split <;> assumption

/-! ## Nodes -/

/-- A finished node that is in no list of children yet. -/
structure Ready (tokens : Array Lexeme) (b b' : Match.State) (t : TreeMatch.State) (n : Node) :
    Prop where
  agree : Agree tokens b' t
  keeps : Keeps b.tree b'.tree
  shown : Shown b'.tree.contents b.tree.contents.length none n
  made : Inventory b'.tree.contents b.tree.contents.length [n]

theorem Ready.commit_some {tokens : Array Lexeme} {b b' : Match.State} {s t : TreeMatch.State}
    {n : Node} {q : Nat} (h : Ready tokens b b' t n) (hq : q < b.tree.contents.length) :
    ∃ b'', b'.commit (some q) n.id = .ok b'' ∧
      Steps tokens q b b'' s { t with kids := n :: s.kids } [n] := by
  obtain ⟨k, c, hattach, hc, hlen, hgrows, hmade⟩ :=
    attach_grows h.agree.sound h.keeps h.shown h.made hq
  refine ⟨{ b' with tree := c }, attach_ok hattach, ⟨h.agree.pos, h.agree.inside, ?_,
    h.agree.reach, hc⟩, hgrows, rfl, hmade⟩
  exact hlen.trans h.agree.count

/-- A body that matched below a new node leaves that node ready. -/
theorem ready_node {tokens : Array Lexeme} {b b' : Match.State} {s t : TreeMatch.State}
    {l : Label} {news : List Node} (h : Agree tokens b s)
    (hs : Steps tokens b.tree.length (b.push (.phrase l)).2 b' s.enter t news) :
    Ready tokens b b' t (.inner s.count l t.kids.reverse) := by
  have hlen := Arena.contents_length h.sound
  have hkids : t.kids.reverse = news := by
    rw [hs.kids]
    simp [TreeMatch.State.enter]
  have hmade := hs.made
  rw [(h.enter l).length, TreeMatch.State.enter, ← h.length, hlen] at hmade
  refine ⟨hs.agree, (keeps_push h.sound _).grows hs.grows (Nat.le_of_eq hlen), ?_, ?_⟩
  · rw [hkids, ← h.count]
    exact shown_inner h.sound l hs.grows
  · rw [hkids, ← h.count, hlen]
    exact hmade.inner l

theorem ready_level {tokens : Array Lexeme} {b b' : Match.State} {t : TreeMatch.State} {id : Nat}
    {l : Label} {kids : List Node} (h : Ready tokens b b' t (.inner id l kids)) :
    ∃ b'', b'.unwrap id = .ok ((Node.collapse (.inner id l kids)).id, b'') ∧
      Ready tokens b b'' t (Node.collapse (.inner id l kids)) := by
  obtain ⟨c, hunwrap, hc, hlen, hkeeps, hshown, hmade⟩ :=
    unwrap_shown h.agree.sound h.keeps h.shown h.made
  refine ⟨{ b' with tree := c }, ?_, ⟨h.agree.pos, h.agree.inside, hlen.trans h.agree.count,
    h.agree.reach, hc⟩, hkeeps, hshown, hmade⟩
  simp [Match.State.unwrap, Fault.ofArena, hunwrap, Except.mapError, bind, Except.bind, pure,
    Except.pure]

/-! ## Runs -/

section Runs

variable {grammar : Nonterminal → Pattern} {tokens : Array Lexeme}

/-- Matching below an open node goes as matching with trees does. -/
def FollowsAt (grammar : Nonterminal → Pattern) (tokens : Array Lexeme) (depth : Nat) (p : Pattern)
    (q : Nat) (b : Match.State) (s : TreeMatch.State) : Prop :=
  ∃ o b' t news, Match.run grammar tokens depth p (some q) b = .ok (o, b') ∧
    TreeMatch.run grammar tokens depth p s = (o, t) ∧ Steps tokens q b b' s t news

/-- All patterns follow to a depth. -/
def Follows (grammar : Nonterminal → Pattern) (tokens : Array Lexeme) (depth : Nat) : Prop :=
  ∀ p q b s, Agree tokens b s → q < b.tree.contents.length →
    FollowsAt grammar tokens depth p q b s

/-- A rule either has a node ready for its parent, whichever that is, or it changes nothing. -/
def RuleFollows (grammar : Nonterminal → Pattern) (tokens : Array Lexeme) (depth : Nat)
    (p : Pattern) (b : Match.State) (s : TreeMatch.State) : Prop :=
  (∃ b' n t, TreeMatch.run grammar tokens depth p s = (.matched, { t with kids := n :: s.kids }) ∧
    Ready tokens b b' t n ∧
    ∀ parent, Match.run grammar tokens depth p parent b =
      (do return (.matched, ← b'.commit parent n.id))) ∨
  (∃ o b' t, o ≠ .matched ∧ TreeMatch.run grammar tokens depth p s = (o, s.backTo t) ∧
    Agree tokens b' (s.backTo t) ∧ b'.tree.contents = b.tree.contents ∧
    b'.tree.root = b.tree.root ∧
    ∀ parent, Match.run grammar tokens depth p parent b = .ok (o, b'))

/-- The body of a rule: it leaves the new node ready, or all it has done can be undone. -/
theorem body_follows {depth : Nat} (ih : Follows grammar tokens depth) (l : Label)
    (body : Pattern) {b : Match.State} {s : TreeMatch.State} (h : Agree tokens b s) :
    ∃ o t b', TreeMatch.run grammar tokens depth body s.enter = (o, t) ∧
      Match.run grammar tokens depth body (some b.tree.length) (b.push (.phrase l)).2 =
        .ok (o, b') ∧
      Ready tokens b b' t (.inner b.tree.length l t.kids.reverse) ∧
      ∃ b'', b'.backTo ⟨b.pos, ⟨b.tree.length, none, 0⟩⟩ = .ok b'' ∧
        Agree tokens b'' (s.backTo t) ∧ b''.tree.contents = b.tree.contents ∧
        b''.tree.root = b.tree.root := by
  have hopen : b.tree.length < (b.push (.phrase l)).2.tree.contents.length := by
    rw [(h.enter l).length, h.count]
    exact Nat.lt_succ_self _
  obtain ⟨o, b', t, news, hrun, hout, hs⟩ := ih body b.tree.length _ _ (h.enter l) hopen
  have hready := ready_node h hs
  rw [← h.count] at hready
  exact ⟨o, t, b', hout, hrun, hready, backTo_none h hs.agree hready.keeps⟩

theorem node_follows {depth : Nat} (ih : Follows grammar tokens depth) (l : Label)
    (body : Pattern) {b : Match.State} {s : TreeMatch.State} (h : Agree tokens b s) :
    RuleFollows grammar tokens (depth + 1) (.node l body) b s := by
  have hpush : (b.push (.phrase l)).1 = b.tree.length := rfl
  have hcheck : b.checkpoint none = .ok ⟨b.pos, ⟨b.tree.length, none, 0⟩⟩ := rfl
  obtain ⟨o, t, b', hout, hrun, hready, b'', hback, hagree, hcells, hroot⟩ :=
    body_follows ih l body h
  by_cases ho : o = .matched
  · subst ho
    refine .inl ⟨b', _, t, ?_, hready, fun parent => ?_⟩
    · simp [TreeMatch.run, hout, TreeMatch.State.leave, h.count]
    · simp only [Match.run, hcheck, hpush, hrun, bind, Except.bind, pure, Except.pure, Node.id]
  · refine .inr ⟨o, b'', t, ho, ?_, hagree, hcells, hroot, fun parent => ?_⟩
    · simp [TreeMatch.run, hout]
    · simp [Match.run, hcheck, hpush, hrun, hback, bind, Except.bind, pure, Except.pure]

theorem level_follows {depth : Nat} (ih : Follows grammar tokens depth) (l : Label)
    (body : Pattern) {b : Match.State} {s : TreeMatch.State} (h : Agree tokens b s) :
    RuleFollows grammar tokens (depth + 1) (.level l body) b s := by
  have hpush : (b.push (.phrase l)).1 = b.tree.length := rfl
  have hcheck : b.checkpoint none = .ok ⟨b.pos, ⟨b.tree.length, none, 0⟩⟩ := rfl
  obtain ⟨o, t, b', hout, hrun, hready, b'', hback, hagree, hcells, hroot⟩ :=
    body_follows ih l body h
  by_cases ho : o = .matched
  · subst ho
    obtain ⟨u, hunwrap, hready'⟩ := ready_level hready
    refine .inl ⟨u, _, t, ?_, hready', fun parent => ?_⟩
    · simp [TreeMatch.run, hout, TreeMatch.State.leave, h.count]
    · simp only [Match.run, hcheck, hpush, hrun, hunwrap, bind, Except.bind, pure, Except.pure]
  · refine .inr ⟨o, b'', t, ho, ?_, hagree, hcells, hroot, fun parent => ?_⟩
    · simp [TreeMatch.run, hout]
    · simp [Match.run, hcheck, hpush, hrun, hback, bind, Except.bind, pure, Except.pure]

/-- Below an open node a rule follows like any other pattern. -/
theorem RuleFollows.followsAt {depth : Nat} {p : Pattern} {b : Match.State} {s : TreeMatch.State}
    (h : RuleFollows grammar tokens depth p b s) {q : Nat} (hq : q < b.tree.contents.length) :
    FollowsAt grammar tokens depth p q b s := by
  rcases h with ⟨b', n, t, hout, hready, hrun⟩ | ⟨o, b', t, -, hout, hagree, hcells, hroot, hrun⟩
  · obtain ⟨b'', hcommit, hs⟩ := hready.commit_some hq
    exact ⟨_, b'', _, [n], by rw [hrun, hcommit]; rfl, hout, hs⟩
  · exact ⟨o, b', _, [], hrun _, hout, Steps.still hagree hcells hroot rfl⟩

/-- The patterns for one token: what is at the cursor decides, and a miss changes no cell. -/
theorem token_follows {depth : Nat} {p : Pattern} {q : Nat} {b : Match.State}
    {s : TreeMatch.State} (h : Agree tokens b s) (hq : q < b.tree.contents.length)
    (fits : Lexeme → Bool) (missed : Match.State) (missed' : TreeMatch.State)
    (hmiss : Steps tokens q b missed s missed' [])
    (hrun : Match.run grammar tokens depth p (some q) b = (do
      if fits (← Match.current tokens b.pos) then return (.matched, ← b.take tokens (some q))
      else return (.failed, missed)))
    (hout : TreeMatch.run grammar tokens depth p s =
      if fits (TreeMatch.tokenAt tokens s.pos) then (.matched, s.take tokens)
      else (.failed, missed')) :
    FollowsAt grammar tokens depth p q b s := by
  have hcurrent : Match.current tokens b.pos = .ok (TreeMatch.tokenAt tokens s.pos) :=
    h.pos ▸ current_eq_tokenAt (h.pos ▸ h.inside)
  rw [hcurrent] at hrun
  by_cases hk : fits (TreeMatch.tokenAt tokens s.pos)
  · obtain ⟨b', htake, hs⟩ := take_agrees h hq
    refine ⟨.matched, b', _, _, ?_, by rw [hout, if_pos hk], hs⟩
    simp [hrun, hk, htake, bind, Except.bind, pure, Except.pure]
  · refine ⟨.failed, missed, missed', [], ?_, by rw [hout, if_neg hk], hmiss⟩
    simp [hrun, hk, bind, Except.bind, pure, Except.pure]

theorem run_follows (grammar : Nonterminal → Pattern) (tokens : Array Lexeme) (depth : Nat) :
    Follows grammar tokens depth := by
  induction depth with
  | zero =>
    intro p q b s h hq
    exact ⟨.exhausted, b, s, [], rfl, rfl, Steps.refl h⟩
  | succ depth ih =>
    intro p q b s h hq
    have hguard : ∀ g, Match.holds tokens b.pos g = .ok (TreeMatch.holds tokens s.pos g) :=
      fun g => h.pos ▸ holds_eq (Nat.lt_of_le_of_lt (Nat.zero_le _) h.inside) b.pos g
    cases p with
    | token k =>
      exact token_follows h hq (·.kind == k) _ _ (Steps.still (h.miss k) rfl rfl rfl) rfl rfl
    | oneOf ks =>
      exact token_follows h hq (ks.contains ·.kind) _ _ (Steps.still (h.missAny ks) rfl rfl rfl)
        rfl rfl
    | word =>
      exact token_follows h hq Match.isName _ _ (Steps.still (h.miss .name) rfl rfl rfl) rfl rfl
    | any =>
      obtain ⟨b', htake, hs⟩ := take_agrees h hq
      exact ⟨.matched, b', _, _, by simp [Match.run, htake, bind, Except.bind, pure, Except.pure],
        rfl, hs⟩
    | check g =>
      refine ⟨_, b, s, [], ?_, rfl, Steps.refl h⟩
      simp [Match.run, hguard, bind, Except.bind, pure, Except.pure]
    | branch g yes no =>
      obtain ⟨o, b', t, news, hrun, hout, hs⟩ :=
        ih (if TreeMatch.holds tokens s.pos g then yes else no) q b s h hq
      exact ⟨o, b', t, news, by simpa [Match.run, hguard, bind, Except.bind] using hrun, hout, hs⟩
    | seq p₁ p₂ =>
      obtain ⟨o, b₁, t₁, news₁, hrun₁, hout₁, hs₁⟩ := ih p₁ q b s h hq
      cases o with
      | matched =>
        obtain ⟨o, b₂, t₂, news₂, hrun₂, hout₂, hs₂⟩ := ih p₂ q b₁ t₁ hs₁.agree (hs₁.open_lt hq)
        exact ⟨o, b₂, t₂, _, by simp [Match.run, hrun₁, hrun₂, bind, Except.bind],
          by simp [TreeMatch.run, hout₁, hout₂], hs₁.trans hs₂ hq⟩
      | _ =>
        exact ⟨_, b₁, t₁, _, by simp [Match.run, hrun₁, bind, Except.bind, pure, Except.pure]; rfl,
          by simp [TreeMatch.run, hout₁], hs₁⟩
    | alt p₁ p₂ =>
      obtain ⟨o, b₁, t₁, news₁, hrun₁, hout₁, hs₁⟩ := ih p₁ q b s h hq
      obtain ⟨c, hcheck, hback⟩ := backTo_some h hq
      cases o with
      | failed =>
        obtain ⟨b₂, hback₂, hs₂⟩ := hback b₁ t₁ news₁ hs₁
        obtain ⟨o, b₃, t₃, news₃, hrun₃, hout₃, hs₃⟩ := ih p₂ q b₂ _ hs₂.agree (hs₂.open_lt hq)
        exact ⟨o, b₃, t₃, _, by simp [Match.run, hcheck, hrun₁, hback₂, hrun₃, bind, Except.bind],
          by simp [TreeMatch.run, hout₁, hout₃], hs₂.trans hs₃ hq⟩
      | _ =>
        exact ⟨_, b₁, t₁, _,
          by simp [Match.run, hcheck, hrun₁, bind, Except.bind, pure, Except.pure]; rfl,
          by simp [TreeMatch.run, hout₁], hs₁⟩
    | star body =>
      obtain ⟨o, b₁, t₁, news₁, hrun₁, hout₁, hs₁⟩ := ih body q b s h hq
      cases o with
      | matched =>
        obtain ⟨o, b₂, t₂, news₂, hrun₂, hout₂, hs₂⟩ :=
          ih (.star body) q b₁ t₁ hs₁.agree (hs₁.open_lt hq)
        exact ⟨o, b₂, t₂, _, by simp [Match.run, hrun₁, hrun₂, bind, Except.bind],
          by simp [TreeMatch.run, hout₁, hout₂], hs₁.trans hs₂ hq⟩
      | _ =>
        exact ⟨_, b₁, t₁, _, by simp [Match.run, hrun₁, bind, Except.bind, pure, Except.pure]; rfl,
          by simp [TreeMatch.run, hout₁], hs₁⟩
    | opt body =>
      obtain ⟨o, b₁, t₁, news₁, hrun₁, hout₁, hs₁⟩ := ih body q b s h hq
      cases o with
      | _ =>
        exact ⟨_, b₁, t₁, _, by simp [Match.run, hrun₁, bind, Except.bind, pure, Except.pure]; rfl,
          by simp [TreeMatch.run, hout₁], hs₁⟩
    | attempt body =>
      obtain ⟨o, b₁, t₁, news₁, hrun₁, hout₁, hs₁⟩ := ih body q b s h hq
      obtain ⟨c, hcheck, hback⟩ := backTo_some h hq
      cases o with
      | failed =>
        obtain ⟨b₂, hback₂, hs₂⟩ := hback b₁ t₁ news₁ hs₁
        exact ⟨.failed, b₂, _, _,
          by simp [Match.run, hcheck, hrun₁, hback₂, bind, Except.bind, pure, Except.pure],
          by simp [TreeMatch.run, hout₁], hs₂⟩
      | _ =>
        exact ⟨_, b₁, t₁, _,
          by simp [Match.run, hcheck, hrun₁, bind, Except.bind, pure, Except.pure]; rfl,
          by simp [TreeMatch.run, hout₁], hs₁⟩
    | whileDo g body =>
      by_cases hg : TreeMatch.holds tokens s.pos g
      · obtain ⟨o, b₁, t₁, news₁, hrun₁, hout₁, hs₁⟩ := ih body q b s h hq
        cases o with
        | matched =>
          obtain ⟨o, b₂, t₂, news₂, hrun₂, hout₂, hs₂⟩ :=
            ih (.whileDo g body) q b₁ t₁ hs₁.agree (hs₁.open_lt hq)
          exact ⟨o, b₂, t₂, _, by simp [Match.run, hguard, hg, hrun₁, hrun₂, bind, Except.bind],
            by simp [TreeMatch.run, hg, hout₁, hout₂], hs₁.trans hs₂ hq⟩
        | _ =>
          exact ⟨_, b₁, t₁, _,
            by simp [Match.run, hguard, hg, hrun₁, bind, Except.bind, pure, Except.pure]; rfl,
            by simp [TreeMatch.run, hg, hout₁], hs₁⟩
      · exact ⟨.matched, b, s, [],
          by simp [Match.run, hguard, hg, bind, Except.bind, pure, Except.pure],
          by simp [TreeMatch.run, hg], Steps.refl h⟩
    | node l body => exact (node_follows ih l body h).followsAt hq
    | level l body => exact (level_follows ih l body h).followsAt hq
    | call phrase => exact ih (grammar phrase) q b s h hq

end Runs

end FortranJulia
