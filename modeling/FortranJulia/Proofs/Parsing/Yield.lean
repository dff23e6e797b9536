import FortranJulia.Proofs.Parsing.Committed
import FortranJulia.Proofs.Parsing.ListMatch
import FortranJulia.Proofs.Scanning.Lexemes

/-!
The leaves of a tree are the tokens it was parsed from. Along a match, the nodes that the open node
gets hold exactly the tokens that the cursor passes, provided that no pattern takes the end of the
source, where the cursor stays; `sparesEnd` checks that of the grammar. Only a pattern for a whole
source takes the end, as its last token.
-/

namespace FortranJulia

set_option autoImplicit false

open Match (Outcome)

/-! ## Lexemes of lists of nodes -/

theorem lexemesOf_append (ms ns : List Node) :
    Node.lexemesOf (ms ++ ns) = Node.lexemesOf ms ++ Node.lexemesOf ns := by
  induction ms with
  | nil => rfl
  | cons m ms ih => simp [Node.lexemesOf, ih]

theorem lexemes_inner (id : Nat) (l : Label) (kids : List Node) :
    (Node.inner id l kids).lexemes = Node.lexemesOf kids := by
  simp [Node.lexemes]

/-- Collapsing a node drops no leaf. -/
theorem lexemes_collapse (n : Node) : n.collapse.lexemes = n.lexemes := by
  unfold Node.collapse
  split
  · simp [Node.lexemes, Node.lexemesOf]
  · rfl

/-! ## Stretches of tokens -/

/-- The tokens from one index up to another. -/
def span (tokens : Array Lexeme) (i j : Nat) : List Lexeme :=
  (tokens.toList.drop i).take (j - i)

theorem span_self (tokens : Array Lexeme) (i : Nat) : span tokens i i = [] := by
  simp [span]

theorem span_append (tokens : Array Lexeme) {i j k : Nat} (hij : i ≤ j) (hjk : j ≤ k) :
    span tokens i j ++ span tokens j k = span tokens i k := by
  have hsplit : k - i = (j - i) + (k - j) := by omega
  have hmiddle : i + (j - i) = j := by omega
  rw [span, span, span, hsplit, List.take_add, List.drop_drop, hmiddle]

theorem span_all (tokens : Array Lexeme) : span tokens 0 tokens.size = tokens.toList := by
  rw [span, List.drop_zero, Nat.sub_zero, ← Array.length_toList, List.take_length]

theorem span_next (tokens : Array Lexeme) {i : Nat} (h : i < tokens.size) :
    span tokens i (i + 1) = [TreeMatch.tokenAt tokens i] := by
  have hmin : min i (tokens.size - 1) = i := by omega
  have hlen : i < tokens.toList.length := by simpa using h
  rw [span, Nat.add_sub_cancel_left, List.drop_eq_getElem_cons hlen]
  simp [TreeMatch.tokenAt, hmin, h]

/-! ## The end of the source -/

/-- The last token is the end of the source. -/
def EndsInEof (tokens : Array Lexeme) : Prop :=
  ∀ i, i + 1 = tokens.size → (TreeMatch.tokenAt tokens i).kind = .eof

/-- Does the guard fail at tokens of a kind? -/
def Guard.excludes (k : Kind) : Guard → Bool
  | .next ks => !ks.contains k
  | .notNext ks => ks.contains k
  | .moreItems => k != .comma

/-- Does the pattern leave the end of the source alone? With `inside`, it is known not to start
there. -/
def Pattern.sparesEnd (inside : Bool) : Pattern → Bool
  | .token k => inside || k != .eof
  | .oneOf ks => inside || !ks.contains .eof
  | .word => true
  | .any => inside
  | .check _ => true
  | .branch _ yes no => yes.sparesEnd inside && no.sparesEnd inside
  | .seq p₁ p₂ => p₁.sparesEnd inside && p₂.sparesEnd false
  | .alt p₁ p₂ => p₁.sparesEnd inside && p₂.sparesEnd inside
  | .star body => body.sparesEnd false
  | .opt body => body.sparesEnd inside
  | .attempt body => body.sparesEnd inside
  | .whileDo g body => body.sparesEnd (g.excludes .eof)
  | .node _ body => body.sparesEnd inside
  | .level _ body => body.sparesEnd inside
  | .call _ => true

/-- Does the pattern take the end of the source as its last token, and only there? -/
def Pattern.takesEnd : Pattern → Bool
  | .token k => k == .eof
  | .seq p₁ p₂ => p₁.sparesEnd false && p₂.takesEnd
  | .node _ body => body.takesEnd
  | _ => false

theorem grammar_sparesEnd (phrase : Nonterminal) : (grammar phrase).sparesEnd false := by
  cases phrase <;> decide

/-- A token that is not the end of the source has another one behind it. -/
theorem next_of_ne_eof {tokens : Array Lexeme} (hend : EndsInEof tokens) {i : Nat}
    (hi : i < tokens.size) (hne : (TreeMatch.tokenAt tokens i).kind ≠ .eof) :
    i + 1 < tokens.size := by
  rcases Nat.lt_or_ge (i + 1) tokens.size with hlt | hge
  · exact hlt
  · exact absurd (hend i (by omega)) hne

theorem ne_of_holds {tokens : Array Lexeme} {i : Nat} {g : Guard} {k : Kind}
    (hg : TreeMatch.holds tokens i g) (hexcludes : g.excludes k) : (TreeMatch.tokenAt tokens i).kind ≠ k := by
  intro hk
  cases g <;> simp_all [TreeMatch.holds, TreeMatch.ahead, Guard.excludes]

theorem next_of_holds {tokens : Array Lexeme} (hend : EndsInEof tokens) {i : Nat}
    (hi : i < tokens.size) {g : Guard} (hg : TreeMatch.holds tokens i g)
    (hexcludes : g.excludes .eof) : i + 1 < tokens.size :=
  next_of_ne_eof hend hi (ne_of_holds hg hexcludes)

theorem next_of_accepts {tokens : Array Lexeme} (hend : EndsInEof tokens) {i : Nat}
    (hi : i < tokens.size) {p : Pattern} {inside : Bool} (hinside : inside → i + 1 < tokens.size)
    (hp : p.sparesEnd inside)
    (ht : TreeMatch.accepts? p (TreeMatch.tokenAt tokens i) = some true) : i + 1 < tokens.size := by
  cases inside with
  | true => exact hinside rfl
  | false =>
    refine next_of_ne_eof hend hi ?_
    intro heof
    cases p <;> simp_all [TreeMatch.accepts?, Pattern.sparesEnd, Match.isName]

/-! ## Yields -/

namespace TreeMatch

variable {tokens : Array Lexeme}

/-- From one state to another the open node got nodes that hold the tokens passed. -/
structure Yields (tokens : Array Lexeme) (s t : State) : Prop where
  pos_le : s.pos ≤ t.pos
  inside : t.pos < tokens.size
  news : ∃ news, t.kids = news.reverse ++ s.kids ∧
    Node.lexemesOf news = span tokens s.pos t.pos

namespace Yields

theorem still {s t : State} (hpos : t.pos = s.pos) (hkids : t.kids = s.kids)
    (hs : s.pos < tokens.size) : Yields tokens s t := by
  refine ⟨Nat.le_of_eq hpos.symm, hpos ▸ hs, [], hkids, ?_⟩
  rw [hpos, span_self]
  rfl

theorem trans {s t u : State} (h : Yields tokens s t) (h' : Yields tokens t u) :
    Yields tokens s u := by
  obtain ⟨hst, -, news, hkids, hlex⟩ := h
  obtain ⟨htu, hu, more, hkids', hlex'⟩ := h'
  refine ⟨Nat.le_trans hst htu, hu, news ++ more, ?_, ?_⟩
  · rw [hkids', hkids, List.reverse_append, List.append_assoc]
  · rw [lexemesOf_append, hlex, hlex', span_append tokens hst htu]

theorem take {s : State} (hs : s.pos + 1 < tokens.size) : Yields tokens s (s.take tokens) := by
  have hpos : (s.take tokens).pos = s.pos + 1 := if_pos hs
  refine ⟨by omega, by omega, [.leaf s.count (tokenAt tokens s.pos)], rfl, ?_⟩
  rw [hpos, span_next tokens (by omega)]
  rfl

/-- A node around what was matched holds the same tokens. -/
theorem leave {s t : State} {finish : Node → Node} {l : Label} (h : Yields tokens s.enter t)
    (hfinish : ∀ n, (finish n).lexemes = n.lexemes) :
    Yields tokens s (s.leave t finish l) := by
  obtain ⟨hst, ht, news, hkids, hlex⟩ := h
  have hnews : t.kids.reverse = news := by
    rw [hkids]
    simp [State.enter]
  refine ⟨hst, ht, [finish (.inner s.count l t.kids.reverse)], rfl, ?_⟩
  rw [Node.lexemesOf, hfinish, lexemes_inner, hnews, hlex]
  simp [Node.lexemesOf, State.leave, State.enter]

end Yields

theorem missed_kids (p : Pattern) (s : State) : (missed p s).kids = s.kids := by
  cases p <;> rfl

/-- A pattern that spares the end of the source yields the tokens it passes, matched or not. -/
theorem Runs.yields {grammar : Nonterminal → Pattern} (hend : EndsInEof tokens)
    (hgrammar : ∀ phrase, (grammar phrase).sparesEnd false) {p : Pattern} {s t : State}
    {o : Outcome} (h : Runs grammar tokens p s o t) :
    ∀ inside, p.sparesEnd inside → (inside → s.pos + 1 < tokens.size) → s.pos < tokens.size →
      Yields tokens s t := by
  have hfalse : ∀ u : State, (false : Bool) = true → u.pos + 1 < tokens.size := by simp
  induction h with
  | exhausted | check | check_fails | while_end =>
    intro inside hp hin hs
    exact .still rfl rfl hs
  | take ht =>
    intro inside hp hin hs
    exact .take (next_of_accepts hend hs hin hp ht)
  | miss =>
    intro inside hp hin hs
    exact .still (missed_pos _ _) (missed_kids _ _) hs
  | branch _ ih =>
    intro inside hp hin hs
    simp only [Pattern.sparesEnd, Bool.and_eq_true] at hp
    exact ih inside (by split <;> simp [hp]) hin hs
  | seq _ _ ih₁ ih₂ =>
    intro inside hp hin hs
    simp only [Pattern.sparesEnd, Bool.and_eq_true] at hp
    have h₁ := ih₁ inside hp.1 hin hs
    exact h₁.trans (ih₂ false hp.2 (hfalse _) h₁.inside)
  | seq_stop _ _ ih | alt_first _ _ ih =>
    intro inside hp hin hs
    simp only [Pattern.sparesEnd, Bool.and_eq_true] at hp
    exact ih inside hp.1 hin hs
  | alt_second _ _ _ ih =>
    intro inside hp hin hs
    simp only [Pattern.sparesEnd, Bool.and_eq_true] at hp
    obtain ⟨hpos, hinside, hnews⟩ := ih inside hp.2 hin hs
    exact ⟨hpos, hinside, hnews⟩
  | star_more _ _ ih₁ ih₂ =>
    intro inside hp hin hs
    have h₁ := ih₁ false hp (hfalse _) hs
    exact h₁.trans (ih₂ false hp (hfalse _) h₁.inside)
  | star_end _ ih | star_stop _ ih =>
    intro inside hp hin hs
    exact ih false hp (hfalse _) hs
  | opt _ _ ih | attempt _ _ ih | opt_none _ ih => exact ih
  | attempt_back | node_back | level_back =>
    intro inside hp hin hs
    exact .still rfl rfl hs
  | while_more hg _ _ ih₁ ih₂ =>
    intro inside hp hin hs
    have h₁ := ih₁ _ hp (next_of_holds hend hs hg) hs
    exact h₁.trans (ih₂ false hp (hfalse _) h₁.inside)
  | while_stop hg _ _ ih =>
    intro inside hp hin hs
    exact ih _ hp (next_of_holds hend hs hg) hs
  | node _ ih =>
    intro inside hp hin hs
    exact (ih inside hp hin hs).leave (fun _ => rfl)
  | level _ ih =>
    intro inside hp hin hs
    exact (ih inside hp hin hs).leave lexemes_collapse
  | call _ ih =>
    intro inside hp hin hs
    exact ih false (hgrammar _) (hfalse _) hs

/-! ## Whole sources -/

/-- A match that takes an end of the source yields all tokens up to that one. -/
theorem Runs.yields_to_end {grammar : Nonterminal → Pattern} (hend : EndsInEof tokens)
    (hgrammar : ∀ phrase, (grammar phrase).sparesEnd false) {p : Pattern} (hp : p.takesEnd) :
    ∀ {s t : State}, Runs grammar tokens p s .matched t → s.pos < tokens.size →
      ∃ news e, t.kids = news.reverse ++ s.kids ∧ s.pos ≤ e ∧ e < tokens.size ∧
        (tokenAt tokens e).kind = .eof ∧ Node.lexemesOf news = span tokens s.pos (e + 1) := by
  induction p with
  | token k =>
    intro s t h hs
    simp only [Pattern.takesEnd, beq_iff_eq] at hp
    subst hp
    cases h with
    | take ht =>
      have hkind : (tokenAt tokens s.pos).kind = .eof := by simpa [accepts?] using ht
      refine ⟨[.leaf s.count (tokenAt tokens s.pos)], s.pos, rfl, Nat.le_refl _, hs, hkind, ?_⟩
      rw [span_next tokens hs]
      rfl
  | seq p₁ p₂ _ ih₂ =>
    intro s t h hs
    simp only [Pattern.takesEnd, Bool.and_eq_true] at hp
    cases h with
    | take ht => simp [accepts?] at ht
    | seq_stop _ ho => exact absurd rfl ho
    | seq h₁ h₂ =>
      obtain ⟨hle, hinside, news, hkids, hlex⟩ :=
        h₁.yields hend hgrammar false hp.1 (by simp) hs
      obtain ⟨more, e, hkids', hle', he, hkind, hlex'⟩ := ih₂ hp.2 h₂ hinside
      refine ⟨news ++ more, e, ?_, Nat.le_trans hle hle', he, hkind, ?_⟩
      · rw [hkids', hkids, List.reverse_append, List.append_assoc]
      · rw [lexemesOf_append, hlex, hlex', span_append tokens hle (by omega)]
  | node l body ih =>
    intro s t h hs
    cases h with
    | take ht => simp [accepts?] at ht
    | node_back _ ho => exact absurd rfl ho
    | node hbody =>
      obtain ⟨news, e, hkids, hle, he, hkind, hlex⟩ := ih hp hbody hs
      refine ⟨[.inner s.count l news], e, ?_, hle, he, hkind, ?_⟩
      · simp [State.leave, hkids, State.enter]
      · rw [Node.lexemesOf, lexemes_inner, hlex]
        exact List.append_nil _
  | _ => simp [Pattern.takesEnd] at hp

end TreeMatch

/-! ## Main statement -/

theorem entry_takesEnd {entry : Pattern}
    (h : entry ∈ [Grammar.program, Grammar.loneName]) : entry.takesEnd := by
  revert entry
  decide

theorem start_eq {name : String} {tokens : List Lexeme} {p : Parser}
    (h : Parser.start? name tokens = some p) :
    p = { source := name, tokens := tokens.toArray } := by
  unfold Parser.start? at h
  split at h
  · split at h
    · exact (Option.some.inj h).symm
    · cases h
  · cases h

theorem tokenAt_eq {tokens : Array Lexeme} {i : Nat} {lx : Lexeme} (h : tokens[i]? = some lx) :
    TreeMatch.tokenAt tokens i = lx := by
  have hi := (Array.getElem?_eq_some_iff.1 h).1
  have hmin : min i (tokens.size - 1) = i := by omega
  rw [TreeMatch.tokenAt, hmin, Array.getD_eq_getD_getElem?, h, Option.getD_some]

theorem scan_endsInEof (source : String) : EndsInEof (scan source).toArray := by
  intro i hi
  obtain ⟨body, line, col, heq, -⟩ := scan_shape source
  rw [List.size_toArray] at hi
  have hbody : i = body.length := by
    rw [heq, List.length_append, List.length_singleton] at hi
    omega
  have hget : (scan source).toArray[i]? = some (.endOfSource line col) := by
    rw [List.getElem?_toArray, heq, hbody, List.getElem?_concat_length]
  rw [tokenAt_eq hget]
  rfl

/-- The only token of a scan that is an end of the source is the last one. -/
theorem scan_end {source : String} {e : Nat} (he : e < (scan source).toArray.size)
    (hkind : (TreeMatch.tokenAt (scan source).toArray e).kind = .eof) :
    e + 1 = (scan source).toArray.size := by
  rw [List.size_toArray] at he ⊢
  have hget : (scan source).toArray[e]? = some (scan source)[e] := by
    rw [List.getElem?_toArray, List.getElem?_eq_getElem he]
  rw [tokenAt_eq hget] at hkind
  exact scan_eof_last (List.getElem?_eq_getElem he) hkind

/-- A parser can start on the tokens of any source. -/
theorem start_scan (name source : String) :
    Parser.start? name (scan source) =
      some { source := name, tokens := (scan source).toArray } := by
  obtain ⟨body, line, col, heq, -⟩ := scan_shape source
  rw [Parser.start?, heq, List.getLast?_concat]
  rfl

/-- The lexemes of the tree of a source are those of the source. -/
theorem parse_lexemes {name source : String} {p q : Parser} {n : Node}
    (hp : Parser.start? name (scan source) = some p) (hq : p.parse = .ok (.ok n, q)) :
    n.lexemes = scan source := by
  have hsound := Parser.start_sound hp
  obtain rfl := start_eq hp
  obtain ⟨entry, hentry, s, t, low, hpos, hkids, hruns, -⟩ := Parser.parse_tree hsound hq
  have hend := scan_endsInEof source
  obtain ⟨news, e, hnews, -, he, hkind, hlex⟩ :=
    hruns.yields_to_end hend grammar_sparesEnd (entry_takesEnd hentry)
      (by rw [hpos]; exact hsound.inside)
  have hsingle : [n] = news := by
    rw [hkids, List.append_nil] at hnews
    simpa using congrArg List.reverse hnews
  rw [scan_end he hkind, hpos, span_all, ← hsingle] at hlex
  simpa [Node.lexemesOf] using hlex

/-- The tree of a program, if it matches. -/
def Parser.matched? (p : Parser) : Option Node :=
  let r := ListMatch.run grammar (depthBound p.tokens) Grammar.program (p.state.bare.unread p.tokens)
  if r.1 = .matched then r.2.kids.head? else none

/-- A program that matches is parsed. A match on a list is sooner checked than one in an arena. -/
theorem parse_of_match {p : Parser} {n : Node} (hp : p.state.Sound p.tokens)
    (h : p.matched? = some n) : ∃ q, p.parse = .ok (.ok n, q) := by
  rw [Parser.matched?, (run_unread grammar _ Grammar.program (s := p.state.bare) hp.inside).same] at h
  rcases rule_follows grammar (Parser.depthBound p.tokens) (p := Grammar.program) rfl hp.agree with
    ⟨b, m, t, hout, hready, hrun⟩ | ⟨o, b, t, ho, hout, -⟩
  · rw [hout] at h
    obtain rfl := Option.some.inj h
    have hsound : Arena.Sound { b.tree with root := some m.id } :=
      ⟨hready.agree.sound.length_le, hready.agree.sound.cells⟩
    have hfound : p.tryRoot Grammar.program =
        .ok (true, { p with state := { b with tree := { b.tree with root := some m.id } } }) := by
      rw [Parser.tryRoot, hrun none]
      rfl
    have hread := Parser.rootTree_shown hsound rfl hready.shown
    simp only [Parser.parse, hfound, Parser.finish, hread, bind, Except.bind]
    exact ⟨_, rfl⟩
  · rw [hout, if_neg ho] at h
    cases h

/-- The leaves of the tree of a source, in order, are its tokens: one leaf for each of them, the end
of the source included, with its kind, text, value and place. -/
theorem leaves_are_tokens {name source : String} {p q : Parser} {n : Node}
    (hp : Parser.start? name (scan source) = some p) (hq : p.parse = .ok (.ok n, q)) :
    n.lexemes = scan source ∧ q.state.tree.rootTree = .ok n ∧
      ∃ ids, q.state.tree.leaves q.state.tree.root = .ok ids ∧
        List.Forall₂ (Carries q.state.tree) ids (scan source) := by
  have hlexemes := parse_lexemes hp hq
  obtain ⟨entry, hentry, s, t, low, -, -, -, htree, hroot, hshown⟩ :=
    Parser.parse_tree (Parser.start_sound hp) hq
  obtain ⟨ids, hids, hcarries⟩ := leaves_shown htree hshown
  rw [← hroot] at hids
  exact ⟨hlexemes, Parser.rootTree_shown htree hroot hshown, ids, hids, hlexemes ▸ hcarries⟩

/-- The shortest program has two tokens and its tree two leaves. -/
theorem leaves_are_tokens_end :
    let p : Parser := { source := "", tokens := (scan "END").toArray }
    Parser.start? "" (scan "END") = some p ∧ (scan "END").length = 2 ∧
      ∃ n q ids, p.parse = .ok (.ok n, q) ∧ n.lexemes = scan "END" ∧
        q.state.tree.leaves q.state.tree.root = .ok ids ∧
        List.Forall₂ (Carries q.state.tree) ids (scan "END") := by
  intro p
  have hscan : scan "END" = [⟨.keyword .END, "END", none, 1, 1⟩, .endOfSource 1 4] := by
    rw [scan_within]
    decide +kernel
  have hstart : Parser.start? "" (scan "END") = some p := start_scan "" "END"
  have hok : p.matched?.isSome := by
    simp only [p, hscan]
    decide +kernel
  obtain ⟨n, hn⟩ := Option.isSome_iff_exists.1 hok
  obtain ⟨q, hq⟩ := parse_of_match (Parser.start_sound hstart) hn
  obtain ⟨hlexemes, -, ids, hids, hcarries⟩ := leaves_are_tokens hstart hq
  exact ⟨hstart, by rw [hscan]; rfl, n, q, ids, hq, hlexemes, hids, hcarries⟩

end FortranJulia
