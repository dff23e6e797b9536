import FortranJulia.Proofs.Parsing.Progress

/-!
The course of a match: the match and all that it calls for, in the order in which they take place.
`Call.inner` lists what a match calls for itself, `Call.Ends` tells how it ends from how those end, and
`Call.misses` the kinds of tokens that it looks for in vain. What a match knows of the furthest token is
what was looked for in vain in its course, one after the other.
-/

namespace FortranJulia

set_option autoImplicit false

open Match (Outcome Reach)

theorem ok_of_bind {ε α β : Type} {x : Except ε α} {f : α → Except ε β} {b : β}
    (h : (x >>= f) = .ok b) : ∃ a, x = .ok a ∧ f a = .ok b := by
  cases x with
  | error e => cases h
  | ok a => exact ⟨a, rfl, h⟩

theorem ok_of_toOption {ε α : Type} {x : Except ε α} {a : α} (h : a ∈ x.toOption.toList) :
    x = .ok a := by
  cases x with
  | error e => cases h
  | ok b => rw [List.mem_singleton.1 h]

/-- The position behind a token; it does not leave the last one. -/
def TreeMatch.next (tokens : Array Lexeme) (i : Nat) : Nat :=
  if i + 1 < tokens.size then i + 1 else i

/-- The kinds of tokens that a pattern for one token looks for. -/
def Pattern.sought : Pattern → List Kind
  | .token k => [k]
  | .oneOf ks => ks
  | .word => [.name]
  | _ => []

/-! ## Calls in order -/

namespace Call

variable (tokens : Array Lexeme)

/-- What comes after a match if it has an outcome. -/
def after (c : Call) (o : Outcome) (more : Match.State → List Call) : List Call :=
  match c.result tokens with
  | .ok (o', t) => if o' = o then more t else []
  | .error _ => []

/-- The matches that a match calls for itself, in order. -/
def inner : Call → List Call
  | ⟨0, _, _, _⟩ => []
  | ⟨d + 1, p, parent, s⟩ =>
    let on (p : Pattern) (s : Match.State) : Call := ⟨d, p, parent, s⟩
    match p with
    | .token _ | .oneOf _ | .word | .any | .check _ => []
    | .branch g yes no =>
      (Match.holds tokens s.pos g).toOption.toList.map fun found => on (if found then yes else no) s
    | .seq a b => on a s :: (on a s).after tokens .matched fun t => [on b t]
    | .alt a b =>
      on a s :: (on a s).after tokens .failed fun t =>
        (s.checkpoint parent >>= t.backTo).toOption.toList.map (on b)
    | .star body => on body s :: (on body s).after tokens .matched fun t => [on (.star body) t]
    | .opt body | .attempt body => [on body s]
    | .whileDo g body =>
      if Match.holds tokens s.pos g = .ok true then
        on body s :: (on body s).after tokens .matched fun t => [on (.whileDo g body) t]
      else []
    | .node l body | .level l body =>
      [⟨d, body, some (s.push (.phrase l)).1, (s.push (.phrase l)).2⟩]
    | .call phrase => [on (grammar phrase) s]

/-- A match and those inside it to a depth, each before what it calls for. -/
def trail : Nat → Call → List Call
  | 0, c => [c]
  | n + 1, c => c :: (c.inner tokens).flatMap (trail n)

/-- A match and all those inside it, in the order in which they take place. -/
def course (c : Call) : List Call :=
  c.trail tokens c.depth

/-- The kinds of tokens that a match itself looks for in vain, with the index of the token. -/
def misses (c : Call) : List (Nat × Kind) :=
  match c.depth, Match.current tokens c.state.pos with
  | _ + 1, .ok lx =>
    if TreeMatch.accepts? c.pattern lx = some false then c.pattern.sought.map (c.state.pos, ·) else []
  | _, _ => []

variable {tokens}

theorem mem_after {c d : Call} {o : Outcome} {more : Match.State → List Call} :
    d ∈ c.after tokens o more ↔ ∃ t, c.result tokens = .ok (o, t) ∧ d ∈ more t := by
  unfold after
  cases h : c.result tokens with
  | error e => simp
  | ok r =>
    obtain ⟨o', t⟩ := r
    by_cases ho : o' = o
    · simp [ho]
    · simp [ho]

theorem after_of_result {c : Call} {o : Outcome} {t : Match.State} (h : c.result tokens = .ok (o, t))
    (more : Match.State → List Call) : c.after tokens o more = more t := by
  simp [after, h]

theorem after_of_other {c : Call} {o o' : Outcome} {t : Match.State} (h : c.result tokens = .ok (o, t))
    (ho : o ≠ o') (more : Match.State → List Call) : c.after tokens o' more = [] := by
  simp [after, h, ho]

theorem mem_inner {c d : Call} : d ∈ c.inner tokens ↔ Calls tokens c d := by
  constructor
  · intro h
    obtain ⟨depth, p, parent, s⟩ := c
    cases depth with
    | zero => cases h
    | succ depth =>
      cases p with
      | token | oneOf | word | any | check => cases h
      | branch g yes no =>
        obtain ⟨found, hfound, rfl⟩ := List.mem_map.1 h
        exact .branch (ok_of_toOption hfound)
      | seq a b =>
        rcases List.mem_cons.1 h with rfl | h
        · exact .seq_first
        · obtain ⟨t, ht, h⟩ := mem_after.1 h
          obtain rfl := List.mem_singleton.1 h
          exact .seq_second ht
      | alt a b =>
        rcases List.mem_cons.1 h with rfl | h
        · exact .alt_first
        · obtain ⟨t, ht, h⟩ := mem_after.1 h
          obtain ⟨u, hu, rfl⟩ := List.mem_map.1 h
          obtain ⟨c, hc, hback⟩ := ok_of_bind (ok_of_toOption hu)
          exact .alt_second ht hc hback
      | star body =>
        rcases List.mem_cons.1 h with rfl | h
        · exact .star_body
        · obtain ⟨t, ht, h⟩ := mem_after.1 h
          obtain rfl := List.mem_singleton.1 h
          exact .star_again ht
      | opt body =>
        obtain rfl := List.mem_singleton.1 h
        exact .opt
      | attempt body =>
        obtain rfl := List.mem_singleton.1 h
        exact .attempt
      | whileDo g body =>
        rw [inner] at h
        split at h
        · rename_i hg
          rcases List.mem_cons.1 h with rfl | h
          · exact .while_body hg
          · obtain ⟨t, ht, h⟩ := mem_after.1 h
            obtain rfl := List.mem_singleton.1 h
            exact .while_again hg ht
        · cases h
      | node l body =>
        obtain rfl := List.mem_singleton.1 h
        exact .node
      | level l body =>
        obtain rfl := List.mem_singleton.1 h
        exact .level
      | call phrase =>
        obtain rfl := List.mem_singleton.1 h
        exact .call
  · intro h
    cases h with
    | branch hg => simp [inner, hg, Except.toOption]
    | seq_second ht | star_again ht => simp [inner, after_of_result ht]
    | alt_second ht hc hu =>
      simp [inner, after_of_result ht, hc, hu, Except.toOption, bind, Except.bind]
    | while_body hg => simp [inner, hg]
    | while_again hg ht => simp [inner, hg, after_of_result ht]
    | _ => simp [inner]

/-! ## How a match ends -/

variable (tokens)

/-- How a match ends, from how those end that it calls for itself. Of the state at the end only the
cursor and the furthest token are told. -/
inductive Ends : Call → List Call → Outcome → Match.State → Prop where
  | exhausted {p : Pattern} {parent : Option Nat} {s : Match.State} :
      Ends ⟨0, p, parent, s⟩ [] .exhausted s
  | take {d : Nat} {p : Pattern} {parent : Option Nat} {s t : Match.State} {lx : Lexeme}
      (hlx : Match.current tokens s.pos = .ok lx) (hp : TreeMatch.accepts? p lx = some true)
      (hpos : t.pos = TreeMatch.next tokens s.pos) (hreach : t.reach = s.reach) :
      Ends ⟨d + 1, p, parent, s⟩ [] .matched t
  | miss {d : Nat} {p : Pattern} {parent : Option Nat} {s t : Match.State} {lx : Lexeme}
      (hlx : Match.current tokens s.pos = .ok lx) (hp : TreeMatch.accepts? p lx = some false)
      (hpos : t.pos = s.pos) (hreach : t.reach = p.sought.foldl (Reach.miss s.pos) s.reach) :
      Ends ⟨d + 1, p, parent, s⟩ [] .failed t
  | check {d : Nat} {g : Guard} {parent : Option Nat} {s : Match.State} :
      Ends ⟨d + 1, .check g, parent, s⟩ [] .matched s
  | check_fails {d : Nat} {g : Guard} {parent : Option Nat} {s : Match.State} :
      Ends ⟨d + 1, .check g, parent, s⟩ [] .failed s
  | while_end {d : Nat} {g : Guard} {body : Pattern} {parent : Option Nat} {s : Match.State} :
      Ends ⟨d + 1, .whileDo g body, parent, s⟩ [] .matched s
  | branch {d : Nat} {g : Guard} {yes no : Pattern} {parent : Option Nat} {s t : Match.State}
      {o : Outcome} (found : Bool)
      (h : result tokens ⟨d, if found then yes else no, parent, s⟩ = .ok (o, t)) :
      Ends ⟨d + 1, .branch g yes no, parent, s⟩ [⟨d, if found then yes else no, parent, s⟩] o t
  | seq {d : Nat} {a b : Pattern} {parent : Option Nat} {s t u : Match.State} {o : Outcome}
      (h₁ : result tokens ⟨d, a, parent, s⟩ = .ok (.matched, t))
      (h₂ : result tokens ⟨d, b, parent, t⟩ = .ok (o, u)) :
      Ends ⟨d + 1, .seq a b, parent, s⟩ [⟨d, a, parent, s⟩, ⟨d, b, parent, t⟩] o u
  | seq_stop {d : Nat} {a b : Pattern} {parent : Option Nat} {s t : Match.State} {o : Outcome}
      (h : result tokens ⟨d, a, parent, s⟩ = .ok (o, t)) (ho : o ≠ .matched) :
      Ends ⟨d + 1, .seq a b, parent, s⟩ [⟨d, a, parent, s⟩] o t
  | alt_first {d : Nat} {a b : Pattern} {parent : Option Nat} {s t : Match.State} {o : Outcome}
      (h : result tokens ⟨d, a, parent, s⟩ = .ok (o, t)) (ho : o ≠ .failed) :
      Ends ⟨d + 1, .alt a b, parent, s⟩ [⟨d, a, parent, s⟩] o t
  | alt_second {d : Nat} {a b : Pattern} {parent : Option Nat} {s t u v : Match.State} {o : Outcome}
      (h₁ : result tokens ⟨d, a, parent, s⟩ = .ok (.failed, t)) (hpos : u.pos = s.pos)
      (hreach : u.reach = t.reach) (h₂ : result tokens ⟨d, b, parent, u⟩ = .ok (o, v)) :
      Ends ⟨d + 1, .alt a b, parent, s⟩ [⟨d, a, parent, s⟩, ⟨d, b, parent, u⟩] o v
  | star_more {d : Nat} {body : Pattern} {parent : Option Nat} {s t u : Match.State} {o : Outcome}
      (h₁ : result tokens ⟨d, body, parent, s⟩ = .ok (.matched, t))
      (h₂ : result tokens ⟨d, .star body, parent, t⟩ = .ok (o, u)) :
      Ends ⟨d + 1, .star body, parent, s⟩ [⟨d, body, parent, s⟩, ⟨d, .star body, parent, t⟩] o u
  | star_end {d : Nat} {body : Pattern} {parent : Option Nat} {s t : Match.State}
      (h : result tokens ⟨d, body, parent, s⟩ = .ok (.failed, t)) :
      Ends ⟨d + 1, .star body, parent, s⟩ [⟨d, body, parent, s⟩] .matched t
  | star_stop {d : Nat} {body : Pattern} {parent : Option Nat} {s t : Match.State}
      (h : result tokens ⟨d, body, parent, s⟩ = .ok (.exhausted, t)) :
      Ends ⟨d + 1, .star body, parent, s⟩ [⟨d, body, parent, s⟩] .exhausted t
  | opt {d : Nat} {body : Pattern} {parent : Option Nat} {s t : Match.State} {o : Outcome}
      (h : result tokens ⟨d, body, parent, s⟩ = .ok (o, t)) (ho : o ≠ .failed) :
      Ends ⟨d + 1, .opt body, parent, s⟩ [⟨d, body, parent, s⟩] o t
  | opt_none {d : Nat} {body : Pattern} {parent : Option Nat} {s t : Match.State}
      (h : result tokens ⟨d, body, parent, s⟩ = .ok (.failed, t)) :
      Ends ⟨d + 1, .opt body, parent, s⟩ [⟨d, body, parent, s⟩] .matched t
  | attempt {d : Nat} {body : Pattern} {parent : Option Nat} {s t : Match.State} {o : Outcome}
      (h : result tokens ⟨d, body, parent, s⟩ = .ok (o, t)) (ho : o ≠ .failed) :
      Ends ⟨d + 1, .attempt body, parent, s⟩ [⟨d, body, parent, s⟩] o t
  | attempt_back {d : Nat} {body : Pattern} {parent : Option Nat} {s t u : Match.State}
      (h : result tokens ⟨d, body, parent, s⟩ = .ok (.failed, t)) (hpos : u.pos = s.pos)
      (hreach : u.reach = t.reach) :
      Ends ⟨d + 1, .attempt body, parent, s⟩ [⟨d, body, parent, s⟩] .failed u
  | while_more {d : Nat} {g : Guard} {body : Pattern} {parent : Option Nat} {s t u : Match.State}
      {o : Outcome} (h₁ : result tokens ⟨d, body, parent, s⟩ = .ok (.matched, t))
      (h₂ : result tokens ⟨d, .whileDo g body, parent, t⟩ = .ok (o, u)) :
      Ends ⟨d + 1, .whileDo g body, parent, s⟩
        [⟨d, body, parent, s⟩, ⟨d, .whileDo g body, parent, t⟩] o u
  | while_stop {d : Nat} {g : Guard} {body : Pattern} {parent : Option Nat} {s t : Match.State}
      {o : Outcome} (h : result tokens ⟨d, body, parent, s⟩ = .ok (o, t)) (ho : o ≠ .matched) :
      Ends ⟨d + 1, .whileDo g body, parent, s⟩ [⟨d, body, parent, s⟩] o t
  | rule {d : Nat} {p body : Pattern} {parent q : Option Nat} {s s' t u : Match.State}
      (hp : ∃ l, p = .node l body ∨ p = .level l body) (hs : s'.pos = s.pos)
      (hreach : s'.reach = s.reach) (h : result tokens ⟨d, body, q, s'⟩ = .ok (.matched, t))
      (hpos' : u.pos = t.pos) (hreach' : u.reach = t.reach) :
      Ends ⟨d + 1, p, parent, s⟩ [⟨d, body, q, s'⟩] .matched u
  | rule_back {d : Nat} {p body : Pattern} {parent q : Option Nat} {s s' t u : Match.State}
      {o : Outcome} (hp : ∃ l, p = .node l body ∨ p = .level l body) (hs : s'.pos = s.pos)
      (hreach : s'.reach = s.reach) (h : result tokens ⟨d, body, q, s'⟩ = .ok (o, t))
      (ho : o ≠ .matched) (hpos' : u.pos = s.pos) (hreach' : u.reach = t.reach) :
      Ends ⟨d + 1, p, parent, s⟩ [⟨d, body, q, s'⟩] o u
  | call {d : Nat} {phrase : Nonterminal} {parent : Option Nat} {s t : Match.State} {o : Outcome}
      (h : result tokens ⟨d, grammar phrase, parent, s⟩ = .ok (o, t)) :
      Ends ⟨d + 1, .call phrase, parent, s⟩ [⟨d, grammar phrase, parent, s⟩] o t

variable {tokens}

end Call

/-! ## Steps of a state -/

section Steps

variable {tokens : Array Lexeme} {s t u : Match.State}

theorem take_next {parent : Option Nat} (h : s.take tokens parent = .ok t) :
    t.pos = TreeMatch.next tokens s.pos ∧ t.reach = s.reach := by
  obtain ⟨lx, -, h⟩ := ok_of_bind h
  cases parent with
  | none => cases h
  | some q =>
    obtain ⟨u, hu, h⟩ := ok_of_bind h
    obtain ⟨r, -, hu⟩ := ok_of_bind hu
    cases hu
    cases h
    exact ⟨rfl, rfl⟩

theorem backTo_keeps {c : Match.Checkpoint} (h : s.backTo c = .ok t) :
    t.pos = c.pos ∧ t.reach = s.reach := by
  obtain ⟨a, -, h⟩ := ok_of_bind h
  cases h
  exact ⟨rfl, rfl⟩

theorem checkpoint_pos {owner : Option Nat} {c : Match.Checkpoint} (h : s.checkpoint owner = .ok c) :
    c.pos = s.pos := by
  obtain ⟨m, -, h⟩ := ok_of_bind h
  cases h
  rfl

theorem attach_keeps {parent id : Nat} (h : s.attach parent id = .ok t) :
    t.pos = s.pos ∧ t.reach = s.reach := by
  obtain ⟨r, -, h⟩ := ok_of_bind h
  cases h
  exact ⟨rfl, rfl⟩

theorem commit_keeps {parent : Option Nat} {id : Nat} (h : s.commit parent id = .ok t) :
    t.pos = s.pos ∧ t.reach = s.reach := by
  cases parent with
  | none =>
    cases h
    exact ⟨rfl, rfl⟩
  | some q => exact attach_keeps h

theorem unwrap_keeps {id kept : Nat} (h : s.unwrap id = .ok (kept, t)) :
    t.pos = s.pos ∧ t.reach = s.reach := by
  obtain ⟨r, -, h⟩ := ok_of_bind h
  cases h
  exact ⟨rfl, rfl⟩

end Steps

namespace Call

variable {tokens : Array Lexeme}

/-- A match that ends does so as those that it calls for make it. -/
theorem ends_of_result {c : Call} {o : Outcome} {t : Match.State} (h : c.result tokens = .ok (o, t)) :
    c.Ends tokens (c.inner tokens) o t := by
  obtain ⟨depth, p, parent, s⟩ := c
  rw [result] at h
  cases depth with
  | zero =>
    cases h
    exact .exhausted
  | succ d =>
    have hterminal : ∀ {lx : Lexeme} {found : Bool} (missed : Match.State),
        Match.current tokens s.pos = .ok lx → TreeMatch.accepts? p lx = some found →
        missed.pos = s.pos → missed.reach = p.sought.foldl (Reach.miss s.pos) s.reach →
        (if found then (do return (.matched, ← s.take tokens parent)) else pure (.failed, missed)) =
          Except.ok (o, t) →
        Ends tokens ⟨d + 1, p, parent, s⟩ [] o t := by
      intro lx found missed hlx hp hpos hreach h
      cases found with
      | true =>
        obtain ⟨u, hu, h⟩ := ok_of_bind h
        cases h
        exact .take hlx hp (take_next hu).1 (take_next hu).2
      | false =>
        cases h
        exact .miss hlx hp hpos hreach
    cases p with
    | token k =>
      obtain ⟨lx, hlx, h⟩ := ok_of_bind h
      exact hterminal (s.miss k) hlx rfl rfl rfl h
    | oneOf ks =>
      obtain ⟨lx, hlx, h⟩ := ok_of_bind h
      exact hterminal (s.missAny ks) hlx rfl rfl rfl h
    | word =>
      obtain ⟨lx, hlx, h⟩ := ok_of_bind h
      exact hterminal (s.miss .name) hlx rfl rfl rfl h
    | any =>
      obtain ⟨u, hu, h⟩ := ok_of_bind h
      obtain ⟨lx, hlx, -⟩ := ok_of_bind hu
      cases h
      exact .take hlx rfl (take_next hu).1 (take_next hu).2
    | check g =>
      obtain ⟨found, -, h⟩ := ok_of_bind h
      cases found <;> cases h
      · exact .check_fails
      · exact .check
    | branch g yes no =>
      obtain ⟨found, hg, h⟩ := ok_of_bind h
      simpa [inner, hg, Except.toOption] using Ends.branch found h
    | seq a b =>
      obtain ⟨⟨o', u⟩, hu, h⟩ := ok_of_bind h
      have hu : result tokens ⟨d, a, parent, s⟩ = .ok (o', u) := hu
      cases o' with
      | matched => simpa [inner, after_of_result hu] using Ends.seq hu h
      | _ =>
        cases h
        simpa [inner, after_of_other hu] using Ends.seq_stop hu (by simp)
    | alt a b =>
      obtain ⟨c, hc, h⟩ := ok_of_bind h
      obtain ⟨⟨o', u⟩, hu, h⟩ := ok_of_bind h
      have hu : result tokens ⟨d, a, parent, s⟩ = .ok (o', u) := hu
      cases o' with
      | failed =>
        obtain ⟨v, hv, h⟩ := ok_of_bind h
        have hback := backTo_keeps hv
        rw [checkpoint_pos hc] at hback
        simpa [inner, after_of_result hu, hc, hv, Except.toOption, bind, Except.bind] using
          Ends.alt_second hu hback.1 hback.2 h
      | _ =>
        cases h
        simpa [inner, after_of_other hu] using Ends.alt_first hu (by simp)
    | star body =>
      obtain ⟨⟨o', u⟩, hu, h⟩ := ok_of_bind h
      have hu : result tokens ⟨d, body, parent, s⟩ = .ok (o', u) := hu
      cases o' with
      | matched => simpa [inner, after_of_result hu] using Ends.star_more hu h
      | failed =>
        cases h
        simpa [inner, after_of_other hu] using Ends.star_end hu
      | exhausted =>
        cases h
        simpa [inner, after_of_other hu] using Ends.star_stop hu
    | opt body =>
      obtain ⟨⟨o', u⟩, hu, h⟩ := ok_of_bind h
      have hu : result tokens ⟨d, body, parent, s⟩ = .ok (o', u) := hu
      cases o' with
      | failed =>
        cases h
        exact .opt_none hu
      | _ =>
        cases h
        exact .opt hu (by simp)
    | attempt body =>
      obtain ⟨c, hc, h⟩ := ok_of_bind h
      obtain ⟨⟨o', u⟩, hu, h⟩ := ok_of_bind h
      have hu : result tokens ⟨d, body, parent, s⟩ = .ok (o', u) := hu
      cases o' with
      | failed =>
        obtain ⟨v, hv, h⟩ := ok_of_bind h
        cases h
        have hback := backTo_keeps hv
        rw [checkpoint_pos hc] at hback
        exact .attempt_back hu hback.1 hback.2
      | _ =>
        cases h
        exact .attempt hu (by simp)
    | whileDo g body =>
      obtain ⟨found, hg, h⟩ := ok_of_bind h
      cases found with
      | false =>
        cases h
        simpa [inner, hg] using Ends.while_end
      | true =>
        obtain ⟨⟨o', u⟩, hu, h⟩ := ok_of_bind h
        have hu : result tokens ⟨d, body, parent, s⟩ = .ok (o', u) := hu
        cases o' with
        | matched => simpa [inner, hg, after_of_result hu] using Ends.while_more hu h
        | _ =>
          cases h
          simpa [inner, hg, after_of_other hu] using Ends.while_stop hu (by simp)
    | node l body =>
      obtain ⟨c, hc, h⟩ := ok_of_bind h
      obtain ⟨⟨o', u⟩, hu, h⟩ := ok_of_bind h
      cases o' with
      | matched =>
        obtain ⟨v, hv, h⟩ := ok_of_bind h
        cases h
        exact .rule ⟨l, .inl rfl⟩ rfl rfl hu (commit_keeps hv).1 (commit_keeps hv).2
      | _ =>
        obtain ⟨v, hv, h⟩ := ok_of_bind h
        cases h
        have hback := backTo_keeps hv
        rw [checkpoint_pos hc] at hback
        exact .rule_back ⟨l, .inl rfl⟩ rfl rfl hu (by simp) hback.1 hback.2
    | level l body =>
      obtain ⟨c, hc, h⟩ := ok_of_bind h
      obtain ⟨⟨o', u⟩, hu, h⟩ := ok_of_bind h
      cases o' with
      | matched =>
        obtain ⟨⟨kept, v⟩, hv, h⟩ := ok_of_bind h
        obtain ⟨w, hw, h⟩ := ok_of_bind h
        cases h
        have hunwrap := unwrap_keeps hv
        have hcommit := commit_keeps hw
        exact .rule ⟨l, .inr rfl⟩ rfl rfl hu (hcommit.1.trans hunwrap.1) (hcommit.2.trans hunwrap.2)
      | _ =>
        obtain ⟨v, hv, h⟩ := ok_of_bind h
        cases h
        have hback := backTo_keeps hv
        rw [checkpoint_pos hc] at hback
        exact .rule_back ⟨l, .inr rfl⟩ rfl rfl hu (by simp) hback.1 hback.2
    | call phrase => exact .call h

/-! ## Courses -/

theorem course_eq {c : Call} {d : Call} (h : d ∈ c.inner tokens) :
    c.course tokens = c :: (c.inner tokens).flatMap (course tokens) := by
  have hdepth := calls_depth (mem_inner.1 h)
  rw [course, hdepth, trail]
  refine congrArg (c :: ·) (List.flatMap_congr fun e he => ?_)
  rw [course, ← Nat.succ.inj (hdepth.symm.trans (calls_depth (mem_inner.1 he)))]

theorem course_single {c : Call} (h : c.inner tokens = []) : c.course tokens = [c] := by
  rw [course]
  cases c.depth with
  | zero => rfl
  | succ n => rw [trail, h, List.flatMap_nil]

theorem mem_course {c d : Call} :
    d ∈ c.course tokens ↔ d = c ∨ ∃ e ∈ c.inner tokens, d ∈ e.course tokens := by
  cases hinner : c.inner tokens with
  | nil => simp [course_single hinner]
  | cons e es =>
    rw [course_eq (hinner ▸ List.mem_cons_self), hinner, List.mem_cons, List.mem_flatMap]

/-- What a match in the course calls for is in the course. -/
theorem course_calls {c d e : Call} (hd : d ∈ c.course tokens) (h : Calls tokens d e) :
    e ∈ c.course tokens := by
  induction hn : c.depth generalizing c with
  | zero =>
    rw [course, hn, trail, List.mem_singleton] at hd
    subst hd
    exact absurd (calls_depth h) (by omega)
  | succ n ih =>
    rcases mem_course.1 hd with rfl | ⟨f, hf, hd⟩
    · exact mem_course.2 (.inr ⟨e, mem_inner.2 h, mem_course.2 (.inl rfl)⟩)
    · have hdepth := calls_depth (mem_inner.1 hf)
      exact mem_course.2 (.inr ⟨f, hf, ih hd (by omega)⟩)

end Call

/-! ## What is known of the furthest token -/

/-- What is known of the furthest token after some kinds were looked for in vain. -/
def Match.Reach.missAll (r : Reach) (ms : List (Nat × Kind)) : Reach :=
  ms.foldl (fun r m => r.miss m.1 m.2) r

theorem missAll_append (r : Reach) (ms ns : List (Nat × Kind)) :
    r.missAll (ms ++ ns) = (r.missAll ms).missAll ns :=
  List.foldl_append

namespace Call

variable {tokens : Array Lexeme}

theorem misses_of_accepts {d : Nat} {p : Pattern} {parent : Option Nat} {s : Match.State}
    (h : ∀ lx, TreeMatch.accepts? p lx ≠ some false) : misses tokens ⟨d, p, parent, s⟩ = [] := by
  unfold misses
  split
  · rw [if_neg (h _)]
  · rfl

/-- What is known after a match is what was known before and what it looked for in vain in its course. -/
theorem reach_of_course {c : Call} {o : Outcome} {t : Match.State}
    (hresult : c.result tokens = .ok (o, t)) :
    t.reach = c.state.reach.missAll ((c.course tokens).flatMap (misses tokens)) := by
  induction hn : c.depth generalizing c o t with
  | zero =>
    obtain ⟨depth, p, parent, s⟩ := c
    obtain rfl : depth = 0 := hn
    cases hresult
    rfl
  | succ n ih =>
    have hends := ends_of_result hresult
    have hinner : ∀ {d : Call} {o : Outcome} {t : Match.State}, d ∈ c.inner tokens →
        d.result tokens = .ok (o, t) →
        t.reach = d.state.reach.missAll ((d.course tokens).flatMap (misses tokens)) := by
      intro d o t hd hresult
      have hdepth := calls_depth (mem_inner.1 hd)
      exact ih hresult (by omega)
    -- A match of a pattern for one token calls for nothing, and any other looks for nothing itself.
    have hnone : c.inner tokens = [] → (c.course tokens).flatMap (misses tokens) = c.misses tokens := by
      intro hnil
      simp [course_single hnil]
    have hsome : ∀ d ∈ c.inner tokens, c.misses tokens = [] →
        (c.course tokens).flatMap (misses tokens) =
          (c.inner tokens).flatMap fun e => (e.course tokens).flatMap (misses tokens) := by
      intro d hd hmisses
      rw [course_eq hd, List.flatMap_cons, hmisses, List.nil_append, List.flatMap_assoc]
    generalize c.inner tokens = ds at *
    cases hends with
    | exhausted => cases hn
    | take hlx hp _ hreach =>
      rw [hnone rfl, hreach]
      simp [misses, hlx, hp, Reach.missAll]
    | miss hlx hp _ hreach =>
      rw [hnone rfl, hreach]
      simp [misses, hlx, hp, Reach.missAll, List.foldl_map]
    | check | check_fails | while_end =>
      rw [hnone rfl, misses_of_accepts (by simp [TreeMatch.accepts?])]
      rfl
    | branch _ h | seq_stop h | alt_first h | star_end h | star_stop h | opt h | opt_none h
    | attempt h | while_stop h | call h =>
      rw [hsome _ List.mem_cons_self (misses_of_accepts (by simp [TreeMatch.accepts?])),
        hinner List.mem_cons_self h]
      simp
    | attempt_back h _ hreach =>
      rw [hsome _ List.mem_cons_self (misses_of_accepts (by simp [TreeMatch.accepts?])),
        hreach, hinner List.mem_cons_self h]
      simp
    | rule hp _ hreach h _ hreach' | rule_back hp _ hreach h _ _ hreach' =>
      rw [hsome _ List.mem_cons_self (misses_of_accepts ?_), hreach', hinner List.mem_cons_self h,
        hreach]
      · simp
      · obtain ⟨l, rfl | rfl⟩ := hp <;> simp [TreeMatch.accepts?]
    | seq h₁ h₂ | star_more h₁ h₂ | while_more h₁ h₂ =>
      rw [hsome _ List.mem_cons_self (misses_of_accepts (by simp [TreeMatch.accepts?])),
        hinner (List.mem_cons_of_mem _ List.mem_cons_self) h₂, hinner List.mem_cons_self h₁]
      simp [missAll_append]
    | alt_second h₁ _ hreach h₂ =>
      rw [hsome _ List.mem_cons_self (misses_of_accepts (by simp [TreeMatch.accepts?])),
        hinner (List.mem_cons_of_mem _ List.mem_cons_self) h₂, hreach,
        hinner List.mem_cons_self h₁]
      simp [missAll_append]

end Call

/-! ## Parsers -/

namespace Parser

/-- The match of a program for the whole source. -/
def programCall (p : Parser) : Call :=
  ⟨depthBound p.tokens, Grammar.program, none, p.state⟩

/-- The match of a single name for the whole source, from a state. -/
def loneNameCall (p : Parser) (t : Match.State) : Call :=
  ⟨depthBound p.tokens, Grammar.loneName, none, t⟩

/-- The matches called for while a parser parses, in the order in which they take place. -/
def trail (p : Parser) : List Call :=
  p.programCall.course p.tokens ++
    (p.programCall.result p.tokens).toOption.toList.flatMap fun r =>
      if r.1 = .matched then [] else (p.loneNameCall r.2).course p.tokens

/-- The kinds that a parser looks for in vain while it parses, each with the index of the token, in
the order in which it looks for them. -/
def misses (p : Parser) : List (Nat × Kind) :=
  p.trail.flatMap (Call.misses p.tokens)

variable {p : Parser}

theorem mem_trail {c : Call} :
    c ∈ p.trail ↔ c ∈ p.programCall.course p.tokens ∨
      ∃ o t, p.programCall.result p.tokens = .ok (o, t) ∧ o ≠ .matched ∧
        c ∈ (p.loneNameCall t).course p.tokens := by
  rw [trail, List.mem_append, List.mem_flatMap]
  refine or_congr_right ⟨?_, ?_⟩
  · rintro ⟨⟨o, t⟩, hr, hc⟩
    by_cases ho : o = .matched
    · simp [ho] at hc
    · exact ⟨o, t, ok_of_toOption hr, ho, by simpa [ho] using hc⟩
  · rintro ⟨o, t, hr, ho, hc⟩
    exact ⟨(o, t), by simp [hr, Except.toOption], by simpa [ho] using hc⟩

theorem visits_of_course {c d : Call} (hc : p.Visits c) (hd : d ∈ c.course p.tokens) :
    p.Visits d := by
  induction hn : c.depth generalizing c with
  | zero =>
    rw [Call.course, hn, Call.trail, List.mem_singleton] at hd
    exact hd ▸ hc
  | succ n ih =>
    rcases Call.mem_course.1 hd with rfl | ⟨e, he, hd⟩
    · exact hc
    · have hcalls := Call.mem_inner.1 he
      have hdepth := calls_depth hcalls
      exact ih (.inner hc hcalls) hd (by omega)

/-- The trail holds just the matches that the parser calls for. -/
theorem visits_iff {c : Call} : p.Visits c ↔ c ∈ p.trail := by
  constructor
  · intro h
    induction h with
    | program => exact mem_trail.2 (.inl (Call.mem_course.2 (.inl rfl)))
    | loneName h ho => exact mem_trail.2 (.inr ⟨_, _, h, ho, Call.mem_course.2 (.inl rfl)⟩)
    | inner _ hd ih =>
      refine mem_trail.2 ((mem_trail.1 ih).imp (fun h => Call.course_calls h hd) ?_)
      rintro ⟨o, t, hr, ho, h⟩
      exact ⟨o, t, hr, ho, Call.course_calls h hd⟩
  · intro h
    rcases mem_trail.1 h with h | ⟨o, t, hr, ho, h⟩
    · exact visits_of_course .program h
    · exact visits_of_course (.loneName hr ho) h

end Parser

end FortranJulia
