import Mathlib.Data.List.Induction
import Mathlib.Order.Bounds.Defs
import FortranJulia.Proofs.Parsing.Course

/-!
A syntax error is reported at the furthest token that the cursor came to. Only tokens looked for in
vain are remembered, so wherever a match ends without one, something has to be looked for at the same
token later. Most patterns look for a token before anything else; where one asks about the tokens ahead
instead, it is known that a token was looked for there before. What is known where a pattern begins is
worked out along the pattern, and this is done for the whole grammar.
-/

namespace FortranJulia

set_option autoImplicit false

open Match (Outcome Reach)

/-! ## Kinds looked for in vain -/

namespace Match.Reach

/-- Something was looked for in vain at the index or further on. -/
structure Seen (r : Reach) (i : Nat) : Prop where
  le : i ≤ r.furthest
  tried : r.expected ≠ []

/-- While nothing was looked for in vain, the furthest token is the first one. -/
def Fit (r : Reach) : Prop :=
  r.expected = [] → r.furthest = 0

variable {r : Reach} {i j : Nat}

theorem Seen.down (h : r.Seen j) (hle : i ≤ j) : r.Seen i :=
  ⟨Nat.le_trans hle h.le, h.tried⟩

theorem Seen.miss (h : r.Seen i) (pos : Nat) (k : Kind) : (r.miss pos k).Seen i := by
  unfold Reach.miss
  split
  · rename_i hpos
    exact ⟨Nat.le_trans h.le (Nat.le_of_lt hpos), List.cons_ne_nil _ _⟩
  · split
    · exact ⟨h.le, by simp⟩
    · exact h

theorem Fit.seen (h : r.Fit) (pos : Nat) (k : Kind) : (r.miss pos k).Seen pos := by
  unfold Reach.miss
  split
  · exact ⟨Nat.le_refl _, List.cons_ne_nil _ _⟩
  · rename_i hpos
    split
    · exact ⟨Nat.le_of_not_lt hpos, by simp⟩
    · rename_i hnot
      refine ⟨Nat.le_of_not_lt hpos, fun hnil => hnot ?_⟩
      have hzero := h hnil
      simp [hnil, hzero, show pos = 0 by omega]

theorem Fit.miss (h : r.Fit) (pos : Nat) (k : Kind) : (r.miss pos k).Fit :=
  fun hnil => absurd hnil (h.seen pos k).tried

theorem Seen.missAll (h : r.Seen i) (ms : List (Nat × Kind)) : (r.missAll ms).Seen i := by
  induction ms generalizing r with
  | nil => exact h
  | cons m ms ih => exact ih (h.miss m.1 m.2)

theorem Fit.missAll (h : r.Fit) (ms : List (Nat × Kind)) : (r.missAll ms).Fit := by
  induction ms generalizing r with
  | nil => exact h
  | cons m ms ih => exact ih (h.miss m.1 m.2)

theorem Fit.seenAll (h : r.Fit) {ms : List (Nat × Kind)} {m : Nat × Kind} (hm : m ∈ ms) :
    (r.missAll ms).Seen m.1 := by
  obtain ⟨before, rest, rfl⟩ := List.append_of_mem hm
  rw [missAll_append]
  exact ((h.missAll before).seen m.1 m.2).missAll rest

theorem eraseDups_concat (ks : List Kind) (k : Kind) :
    (ks ++ [k]).eraseDups = if k ∈ ks then ks.eraseDups else ks.eraseDups ++ [k] := by
  rw [List.eraseDups_append]
  by_cases h : k ∈ ks
  · rw [if_pos h]
    simp [List.removeAll, h]
  · rw [if_neg h]
    simp [List.removeAll, h, List.eraseDups_cons]

/-- The expected kinds are those looked for in vain at the furthest token, each once, in the order in
which they were first looked for. -/
theorem missAll_expected (ms : List (Nat × Kind)) :
    let r := Reach.missAll {} ms
    (∀ m ∈ ms, m.1 ≤ r.furthest) ∧
    r.expected = ((ms.filter (·.1 == r.furthest)).map (·.2)).eraseDups ∧ r.expected.Nodup := by
  induction ms using List.reverseRecOn with
  | nil => simp [Reach.missAll]
  | append_singleton ms m ih =>
    obtain ⟨hle, hexpected, hnodup⟩ := ih
    obtain ⟨pos, k⟩ := m
    simp only [missAll_append]
    generalize Reach.missAll {} ms = r at hle hexpected hnodup ⊢
    rw [show r.missAll [(pos, k)] = r.miss pos k from rfl]
    unfold Reach.miss
    split
    · rename_i hpos
      have hnone : ms.filter (·.1 == pos) = [] :=
        List.filter_eq_nil_iff.2 fun m hm => by
          have hm := hle m hm
          simp only [beq_iff_eq]
          omega
      refine ⟨fun m hm => ?_, by simp [hnone, List.eraseDups_cons], by simp⟩
      rcases List.mem_append.1 hm with hm | hm
      · exact Nat.le_of_lt (Nat.lt_of_le_of_lt (hle m hm) hpos)
      · simp [List.mem_singleton.1 hm]
    · rename_i hpos
      have hall : ∀ m ∈ ms ++ [(pos, k)], m.1 ≤ r.furthest := by
        intro m hm
        rcases List.mem_append.1 hm with hm | hm
        · exact hle m hm
        · simp only [List.mem_singleton.1 hm]
          omega
      have hmem : k ∈ r.expected ↔ k ∈ (ms.filter (·.1 == r.furthest)).map (·.2) := by
        rw [hexpected, List.mem_eraseDups]
      by_cases hhere : pos = r.furthest
      · have hlast : ((ms ++ [(pos, k)]).filter (·.1 == r.furthest)).map (·.2) =
            (ms.filter (·.1 == r.furthest)).map (·.2) ++ [k] := by
          simp [List.filter_append, hhere]
        by_cases hk : k ∈ r.expected
        · rw [if_neg (by simp [hk])]
          exact ⟨hall, by rw [hlast, eraseDups_concat, if_pos (hmem.1 hk), ← hexpected], hnodup⟩
        · rw [if_pos (by simp [hk, hhere])]
          refine ⟨hall, by rw [hlast, eraseDups_concat, if_neg (mt hmem.2 hk), ← hexpected], ?_⟩
          exact List.nodup_append.2 ⟨hnodup, by simp, by
            rintro a ha b hb rfl
            exact hk (List.mem_singleton.1 hb ▸ ha)⟩
      · rw [if_neg (by simp [hhere])]
        exact ⟨hall, by simpa [List.filter_append, hhere] using hexpected, hnodup⟩

end Match.Reach

/-! ## What is known where a pattern begins -/

/-- What is known of the tokens looked for in vain where a pattern begins. -/
inductive Known where
  | nothing
  /-- Something was looked for at the token or further on. -/
  | here
  /-- Also behind the token, should it be of the kind. -/
  | behind (kind : Kind)
  deriving DecidableEq

namespace Known

/-- What is known whichever of two things is. -/
def meet (κ κ' : Known) : Known :=
  if κ = κ' then κ else if κ = .nothing ∨ κ' = .nothing then .nothing else .here

/-- What is known behind a token of a kind. -/
def pass (κ : Known) (k : Kind) : Known :=
  if κ = .behind k then .here else .nothing

end Known

namespace Pattern

/-- The kind of the token in front, for a pattern that goes back to it where what comes next fails. -/
def lead? : Pattern → Option Kind
  | .attempt (.seq (.token k) _) => some k
  | _ => none

theorem lead?_eq {p : Pattern} {k : Kind} (h : p.lead? = some k) :
    ∃ rest, p = .attempt (.seq (.token k) rest) := by
  unfold lead? at h
  split at h
  · cases h
    exact ⟨_, rfl⟩
  · cases h

/-- What is known where a pattern has matched, from what is known where it begins. None where it may
fail at a token that nothing was looked for at. -/
def after : Pattern → Known → Option Known
  | .token k, κ => some (κ.pass k)
  | .oneOf ks, _ => if ks = [] then none else some .nothing
  | .word, _ | .any, _ => some .nothing
  | .check _, κ => if κ = .nothing then none else some κ
  | .branch _ yes no, κ => do return (← yes.after κ).meet (← no.after κ)
  | .seq a b, κ => do b.after (← a.after κ)
  | .alt a b, κ => do return (← a.after κ).meet (← b.after .here)
  | .star body, κ =>
    if body.after κ = some κ ∨ (body.after .nothing).isSome then
      some (body.lead?.elim .here .behind)
    else none
  | .opt body, κ => do return (← body.after κ).meet .here
  | .attempt body, κ | .node _ body, κ | .level _ body, κ => body.after κ
  | .whileDo _ body, _ => if (body.after .nothing).isSome then some .nothing else none
  | .call _, _ => some .nothing

end Pattern

theorem grammar_after (phrase : Nonterminal) : ((grammar phrase).after .nothing).isSome := by
  cases phrase <;> decide +kernel

theorem entry_after {entry : Pattern} (h : entry ∈ [Grammar.program, Grammar.loneName]) :
    (entry.after .nothing).isSome := by
  revert entry
  decide +kernel

/-- What is known holds in a state. -/
def Knows (tokens : Array Lexeme) (s : Match.State) : Known → Prop
  | .nothing => True
  | .here => s.reach.Seen s.pos
  | .behind k => s.reach.Seen s.pos ∧ ∀ lx, Match.current tokens s.pos = .ok lx → lx.kind = k →
      s.reach.Seen (TreeMatch.next tokens s.pos)

section Knowledge

variable {tokens : Array Lexeme} {s t : Match.State} {κ κ' : Known}

theorem knows_nothing : Knows tokens s .nothing := trivial

theorem Knows.seen (h : Knows tokens s κ) (hκ : κ ≠ .nothing) : s.reach.Seen s.pos := by
  cases κ with
  | nothing => exact absurd rfl hκ
  | here => exact h
  | behind k => exact h.1

theorem Knows.meet_left (h : Knows tokens s κ) : Knows tokens s (κ.meet κ') := by
  unfold Known.meet
  split
  · exact h
  · split
    · trivial
    · rename_i hne
      exact h.seen (not_or.1 hne).1

theorem Knows.meet_right (h : Knows tokens s κ') : Knows tokens s (κ.meet κ') := by
  unfold Known.meet
  split
  · rename_i heq
    exact heq ▸ h
  · split
    · trivial
    · rename_i hne
      exact h.seen (not_or.1 hne).2

theorem Knows.of_eq (h : Knows tokens s κ) (hpos : t.pos = s.pos) (hreach : t.reach = s.reach) :
    Knows tokens t κ := by
  cases κ with
  | nothing => trivial
  | here =>
    rw [Knows, hpos, hreach]
    exact h
  | behind k =>
    rw [Knows, hpos, hreach]
    exact h

theorem Knows.pass {k : Kind} {lx : Lexeme} (h : Knows tokens s κ)
    (hlx : Match.current tokens s.pos = .ok lx) (hk : lx.kind = k)
    (hpos : t.pos = TreeMatch.next tokens s.pos) (hreach : t.reach = s.reach) :
    Knows tokens t (κ.pass k) := by
  unfold Known.pass
  split
  · rename_i heq
    subst heq
    rw [Knows, hpos, hreach]
    exact h.2 lx hlx hk
  · trivial

end Knowledge

/-! ## Positions in the course of a match -/

/-- A position is not lost at the end of a match: something was looked for there or further on, or the
match goes on from there or further on. -/
def Held (o : Outcome) (t : Match.State) (i : Nat) : Prop :=
  t.reach.Seen i ∨ o = .matched ∧ i ≤ t.pos

namespace Held

variable {o o' : Outcome} {s t : Match.State} {i j : Nat}

theorem down (h : Held o t j) (hle : i ≤ j) : Held o t i :=
  h.imp (·.down hle) fun ⟨ho, hj⟩ => ⟨ho, Nat.le_trans hle hj⟩

theorem seen (h : Held o t i) (ho : o ≠ .matched) : t.reach.Seen i :=
  h.resolve_right fun hm => ho hm.1

/-- A position held at the end of one match is held at the end of another if the cursor there is. -/
theorem trans (h : Held o s i) (hreach : ∀ j, s.reach.Seen j → t.reach.Seen j)
    (hpos : o = .matched → Held o' t s.pos) : Held o' t i :=
  h.elim (fun h => .inl (hreach i h)) fun ⟨ho, hi⟩ => (hpos ho).down hi

end Held

namespace Call

variable (tokens : Array Lexeme)

/-- The cursor where a match begins or ends. -/
def At (c : Call) (i : Nat) : Prop :=
  i = c.state.pos ∨ ∃ o t, c.result tokens = .ok (o, t) ∧ i = t.pos

/-- What holds of a match that began with some knowledge. -/
structure Covers (c : Call) (o : Outcome) (t : Match.State) (κ : Known) : Prop where
  le : c.state.pos ≤ t.pos
  course : ∀ d ∈ c.course tokens, ∀ i, d.At tokens i → Held o t i
  knows : o = .matched → Knows tokens t κ
  /-- Where a token stands in front and what comes next fails, something was looked for behind it. -/
  lead : o = .failed → ∀ k rest,
    c.pattern = .seq (.token k) rest ∨ c.pattern = .attempt (.seq (.token k) rest) →
    ∀ lx, Match.current tokens c.state.pos = .ok lx → lx.kind = k →
      t.reach.Seen (TreeMatch.next tokens c.state.pos)

variable {tokens}
variable {c d : Call} {o o' : Outcome} {s t u : Match.State} {κ κ' : Known}

theorem seen_result (h : c.result tokens = .ok (o, t)) {i : Nat} (hi : c.state.reach.Seen i) :
    t.reach.Seen i :=
  reach_of_course h ▸ hi.missAll _

theorem fit_result (h : c.result tokens = .ok (o, t)) (hfit : c.state.reach.Fit) : t.reach.Fit :=
  reach_of_course h ▸ hfit.missAll _

/-- The cursor in the course of a match, from the cursor in the courses of those that it calls for. -/
theorem course_held (h : c.result tokens = .ok (o, t)) (hs : Held o t c.state.pos)
    (ht : Held o t t.pos)
    (hinner : ∀ d ∈ c.inner tokens, ∀ e ∈ d.course tokens, ∀ i, e.At tokens i → Held o t i) :
    ∀ d ∈ c.course tokens, ∀ i, d.At tokens i → Held o t i := by
  intro d hd i hi
  rcases mem_course.1 hd with rfl | ⟨e, he, hd⟩
  · rcases hi with rfl | ⟨o', t', h', rfl⟩
    · exact hs
    · cases h.symm.trans h'
      exact ht
  · exact hinner e he d hd i hi

theorem Covers.held_start (h : c.Covers tokens o t κ) : Held o t c.state.pos :=
  h.course c (mem_course.2 (.inl rfl)) _ (.inl rfl)

theorem Covers.held_end (h : c.Covers tokens o t κ) (hresult : c.result tokens = .ok (o, t)) :
    Held o t t.pos :=
  h.course c (mem_course.2 (.inl rfl)) _ (.inr ⟨o, t, hresult, rfl⟩)

/-- A match that calls for one other, which it ends like or after which it goes on. -/
theorem course_held_one {o₁ : Outcome} {t₁ : Match.State} {κ₁ : Known}
    (h : c.result tokens = .ok (o, t)) (hd : c.inner tokens = [d]) (hc : d.Covers tokens o₁ t₁ κ₁)
    (hstart : d.state.pos = c.state.pos) (hreach : t.reach = t₁.reach)
    (hend : Held o t t.pos) (hpos : o₁ = .matched → Held o t t₁.pos) :
    ∀ d ∈ c.course tokens, ∀ i, d.At tokens i → Held o t i := by
  have hmono : ∀ j, t₁.reach.Seen j → t.reach.Seen j := fun j hj => hreach ▸ hj
  refine course_held h (hstart ▸ hc.held_start.trans hmono hpos) hend fun e he f hf i hi => ?_
  rw [hd, List.mem_singleton] at he
  subst he
  exact (hc.course f hf i hi).trans hmono hpos

/-- A match that calls for two others and ends like the second. -/
theorem course_held_two {d' : Call} {o₁ : Outcome} {t₁ : Match.State} {κ₁ κ₂ : Known}
    (h : c.result tokens = .ok (o, t)) (hd : c.inner tokens = [d, d'])
    (hc : d.Covers tokens o₁ t₁ κ₁) (hc' : d'.Covers tokens o t κ₂)
    (hresult : d'.result tokens = .ok (o, t)) (hstart : d.state.pos = c.state.pos)
    (hreach : d'.state.reach = t₁.reach) (hpos : o₁ = .matched → d'.state.pos = t₁.pos) :
    ∀ d ∈ c.course tokens, ∀ i, d.At tokens i → Held o t i := by
  have hmono : ∀ j, t₁.reach.Seen j → t.reach.Seen j := fun j hj => seen_result hresult (hreach ▸ hj)
  have hnext : o₁ = .matched → Held o t t₁.pos := fun ho => hpos ho ▸ hc'.held_start
  refine course_held h (hstart ▸ hc.held_start.trans hmono hnext) (hc'.held_end hresult)
    fun e he f hf i hi => ?_
  rw [hd, List.mem_cons, List.mem_singleton] at he
  rcases he with rfl | rfl
  · exact (hc.course f hf i hi).trans hmono hnext
  · exact hc'.course f hf i hi

/-! ## What a match makes known -/

theorem attempt_pos {d : Nat} {body : Pattern} {parent : Option Nat}
    (h : result tokens ⟨d, .attempt body, parent, s⟩ = .ok (.failed, t)) : t.pos = s.pos := by
  have hends := ends_of_result h
  generalize inner tokens _ = ds at hends
  cases hends with
  | miss _ hp => simp [TreeMatch.accepts?] at hp
  | attempt _ ho => exact absurd rfl ho
  | attempt_back _ hpos => exact hpos
  | rule_back hp => simp at hp

/-- A token that is there is passed. -/
theorem token_pos {d : Nat} {k : Kind} {parent : Option Nat} {lx : Lexeme}
    (h : result tokens ⟨d, .token k, parent, s⟩ = .ok (o, t)) (ho : o ≠ .exhausted)
    (hlx : Match.current tokens s.pos = .ok lx) (hk : lx.kind = k) :
    o = .matched ∧ t.pos = TreeMatch.next tokens s.pos := by
  have hends := ends_of_result h
  generalize inner tokens _ = ds at hends
  cases hends with
  | exhausted => exact absurd rfl ho
  | take _ _ hpos => exact ⟨rfl, hpos⟩
  | miss hlx' hp =>
    cases hlx.symm.trans hlx'
    simp [TreeMatch.accepts?, hk] at hp
  | rule hp | rule_back hp => simp at hp

theorem knows_take {p : Pattern} {lx : Lexeme} (h : Knows tokens s κ) (hafter : p.after κ = some κ')
    (hlx : Match.current tokens s.pos = .ok lx) (hp : TreeMatch.accepts? p lx = some true)
    (hpos : t.pos = TreeMatch.next tokens s.pos) (hreach : t.reach = s.reach) :
    Knows tokens t κ' := by
  cases p with
  | token k =>
    cases hafter
    exact h.pass hlx (by simpa [TreeMatch.accepts?] using hp) hpos hreach
  | oneOf ks =>
    rw [Pattern.after] at hafter
    split at hafter <;> cases hafter
    trivial
  | word | any =>
    cases hafter
    trivial
  | _ => simp [TreeMatch.accepts?] at hp

theorem seen_missed {p : Pattern} {lx : Lexeme} (hfit : s.reach.Fit) (hafter : p.after κ = some κ')
    (hp : TreeMatch.accepts? p lx = some false)
    (hreach : t.reach = p.sought.foldl (Reach.miss s.pos) s.reach) : t.reach.Seen s.pos := by
  have hall : t.reach = s.reach.missAll (p.sought.map (s.pos, ·)) := by
    rw [hreach, Reach.missAll, List.foldl_map]
  have hone : ∀ k ∈ p.sought, t.reach.Seen s.pos := fun k hk =>
    hall ▸ hfit.seenAll (List.mem_map_of_mem hk)
  cases p with
  | token k => exact hone k List.mem_cons_self
  | word => exact hone .name List.mem_cons_self
  | oneOf ks =>
    cases ks with
    | nil => simp [Pattern.after] at hafter
    | cons k ks => exact hone k List.mem_cons_self
  | _ => simp [TreeMatch.accepts?] at hp

/-- Where a pattern is known not to fail without looking for a token, no cursor in the course of its
match is lost at the end, and what is known there holds. -/
theorem covers_of_result (hresult : c.result tokens = .ok (o, t)) (ho : o ≠ .exhausted)
    (hfit : c.state.reach.Fit) (hknows : Knows tokens c.state κ)
    (hafter : c.pattern.after κ = some κ') : c.Covers tokens o t κ' := by
  induction hn : c.depth generalizing c o t κ κ' with
  | zero =>
    obtain ⟨depth, p, parent, s⟩ := c
    obtain rfl : depth = 0 := hn
    cases hresult
    exact absurd rfl ho
  | succ n ih =>
    have hends := ends_of_result hresult
    have hcover : ∀ {d : Call} {o : Outcome} {t : Match.State} {κ κ' : Known}, d ∈ c.inner tokens →
        d.result tokens = .ok (o, t) → o ≠ .exhausted → d.state.reach.Fit → Knows tokens d.state κ →
        d.pattern.after κ = some κ' → d.Covers tokens o t κ' := by
      intro d o t κ κ' hd hresult ho hfit hknows hafter
      have hdepth := calls_depth (mem_inner.1 hd)
      exact ih hresult ho hfit hknows hafter (by omega)
    have hleaf : c.inner tokens = [] → Held o t c.state.pos → Held o t t.pos →
        ∀ d ∈ c.course tokens, ∀ i, d.At tokens i → Held o t i :=
      fun hnil hs ht => course_held hresult hs ht (by simp [hnil])
    generalize hds : c.inner tokens = ds at *
    cases hends with
    | exhausted => exact absurd rfl ho
    | @take d p parent s t lx hlx hp hpos hreach =>
      have hle : s.pos ≤ t.pos := by
        rw [hpos, TreeMatch.next]
        split <;> omega
      exact ⟨hle, hleaf rfl (.inr ⟨rfl, hle⟩) (.inr ⟨rfl, Nat.le_refl _⟩),
        fun _ => knows_take hknows hafter hlx hp hpos hreach, by simp⟩
    | @miss d p parent s t lx hlx hp hpos hreach =>
      have hseen := seen_missed hfit hafter hp hreach
      refine ⟨Nat.le_of_eq hpos.symm, hleaf rfl (.inl hseen) (.inl (hpos ▸ hseen)), by simp, ?_⟩
      rintro - k rest (rfl | rfl) <;> simp [TreeMatch.accepts?] at hp
    | check =>
      rw [Pattern.after] at hafter
      split at hafter <;> cases hafter
      exact ⟨Nat.le_refl _, hleaf rfl (.inr ⟨rfl, Nat.le_refl _⟩) (.inr ⟨rfl, Nat.le_refl _⟩),
        fun _ => hknows, by simp⟩
    | check_fails =>
      rw [Pattern.after] at hafter
      split at hafter
      · cases hafter
      · rename_i hne
        have hseen := hknows.seen hne
        exact ⟨Nat.le_refl _, hleaf rfl (.inl hseen) (.inl hseen), by simp, by simp⟩
    | while_end =>
      rw [Pattern.after] at hafter
      split at hafter <;> cases hafter
      exact ⟨Nat.le_refl _, hleaf rfl (.inr ⟨rfl, Nat.le_refl _⟩) (.inr ⟨rfl, Nat.le_refl _⟩),
        fun _ => knows_nothing, by simp⟩
    | @branch d g yes no parent s t o found h =>
      simp only [Pattern.after, bind, Option.bind_eq_some_iff, pure, Option.some.injEq] at hafter
      obtain ⟨κ₁, hyes, κ₂, hno, rfl⟩ := hafter
      cases found with
      | true =>
        have hc := hcover List.mem_cons_self h ho hfit hknows hyes
        exact ⟨hc.le, course_held_one hresult hds hc rfl rfl (hc.held_end h) fun _ => hc.held_end h,
          fun hm => (hc.knows hm).meet_left, by simp⟩
      | false =>
        have hc := hcover List.mem_cons_self h ho hfit hknows hno
        exact ⟨hc.le, course_held_one hresult hds hc rfl rfl (hc.held_end h) fun _ => hc.held_end h,
          fun hm => (hc.knows hm).meet_right, by simp⟩
    | @seq d a b parent s t u o h₁ h₂ =>
      obtain ⟨κ₁, ha, hb⟩ := Option.bind_eq_some_iff.1 hafter
      have hca := hcover List.mem_cons_self h₁ (by simp) hfit hknows ha
      have hcb := hcover (List.mem_cons_of_mem _ List.mem_cons_self) h₂ ho (fit_result h₁ hfit)
        (hca.knows rfl) hb
      refine ⟨Nat.le_trans hca.le hcb.le,
        course_held_two hresult hds hca hcb h₂ rfl rfl fun _ => rfl, hcb.knows, ?_⟩
      rintro rfl k rest heq lx hlx hk
      obtain ⟨rfl, rfl⟩ : a = .token k ∧ b = rest := by simpa using heq
      exact (token_pos h₁ (by simp) hlx hk).2 ▸ hcb.held_start.seen (by simp)
    | @seq_stop d a b parent s t o h ho' =>
      obtain ⟨κ₁, ha, -⟩ := Option.bind_eq_some_iff.1 hafter
      have hc := hcover List.mem_cons_self h ho hfit hknows ha
      refine ⟨hc.le, course_held_one hresult hds hc rfl rfl (hc.held_end h) fun _ => hc.held_end h,
        fun hm => absurd hm ho', ?_⟩
      rintro rfl k rest heq lx hlx hk
      obtain ⟨rfl, rfl⟩ : a = .token k ∧ b = rest := by simpa using heq
      exact absurd (token_pos h (by simp) hlx hk).1 (by simp)
    | @alt_first d a b parent s t o h ho' =>
      simp only [Pattern.after, bind, Option.bind_eq_some_iff, pure, Option.some.injEq] at hafter
      obtain ⟨κ₁, ha, κ₂, -, rfl⟩ := hafter
      have hc := hcover List.mem_cons_self h ho hfit hknows ha
      exact ⟨hc.le, course_held_one hresult hds hc rfl rfl (hc.held_end h) fun _ => hc.held_end h,
        fun hm => (hc.knows hm).meet_left, by simp⟩
    | @alt_second d a b parent s t u v o h₁ hpos hreach h₂ =>
      simp only [Pattern.after, bind, Option.bind_eq_some_iff, pure, Option.some.injEq] at hafter
      obtain ⟨κ₁, ha, κ₂, hb, rfl⟩ := hafter
      have hca := hcover List.mem_cons_self h₁ (by simp) hfit hknows ha
      have hseen : Knows tokens u .here := by
        rw [Knows, hreach, hpos]
        exact hca.held_start.seen (by simp)
      have hfit' : u.reach.Fit := hreach ▸ fit_result h₁ hfit
      have hcb := hcover (List.mem_cons_of_mem _ List.mem_cons_self) h₂ ho hfit' hseen hb
      exact ⟨hpos ▸ hcb.le, course_held_two hresult hds hca hcb h₂ rfl hreach (by simp),
        fun hm => (hcb.knows hm).meet_right, by simp⟩
    | @star_more d body parent s m _ o h₁ h₂ =>
      rw [Pattern.after] at hafter
      split at hafter
      · rename_i hloop
        obtain rfl := Option.some.inj hafter
        -- The body is matched again with what was known before or, failing that, with nothing known.
        obtain ⟨κ₁, hknows₁, hbody⟩ : ∃ κ₁, Knows tokens s κ₁ ∧
            ∃ κ₂, body.after κ₁ = some κ₂ ∧ (∀ t, Knows tokens t κ₂ → Knows tokens t κ₁) ∧
              (body.after κ₁ = some κ₁ ∨ (body.after .nothing).isSome) := by
          rcases hloop with hloop | hloop
          · exact ⟨κ, hknows, κ, hloop, fun _ h => h, .inl hloop⟩
          · obtain ⟨κ₂, hκ₂⟩ := Option.isSome_iff_exists.1 hloop
            exact ⟨.nothing, trivial, κ₂, hκ₂, fun _ _ => trivial, .inr hloop⟩
        obtain ⟨κ₂, hbody, hback, hagain⟩ := hbody
        have hca := hcover List.mem_cons_self h₁ (by simp) hfit hknows₁ hbody
        have hcb := hcover (List.mem_cons_of_mem _ List.mem_cons_self) h₂ ho (fit_result h₁ hfit)
          (hback m (hca.knows rfl)) (by rw [Pattern.after, if_pos hagain])
        exact ⟨Nat.le_trans hca.le hcb.le,
          course_held_two hresult hds hca hcb h₂ rfl rfl fun _ => rfl, hcb.knows, by simp⟩
      · cases hafter
    | @star_end d body parent s t h =>
      rw [Pattern.after] at hafter
      split at hafter
      · rename_i hloop
        obtain ⟨κ₁, hknows₁, κ₂, hbody⟩ : ∃ κ₁, Knows tokens s κ₁ ∧ ∃ κ₂, body.after κ₁ = some κ₂ := by
          rcases hloop with hloop | hloop
          · exact ⟨κ, hknows, κ, hloop⟩
          · exact ⟨.nothing, trivial, Option.isSome_iff_exists.1 hloop⟩
        have hc := hcover List.mem_cons_self h (by simp) hfit hknows₁ hbody
        have hseen := (hc.held_end h).seen (by simp)
        refine ⟨hc.le, course_held_one hresult hds hc rfl rfl (.inl hseen) (by simp), fun _ => ?_,
          by simp⟩
        cases hafter
        cases hlead : body.lead? with
        | none => exact hseen
        | some k =>
          obtain ⟨rest, rfl⟩ := Pattern.lead?_eq hlead
          refine ⟨hseen, fun lx hlx hk => ?_⟩
          rw [attempt_pos h] at hlx ⊢
          exact hc.lead rfl k rest (.inr rfl) lx hlx hk
      · cases hafter
    | star_stop => exact absurd rfl ho
    | @opt d body parent s t o h ho' =>
      simp only [Pattern.after, bind, Option.bind_eq_some_iff, pure, Option.some.injEq] at hafter
      obtain ⟨κ₁, hbody, rfl⟩ := hafter
      have hc := hcover List.mem_cons_self h ho hfit hknows hbody
      exact ⟨hc.le, course_held_one hresult hds hc rfl rfl (hc.held_end h) fun _ => hc.held_end h,
        fun hm => (hc.knows hm).meet_left, by simp⟩
    | @opt_none d body parent s t h =>
      simp only [Pattern.after, bind, Option.bind_eq_some_iff, pure, Option.some.injEq] at hafter
      obtain ⟨κ₁, hbody, rfl⟩ := hafter
      have hc := hcover List.mem_cons_self h (by simp) hfit hknows hbody
      have hseen := (hc.held_end h).seen (by simp)
      exact ⟨hc.le, course_held_one hresult hds hc rfl rfl (.inl hseen) (by simp),
        fun _ => Knows.meet_right hseen, by simp⟩
    | @attempt d body parent s t o h ho' =>
      have hc := hcover List.mem_cons_self h ho hfit hknows hafter
      exact ⟨hc.le, course_held_one hresult hds hc rfl rfl (hc.held_end h) fun _ => hc.held_end h,
        hc.knows, fun hm => absurd hm ho'⟩
    | @attempt_back d body parent s m _ h hpos hreach =>
      have hc := hcover List.mem_cons_self h (by simp) hfit hknows hafter
      have hseen : t.reach.Seen s.pos := hreach ▸ hc.held_start.seen (by simp)
      refine ⟨Nat.le_of_eq hpos.symm,
        course_held_one hresult hds hc rfl hreach (.inl (hpos ▸ hseen)) (by simp), by simp, ?_⟩
      rintro - k rest heq lx hlx hk
      obtain rfl : body = .seq (.token k) rest := by simpa using heq
      exact hreach ▸ hc.lead rfl k rest (.inl rfl) lx hlx hk
    | @while_more d g body parent s m _ o h₁ h₂ =>
      rw [Pattern.after] at hafter
      split at hafter
      · rename_i hloop
        obtain rfl := Option.some.inj hafter
        obtain ⟨κ₂, hbody⟩ := Option.isSome_iff_exists.1 hloop
        have hca := hcover List.mem_cons_self h₁ (by simp) hfit knows_nothing hbody
        have hcb := hcover (List.mem_cons_of_mem _ List.mem_cons_self) h₂ ho (fit_result h₁ hfit)
          knows_nothing (by rw [Pattern.after, if_pos hloop])
        exact ⟨Nat.le_trans hca.le hcb.le,
          course_held_two hresult hds hca hcb h₂ rfl rfl fun _ => rfl, hcb.knows, by simp⟩
      · cases hafter
    | @while_stop d g body parent s t o h ho' =>
      rw [Pattern.after] at hafter
      split at hafter
      · rename_i hloop
        obtain ⟨κ₂, hbody⟩ := Option.isSome_iff_exists.1 hloop
        have hc := hcover List.mem_cons_self h ho hfit knows_nothing hbody
        exact ⟨hc.le, course_held_one hresult hds hc rfl rfl (hc.held_end h) fun _ => hc.held_end h,
          fun hm => absurd hm ho', by simp⟩
      · cases hafter
    | @rule d p body parent q s s' m _ hp hs hreach h hpos' hreach' =>
      have hbody : body.after κ = some κ' := by
        obtain ⟨l, rfl | rfl⟩ := hp <;> exact hafter
      have hc := hcover List.mem_cons_self h (by simp) (hreach ▸ hfit) (hknows.of_eq hs hreach) hbody
      refine ⟨by simpa [hs, hpos'] using hc.le, course_held_one hresult hds hc hs hreach'
        (.inr ⟨rfl, Nat.le_refl _⟩) (fun _ => .inr ⟨rfl, Nat.le_of_eq hpos'.symm⟩),
        fun _ => (hc.knows rfl).of_eq hpos' hreach', by simp⟩
    | @rule_back d p body parent q s s' m _ o hp hs hreach h ho' hpos' hreach' =>
      have hbody : body.after κ = some κ' := by
        obtain ⟨l, rfl | rfl⟩ := hp <;> exact hafter
      have hc := hcover List.mem_cons_self h ho (hreach ▸ hfit) (hknows.of_eq hs hreach) hbody
      have hseen : t.reach.Seen s.pos := hreach' ▸ hs ▸ hc.held_start.seen ho'
      refine ⟨Nat.le_of_eq hpos'.symm, course_held_one hresult hds hc hs hreach'
        (.inl (hpos' ▸ hseen)) (fun hm => absurd hm ho'), fun hm => absurd hm ho', ?_⟩
      rintro - k rest heq
      obtain ⟨l, rfl | rfl⟩ := hp <;> simp at heq
    | @call d phrase parent s t o h =>
      cases hafter
      obtain ⟨κ₂, hphrase⟩ := Option.isSome_iff_exists.1 (grammar_after phrase)
      have hc := hcover List.mem_cons_self h ho hfit knows_nothing hphrase
      exact ⟨hc.le, course_held_one hresult hds hc rfl rfl (hc.held_end h) fun _ => hc.held_end h,
        fun _ => knows_nothing, by simp⟩

end Call

/-! ## Parsers -/

namespace Parser

variable {p q : Parser}

/-- A pattern for a whole source that does not match has been matched to its end. -/
theorem tryRoot_fails {pattern : Pattern} (h : p.tryRoot pattern = .ok (false, q)) :
    ∃ o, Call.result p.tokens ⟨depthBound p.tokens, pattern, none, p.state⟩ = .ok (o, q.state) ∧
      o ≠ .matched ∧ q = { p with state := q.state } := by
  obtain ⟨⟨o, t⟩, hrun, h⟩ := ok_of_bind h
  obtain ⟨hfound, rfl⟩ := Prod.mk.inj (Except.ok.inj h)
  exact ⟨o, hrun, by simpa using hfound, rfl⟩

/-- A parser that rejects its tokens has matched both patterns for a whole source to the end. -/
theorem parse_rejects {e : ParseError} (hp : p.state.Sound p.tokens) (hend : EndsInEof p.tokens)
    (hq : p.parse = .ok (.error e, q)) :
    ∃ t, p.programCall.result p.tokens = .ok (.failed, t) ∧
      (p.loneNameCall t).result p.tokens = .ok (.failed, q.state) ∧
      e = failure { p with state := q.state } := by
  rcases parse_cases hq with ⟨-, hfinish⟩ | ⟨q', hprogram, ⟨-, hfinish⟩ | ⟨hname, he⟩⟩
  · obtain ⟨-, n, hr, -⟩ := finish_eq hfinish
    cases hr
  · obtain ⟨-, n, hr, -⟩ := finish_eq hfinish
    cases hr
  · obtain ⟨o, hresult, ho, hq'⟩ := tryRoot_fails hprogram
    have hsettled := (visits_settled hp hend .program).1
    have hsettled' := (visits_settled hp hend (.loneName hresult ho)).1
    rw [hq'] at hname
    obtain ⟨o', hresult', ho', hend⟩ := tryRoot_fails hname
    refine ⟨q'.state, ?_, ?_, ?_⟩
    · cases o with
      | failed => exact hresult
      | matched => exact absurd rfl ho
      | exhausted => exact absurd hresult (hsettled _)
    · cases o' with
      | failed => exact hresult'
      | matched => exact absurd rfl ho'
      | exhausted => exact absurd hresult' (hsettled' _)
    · cases he
      exact congrArg failure hend

theorem reaches_at {s : Match.State} (h : p.Reaches s) : ∃ c ∈ p.trail, c.At p.tokens s.pos := by
  cases h with
  | before h => exact ⟨_, visits_iff.1 h, .inl rfl⟩
  | after h ht => exact ⟨_, visits_iff.1 h, .inr ⟨_, _, ht, rfl⟩⟩

theorem misses_visited {m : Nat × Kind} (h : m ∈ p.misses) :
    ∃ c, p.Visits c ∧ c.state.pos = m.1 := by
  obtain ⟨c, hc, hm⟩ := List.mem_flatMap.1 h
  refine ⟨c, visits_iff.2 hc, ?_⟩
  unfold Call.misses at hm
  split at hm
  · split at hm
    · obtain ⟨k, -, rfl⟩ := List.mem_map.1 hm
      rfl
    · cases hm
  · cases hm

/-- The cursor is never beyond a token at which something was looked for in vain, if a parser that
knows of none rejects its tokens. -/
theorem reject_seen {t u : Match.State} (hfit : p.state.reach.Fit)
    (hprogram : p.programCall.result p.tokens = .ok (.failed, t))
    (hname : (p.loneNameCall t).result p.tokens = .ok (.failed, u)) :
    u.reach = p.state.reach.missAll p.misses ∧ ∀ s, p.Reaches s → u.reach.Seen s.pos := by
  have hknown : (Grammar.program.after .nothing).isSome := entry_after (by simp)
  have hknown' : (Grammar.loneName.after .nothing).isSome := entry_after (by simp)
  obtain ⟨κ, hκ⟩ := Option.isSome_iff_exists.1 hknown
  obtain ⟨κ', hκ'⟩ := Option.isSome_iff_exists.1 hknown'
  have hcovers := Call.covers_of_result hprogram (by simp) hfit knows_nothing hκ
  have hcovers' := Call.covers_of_result hname (by simp) (Call.fit_result hprogram hfit)
    knows_nothing hκ'
  have hreach : t.reach = p.state.reach.missAll _ := Call.reach_of_course hprogram
  have hreach' : u.reach = t.reach.missAll _ := Call.reach_of_course hname
  refine ⟨?_, fun s hs => ?_⟩
  · rw [hreach', hreach, ← missAll_append]
    simp [misses, trail, hprogram, Except.toOption]
  · obtain ⟨c, hc, hat⟩ := reaches_at hs
    rcases mem_trail.1 hc with hc | ⟨o, t', hresult, -, hc⟩
    · have hseen := (hcovers.course c hc _ hat).seen (by simp)
      exact Call.seen_result hname hseen
    · cases hprogram.symm.trans hresult
      exact (hcovers'.course c hc _ hat).seen (by simp)

end Parser

/-! ## Main statement -/

/-- The token of a syntax error is the one at the largest cursor that came up in parsing. The expected
kinds, of which there is one at least, are those that were looked for there in vain, each once and in
the order in which they were first looked for. -/
theorem error_at_furthest {name : String} {tokens : List Lexeme} {p q : Parser} {e : ParseError}
    (hp : Parser.start? name tokens = some p) (hq : p.parse = .ok (.error e, q)) :
    let i := q.state.reach.furthest
    IsGreatest {j | ∃ s, p.Reaches s ∧ s.pos = j} i ∧ tokens[i]? = some e.found ∧
      e.expected = ((p.misses.filter (·.1 == i)).map (·.2)).eraseDups ∧ e.expected ≠ [] ∧
      e.expected.Nodup := by
  intro i
  have hsound := Parser.start_sound hp
  obtain ⟨t, hprogram, hname, rfl⟩ := Parser.parse_rejects hsound (Parser.start_endsInEof hp) hq
  obtain rfl := start_eq hp
  obtain ⟨hreach, hseen⟩ := Parser.reject_seen (fun _ => rfl) hprogram hname
  obtain ⟨-, hexpected, hnodup⟩ := Match.Reach.missAll_expected
    (Parser.misses { source := name, tokens := tokens.toArray })
  rw [← hreach] at hexpected hnodup
  have hne := (hseen _ (.before .program)).tried
  -- A token that something was looked for at is one that the cursor was at.
  have hcursor : ∃ s, Parser.Reaches { source := name, tokens := tokens.toArray } s ∧ s.pos = i := by
    obtain ⟨k, hk⟩ := List.exists_mem_of_ne_nil _ hne
    rw [hexpected, List.mem_eraseDups] at hk
    obtain ⟨m, hm, -⟩ := List.mem_map.1 hk
    obtain ⟨hm, hi⟩ := List.mem_filter.1 hm
    obtain ⟨c, hc, hpos⟩ := Parser.misses_visited hm
    exact ⟨c.state, .before hc, hpos.trans (by simpa using hi)⟩
  refine ⟨⟨hcursor, ?_⟩, ?_, hexpected, hne, hnodup⟩
  · rintro j ⟨s, hs, rfl⟩
    exact (hseen s hs).le
  · obtain ⟨s, hs, hpos⟩ := hcursor
    have hinside : i < tokens.length := by
      rw [← hpos]
      simpa using (Parser.reaches_sound hsound hs).inside
    have hmin : min i (tokens.length - 1) = i := by omega
    simp [Parser.failure, i, hmin, hinside]

/-- A common block with a comma that nothing follows: the cursor comes to the end of the line, where
only a name is looked for. -/
theorem error_at_furthest_common :
    let tokens : List Lexeme := [⟨.keyword .COMMON, "COMMON", none, 1, 7⟩, ⟨.name, "A", none, 1, 14⟩,
      ⟨.comma, ",", none, 1, 15⟩, ⟨.newline, "\n", none, 1, 16⟩, .endOfSource 2 1]
    let p : Parser := { source := "", tokens := tokens.toArray }
    Parser.start? "" tokens = some p ∧ ∃ e q, p.parse = .ok (.error e, q) ∧
      q.state.reach.furthest = 3 ∧ tokens[3]? = some e.found ∧ e.expected = [.name] ∧
      IsGreatest {j | ∃ s, p.Reaches s ∧ s.pos = j} 3 := by
  intro tokens p
  have hp : Parser.start? "" tokens = some p := rfl
  have hcheck : (p.parse.toOption.any fun r => r.1.toOption.isNone &&
      r.2.state.reach.furthest == 3 && r.2.state.reach.expected == [.name]) = true := by
    decide +kernel
  obtain ⟨r, q, hq⟩ := Parser.parse_ends (Parser.start_sound hp)
  simp only [hq, Except.toOption, Option.any_some, Bool.and_eq_true, beq_iff_eq,
    Option.isNone_iff_eq_none] at hcheck
  obtain ⟨⟨hnone, hfurthest⟩, hexpected⟩ := hcheck
  cases r with
  | ok n => cases hnone
  | error e =>
    obtain ⟨t, -, -, he⟩ := Parser.parse_rejects (Parser.start_sound hp) (Parser.start_endsInEof hp) hq
    obtain ⟨hgreatest, hfound, -⟩ := error_at_furthest hp hq
    rw [hfurthest] at hgreatest hfound
    exact ⟨hp, e, q, hq, hfurthest, hfound, he ▸ hexpected, hgreatest⟩

end FortranJulia
