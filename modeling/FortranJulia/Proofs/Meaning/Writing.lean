import FortranJulia.Lowering.Expression
import FortranJulia.Proofs.Lowering.Names
import FortranJulia.Proofs.Meaning.Fortran
import FortranJulia.Proofs.Meaning.Reading
import FortranJulia.Proofs.Parsing.Expressions

/-!
The values of written expressions. `Writes` says that the text of an expression is read as a term of
a level and has a value; every form of expression that lowering builds is shown to keep it. A sign is
written in front of a product without parentheses, where it is read as the sign of the first factor
alone: the product has the same value.
-/

namespace FortranJulia

set_option autoImplicit false

open Julia (Expr Token Term Sign Lexes Cuts Spells)

/-! ## Texts -/

theorem toList_pair (a b : String) :
    (Expr.separated ", " [a, b]).toList = a.toList ++ ([',', ' '] ++ b.toList) := by
  simp [Expr.separated]

theorem toList_paren (e : Expr) :
    (Expr.paren e).text.toList = ['('] ++ (e.text.toList ++ [')']) := by
  show ("(" ++ e.text ++ ")").toList = _
  simp

theorem toList_operation (op : String) (l r : Expr) : (Expr.operation op l r).text.toList =
    l.text.toList ++ (' ' :: (op.toList ++ (' ' :: r.text.toList))) := by
  show (l.text ++ " " ++ op ++ " " ++ r.text).toList = _
  simp

theorem toList_signed (c : Char) (e : Expr) :
    (Expr.signed (String.singleton c) e).text.toList = c :: e.text.toList := by
  show (String.singleton c ++ e.text).toList = _
  simp

theorem toList_call (f : String) (e : Expr) :
    (Expr.call f [e]).text.toList = f.toList ++ (['('] ++ (e.text.toList ++ [')'])) := by
  show (f ++ "(" ++ Expr.separated ", " [e.text] ++ ")").toList = _
  simp [Expr.separated]

theorem toList_call_pair (f : String) (l r : Expr) : (Expr.call f [l, r]).text.toList =
    f.toList ++ (['('] ++ ((l.text.toList ++ ([',', ' '] ++ r.text.toList)) ++ [')'])) := by
  show (f ++ "(" ++ Expr.separated ", " [l.text, r.text] ++ ")").toList = _
  simp [toList_pair]

theorem toList_typedCall (f t : String) (e : Expr) : (Expr.typedCall f t [e]).text.toList =
    f.toList ++ (['('] ++ ((t.toList ++ ([',', ' '] ++ e.text.toList)) ++ [')'])) := by
  show (f ++ "(" ++ t ++ ", " ++ Expr.separated ", " [e.text] ++ ")").toList = _
  simp [Expr.separated]

theorem toList_negations (n : Nat) :
    (String.join (List.replicate n "!")).toList = List.replicate n '!' := by
  induction n with
  | zero => rfl
  | succ n ih => rw [List.replicate_succ, String.join_cons, String.toList_append, ih]; rfl

namespace BinaryOp

/-- The sign an operation is written with. -/
def sign : BinaryOp → Sign
  | .or => .or
  | .and => .and
  | .eq => .eq
  | .ne => .ne
  | .lt => .lt
  | .le => .le
  | .gt => .gt
  | .ge => .ge
  | .concat => .times
  | .add => .plus
  | .subtract => .minus
  | .multiply => .times
  | .divide => .over
  | .power => .power

/-- An operator with a blank behind it is one sign. -/
theorem cuts_julia (op : BinaryOp) : Cuts (op.julia.toList ++ [' ']) [.sign op.sign] := by
  have hshort : ∀ (c : Char) (s : Sign), Julia.continues [] c = false →
      Julia.single c = some [.sign s] → Julia.longSign? c ' ' = none → Cuts [c, ' '] [.sign s] := by
    intro c s hc hs hlong rest
    have hnext : ∀ d, (' ' :: rest).head? = some d → Julia.longSign? c d = none := by
      rintro d ⟨⟩
      exact hlong
    rw [List.cons_append, List.cons_append, List.nil_append, Julia.tokensFrom_single hc hs hnext,
      Julia.tokensFrom_single rfl rfl (by intro d _; rfl)]
    simp
  have hlong : ∀ (c d : Char) (s : Sign), Julia.continues [] c = false →
      Julia.longSign? c d = some s → Cuts [c, d, ' '] [.sign s] := by
    intro c d s hc hs rest
    rw [List.cons_append, List.cons_append, List.cons_append, List.nil_append,
      Julia.tokensFrom_long hc hs, Julia.tokensFrom_single rfl rfl (by intro d _; rfl)]
    simp
  cases op with
  | or | and | eq | ne | le | ge => exact hlong _ _ _ rfl rfl
  | lt | gt | concat | add | subtract | multiply | divide | power => exact hshort _ _ rfl rfl rfl

end BinaryOp

/-! ## Quantities -/

namespace Quantity

/-- Two integers. -/
def areIntegers : Quantity → Quantity → Bool
  | .integer _, .integer _ => true
  | _, _ => false

/-- A quotient that is not one of integers is exact. -/
theorem quotient_exact (p : Powers) {a b : Quantity} (h : areIntegers a b = false) :
    quotient a b = Sign.operate p .over a b := by
  cases a with
  | integer m =>
    cases b with
    | integer n => cases h
    | real | logical => rfl
  | real | logical => cases b <;> rfl

/-- A quotient is one of numbers, the second of them not zero. -/
theorem over_some {p : Powers} {a b v : Quantity} : Sign.operate p .over a b = some v ↔
    ∃ x y, a.number? = some x ∧ b.number? = some y ∧ y ≠ 0 ∧ v = .real (x / y) := by
  constructor
  · intro h
    obtain ⟨x, hx, h⟩ := Option.bind_eq_some_iff.1 h
    obtain ⟨y, hy, h⟩ := Option.bind_eq_some_iff.1 h
    obtain ⟨z, hz, rfl⟩ := Option.map_eq_some_iff.1 h
    rw [exact] at hz
    split at hz
    · cases hz
    · cases hz
      exact ⟨x, y, hx, hy, ‹_›, rfl⟩
  · rintro ⟨x, y, hx, hy, hne, rfl⟩
    simp [Sign.operate, hx, hy, exact, hne]

theorem positive_number {a : Quantity} {x : Rat} (h : a.number? = some x) : positive a = some a := by
  cases a with
  | logical => cases h
  | integer | real => rfl

theorem negative_number {a : Quantity} {x : Rat} (h : a.number? = some x) :
    ∃ a', negative a = some a' ∧ a'.number? = some (-x) := by
  cases a with
  | integer n =>
    cases h
    exact ⟨_, rfl, by simp [number?]⟩
  | real x =>
    cases h
    exact ⟨_, rfl, rfl⟩
  | logical => cases h

/-- A sign of a product is the sign of its first factor. -/
theorem sign_times {s : Sign} (hs : s = .plus ∨ s = .minus) {a b v q : Quantity}
    (hv : times a b = some v) (hq : s.apply v = some q) :
    ∃ a', s.apply a = some a' ∧ times a' b = some q := by
  cases a with
  | logical => cases b <;> cases hv
  | integer m =>
    rcases hs with rfl | rfl
    · exact ⟨_, rfl, by cases b <;> cases hv <;> cases hq <;> rfl⟩
    · refine ⟨.integer (-m), rfl, ?_⟩
      cases b <;> cases hv <;> cases hq <;> simp [times, arithmetic, number?]
  | real x =>
    rcases hs with rfl | rfl
    · exact ⟨_, rfl, by cases b <;> cases hv <;> cases hq <;> rfl⟩
    · refine ⟨.real (-x), rfl, ?_⟩
      cases b <;> cases hv <;> cases hq <;> simp [times, arithmetic, number?]

theorem sign_over {p : Powers} {s : Sign} (hs : s = .plus ∨ s = .minus) {a b v q : Quantity}
    (hv : Sign.operate p .over a b = some v) (hq : s.apply v = some q) :
    ∃ a', s.apply a = some a' ∧ Sign.operate p .over a' b = some q := by
  obtain ⟨x, y, hx, hy, hne, rfl⟩ := over_some.1 hv
  rcases hs with rfl | rfl
  · cases hq
    exact ⟨a, positive_number hx, hv⟩
  · cases hq
    obtain ⟨a', ha', hx'⟩ := negative_number hx
    exact ⟨a', ha', over_some.2 ⟨-x, y, hx', hy, hne, by rw [neg_div]⟩⟩

end Quantity

/-! ## Values of terms -/

section Terms

variable {p : Powers} {names : String → Quantity} {t u : Term} {a b v : Quantity}

/-- An operator that evaluates both operands. -/
theorem value_operator {s : Sign} (hs : s ≠ .and ∧ s ≠ .or) (ht : t.value p names = some a)
    (hu : u.value p names = some b) :
    (Term.binary s t u).value p names = s.operate p a b := by
  have hvalue : (Term.binary s t u).value p names =
      (t.value p names).bind fun q => (u.value p names).bind fun r => s.operate p q r := by
    cases s <;> simp_all [Term.value]
  rw [hvalue, ht, hu, Option.bind_some, Option.bind_some]

/-- A binary operator has the value of its operation, unless that is a quotient of integers. -/
theorem value_binary {op : BinaryOp} (ht : t.value p names = some a) (hu : u.value p names = some b)
    (hop : op.operate p a b = some v) (hdiv : op = .divide → Quantity.areIntegers a b = false) :
    (Term.binary op.sign t u).value p names = some v := by
  cases op with
  | or =>
    cases a <;> cases b <;> simp only [BinaryOp.operate, Quantity.operate, Quantity.connect,
      reduceCtorEq] at hop
    rename_i x y
    cases x <;> simpa [BinaryOp.sign, Term.value, ht, hu] using hop
  | and =>
    cases a <;> cases b <;> simp only [BinaryOp.operate, Quantity.operate, Quantity.connect,
      reduceCtorEq] at hop
    rename_i x y
    cases x <;> simpa [BinaryOp.sign, Term.value, ht, hu] using hop
  | concat => cases hop
  | divide =>
    have hover : Sign.operate p .over a b = some v := by
      rw [← Quantity.quotient_exact p (hdiv rfl)]
      exact hop
    exact (value_operator (by decide) ht hu).trans hover
  | eq | ne | lt | le | gt | ge | add | subtract | multiply | power =>
    exact (value_operator (by decide) ht hu).trans hop

/-- A quotient of integers is cut off by `div`. -/
theorem value_div (ht : t.value p names = some a) (hu : u.value p names = some b)
    (hop : BinaryOp.operate p .divide a b = some v) (hint : Quantity.areIntegers a b) :
    (Term.call₂ "div".toList t u).value p names = some v := by
  cases a <;> cases b <;> simp only [Quantity.areIntegers, Bool.false_eq_true] at hint
  unfold Term.value
  rw [if_pos rfl, ht, hu]
  exact hop

end Terms

/-! ## Expressions -/

/-- The level at which Julia reads what FORTRAN reads at a level. -/
def juliaLevel : Nat → Nat
  | 0 => 0
  | 1 => 1
  | 2 | 3 => 2
  | 4 | 5 => 3
  | 6 => 4
  | 7 => 6
  | _ => 7

/-- The text of an expression is read as a term of a level with a value. Where a product may stand,
the text with a sign in front is read as one with the value that the sign gives. -/
def Writes (p : Powers) (names : String → Quantity) (k : Nat) (e : Expr) (v : Quantity) : Prop :=
  ∃ ts t, Lexes e.text.toList ts ∧ e.text.toList ≠ [] ∧ e.text.toList.head? ≠ some '=' ∧
    Spells (juliaLevel k) ts t ∧ t.value p names = some v ∧
    (6 ≤ k → ∀ s, s = .plus ∨ s = .minus → ∀ q, s.apply v = some q →
      ∃ t', Spells 4 (.sign s :: ts) t' ∧ t'.value p names = some q)

section Writing

variable {p : Powers} {names : String → Quantity} {k : Nat} {e l r : Expr} {a b v : Quantity}

/-- What is read at a level is read at every weaker one. -/
theorem spells_weaker {i j : Nat} (hij : i ≤ j) {ts : List Token} {t : Term} (h : Spells j ts t) :
    Spells i ts t := by
  induction j with
  | zero => rwa [Nat.le_zero.1 hij]
  | succ j ih =>
    by_cases heq : i = j + 1
    · rwa [heq]
    · exact ih (by omega) (.lift h)

/-- A sign in front of an operand that binds more tightly than signs. -/
theorem signed_operand {j : Nat} (hj : 5 ≤ j) {ts : List Token} {t : Term} (h : Spells j ts t)
    (hv : t.value p names = some v) : ∀ s : Sign, s = .plus ∨ s = .minus → ∀ q, s.apply v = some q →
      ∃ t', Spells 4 (.sign s :: ts) t' ∧ t'.value p names = some q := by
  intro s hs q hq
  refine ⟨.unary s t, .lift (.unary ?_ (spells_weaker hj h)), ?_⟩
  · rcases hs with rfl | rfl <;> rfl
  · rw [Term.value, hv, Option.bind_some, hq]

theorem Writes.valueOf (h : Writes p names k e v) : Julia.valueOf p names e.text = some v := by
  obtain ⟨ts, t, hlex, -, -, hspells, hv, -⟩ := h
  rw [Julia.valueOf_spells hlex (spells_weaker (Nat.zero_le _) hspells), hv]

theorem Writes.lift (h : Writes p names (k + 1) e v) : Writes p names k e v := by
  obtain ⟨ts, t, hlex, hne, hfirst, hspells, hv, hsigned⟩ := h
  refine ⟨ts, t, hlex, hne, hfirst, ?_, hv, fun hk => hsigned (by omega)⟩
  match k, hspells with
  | 0, h | 1, h | 3, h | 5, h => exact .lift h
  | 2, h | 4, h => exact h
  | 6, h => exact .lift (.lift h)
  | 7, h => exact .lift h
  | _ + 8, h => exact h

theorem Writes.weaker {j : Nat} (h : Writes p names k e v) (hjk : j ≤ k) : Writes p names j e v := by
  induction k with
  | zero => rwa [Nat.le_zero.1 hjk]
  | succ k ih =>
    by_cases heq : j = k + 1
    · rwa [heq]
    · exact ih h.lift (by omega)

/-- An operand that is a single word, number, call or group. -/
theorem writes_atom {ts : List Token} {t : Term} (hlex : Lexes e.text.toList ts)
    (hne : e.text.toList ≠ []) (hfirst : e.text.toList.head? ≠ some '=') (hspells : Spells 7 ts t)
    (hv : t.value p names = some v) : Writes p names 8 e v :=
  ⟨ts, t, hlex, hne, hfirst, hspells, hv, fun _ => signed_operand (by decide) hspells hv⟩

theorem head_append {xs ys : List Char} (h : xs ≠ []) : (xs ++ ys).head? = xs.head? := by
  cases xs with
  | nil => exact absurd rfl h
  | cons => rfl

theorem writes_group (h : Writes p names 0 e v) : Writes p names 8 (.paren e) v := by
  obtain ⟨ts, t, hlex, -, -, hspells, hv, -⟩ := h
  refine writes_atom (toList_paren e ▸ Julia.lexes_group hlex) ?_ ?_ (.group hspells) hv
  · simp
  · simp

/-- The text of an operation. -/
theorem lexes_written {ts us : List Token} (op : BinaryOp) (hl : Lexes l.text.toList ts)
    (hr : Lexes r.text.toList us) :
    Lexes (Expr.operation op.julia l r).text.toList (ts ++ .sign op.sign :: us) := by
  rw [toList_operation]
  exact Julia.lexes_operation hl op.cuts_julia hr

theorem operation_head (op : String) (hne : l.text.toList ≠ []) :
    (Expr.operation op l r).text.toList ≠ [] ∧
      (Expr.operation op l r).text.toList.head? = l.text.toList.head? := by
  rw [toList_operation, head_append hne]
  exact ⟨by simp [hne], rfl⟩

theorem lexes_isWord {w : List Char} (hw : Julia.IsWord w) : Lexes w [.word w] :=
  Julia.lexes_word hw.ne_nil hw.chars hw.first

theorem writes_word {w : String} (htext : e.text = w) (hw : Julia.IsWord w.toList)
    (hv : (Term.name w.toList).value p names = some v) : Writes p names 8 e v := by
  subst htext
  refine writes_atom (lexes_isWord hw) hw.ne_nil ?_ (.name _) hv
  intro hhead
  have hword := hw.chars '=' (List.mem_of_mem_head? hhead)
  cases hword

theorem writes_name {w : String} (hw : Julia.IsWord w.toList) (htrue : w ≠ "true")
    (hfalse : w ≠ "false") (hv : names w = v) : Writes p names 8 (.name w) v := by
  refine writes_word (w := w) rfl hw ?_
  have htrue' : w.toList ≠ "true".toList := fun h => htrue (String.toList_inj.1 h)
  have hfalse' : w.toList ≠ "false".toList := fun h => hfalse (String.toList_inj.1 h)
  rw [Term.value, if_neg htrue', if_neg hfalse', String.ofList_toList, hv]

theorem writes_truth (b : Bool) : Writes p names 8 (.truth b) (.logical b) := by
  cases b with
  | true => exact writes_word (w := "true") rfl (Julia.isWord_of_check rfl) rfl
  | false => exact writes_word (w := "false") rfl (Julia.isWord_of_check rfl) rfl

theorem writes_integer {ds : String} (hne : ds.toList ≠ []) (hds : ∀ d ∈ ds.toList, Decimal.isDigit d) :
    Writes p names 8 (.number ds) (.integer (Decimal.ofDigits ds.toList)) := by
  refine writes_atom (Julia.lexes_digits hne hds) hne ?_ (.literal _) rfl
  intro hhead
  have hdigit := hds '=' (List.mem_of_mem_head? hhead)
  cases hdigit

/-- A quotient of integers. -/
theorem writes_div (hl : Writes p names 0 l a) (hr : Writes p names 0 r b)
    (hop : BinaryOp.operate p .divide a b = some v) (hint : Quantity.areIntegers a b) :
    Writes p names 8 (.call "div" [l, r]) v := by
  obtain ⟨ts, t, hlex, -, -, hspells, ht, -⟩ := hl
  obtain ⟨us, u, hlex', -, -, hspells', hu, -⟩ := hr
  have htext := toList_call_pair "div" l r
  have hdiv : Lexes "div".toList [.word "div".toList] := lexes_isWord (Julia.isWord_of_check rfl)
  refine writes_atom (htext ▸ Julia.lexes_call hdiv (Julia.lexes_pair hlex hlex')) ?_ ?_ ?_
    (value_div ht hu hop hint)
  · rw [htext]
    exact List.cons_ne_nil _ _
  · rw [htext]
    exact fun h => by cases h
  · have h := Spells.call₂ "div".toList hspells hspells'
    simpa using h

/-- The text of an exponent is read as a term that may have a sign in front. -/
def WritesExponent (p : Powers) (names : String → Quantity) (e : Expr) (v : Quantity) : Prop :=
  ∃ ts t, Lexes e.text.toList ts ∧ Spells 5 ts t ∧ t.value p names = some v

theorem Writes.exponent (h : Writes p names 7 e v) : WritesExponent p names e v := by
  obtain ⟨ts, t, hlex, -, -, hspells, hv, -⟩ := h
  exact ⟨ts, t, hlex, .lift hspells, hv⟩

theorem lexes_signed {s : Sign} {c : Char} (hs : s = .plus ∧ c = '+' ∨ s = .minus ∧ c = '-')
    {cs : List Char} {ts : List Token} (h : Lexes cs ts) : Lexes (c :: cs) (.sign s :: ts) := by
  rcases hs with ⟨rfl, rfl⟩ | ⟨rfl, rfl⟩
  · exact Julia.cuts_plus.lexes h
  · exact Julia.cuts_minus.lexes h

theorem Writes.exponent_signed {s : Sign} {c : Char}
    (hs : s = .plus ∧ c = '+' ∨ s = .minus ∧ c = '-') (h : Writes p names 7 e v) {q : Quantity}
    (hq : s.apply v = some q) : WritesExponent p names (.signed (String.singleton c) e) q := by
  obtain ⟨ts, t, hlex, -, -, hspells, hv, -⟩ := h
  refine ⟨.sign s :: ts, .unary s t, ?_, .unary ?_ (.lift hspells), ?_⟩
  · rw [toList_signed]
    exact lexes_signed hs hlex
  · rcases hs with ⟨rfl, -⟩ | ⟨rfl, -⟩ <;> rfl
  · rw [Term.value, hv, Option.bind_some, hq]

theorem writes_power (hl : Writes p names 8 l a) (hr : WritesExponent p names r b)
    (hop : BinaryOp.operate p .power a b = some v) :
    Writes p names 7 (.operation BinaryOp.power.julia l r) v := by
  obtain ⟨ts, t, hlex, hne, hfirst, hspells, ht, -⟩ := hl
  obtain ⟨us, u, hlex', hspells', hu⟩ := hr
  have hspells'' : Spells 6 (ts ++ .sign .power :: us) (.binary .power t u) := .power hspells hspells'
  have hv : (Term.binary .power t u).value p names = some v :=
    value_binary ht hu hop (fun h => by cases h)
  obtain ⟨hne', hhead⟩ := operation_head (r := r) BinaryOp.power.julia hne
  exact ⟨_, _, lexes_written .power hlex hlex', hne', by rwa [hhead], hspells'', hv,
    fun _ => signed_operand (by decide) hspells'' hv⟩

/-- An operation that groups to the left, other than a product. -/
theorem writes_left {op : BinaryOp} {j : Nat} (hbinding : op.sign.binding? = some (juliaLevel j))
    (hj : juliaLevel j ∈ [0, 1, 3, 4]) (hnext : juliaLevel (j + 1) = juliaLevel j + 1) (hj' : j < 6)
    (hl : Writes p names j l a) (hr : Writes p names (j + 1) r b) (hop : op.operate p a b = some v)
    (hdiv : op ≠ .divide) : Writes p names j (.operation op.julia l r) v := by
  obtain ⟨ts, t, hlex, hne, hfirst, hspells, ht, -⟩ := hl
  obtain ⟨us, u, hlex', -, -, hspells', hu, -⟩ := hr
  rw [hnext] at hspells'
  obtain ⟨hne', hhead⟩ := operation_head (r := r) op.julia hne
  exact ⟨_, _, lexes_written op hlex hlex', hne', by rwa [hhead],
    .left hbinding hj hspells hspells', value_binary ht hu hop (fun h => absurd h hdiv),
    fun h => by omega⟩

theorem writes_comparison {op : BinaryOp} (hbinding : op.sign.binding? = some 2)
    (hl : Writes p names 4 l a) (hr : Writes p names 4 r b) (hop : op.operate p a b = some v)
    (hdiv : op ≠ .divide) : Writes p names 3 (.operation op.julia l r) v := by
  obtain ⟨ts, t, hlex, hne, hfirst, hspells, ht, -⟩ := hl
  obtain ⟨us, u, hlex', -, -, hspells', hu, -⟩ := hr
  obtain ⟨hne', hhead⟩ := operation_head (r := r) op.julia hne
  exact ⟨_, _, lexes_written op hlex hlex', hne', by rwa [hhead],
    .comparison hbinding hspells hspells', value_binary ht hu hop (fun h => absurd h hdiv),
    fun h => by omega⟩

/-- A product or an exact quotient. A sign in front of it goes to the first factor. -/
theorem writes_product {op : BinaryOp} (hmul : op = .multiply ∨ op = .divide)
    (hl : Writes p names 6 l a) (hr : Writes p names 7 r b) (hop : op.operate p a b = some v)
    (hdiv : op = .divide → Quantity.areIntegers a b = false) :
    Writes p names 6 (.operation op.julia l r) v := by
  obtain ⟨ts, t, hlex, hne, hfirst, hspells, ht, hsigned⟩ := hl
  obtain ⟨us, u, hlex', -, -, hspells', hu, -⟩ := hr
  obtain ⟨hne', hhead⟩ := operation_head (r := r) op.julia hne
  have hbinding : op.sign.binding? = some 4 := by rcases hmul with rfl | rfl <;> rfl
  refine ⟨_, _, lexes_written op hlex hlex', hne', by rwa [hhead],
    .left hbinding (by decide) hspells (.lift hspells'), value_binary ht hu hop hdiv, ?_⟩
  intro _ s hs q hq
  -- The value of the operation in Julia, which is exact for both.
  have hoperate : op.sign.operate p a b = some v := by
    rcases hmul with rfl | rfl
    · exact hop
    · exact (Quantity.quotient_exact p (hdiv rfl)).symm.trans hop
  obtain ⟨a', ha', hq'⟩ : ∃ a', s.apply a = some a' ∧ op.sign.operate p a' b = some q := by
    rcases hmul with rfl | rfl
    · exact Quantity.sign_times hs hoperate hq
    · exact Quantity.sign_over hs hoperate hq
  obtain ⟨t', hspells'', ht'⟩ := hsigned (by decide) s hs a' ha'
  refine ⟨.binary op.sign t' u, ?_, ?_⟩
  · rw [← List.cons_append]
    exact .left hbinding (by decide) hspells'' (.lift hspells')
  · have hno : op.sign ≠ .and ∧ op.sign ≠ .or := by rcases hmul with rfl | rfl <;> decide
    rw [value_operator hno ht' hu, hq']

/-- A sign in front of a product. -/
theorem writes_signed {s : Sign} {c : Char} (hs : s = .plus ∧ c = '+' ∨ s = .minus ∧ c = '-')
    (h : Writes p names 6 e v) {q : Quantity} (hq : s.apply v = some q) :
    Writes p names 5 (.signed (String.singleton c) e) q := by
  obtain ⟨ts, t, hlex, hne, hfirst, hspells, ht, hsigned⟩ := h
  have hs' : s = .plus ∨ s = .minus := hs.imp And.left And.left
  obtain ⟨t', hspells', ht'⟩ := hsigned (Nat.le_refl 6) s hs' q hq
  refine ⟨.sign s :: ts, t', ?_, ?_, ?_, .lift hspells', ht', fun h => by omega⟩
  · rw [toList_signed]
    exact lexes_signed hs hlex
  · rw [toList_signed]
    exact List.cons_ne_nil _ _
  · rw [toList_signed]
    rcases hs with ⟨rfl, rfl⟩ | ⟨rfl, rfl⟩ <;> exact fun h => by cases h

/-- A quotient is a call of `div` exactly if both operands are integers. -/
theorem writes_quotient (hl : Writes p names 6 l a) (hr : Writes p names 7 r b)
    (hop : BinaryOp.operate p .divide a b = some v) :
    Writes p names 6 (combine .divide (some a.type) (some b.type) l r) v := by
  by_cases hint : Quantity.areIntegers a b
  · have hdiv : combine .divide (some a.type) (some b.type) l r = .call "div" [l, r] := by
      cases a <;> cases b <;> first | rfl | cases hint
    rw [hdiv]
    exact (writes_div (hl.weaker (by decide)) (hr.weaker (by decide)) hop hint).weaker (by decide)
  · have hdiv : combine .divide (some a.type) (some b.type) l r =
        .operation BinaryOp.divide.julia l r := by
      cases a <;> cases b <;> first | rfl | exact absurd rfl hint
    rw [hdiv]
    exact writes_product (.inr rfl) hl hr hop (fun _ => by simpa using hint)

/-- An operation that groups to the left. -/
theorem writes_combine {op : BinaryOp} (hlevel : op.level ∉ [3, 7]) (hl : Writes p names op.level l a)
    (hr : Writes p names (op.level + 1) r b) (hop : op.operate p a b = some v) :
    Writes p names op.level (combine op (some a.type) (some b.type) l r) v := by
  cases op with
  | divide => exact writes_quotient hl hr hop
  | concat => cases hop
  | multiply => exact writes_product (.inl rfl) hl hr hop (fun h => by cases h)
  | or | and | add | subtract =>
    exact writes_left (by rfl) (by decide) rfl (by decide) hl hr hop (by decide)
  | eq | ne | lt | le | gt | ge | power => exact absurd (by decide) hlevel

theorem writes_relation {op : BinaryOp} (hlevel : op.level = 3) (hl : Writes p names 4 l a)
    (hr : Writes p names 4 r b) (hop : op.operate p a b = some v) :
    Writes p names 3 (combine op (some a.type) (some b.type) l r) v := by
  cases op with
  | eq | ne | lt | le | gt | ge => exact writes_comparison (by rfl) hl hr hop (by decide)
  | or | and | concat | add | subtract | multiply | divide | power => cases hlevel

/-- A number of negations in front of an operand. -/
theorem spells_negations {ts : List Token} {t : Term} (h : Spells 5 ts t)
    (hv : t.value p names = some v) (n : Nat) : ∀ q, Quantity.opposites n v = some q →
      ∃ t', Spells 5 (List.replicate n (Token.sign .not) ++ ts) t' ∧ t'.value p names = some q := by
  induction n with
  | zero =>
    intro q hq
    cases hq
    exact ⟨t, h, hv⟩
  | succ n ih =>
    intro q hq
    rw [Quantity.opposites, Option.bind_eq_some_iff] at hq
    obtain ⟨q', hq', hopposite⟩ := hq
    obtain ⟨t', hspells, ht'⟩ := ih q' hq'
    refine ⟨.unary .not t', .unary rfl hspells, ?_⟩
    rw [Term.value, ht', Option.bind_some]
    exact hopposite

theorem writes_negated (n : Nat) (h : Writes p names 8 e v) {q : Quantity}
    (hq : Quantity.opposites (n + 1) v = some q) : Writes p names 2 (.negated (n + 1) e) q := by
  obtain ⟨ts, t, hlex, hne, hfirst, hspells, ht, -⟩ := h
  have htext : (Expr.negated (n + 1) e).text.toList =
      List.replicate (n + 1) '!' ++ e.text.toList := by
    show (String.join (List.replicate (n + 1) "!") ++ e.text).toList = _
    rw [String.toList_append, toList_negations]
  obtain ⟨t', hspells', ht'⟩ :=
    spells_negations (spells_weaker (by decide) hspells) ht (n + 1) q hq
  refine ⟨_, t', htext ▸ Julia.lexes_negations hlex hne hfirst (n + 1), ?_, ?_,
    spells_weaker (by decide) hspells', ht', fun h => by omega⟩
  · rw [htext]
    exact List.cons_ne_nil _ _
  · rw [htext]
    exact fun h => by cases h

/-! ## Conversions -/

theorem writes_float (h : Writes p names 0 e v) {q : Quantity} (hq : v.toReal = some q) :
    Writes p names 8 (.call "float" [e]) q := by
  obtain ⟨ts, t, hlex, -, -, hspells, ht, -⟩ := h
  have htext := toList_call "float" e
  have hfloat : Lexes "float".toList [.word "float".toList] :=
    lexes_isWord (Julia.isWord_of_check rfl)
  refine writes_atom (htext ▸ Julia.lexes_call hfloat hlex) ?_ ?_ (.call _ hspells) ?_
  · rw [htext]
    exact List.cons_ne_nil _ _
  · rw [htext]
    exact fun h => by cases h
  · rw [Term.value, if_pos rfl, ht]
    exact hq

/-- A real cut off. -/
theorem writes_trunc (h : Writes p names 0 e v) {q : Quantity} (hq : v.toInteger = some q) :
    Writes p names 8 (.typedCall "trunc" "Int" [e]) q := by
  obtain ⟨ts, t, hlex, -, -, hspells, ht, -⟩ := h
  have htext := toList_typedCall "trunc" "Int" e
  have htrunc : Lexes "trunc".toList [.word "trunc".toList] :=
    lexes_isWord (Julia.isWord_of_check rfl)
  have hint : Lexes "Int".toList [.word "Int".toList] := lexes_isWord (Julia.isWord_of_check rfl)
  refine writes_atom (htext ▸ Julia.lexes_call htrunc (Julia.lexes_pair hint hlex)) ?_ ?_
    (.call₂ _ (spells_weaker (by decide) (.name _)) hspells) ?_
  · rw [htext]
    exact List.cons_ne_nil _ _
  · rw [htext]
    exact fun h => by cases h
  · rw [Term.value, if_neg (by decide), if_pos ⟨rfl, rfl⟩, ht]
    exact hq

theorem readDigits_digits (ds : List Char) : ∀ m k, Decimal.readDigits m ds = .ok k →
    ∀ d ∈ ds, Decimal.isDigit d := by
  induction ds with
  | nil => exact fun _ _ _ d hd => absurd hd List.not_mem_nil
  | cons c cs ih =>
    intro m k hread d hd
    rw [Decimal.readDigits] at hread
    split at hread
    · cases hread
    · rename_i hc
      dsimp only at hread
      split at hread
      · cases hread
      · rcases List.mem_cons.1 hd with rfl | hd
        · simpa using hc
        · exact ih _ _ hread d hd

/-- The text of a whole number is digits with or without a sign. -/
theorem int?_digits {text : String} {n : Int} (h : Decimal.int? text = some n) :
    ∃ ds, ds ≠ [] ∧ (∀ d ∈ ds, Decimal.isDigit d) ∧
      (text.toList = ds ∨ text.toList = '+' :: ds ∨ text.toList = '-' :: ds) := by
  have hok : Decimal.readInt text.toList = .ok n := by
    rw [Decimal.int?] at h
    cases hr : Decimal.readInt text.toList with
    | error e => rw [hr] at h; cases h
    | ok r => rw [hr] at h; cases h; rfl
  unfold Decimal.readInt at hok
  split at hok
  rename_i negative ds hsplit
  split at hok
  · cases hok
  · rename_i hne
    split at hok
    · cases hok
    · rename_i hread
      refine ⟨ds, by simpa using hne, readDigits_digits _ _ _ hread, ?_⟩
      split at hsplit <;> cases hsplit
      · exact .inr (.inr ‹_›)
      · exact .inr (.inl ‹_›)
      · exact .inl rfl

theorem writes_literal {q : Quantity} (hlex : Lexes e.text.toList [.number q])
    (hne : e.text.toList ≠ []) (hfirst : e.text.toList.head? ≠ some '=') : Writes p names 8 e q :=
  writes_atom hlex hne hfirst (.literal q) rfl

/-- A literal with a sign in front, written as one text. -/
theorem writes_signed_literal {s : Sign} {c : Char} {body : List Char} {q : Quantity}
    (hs : s = .plus ∧ c = '+' ∨ s = .minus ∧ c = '-') (htext : e.text.toList = c :: body)
    (hlex : Lexes body [.number q]) (hv : s.apply q = some v) : Writes p names 5 e v := by
  have hunary : Spells 5 [.sign s, .number q] (.unary s (.literal q)) := by
    refine .unary ?_ (spells_weaker (by decide) (.literal q))
    rcases hs with ⟨rfl, -⟩ | ⟨rfl, -⟩ <;> rfl
  refine ⟨[.sign s, .number q], _, ?_, ?_, ?_, spells_weaker (by decide) hunary, ?_,
    fun h => by omega⟩
  · rw [htext]
    exact lexes_signed hs hlex
  · rw [htext]
    exact List.cons_ne_nil _ _
  · rw [htext]
    rcases hs with ⟨-, rfl⟩ | ⟨-, rfl⟩ <;> exact fun h => by cases h
  · rw [Term.value, Term.value, Option.bind_some, hv]

/-- An integer made a real, by a call or by a point behind a literal. -/
theorem writes_floatValue {n : Int} (h : Writes p names 0 e (.integer n)) :
    Writes p names 0 (floatValue e) (.real n) := by
  rw [floatValue]
  split
  · rename_i m hm
    obtain ⟨ds, hne, hds, htext⟩ := int?_digits hm
    have hlex := Julia.lexes_digits hne hds
    have hlex' := Julia.lexes_decimal hne hds
    have hpoint : (Expr.number (e.text ++ ".0")).text.toList = e.text.toList ++ ['.', '0'] := by
      show (e.text ++ ".0").toList = _
      simp
    have hfirst : (ds ++ ['.', '0']).head? ≠ some '=' := by
      rw [head_append hne]
      intro hhead
      have hdigit := hds '=' (List.mem_of_mem_head? hhead)
      cases hdigit
    -- The text is read in one way only, so that its digits are those of the integer.
    have hsame : ∀ {k : Nat} {q : Quantity}, Writes p names k e q → q = .integer n := by
      intro k q hq
      exact Option.some.inj (hq.valueOf.symm.trans h.valueOf)
    have hsigned : ∀ {s : Sign} {c : Char}, s = .plus ∧ c = '+' ∨ s = .minus ∧ c = '-' →
        e.text.toList = c :: ds → ∀ m, s.apply (.integer (Decimal.ofDigits ds)) = some (.integer m) →
        s.apply (.real (Decimal.ofDigits ds)) = some (.real m) →
        Writes p names 0 (.number (e.text ++ ".0")) (.real n) := by
      intro s c hs htext m hm hm'
      have hn := hsame (writes_signed_literal hs htext hlex hm)
      cases hn
      exact (writes_signed_literal hs (by rw [hpoint, htext]; rfl) hlex' hm').weaker (by decide)
    rcases htext with htext | htext | htext
    · have hwrites : Writes p names 8 e (.integer (Decimal.ofDigits ds)) := by
        refine writes_literal ?_ ?_ ?_ <;> rw [htext]
        · exact hlex
        · exact hne
        · rwa [head_append hne] at hfirst
      have hn := hsame hwrites
      cases hn
      refine (writes_literal ?_ ?_ ?_).weaker (Nat.zero_le 8) <;> rw [hpoint, htext]
      · exact hlex'
      · simp
      · exact hfirst
    · exact hsigned (.inl ⟨rfl, rfl⟩) htext (Decimal.ofDigits ds) rfl (by simp [Sign.apply, Quantity.positive])
    · exact hsigned (.inr ⟨rfl, rfl⟩) htext (-Decimal.ofDigits ds) rfl (by simp [Sign.apply, Quantity.negative])
  · exact (writes_float h rfl).weaker (by decide)

end Writing

end FortranJulia
