import FortranJulia.Proofs.Lowering.Parts
import Mathlib.Algebra.BigOperators.Group.List.Lemmas
import Mathlib.Algebra.Order.BigOperators.GroupWithZero.List
import Mathlib.Algebra.Order.Ring.Nat

/-!
How many values the objects of a set of initial values take. An array has as many elements as the
product of its upper bounds and an implied loop is run as often as its bounds say; the counts here
are those of whole numbers without a limit. What is computed with numbers of 64 bits is the same as
long as bounds and counts are not beyond them.
-/

namespace FortranJulia

set_option autoImplicit false

/-! ## Numbers of 64 bits -/

namespace Decimal

theorem wrap_eq {n : Int} (h : n.natAbs < Nat.pow 2 63) : wrap n = n := by
  have hpow : Nat.pow 2 63 = 9223372036854775808 := by decide
  have hmod : Nat.pow 2 64 = 18446744073709551616 := by decide
  rw [wrap, hmod]
  exact Int.bmod_eq_of_le (by omega) (by omega)

/-- A product of positive factors that fits is computed step by step. -/
theorem foldl_wrap_mul {ns : List Nat} (hpos : ∀ n ∈ ns, 0 < n) : ∀ {a : Nat},
    a * ns.prod ≤ maxInt →
      (ns.map Int.ofNat).foldl (fun x y => wrap (x * y)) (a : Int) = (a * ns.prod : Nat) := by
  induction ns with
  | nil =>
    intro a _
    simp
  | cons n ns ih =>
    intro a hfit
    have hrest : 0 < ns.prod := List.prod_pos (fun m hm => hpos m (by simp [hm]))
    rw [List.prod_cons, ← Nat.mul_assoc] at hfit
    have hle : a * n ≤ maxInt := Nat.le_trans (Nat.le_mul_of_pos_right _ hrest) hfit
    have hstep : wrap ((a : Int) * Int.ofNat n) = (a * n : Nat) := by
      have hcast : (a : Int) * Int.ofNat n = (a * n : Nat) := by simp
      rw [hcast]
      refine wrap_eq ?_
      have hmax : maxInt < Nat.pow 2 63 := by decide
      omega
    rw [List.map_cons, List.foldl_cons, hstep, ih (fun m hm => hpos m (by simp [hm])) hfit,
      List.prod_cons, Nat.mul_assoc]

/-- Digits that write a number of 63 bits are read as that number. -/
theorem readDigits_eq {cs : List Char} (h : ∀ c ∈ cs, isDigit c) : ∀ {n : Nat},
    cs.foldl (fun n c => 10 * n + (c.toNat - '0'.toNat)) n < Nat.pow 2 64 →
      readDigits n cs = .ok (cs.foldl (fun n c => 10 * n + (c.toNat - '0'.toNat)) n) := by
  have hgrows : ∀ (cs : List Char) (n : Nat),
      n ≤ cs.foldl (fun n c => 10 * n + (c.toNat - '0'.toNat)) n := by
    intro cs
    induction cs with
    | nil => exact fun n => Nat.le_refl n
    | cons c cs ih =>
      intro n
      have hstep : n ≤ 10 * n + (c.toNat - '0'.toNat) := by omega
      exact Nat.le_trans hstep (ih _)
  induction cs with
  | nil =>
    intro n _
    rfl
  | cons c cs ih =>
    intro n hfit
    have hdigit := h c (by simp)
    have hnext : 10 * n + (c.toNat - '0'.toNat) < Nat.pow 2 64 :=
      Nat.lt_of_le_of_lt (hgrows cs _) hfit
    rw [readDigits, if_neg (by simp [hdigit])]
    dsimp only
    rw [if_neg (Nat.not_le.2 hnext), ih (fun d hd => h d (by simp [hd])) hfit]
    rfl

end Decimal

/-! ## Array bounds -/

/-- The value of an upper bound that is a positive integer literal. -/
def upperBound? (text : String) : Option Nat :=
  if !text.toList.isEmpty && text.toList.all Decimal.isDigit && decide (0 < Decimal.ofDigits text.toList)
  then some (Decimal.ofDigits text.toList)
  else none

theorem int?_of_upperBound? {text : String} {n : Nat} (h : upperBound? text = some n) :
    0 < n ∧ (n ≤ Decimal.maxInt → Decimal.int? text = some n) := by
  unfold upperBound? at h
  split at h
  · rename_i hcheck
    obtain rfl := Option.some.inj h
    simp only [Bool.and_eq_true, Bool.not_eq_true', List.isEmpty_eq_false_iff, List.all_eq_true,
      decide_eq_true_eq] at hcheck
    obtain ⟨⟨hne, hdigits⟩, hpos⟩ := hcheck
    refine ⟨hpos, fun hfit => ?_⟩
    have hread : Decimal.readDigits 0 text.toList = .ok (Decimal.ofDigits text.toList) := by
      refine Decimal.readDigits_eq hdigits ?_
      have hmax : Decimal.maxInt < Nat.pow 2 64 := by decide
      exact Nat.lt_of_le_of_lt hfit hmax
    rw [Decimal.int?]
    generalize text.toList = cs at *
    cases cs with
    | nil => exact absurd rfl hne
    | cons c cs =>
      have hc := hdigits c (by simp)
      have hminus : c ≠ '-' := by
        rintro rfl
        cases hc
      have hplus : c ≠ '+' := by
        rintro rfl
        cases hc
      simp [Decimal.readInt, hminus, hplus, hread, Nat.not_lt.2 hfit, Except.toOption]
  · cases h

/-- The number of elements of a local array whose upper bounds are all literals. -/
def Table.extent? (t : Table) (name : String) : Option Nat :=
  (t.current.get? name).bind fun y =>
    if y.dims.isEmpty then none else (y.dims.mapM upperBound?).map List.prod

theorem le_prod_of_mem {ns : List Nat} (hpos : ∀ n ∈ ns, 0 < n) {n : Nat} (hn : n ∈ ns) :
    n ≤ ns.prod :=
  Nat.le_of_dvd (List.prod_pos hpos) (List.dvd_prod hn)

theorem mapM_int? {texts : List String} {ns : List Nat} (h : texts.mapM upperBound? = some ns) :
    (∀ n ∈ ns, 0 < n) ∧
      ((∀ n ∈ ns, n ≤ Decimal.maxInt) → texts.mapM Decimal.int? = some (ns.map Int.ofNat)) := by
  induction texts generalizing ns with
  | nil =>
    obtain rfl : [] = ns := by simpa using h
    exact ⟨by simp, fun _ => rfl⟩
  | cons text texts ih =>
    rw [List.mapM_cons] at h
    obtain ⟨n, hn, h⟩ := Option.bind_eq_some_iff.1 h
    obtain ⟨ms, hms, h⟩ := Option.bind_eq_some_iff.1 h
    obtain rfl : n :: ms = ns := Option.some.inj h
    obtain ⟨hpos, hread⟩ := int?_of_upperBound? hn
    obtain ⟨hposs, hreads⟩ := ih hms
    refine ⟨List.forall_mem_cons.2 ⟨hpos, hposs⟩, fun hfit => ?_⟩
    rw [List.mapM_cons, hread (hfit n (by simp)), hreads (fun m hm => hfit m (by simp [hm]))]
    rfl

/-- The size of an array is the product of its upper bounds. -/
theorem arraySize_eq {t : Table} {name : String} {n : Nat} (h : t.extent? name = some n)
    (hfit : n ≤ Decimal.maxInt) : Lower.arraySize t name = n := by
  obtain ⟨y, hy, h⟩ := Option.bind_eq_some_iff.1 h
  split at h
  · cases h
  · rename_i hdims
    obtain ⟨ns, hns, rfl⟩ := Option.map_eq_some_iff.1 h
    obtain ⟨hpos, hread⟩ := mapM_int? hns
    have hread' := hread (fun n hn => Nat.le_trans (le_prod_of_mem hpos hn) hfit)
    have hproduct := Decimal.foldl_wrap_mul hpos (a := 1) (by simpa using hfit)
    rw [Nat.one_mul] at hproduct
    rw [Lower.arraySize, hy]
    simp only [hdims, hread']
    exact hproduct

/-! ## Implied loops -/

/-- How often a loop is run. -/
def trips (first last step : Int) : Nat :=
  ((last - first + step).tdiv step).toNat

theorem trips_neg (first last step : Int) : trips (-first) (-last) (-step) = trips first last step := by
  have hnumber : -last - -first + -step = -(last - first + step) := by omega
  rw [trips, trips, hnumber, Int.neg_tdiv_neg]

/-- A loop that counts up is run for each value of its variable up to the last one. -/
theorem lt_trips_up {first last step : Int} (h : 0 < step) (k : Nat) :
    k < trips first last step ↔ first + k * step ≤ last := by
  rw [trips, Int.lt_toNat]
  have hexpand : ((k : Int) + 1) * step = k * step + step := by rw [Int.add_mul, Int.one_mul]
  have hk : 0 ≤ (k : Int) * step := Int.mul_nonneg (Int.natCast_nonneg k) (Int.le_of_lt h)
  by_cases hsign : 0 ≤ last - first + step
  · rw [Int.tdiv_eq_ediv_of_nonneg hsign, ← Int.add_one_le_iff, Int.le_ediv_iff_mul_le h, hexpand]
    omega
  · have hquotient : 0 ≤ (-(last - first + step)).tdiv step :=
      Int.tdiv_nonneg (by omega) (Int.le_of_lt h)
    rw [Int.neg_tdiv] at hquotient
    omega

/-- A loop that counts down is run for each value of its variable down to the last one. -/
theorem lt_trips_down {first last step : Int} (h : step < 0) (k : Nat) :
    k < trips first last step ↔ last ≤ first + k * step := by
  rw [← trips_neg, lt_trips_up (by omega), Int.mul_neg]
  omega

/-- Bounds below `2 ^ 61` are far enough from the limit. -/
theorem tripCount_eq {first last step : Int} (hfirst : first.natAbs < Nat.pow 2 61)
    (hlast : last.natAbs < Nat.pow 2 61) (hstep : step.natAbs < Nat.pow 2 61) :
    Lower.tripCount first last step = trips first last step := by
  have hpow : Nat.pow 2 61 = 2305843009213693952 := by decide
  have hlimit : Nat.pow 2 63 = 9223372036854775808 := by decide
  have hquotient := Int.natAbs_tdiv_le_natAbs (last - first + step) step
  rw [Lower.tripCount, Decimal.wrap_eq (n := last - first) (by omega),
    Decimal.wrap_eq (n := last - first + step) (by omega), Decimal.wrap_eq (by omega), trips]

/-- The value of an integer constant. -/
def Lexeme.integer? (lx : Lexeme) : Option Int :=
  match lx.value with
  | some (.int v) => some v
  | _ => none

namespace Node

/-- The value of a bound that is an integer constant below `2 ^ 61` with an optional minus sign. -/
def bound? (n : Node) : Option Int :=
  match n.lexemes with
  | [lx] => lx.integer?.filter (·.natAbs < Nat.pow 2 61)
  | [sign, lx] =>
    if sign.kind == .minus then (lx.integer?.filter (·.natAbs < Nat.pow 2 61)).map (-·) else none
  | _ => none

/-- How often a loop with such bounds is run, if it has a step other than zero. -/
def loopCount? (object : Node) : Option Nat :=
  match (object.childrenWith .expr).mapM bound? with
  | some [first, last] => some (trips first last 1)
  | some [first, last, step] => if step = 0 then none else some (trips first last step)
  | _ => none

/-- The only variable of an implied loop. -/
def loopItem? (object : Node) : Option Node :=
  match Lower.grandchildren object .dataIDoObjectList with
  | [item] => if item.hasLabel .variableRef then some item else none
  | _ => none

/-- How often a value is given, if that is a literal. -/
def repeats? (value : Node) : Option Nat :=
  match value.child? .dataRepeat with
  | none => some 1
  | some r => ((r.children.head?.bind (·.lexeme?)).bind (·.integer?)).map (·.toNat)

end Node

namespace Table

/-- Is the object an array without subscripts? -/
def isWhole (t : Table) (object : Node) : Bool :=
  (object.childrenWith .complexDataRefTail).isEmpty &&
    t.isArray (Lower.childText object .variableName)

/-- The number of elements of an object: a scalar or an element of an array is one. -/
def elements? (t : Table) (object : Node) : Option Nat :=
  if object.hasLabel .dataImpliedDo then object.loopItem?.bind fun _ => object.loopCount?
  else if t.isWhole object then t.extent? (Lower.childText object .variableName)
  else some 1

end Table

/-- The objects of a set have so many elements, which are not beyond 64 bits, and its values are
given so often. -/
structure Counted (t : Table) (set : Node) (counts repeats : List Nat) : Prop where
  objects : set.dataObjects.mapM t.elements? = some counts
  fits : ∀ c ∈ counts, c ≤ Decimal.maxInt
  values : set.dataValues.mapM Node.repeats? = some repeats

theorem length_of_mapM {α β : Type} {f : α → Option β} {xs : List α} {ys : List β}
    (h : xs.mapM f = some ys) : ys.length = xs.length := by
  induction xs generalizing ys with
  | nil =>
    obtain rfl : [] = ys := by simpa using h
    rfl
  | cons x xs ih =>
    rw [List.mapM_cons] at h
    obtain ⟨y, -, h⟩ := Option.bind_eq_some_iff.1 h
    obtain ⟨others, hothers, h⟩ := Option.bind_eq_some_iff.1 h
    obtain rfl : y :: others = ys := Option.some.inj h
    rw [List.length_cons, List.length_cons, ih hothers]

/-- The values of a set, each as often as it is repeated. -/
def expanded {α : Type} (repeats : List Nat) (values : List α) : List α :=
  (List.zipWith List.replicate repeats values).flatten

theorem length_expanded {α : Type} {repeats : List Nat} {values : List α}
    (h : repeats.length = values.length) : (expanded repeats values).length = repeats.sum := by
  unfold expanded
  induction repeats generalizing values with
  | nil => rfl
  | cons n repeats ih =>
    obtain ⟨v, values, rfl⟩ := List.exists_cons_of_length_eq_add_one h.symm
    rw [List.zipWith_cons_cons, List.flatten_cons, List.length_append, List.length_replicate,
      List.sum_cons, ih (Nat.succ.inj h)]

theorem constantOf_eq {sign : Int} {lx : Lexeme} {v : Int} (hsign : sign.natAbs = 1)
    (h : lx.integer?.filter (·.natAbs < Nat.pow 2 61) = some v) :
    v.natAbs < Nat.pow 2 61 ∧ Lower.constantOf sign lx = some (sign * v) := by
  obtain ⟨hv, hsmall⟩ := Option.filter_eq_some_iff.1 h
  have hbound : v.natAbs < Nat.pow 2 61 := of_decide_eq_true hsmall
  refine ⟨hbound, ?_⟩
  have hproduct : (sign * v).natAbs < Nat.pow 2 63 := by
    rw [Int.natAbs_mul, hsign, Nat.one_mul]
    exact Nat.lt_trans hbound (by decide)
  unfold Lexeme.integer? at hv
  split at hv
  · rename_i w hw
    obtain rfl := Option.some.inj hv
    rw [Lower.constantOf, hw]
    simp only [Decimal.wrap_eq hproduct]
  · cases hv

theorem constantBound?_eq {n : Node} {v : Int} (h : n.bound? = some v) :
    v.natAbs < Nat.pow 2 61 ∧ Lower.constantBound? n = some v := by
  have hone : (1 : Int).natAbs = 1 ∧ (-1 : Int).natAbs = 1 := by decide
  unfold Node.bound? at h
  unfold Lower.constantBound?
  generalize n.lexemes = lexemes at h ⊢
  rcases lexemes with _ | ⟨first, _ | ⟨second, _ | ⟨third, rest⟩⟩⟩
  · cases h
  · obtain ⟨hsmall, hvalue⟩ := constantOf_eq hone.1 h
    rw [Int.one_mul] at hvalue
    exact ⟨hsmall, hvalue⟩
  · cases hminus : first.kind == .minus with
    | false => simp [hminus] at h
    | true =>
      simp only [hminus, if_true] at h ⊢
      obtain ⟨w, hw, rfl⟩ := Option.map_eq_some_iff.1 h
      obtain ⟨hsmall, hvalue⟩ := constantOf_eq hone.2 hw
      rw [Int.neg_one_mul] at hvalue
      rw [Int.natAbs_neg]
      exact ⟨hsmall, hvalue⟩
  · cases h

namespace Lower

/-- A loop with such bounds is not refused. -/
theorem constantTrips_eq {object : Node} {n : Nat} (h : object.loopCount? = some n) :
    constantTrips (object.childrenWith .expr) = pure (some n) := by
  unfold Node.loopCount? at h
  generalize object.childrenWith .expr = bounds at h ⊢
  have hone : (1 : Int).natAbs < Nat.pow 2 61 := by decide
  rcases bounds with _ | ⟨a, _ | ⟨b, _ | ⟨c, _ | ⟨d, rest⟩⟩⟩⟩
  · simp at h
  · cases ha : a.bound? <;> simp [ha] at h
  · cases ha : a.bound? with
    | none => simp [ha] at h
    | some first =>
      cases hb : b.bound? with
      | none => simp [ha, hb] at h
      | some last =>
        obtain rfl : trips first last 1 = n := by simpa [ha, hb] using h
        obtain ⟨hfirst, ha'⟩ := constantBound?_eq ha
        obtain ⟨hlast, hb'⟩ := constantBound?_eq hb
        simp [constantTrips, placeBounds, ha', hb', tripCount_eq hfirst hlast hone]
  · cases ha : a.bound? with
    | none => simp [ha] at h
    | some first =>
      cases hb : b.bound? with
      | none => simp [ha, hb] at h
      | some last =>
        cases hc : c.bound? with
        | none => simp [ha, hb, hc] at h
        | some step =>
          obtain ⟨hne, rfl⟩ : step ≠ 0 ∧ trips first last step = n := by simpa [ha, hb, hc] using h
          obtain ⟨hfirst, ha'⟩ := constantBound?_eq ha
          obtain ⟨hlast, hb'⟩ := constantBound?_eq hb
          obtain ⟨hstep, hc'⟩ := constantBound?_eq hc
          simp [constantTrips, placeBounds, ha', hb', hc', hne, tripCount_eq hfirst hlast hstep]
  · exfalso
    revert h
    simp only [List.mapM_cons]
    cases a.bound? <;> cases b.bound? <;> cases c.bound? <;> cases d.bound? <;>
      cases rest.mapM Node.bound? <;> simp

theorem dataRepeat_eq {value : Node} {n : Nat} (h : value.repeats? = some n) :
    dataRepeat value = pure n := by
  unfold Node.repeats? at h
  unfold dataRepeat
  cases hr : value.child? .dataRepeat with
  | none =>
    rw [hr] at h
    obtain rfl := Option.some.inj h
    rfl
  | some r =>
    rw [hr] at h
    obtain ⟨k, hk, rfl⟩ := Option.map_eq_some_iff.1 h
    obtain ⟨lx, hlx, hvalue⟩ := Option.bind_eq_some_iff.1 hk
    unfold Lexeme.integer? at hvalue
    split at hvalue
    · rename_i w hw
      obtain rfl := Option.some.inj hvalue
      simp only [hlx, Option.bind_some, hw]
    · cases hvalue

/-- The constants of values with literal repeat counts are written one after the other. -/
theorem dataValues_eq {values : List Node} {repeats : List Nat}
    (h : values.mapM Node.repeats? = some repeats) :
    dataValues values =
      expanded repeats <$> values.mapM fun value => dataConstant (grandchildren value .dataConstant) := by
  induction values generalizing repeats with
  | nil =>
    obtain rfl : [] = repeats := by simpa using h
    rfl
  | cons value values ih =>
    rw [List.mapM_cons] at h
    obtain ⟨n, hn, h⟩ := Option.bind_eq_some_iff.1 h
    obtain ⟨ns, hns, h⟩ := Option.bind_eq_some_iff.1 h
    obtain rfl : n :: ns = repeats := Option.some.inj h
    rw [dataValues, dataRepeat_eq hn, ih hns, List.mapM_cons]
    simp only [pure_bind, map_bind, bind_map_left, map_pure]
    rfl

end Lower

end FortranJulia
