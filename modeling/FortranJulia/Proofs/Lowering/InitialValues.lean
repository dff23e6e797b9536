import FortranJulia.Proofs.Lowering.Calls
import FortranJulia.Proofs.Lowering.Counts
import FortranJulia.Proofs.Lowering.Visits

/-!
Initial values. The values of a set are written once, in order, and each object takes a block of
them, as many as it has elements. `Gives` says which lines give an object its block, and `Fills` cuts
the list of values into the blocks of the objects. The position in the list is a running sum of
counts that is clipped at the end of the list; while the counts do not run past it, the blocks are
those of the counts and nothing is said about their number.
-/

namespace FortranJulia

set_option autoImplicit false

open Julia (Expr Binding Code Line)

namespace Lower

/-! ## Reports -/

/-- Nothing is reported by the rule between the states. -/
def Unreported (rule : String) (s t : LowerState) : Prop :=
  ∃ more, t.diagnostics = s.diagnostics ++ more ∧ ∀ d ∈ more, d.rule ≠ rule

theorem Unreported.of_eq {rule : String} {s t : LowerState} (h : t.diagnostics = s.diagnostics) :
    Unreported rule s t :=
  ⟨[], by rw [h, List.append_nil], by simp⟩

theorem Unreported.trans {rule : String} {s t u : LowerState} (h : Unreported rule s t)
    (h' : Unreported rule t u) : Unreported rule s u := by
  obtain ⟨more, hmore, hrules⟩ := h
  obtain ⟨others, hothers, hrules'⟩ := h'
  refine ⟨more ++ others, by rw [hothers, hmore, List.append_assoc], fun d hd => ?_⟩
  exact (List.mem_append.1 hd).elim (hrules d) (hrules' d)

/-- The action succeeds, writes no lines and does not report a number of values. -/
def Mute {α : Type} (act : Lower α) : Prop :=
  ∀ s, act.Does s fun _ t => Quiet s t ∧ Unreported Label.dataStmtSet.name s t

namespace Mute

variable {α β : Type}

theorem pure (a : α) : Mute (Pure.pure a : Lower α) :=
  fun s => ⟨a, s, rfl, .refl s, .of_eq rfl⟩

theorem bind {act : Lower α} {f : α → Lower β} (h : Mute act) (h' : ∀ a, Mute (f a)) :
    Mute (act >>= f) := by
  intro s
  refine (h s).bind (fun a t hst => ?_)
  exact (h' a t).imp (fun _ _ htu => ⟨hst.1.trans htu.1, hst.2.trans htu.2⟩)

/-- One action for each item of a list gives as many values. -/
theorem mapM {xs : List α} {f : α → Lower β} (h : ∀ x ∈ xs, Mute (f x)) : ∀ s,
    (xs.mapM f).Does s fun ys t =>
      Quiet s t ∧ Unreported Label.dataStmtSet.name s t ∧ ys.length = xs.length := by
  induction xs with
  | nil => exact fun s => ⟨[], s, rfl, .refl s, .of_eq rfl, rfl⟩
  | cons x xs ih =>
    intro s
    obtain ⟨y, t, hrun, hquiet, hreports⟩ := h x (by simp) s
    obtain ⟨ys, u, hrun', hquiet', hreports', hlength⟩ := ih (fun z hz => h z (by simp [hz])) t
    refine ⟨y :: ys, u, ?_, hquiet.trans hquiet', hreports.trans hreports', congrArg (· + 1) hlength⟩
    rw [List.mapM_cons, run_bind_ok hrun, run_bind_ok hrun']
    rfl

end Mute

theorem mute_ident (name : String) : Mute (ident name) := by
  intro s
  obtain ⟨more, hrun, -⟩ := ident_run s name
  exact ⟨_, _, hrun, ⟨⟨rfl, more, rfl⟩, rfl, rfl⟩, .of_eq rfl⟩

theorem mute_callee (name : String) : Mute (callee name) := by
  intro s
  obtain ⟨more, hrun, -⟩ := spell_run s name
  exact ⟨_, _, run_bind_ok hrun, ⟨⟨rfl, more, rfl⟩, rfl, rfl⟩, .of_eq rfl⟩

/-- All that expressions report is references that are not known and alternate returns. -/
theorem writing_mute : Writing fun _ act => Mute act where
  pure := .pure
  bind := .bind
  table _ h := fun s => h s.collection.table s
  ident := mute_ident
  callee := mute_callee
  report place _ message h := by
    refine fun s => ⟨(), _, rfl, ⟨⟨rfl, [], s.collection.table.recorded_nil.symm⟩, rfl, rfl⟩,
      [_], rfl, fun d hd => ?_⟩
    have hother : Diagnostic.unresolvedReference ≠ Label.dataStmtSet.name ∧
        Label.sectionSubscript.name ≠ Label.dataStmtSet.name := by decide
    rw [List.mem_singleton.1 hd]
    rcases h with rfl | rfl
    · exact hother.1
    · exact hother.2

theorem mute_expressionOf {n : Node} (h : n.expression?.isSome) : Mute (expressionOf n) := by
  obtain ⟨e, he⟩ := Option.isSome_iff_exists.1 h
  rw [expressionOf, he]
  exact .pure e

theorem mute_exprOf {n : Node} (h : n.expression?.isSome) : Mute (exprOf n) :=
  .bind (mute_expressionOf h) writing_mute.expr

theorem mute_rangeOf {ns : List Node} (h : ∀ n ∈ ns, n.expression?.isSome) : Mute (rangeOf ns) := by
  match ns, h with
  | [], _ | [_], _ => exact .pure _
  | a :: b :: rest, h =>
    refine .bind (mute_exprOf (h a (by simp))) (fun first => ?_)
    refine .bind (mute_exprOf (h b (by simp))) (fun last => ?_)
    match rest, h with
    | [], _ => exact .pure _
    | c :: _, h => exact .bind (mute_exprOf (h c (by simp))) (fun _ => .pure _)

theorem mute_target (v : Node) : Mute (target v) := by
  have hbinding : Mute binding := fun s => ⟨_, s, rfl, .refl s, .of_eq rfl⟩
  unfold target
  simp only
  split
  · exact .bind hbinding (fun _ => .bind (mute_ident _) (fun _ => .pure _))
  · exact .bind (mute_ident _) (fun _ => .bind (writing_mute.indexed _ _) (fun _ => .pure _))

theorem mute_dataConstant {parts : List Node} (h : ∀ n ∈ parts,
    n.hasLabel .sign || n.hasLabel .namedConstantUse || n.expression?.isSome) :
    Mute (dataConstant parts) := by
  induction parts with
  | nil => exact .pure _
  | cons part rest ih =>
    have hpart := h part (by simp)
    unfold dataConstant
    split
    · exact .bind (ih (fun n hn => h n (by simp [hn]))) (fun _ => .pure _)
    · exact .bind (mute_ident _) (fun _ => writing_mute.table (fun _ _ => rfl) (fun _ => .pure _))
    · rename_i hsign hnamed
      have hexpr : part.expression?.isSome := by
        simp only [Node.hasLabel, Bool.or_eq_true, beq_iff_eq] at hpart
        exact hpart.resolve_left (not_or.2 ⟨hsign, hnamed⟩)
      have htype : Mute (typeOfNode part) := .bind (mute_expressionOf hexpr) writing_mute.typeOf
      exact .bind (mute_exprOf hexpr) (fun _ => .bind htype (fun _ => .pure _))

/-- The constants of the values of a set, one after the other. -/
def constants (set : Node) : Lower (List DataValue) :=
  set.dataValues.mapM fun value => dataConstant (grandchildren value .dataConstant)

theorem constants_run {wide : Prop} {set : Node} (h : set.Sound wide) (s : LowerState) :
    (constants set).Does s fun values t =>
      Quiet s t ∧ Unreported Label.dataStmtSet.name s t ∧ values.length = set.dataValues.length :=
  Mute.mapM (fun _ hn => mute_dataConstant (dataConstant_parts (h.dataValues hn))) s

end Lower

/-! ## What objects are given -/

namespace LowerState

/-- The type of the variable that a node names. -/
def typeOf (s : LowerState) (v : Node) : Option TypeName :=
  s.collection.table.typeOf (Lower.childText v .variableName)

/-- The state in which a variable has its value: it needs no zero any more. -/
def given (s : LowerState) (v : Node) : LowerState :=
  if (v.childrenWith .complexDataRefTail).isEmpty then
    { s with unit := { s.unit with
        declared := nameKey (Lower.childText v .variableName) :: s.unit.declared } }
  else s

/-- The state one level further out. -/
def shallower (s : LowerState) : LowerState :=
  { s with depth := s.depth - 1 }

end LowerState

namespace Lower

/-- The elements of an array are assigned from the first one on. -/
def arrayLine (x : String) (vals : List Expr) : Code :=
  .assign .plain
    [.index (.name x) [.range [.number "1", .number (Decimal.digits vals.length)]]] (.vector vals)

/-- The values of a list, each converted to a type. -/
def convertedAll (vals : List DataValue) (type : Option TypeName) : List Expr :=
  vals.map (·.convertedTo type)

/-- The lines that give an object some values, each converted to the type of the object. -/
inductive Gives (object : Node) : List DataValue → LowerState → List Line → LowerState → Prop where
  /-- A scalar or an element of an array is assigned its only value. -/
  | single {v : DataValue} {s t : LowerState} {b : Binding} {left : Expr}
      (hlabel : object.hasLabel .dataImpliedDo = false)
      (hwhole : s.collection.table.isWhole object = false)
      (htarget : (target object).run (s.given object) = .ok ((b, left), t)) :
      Gives object [v] s [.code s.depth (.assign b [left] (v.convertedTo (s.typeOf object)))]
        (t.written [.assign b [left] (v.convertedTo (s.typeOf object))])
  /-- An array is assigned its elements all at once. -/
  | whole {vals : List DataValue} {s t : LowerState} {x : String}
      (hlabel : object.hasLabel .dataImpliedDo = false)
      (hwhole : s.collection.table.isWhole object = true)
      (hname : (ident (childText object .variableName)).run s = .ok (x, t)) :
      Gives object vals s [.code s.depth (arrayLine x (convertedAll vals (s.typeOf object)))]
        (t.written [arrayLine x (convertedAll vals (s.typeOf object))])
  /-- An implied loop becomes a loop over its bounds and the values side by side. -/
  | loop {vals : List DataValue} {s t u w : LowerState} {item : Node} {x : String} {range : Expr}
      {b : Binding} {left : Expr} (hlabel : object.hasLabel .dataImpliedDo = true)
      (hitem : object.loopItem? = some item)
      (hname : (ident (childText object .impliedDoVariable)).run s = .ok (x, t))
      (hrange : (rangeOf (object.childrenWith .expr)).run t = .ok (range, u))
      (htarget : (target item).run
        (deeper (u.written [.forPairs x range (.vector (convertedAll vals (s.typeOf item)))])) =
          .ok ((b, left), w)) :
      Gives object vals s
        [.code s.depth (.forPairs x range (.vector (convertedAll vals (s.typeOf item)))),
          .code (s.depth + 1) (.assign b [left] (.name "_v")), .code s.depth .close]
        ((w.written [.assign b [left] (.name "_v")]).shallower.written [.close])

/-- The values are cut into blocks of the given lengths, one for each object in order, and the lines
give each object its block. -/
inductive Fills : List Node → List Nat → List DataValue → LowerState → List Line → LowerState → Prop
    where
  | nil (s : LowerState) : Fills [] [] [] s [] s
  | cons {object : Node} {objects : List Node} {counts : List Nat} {block rest : List DataValue}
      {s t u : LowerState} {lines others : List Line} (hblock : Gives object block s lines t)
      (hrest : Fills objects counts rest t others u) :
      Fills (object :: objects) (block.length :: counts) (block ++ rest) s (lines ++ others) u

/-- The block of an object starts where the blocks before it end. -/
theorem Fills.block {objects : List Node} {counts : List Nat} {vals : List DataValue}
    {s t : LowerState} {lines : List Line} (h : Fills objects counts vals s lines t) :
    ∀ {i : Nat} {object : Node} {count : Nat}, objects[i]? = some object → counts[i]? = some count →
      ∃ s' t' own, Gives object ((vals.drop (counts.take i).sum).take count) s' own t' ∧
        own <:+: lines := by
  induction h with
  | nil s => exact fun hobject _ => by simp at hobject
  | @cons first objects counts block rest s t u lines others hblock _ ih =>
    intro i object count hobject hcount
    cases i with
    | zero =>
      obtain rfl : first = object := by simpa using hobject
      obtain rfl : block.length = count := by simpa using hcount
      refine ⟨s, t, lines, ?_, List.infix_append_left⟩
      rw [List.take_zero, List.sum_nil, List.drop_zero, List.take_left]
      exact hblock
    | succ i =>
      obtain ⟨s', t', own, hgives, hown⟩ := ih hobject hcount
      refine ⟨s', t', own, ?_, hown.trans List.infix_append_right⟩
      rw [List.take_succ_cons, List.sum_cons, List.drop_length_add_append]
      exact hgives

/-! ## One object -/

/-- What is left alone when values are given. -/
structure Filled (s t : LowerState) : Prop where
  depth : t.depth = s.depth
  table : ∃ more, t.collection.table = s.collection.table.recorded more
  reports : Unreported Label.dataStmtSet.name s t

namespace Filled

variable {s t u : LowerState}

theorem refl (s : LowerState) : Filled s s :=
  ⟨rfl, ⟨[], s.collection.table.recorded_nil.symm⟩, .of_eq rfl⟩

theorem trans (h : Filled s t) (h' : Filled t u) : Filled s u := by
  obtain ⟨more, hmore⟩ := h.table
  obtain ⟨others, hothers⟩ := h'.table
  refine ⟨h'.depth.trans h.depth, ⟨more ++ others, ?_⟩, h.reports.trans h'.reports⟩
  rw [hothers, hmore, Table.recorded_recorded]

theorem of_quiet (h : Quiet s t) (h' : Unreported Label.dataStmtSet.name s t) : Filled s t :=
  ⟨h.2.1, h.1.table, h'⟩

theorem written (s : LowerState) (codes : List Code) : Filled s (s.written codes) :=
  ⟨rfl, ⟨[], s.collection.table.recorded_nil.symm⟩, .of_eq rfl⟩

theorem given (s : LowerState) (v : Node) : Filled s (s.given v) := by
  unfold LowerState.given
  split
  · exact ⟨rfl, ⟨[], s.collection.table.recorded_nil.symm⟩, .of_eq rfl⟩
  · exact .refl s

/-- The number of elements does not depend on spellings. -/
theorem elements? (h : Filled s t) : t.collection.table.elements? = s.collection.table.elements? := by
  obtain ⟨more, hmore⟩ := h.table
  rw [hmore]
  rfl

end Filled

/-- The object takes values as long as there are any, and is given all that it takes if there are
enough. -/
structure Takes (object : Node) (vals : List DataValue) (count : Nat) (s : LowerState) (n : Nat)
    (t : LowerState) : Prop where
  taken : n = min count vals.length
  filled : Filled s t
  gives : count ≤ vals.length →
    ∃ own, Gives object (vals.take count) s own t ∧ t.lines = own.reverse ++ s.lines

theorem given_run (s : LowerState) {v : Node} (h : (v.childrenWith .complexDataRefTail).isEmpty) :
    (declare (childText v .variableName)).run s = .ok ((), s.given v) := by
  rw [LowerState.given, if_pos h]
  rfl

theorem itemsUpTo_eq {α : Type} {n : Nat} {xs : List α} (h : n ≤ xs.length) :
    itemsUpTo n xs = pure (xs.take n) := by
  rw [itemsUpTo, if_pos h]

theorem itemsFrom_eq {α : Type} {n : Nat} {xs : List α} (h : n ≤ xs.length) :
    itemsFrom n xs = pure (xs.drop n) := by
  rw [itemsFrom, if_pos h]

theorem dataObject_single {object : Node} {s : LowerState}
    (hlabel : object.hasLabel .dataImpliedDo = false)
    (hwhole : s.collection.table.isWhole object = false) (vals : List DataValue) (isLast : Bool) :
    (dataObject object vals isLast).Does s (Takes object vals 1 s) := by
  have htable : Lower.table.run s = .ok (s.collection.table, s) := rfl
  have hsingle : (!(object.childrenWith .complexDataRefTail).isEmpty ||
      !s.collection.table.isArray (childText object .variableName)) = true := by
    rw [← Bool.not_and]
    exact congrArg (!·) hwhole
  unfold Does dataObject
  rw [hlabel, if_neg (by simp), run_bind_ok htable]
  simp only [hsingle, if_true]
  cases vals with
  | nil => exact ⟨0, s, rfl, rfl, .refl s, by simp⟩
  | cons v rest =>
    obtain ⟨⟨b, left⟩, t, htarget, hquiet, hreports⟩ := mute_target object (s.given object)
    have hst : Filled s t := (Filled.given s object).trans (.of_quiet hquiet hreports)
    have hlines : t.lines = s.lines := by
      rw [hquiet.2.2]
      unfold LowerState.given
      split <;> rfl
    have hrun : (target object >>= fun r =>
        line (.assign r.1 [r.2] (v.convertedTo (s.typeOf object))) >>= fun _ =>
          (pure 1 : Lower Nat)).run (s.given object) =
        .ok (1, t.written [.assign b [left] (v.convertedTo (s.typeOf object))]) := by
      rw [run_bind_ok htarget]
      rfl
    dsimp only
    refine ⟨1, t.written [.assign b [left] (v.convertedTo (s.typeOf object))], ?_, by simp,
      hst.trans (.written t _), fun _ => ⟨_, .single hlabel hwhole htarget, ?_⟩⟩
    · split
      · rename_i htails
        rw [run_bind_ok (given_run s htails)]
        exact hrun
      · rename_i htails
        rw [LowerState.given, if_neg htails] at hrun
        exact hrun
    · rw [LowerState.written, hst.depth, hlines]
      rfl

theorem dataObject_whole {object : Node} {s : LowerState} {count : Nat}
    (hlabel : object.hasLabel .dataImpliedDo = false)
    (hwhole : s.collection.table.isWhole object = true)
    (hcount : s.collection.table.extent? (childText object .variableName) = some count)
    (hfit : count ≤ Decimal.maxInt) (vals : List DataValue) (isLast : Bool) :
    (dataObject object vals isLast).Does s (Takes object vals count s) := by
  have htable : Lower.table.run s = .ok (s.collection.table, s) := rfl
  have hsingle : ¬ (!(object.childrenWith .complexDataRefTail).isEmpty ||
      !s.collection.table.isArray (childText object .variableName)) = true := by
    rw [← Bool.not_and, Bool.not_eq_true]
    exact congrArg (!·) hwhole
  obtain ⟨x, t, hname, hquiet, hreports⟩ := mute_ident (childText object .variableName) s
  have hst : Filled s t := .of_quiet hquiet hreports
  let items := convertedAll (vals.take (min count vals.length)) (s.typeOf object)
  have hlength : items.length = min count vals.length := by
    simp [items, convertedAll]
  have hknown : ¬ ((count : Int) < 0) := by omega
  unfold Does dataObject
  rw [hlabel, if_neg (by simp), run_bind_ok htable]
  simp only [hsingle, arraySize_eq hcount hfit, hknown, decide_false, Bool.false_and,
    Bool.false_eq_true, if_false, Int.toNat_natCast,
    itemsUpTo_eq (Nat.min_le_right count vals.length), pure_bind]
  rw [run_bind_ok hname]
  refine ⟨min count vals.length, t.written [arrayLine x items], ?_, rfl, hst.trans (.written t _),
    fun hle => ?_⟩
  · rw [arrayLine, hlength]
    rfl
  · have hblock : items = convertedAll (vals.take count) (s.typeOf object) := by
      simp only [items, Nat.min_eq_left hle]
    rw [hblock]
    refine ⟨_, .whole hlabel hwhole hname, ?_⟩
    rw [LowerState.written, hst.depth, hquiet.2.2]
    rfl

theorem dataObject_loop {wide : Prop} {object item : Node} (h : object.Sound wide) {count : Nat}
    (hlabel : object.hasLabel .dataImpliedDo = true) (hitem : object.loopItem? = some item)
    (hcount : object.loopCount? = some count) (vals : List DataValue) (isLast : Bool)
    (s : LowerState) : (dataObject object vals isLast).Does s (Takes object vals count s) := by
  have htable : Lower.table.run s = .ok (s.collection.table, s) := rfl
  obtain ⟨x, t, hname, hquiet, hreports⟩ := mute_ident (childText object .impliedDoVariable) s
  obtain ⟨range, u, hrange, hquiet', hreports'⟩ := mute_rangeOf (bounds_expressions h) t
  have hsu : Filled s u := (Filled.of_quiet hquiet hreports).trans (.of_quiet hquiet' hreports')
  have hlines : u.lines = s.lines := (hquiet.trans hquiet').2.2
  let head : Code := .forPairs x range
    (.vector (convertedAll (vals.take (min count vals.length)) (s.typeOf item)))
  obtain ⟨⟨b, left⟩, w, htarget, hquiet'', hreports''⟩ := mute_target item (deeper (u.written [head]))
  have hdepth : w.depth = s.depth + 1 := by
    rw [hquiet''.2.1]
    exact congrArg (· + 1) hsu.depth
  have hnested : (nested (target item >>= fun r => line (.assign r.1 [r.2] (.name "_v")))).run
      (u.written [head]) = .ok ((), (w.written [.assign b [left] (.name "_v")]).shallower) := by
    show ((target item >>= fun _ => _) >>= fun _ => _).run (deeper (u.written [head])) = _
    rw [bind_assoc, run_bind_ok htarget]
    rfl
  have hrun : (do
        line head
        nested (target item >>= fun r => line (.assign r.1 [r.2] (.name "_v")))
        line .close
        return min count vals.length : Lower Nat).run u =
      .ok (min count vals.length,
        (w.written [.assign b [left] (.name "_v")]).shallower.written [.close]) := by
    rw [run_bind_ok (line_run head u), run_bind_ok hnested, run_bind_ok (line_run .close _)]
    rfl
  unfold Does dataObject dataImpliedDo
  extract_lets bounds item?
  have hitem? : item? = object.loopItem? := rfl
  rw [if_pos hlabel, hitem?, hitem]
  simp only [bounds, constantTrips_eq hcount, pure_bind]
  rw [run_bind_ok htable]
  simp only [itemsUpTo_eq (Nat.min_le_right count vals.length), pure_bind]
  rw [run_bind_ok hname, run_bind_ok hrange]
  refine ⟨min count vals.length, _, hrun, rfl, ⟨?_, ?_, hsu.reports.trans hreports''⟩, fun hle => ?_⟩
  · show w.depth - 1 = s.depth
    omega
  · obtain ⟨more, hmore⟩ := hsu.table
    obtain ⟨others, hothers⟩ := hquiet''.1.table
    refine ⟨more ++ others, ?_⟩
    rw [← Table.recorded_recorded, ← hmore]
    exact hothers
  · have hhead : head = .forPairs x range (.vector (convertedAll (vals.take count) (s.typeOf item))) := by
      simp only [head, Nat.min_eq_left hle]
    refine ⟨_, .loop hlabel hitem hname hrange (hhead ▸ htarget), ?_⟩
    have hw : w.lines = .code s.depth head :: s.lines := by
      rw [hquiet''.2.2, ← hlines, ← hsu.depth]
      rfl
    show .code (w.depth - 1) .close :: .code w.depth _ :: w.lines = _
    rw [hw, hdepth, hhead]
    rfl

/-- An object takes as many values as it has elements. -/
theorem dataObject_run {wide : Prop} {object : Node} (h : object.Sound wide) {count : Nat}
    {s : LowerState} (hcount : s.collection.table.elements? object = some count)
    (hfit : count ≤ Decimal.maxInt) (vals : List DataValue) (isLast : Bool) :
    (dataObject object vals isLast).Does s (Takes object vals count s) := by
  unfold Table.elements? at hcount
  cases hlabel : object.hasLabel .dataImpliedDo with
  | true =>
    rw [if_pos hlabel] at hcount
    obtain ⟨item, hitem, hloop⟩ := Option.bind_eq_some_iff.1 hcount
    exact dataObject_loop h hlabel hitem hloop vals isLast s
  | false =>
    rw [if_neg (by simp [hlabel])] at hcount
    cases hwhole : s.collection.table.isWhole object with
    | true =>
      rw [if_pos hwhole] at hcount
      exact dataObject_whole hlabel hwhole hcount hfit vals isLast
    | false =>
      rw [if_neg (by simp [hwhole])] at hcount
      obtain rfl := Option.some.inj hcount
      exact dataObject_single hlabel hwhole vals isLast

/-! ## All objects of a set -/

/-- The objects take values one after the other, and as long as these suffice each is given its
block. -/
theorem dataObjects_run {wide : Prop} {objects : List Node} (h : ∀ n ∈ objects, n.Sound wide)
    (vals : List DataValue) : ∀ {counts : List Nat} {taken : Nat} {s : LowerState},
    objects.mapM s.collection.table.elements? = some counts → (∀ c ∈ counts, c ≤ Decimal.maxInt) →
    taken ≤ vals.length →
    (dataObjects vals taken objects).Does s fun n t =>
      n = min (taken + counts.sum) vals.length ∧ Filled s t ∧
        (taken + counts.sum ≤ vals.length →
          ∃ own, Fills objects counts ((vals.drop taken).take counts.sum) s own t ∧
            t.lines = own.reverse ++ s.lines) := by
  induction objects with
  | nil =>
    intro counts taken s hcounts _ htaken
    obtain rfl : [] = counts := by simpa using hcounts
    refine ⟨taken, s, rfl, by simp [htaken], .refl s, fun _ => ⟨[], ?_, rfl⟩⟩
    rw [List.sum_nil, List.take_zero]
    exact .nil s
  | cons object objects ih =>
    intro counts taken s hcounts hfits htaken
    rw [List.mapM_cons] at hcounts
    obtain ⟨count, hcount, hrest⟩ := Option.bind_eq_some_iff.1 hcounts
    obtain ⟨others, hothers, hsame⟩ := Option.bind_eq_some_iff.1 hrest
    obtain rfl : count :: others = counts := Option.some.inj hsame
    obtain ⟨n, t, hobject, rfl, hst, hgives⟩ := dataObject_run (h object (by simp)) hcount
      (hfits count (by simp)) (vals.drop taken) objects.isEmpty
    rw [List.length_drop] at hobject hgives
    have hnext : taken + min count (vals.length - taken) ≤ vals.length := by omega
    obtain ⟨m, u, hobjects, rfl, htu, hfills⟩ := ih (fun k hk => h k (by simp [hk]))
      (by rw [hst.elements?]; exact hothers) (fun c hc => hfits c (by simp [hc])) hnext
    refine ⟨min (taken + min count (vals.length - taken) + others.sum) vals.length, u, ?_, ?_,
      hst.trans htu, fun hle => ?_⟩
    · rw [dataObjects, Nat.min_eq_left htaken, itemsFrom_eq htaken, pure_bind, run_bind_ok hobject]
      exact hobjects
    · rw [List.sum_cons]
      omega
    · rw [List.sum_cons] at hle
      have hcount' : min count (vals.length - taken) = count := by omega
      rw [hcount'] at hfills
      obtain ⟨own, hown, hlines⟩ := hgives (by omega)
      obtain ⟨own', hown', hlines'⟩ := hfills (by omega)
      have hlength : ((vals.drop taken).take count).length = count := by
        rw [List.length_take, List.length_drop]
        omega
      have hsplit : (vals.drop taken).take (count :: others).sum =
          (vals.drop taken).take count ++ (vals.drop (taken + count)).take others.sum := by
        rw [List.sum_cons, List.take_add, List.drop_drop]
      refine ⟨own ++ own', ?_, by rw [hlines', hlines, List.reverse_append, List.append_assoc]⟩
      rw [hsplit]
      have hfilled : Fills (object :: objects) (((vals.drop taken).take count).length :: others)
          ((vals.drop taken).take count ++ (vals.drop (taken + count)).take others.sum) s
          (own ++ own') u := .cons hown hown'
      rwa [hlength] at hfilled

/-! ## Sets -/

/-- A set is lowered to its blocks, if there are values enough, and reports values that are left. -/
theorem dataSet_run {wide : Prop} {set : Node} (h : set.Sound wide) {s : LowerState}
    {counts repeats : List Nat} (hcounted : Counted s.collection.table set counts repeats) :
    ∃ values u v, (constants set).run s = .ok (values, u) ∧
      (expanded repeats values).length = repeats.sum ∧ Filled s v ∧
      (counts.sum ≤ repeats.sum → ∃ own,
        Fills set.dataObjects counts ((expanded repeats values).take counts.sum) u own v ∧
          v.lines = own.reverse ++ s.lines) ∧
      (dataSet set).run s =
        (if counts.sum < repeats.sum then
          warn set Label.dataStmtSet.name (Decimal.digits repeats.sum ++ " values for " ++
            Decimal.digits counts.sum ++ " elements")
        else pure ()).run v := by
  obtain ⟨values, u, hvalues, hquiet, hreports, hcount⟩ := constants_run h s
  have hsu : Filled s u := .of_quiet hquiet hreports
  have hlength : (expanded repeats values).length = repeats.sum :=
    length_expanded (by rw [length_of_mapM hcounted.values, hcount])
  have hexpanded : (dataValues set.dataValues).run s = .ok (expanded repeats values, u) := by
    have hmap : (constants set >>= fun values => pure (expanded repeats values)).run s =
        .ok (expanded repeats values, u) := run_bind_ok hvalues
    rw [dataValues_eq hcounted.values, map_eq_pure_bind]
    exact hmap
  obtain ⟨n, v, hobjects, hn, huv, hfills⟩ := dataObjects_run (fun _ hk => h.dataObjects hk)
    (expanded repeats values) (by rw [hsu.elements?]; exact hcounted.objects) hcounted.fits
    (Nat.zero_le _)
  rw [Nat.zero_add, hlength, List.drop_zero, hquiet.2.2] at hfills
  rw [Nat.zero_add, hlength] at hn
  refine ⟨values, u, v, hvalues, hlength, hsu.trans huv, hfills, ?_⟩
  rw [dataSet, run_bind_ok hexpanded, run_bind_ok hobjects, hlength]
  by_cases hfew : counts.sum < repeats.sum
  · obtain rfl : n = counts.sum := by omega
    rw [if_pos hfew, if_pos (bne_iff_ne.2 (Nat.ne_of_lt hfew))]
  · obtain rfl : n = repeats.sum := by omega
    rw [if_neg hfew, if_neg (by simp)]

end Lower

end FortranJulia
