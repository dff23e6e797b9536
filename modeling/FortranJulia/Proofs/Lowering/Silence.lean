import FortranJulia.Proofs.Emission.Ensures
import FortranJulia.Proofs.Lowering.Calls

/-!
Actions that write no lines. Expressions, targets, bounds and initial values are lowered by actions that
are `Hushed`: they leave spellings and reports behind and nothing else. An array is left without a size
only if one of its dimensions has none.
-/

namespace FortranJulia

set_option autoImplicit false

open Julia (Expr Binding)

namespace Lower

/-- Only spellings and reports are new. -/
structure Hush (s t : LowerState) : Prop extends Rewords s t where
  blockData : t.blockData = s.blockData
  depth : t.depth = s.depth
  lines : t.lines = s.lines

namespace Hush

variable {s t u : LowerState}

theorem refl (s : LowerState) : Hush s s :=
  ⟨.refl s, rfl, rfl, rfl⟩

theorem trans (h : Hush s t) (h' : Hush t u) : Hush s u :=
  ⟨h.toRewords.trans h'.toRewords, h'.blockData.trans h.blockData, h'.depth.trans h.depth,
    h'.lines.trans h.lines⟩

theorem recorded (s : LowerState) (more : List String) : Hush s (s.recorded more) :=
  ⟨⟨rfl, more, rfl⟩, rfl, rfl, rfl⟩

end Hush

/-- If the action succeeds, it has written nothing, and only spellings and reports are new. -/
def Hushed {α : Type} (act : Lower α) : Prop :=
  ∀ s, Ensures (Hush s) act fun _ => True

theorem Hushed.hush {α : Type} {act : Lower α} (h : Hushed act) {s t : LowerState} {a : α}
    (hrun : act.run s = .ok (a, t)) : Hush s t :=
  (h s s (.refl s) a t hrun).1

namespace Hushed

variable {α β : Type}

theorem of_hush {act : Lower α} (h : ∀ {s t : LowerState} {a : α}, act.run s = .ok (a, t) → Hush s t) :
    Hushed act :=
  fun _ _ ht _ _ hrun => ⟨ht.trans (h hrun), trivial⟩

theorem pure (a : α) : Hushed (Pure.pure a : Lower α) :=
  fun _ => .pure trivial

theorem throw (f : Fault) : Hushed (MonadExcept.throw f : Lower α) :=
  fun _ => .throw f _

theorem bind {act : Lower α} {f : α → Lower β} (h : Hushed act) (h' : ∀ a, Hushed (f a)) :
    Hushed (act >>= f) :=
  fun s => (h s).bind (fun a _ => h' a s)

theorem read {f : LowerState → α} : Hushed (do return f (← get) : Lower α) :=
  .of_hush fun hrun => by
    obtain ⟨-, rfl⟩ := Prod.mk.inj (Except.ok.inj hrun)
    exact .refl _

theorem table : Hushed Lower.table :=
  .read

theorem unit : Hushed Lower.unit :=
  .read

end Hushed

/-! ## Names and reports -/

theorem hushed_report (severity : Severity) (place : Nat × Nat) (rule message : String) :
    Hushed (report severity place rule message) :=
  .of_hush fun {s} _ _ hrun => by
    obtain ⟨-, rfl⟩ := Prod.mk.inj (Except.ok.inj hrun)
    exact ⟨⟨rfl, [], s.collection.table.recorded_nil.symm⟩, rfl, rfl, rfl⟩

theorem hushed_spell (name : String) : Hushed (spell name) :=
  .of_hush fun {s} _ _ hrun => by
    obtain ⟨more, hspell, -⟩ := spell_run s name
    obtain ⟨-, rfl⟩ := Prod.mk.inj (Except.ok.inj (hspell.symm.trans hrun))
    exact .recorded s more

theorem hushed_callee (name : String) : Hushed (callee name) :=
  .bind (hushed_spell name) (fun _ => .pure _)

theorem hushed_ident (name : String) : Hushed (ident name) :=
  .of_hush fun {s} _ _ hrun => by
    obtain ⟨more, hident, -⟩ := ident_run s name
    obtain ⟨-, rfl⟩ := Prod.mk.inj (Except.ok.inj (hident.symm.trans hrun))
    exact .recorded s more

theorem hushed_idents (names : List String) : Hushed (idents names) := by
  induction names with
  | nil => exact .pure _
  | cons n ns ih => exact .bind (hushed_ident n) (fun _ => .bind ih (fun _ => .pure _))

theorem hushed_spellings (names : List String) : Hushed (spellings names) := by
  induction names with
  | nil => exact .pure _
  | cons n ns ih => exact .bind (hushed_spell n) (fun _ => .bind ih (fun _ => .pure _))

theorem hushed_itemsFrom {α : Type} (n : Nat) (xs : List α) : Hushed (itemsFrom n xs) := by
  unfold itemsFrom
  split
  · exact .pure _
  · exact .throw _

theorem hushed_itemsUpTo {α : Type} (n : Nat) (xs : List α) : Hushed (itemsUpTo n xs) := by
  unfold itemsUpTo
  split
  · exact .pure _
  · exact .throw _

/-! ## Expressions -/

theorem writing_hushed : Writing fun _ act => Hushed act where
  pure := .pure
  bind := .bind
  table _ h := .bind .table h
  ident := hushed_ident
  callee := hushed_callee
  report place _ message _ := hushed_report .warning place _ message

theorem hushed_expressionOf (n : Node) : Hushed (expressionOf n) := by
  unfold expressionOf
  split
  · exact .pure _
  · exact .throw _

theorem hushed_exprOf (n : Node) : Hushed (exprOf n) :=
  .bind (hushed_expressionOf n) (fun e => writing_hushed.expr e)

theorem hushed_typeOfNode (n : Node) : Hushed (typeOfNode n) :=
  .bind (hushed_expressionOf n) (fun e => writing_hushed.typeOf e)

theorem hushed_converted (target : Option TypeName) (n : Node) : Hushed (converted target n) :=
  .bind (hushed_typeOfNode n) (fun _ => .bind (hushed_exprOf n) (fun _ => .pure _))

theorem hushed_rangeOf (ns : List Node) : Hushed (rangeOf ns) := by
  rcases ns with _ | ⟨a, _ | ⟨b, rest⟩⟩
  · exact .pure _
  · exact .pure _
  · refine .bind (hushed_exprOf a) (fun first => .bind (hushed_exprOf b) (fun last => ?_))
    cases rest with
    | nil => exact .pure _
    | cons c _ => exact .bind (hushed_exprOf c) (fun _ => .pure _)

/-! ## Bounds and values -/

theorem hushed_dataConstant (parts : List Node) : Hushed (dataConstant parts) := by
  induction parts with
  | nil => exact .pure _
  | cons part rest ih =>
    unfold dataConstant
    split
    · exact .bind ih (fun _ => .pure _)
    · exact .bind (hushed_ident _) (fun _ => .bind .table (fun _ => .pure _))
    · exact .bind (hushed_exprOf part) (fun _ => .bind (hushed_typeOfNode part) (fun _ => .pure _))

theorem hushed_dataRepeat (value : Node) : Hushed (dataRepeat value) := by
  unfold dataRepeat
  split
  · exact .pure _
  · split
    · exact .pure _
    · exact .bind (hushed_report _ _ _ _) (fun _ => .pure _)

theorem hushed_dataValues (values : List Node) : Hushed (dataValues values) := by
  induction values with
  | nil => exact .pure _
  | cons value rest ih =>
    refine .bind (hushed_dataRepeat value) (fun n => .bind (hushed_dataConstant _) (fun v => ?_))
    exact .bind ih (fun _ => .pure _)

theorem hushed_placeBounds (bounds : List Node) : ∀ (places : List Int) (i : Nat),
    Hushed (placeBounds places i bounds) := by
  induction bounds with
  | nil => exact fun _ _ => .pure _
  | cons b rest ih =>
    intro places i
    unfold placeBounds
    split
    · exact .pure _
    · split
      · exact ih _ _
      · exact .throw _

theorem hushed_constantTrips (bounds : List Node) : Hushed (constantTrips bounds) := by
  unfold constantTrips
  split
  · exact .pure _
  · refine .bind (hushed_placeBounds bounds _ _) (fun r => ?_)
    split
    · exact .pure _
    · exact .pure _

end Lower

/-- Is the upper bound of the dimension a star? -/
def Node.isUnbounded (shape : Node) : Bool :=
  ((shape.child? .upperBound).bind (·.children.head?)).any (·.hasKind .star)

/-- Does one of the dimensions have no bound? -/
def Node.hasUnbounded (dims : Node) : Bool :=
  (dims.childrenWith .explicitShapeSpec).any (·.isUnbounded)

/-- Does the phrase declare an array of assumed size? -/
def Node.isAssumedSize (decl : Node) : Bool :=
  (decl.child? .arraySpec).any (·.hasUnbounded)

namespace Lower

/-- An array has no size only if one of its dimensions has no bound. -/
theorem ensures_shapes (name : String) (ns : List Node) (s : LowerState) :
    Ensures (Hush s) (shapes name ns) fun dims => dims = none → ∃ n ∈ ns, n.isUnbounded := by
  have hany : ∀ {α : Type} {act : Lower α}, Hushed act → Ensures (Hush s) act fun _ => True :=
    fun h => h s
  induction ns with
  | nil => exact .pure nofun
  | cons shape rest ih =>
    have hrest : Ensures (Hush s) (shapes name rest) fun dims =>
        dims = none → ∃ n ∈ shape :: rest, n.isUnbounded := by
      refine ih.imp (fun dims h hnone => ?_)
      obtain ⟨n, hn, hstar⟩ := h hnone
      exact ⟨n, List.mem_cons_of_mem _ hn, hstar⟩
    unfold shapes
    extract_lets upper
    have hupper : ∀ r, Ensures (Hush s) (upper r) fun dims =>
        dims = none → ∃ n ∈ shape :: rest, n.isUnbounded := by
      intro r
      simp only [upper]
      split
      · exact hrest
      · rename_i up hup
        split
        · rename_i hstar
          refine (hany (hushed_report _ _ _ _)).bind (fun _ _ => .pure fun _ => ?_)
          exact ⟨shape, List.mem_cons_self, by rw [Node.isUnbounded, hup]; exact hstar⟩
        · refine (hany (hushed_exprOf up)).bind (fun e _ => hrest.bind (fun dims h => ?_))
          refine .pure fun hnone => h ?_
          cases dims <;> first | rfl | cases hnone
    split
    · rename_i low _
      refine (hany (hushed_exprOf low)).bind (fun e _ => ?_)
      split
      · exact (hany (hushed_report _ _ _ _)).bind (fun r _ => hupper r)
      · exact hupper ()
    · exact hupper ()

end Lower

end FortranJulia
