import FortranJulia.Proofs.Emission.Transfers
import FortranJulia.Proofs.Naming.Spelling

/-!
Names in statements. Whatever a statement writes, its names go through the table of spellings: the
variables that it declares, assigns or runs through, the procedures that it calls and the files that it
opens. Nothing else than spellings is added to the table on the way, unless the statement is one that
defines a function by its form.
-/

namespace FortranJulia

set_option autoImplicit false

open Julia (Expr Code Line Use Binding)

namespace Lower

section Spells

variable {ν : Naming} {G : Table.Growth} {pre : Prop}

/-! ## Declarations -/

theorem spells_declare (name : String) : Spells ν G pre (declare name) fun _ => True :=
  spells_modifyUnit (fun _ => rfl) (fun _ => rfl)

theorem contains_behind {s : LowerState} {past : Past} (h : ∀ k, k ∈ past.blockData ↔ k ∈ s.blockData)
    (k : String) : (s.behind past).blockData.contains k = s.blockData.contains k := by
  rw [Bool.eq_iff_iff, List.contains_iff_mem, List.contains_iff_mem]
  exact h k

theorem spells_skipsDeclaration (name : String) :
    Spells ν G pre (skipsDeclaration name) fun _ => True := by
  refine spells_table (fun _ _ => rfl) fun t => spells_unit.bind fun u => (spells_isResult name).bind fun b => ?_
  split
  · exact .pure fun _ => trivial
  · split
    · exact .pure fun _ => trivial
    · split
      · exact .get (fun _ _ hpast => by rw [contains_behind hpast]) fun _ => .pure fun _ => trivial
      · exact .pure fun _ => trivial

theorem spells_shapes (name : String) (specs : List Node) : ∀ {pre : Prop},
    Spells ν G pre (shapes name specs) fun r => ∀ es, r = some es → ∀ e ∈ es, ν.Admits e := by
  induction specs with
  | nil => exact .pure fun _ => by simp
  | cons shape rest ih =>
    intro pre
    unfold shapes
    extract_lets upper
    have hupper : ∀ {pre : Prop} (r : PUnit), Spells ν G pre (upper r)
        fun r => ∀ es, r = some es → ∀ e ∈ es, ν.Admits e := by
      intro pre r
      simp only [upper]
      split
      · exact ih
      · split
        · exact (spells_warn _ _ _).bind fun _ => .pure fun _ => by simp
        · refine (spells_exprOf _).bind fun e => ih.bind fun es => .pure fun h all hall => ?_
          obtain ⟨ds, rfl, rfl⟩ := Option.map_eq_some_iff.1 hall
          exact List.forall_mem_cons.2 ⟨h.1.2, h.2 ds rfl⟩
    split
    · refine (spells_exprOf _).bind fun e => ?_
      split
      · exact (spells_note _ _ _).bind fun r => hupper r
      · exact hupper ()
    · exact hupper ()

theorem spells_bindZero (name : String) (spec : Option Node) :
    Spells ν G pre (bindZero name spec) fun _ => True := by
  unfold bindZero
  refine spells_unit.bind fun u => spells_table (fun _ _ => rfl) fun t => ?_
  split
  · split
    · exact .pure fun _ => trivial
    · refine (spells_declare name).bind fun _ => spells_binding.bind fun b => ?_
      refine (spells_variable name).bind fun w => spells_line fun h => ?_
      simpa [Naming.admits_zeroValue] using h.2
  · split
    · exact .pure fun _ => trivial
    · refine (spells_shapes name _).bind fun dims => ?_
      split
      · exact .pure fun _ => trivial
      · rename_i es
        have harrays : ∀ {pre : Prop}, Spells ν G pre (modifyUnit fun u =>
            { u with arrays := nameKey name :: u.arrays }) fun _ => True :=
          spells_modifyUnit (fun _ => rfl) (fun _ => rfl)
        refine (spells_declare name).bind fun _ => harrays.bind fun _ => ?_
        refine spells_binding.bind fun b => (spells_variable name).bind fun w => spells_line fun h => ?_
        have hdims := h.1.1.1.1.2 es rfl
        simpa [Naming.allows_helper, h.2] using hdims

theorem spells_bindAll (l : Label) (decls : List Node) :
    Spells ν G pre (bindAll l decls) fun _ => True := by
  refine .forM fun decl _ => (spells_skipsDeclaration _).bind fun b => ?_
  split
  · exact .pure fun _ => trivial
  · exact spells_bindZero _ _

theorem spells_common (stmt : Node) : Spells ν G pre (common stmt) fun _ => True := by
  refine spells_unit.bind fun u => ?_
  split
  · exact spells_bindAll _ _
  · exact (spells_idents _).bind fun ws => spells_line fun h => by simpa using h.2

theorem spells_parameters (stmt : Node) : Spells ν G pre (parameters stmt) fun _ => True := by
  refine spells_unit.bind fun u => .forM fun constant _ => ?_
  refine spells_table (fun _ _ => rfl) fun t => (spells_variable _).bind fun w => ?_
  split
  · refine (spells_converted _ _).bind fun j => (spells_line fun h => ?_).bind fun _ => spells_declare _
    simpa using ⟨h.1.2, h.2⟩
  · exact spells_declare _

/-! ## Assignments -/

theorem spells_statementFunction (y : Symbol) (body : Node) :
    Spells ν G pre (statementFunction y body) fun _ => True := by
  refine (spells_idents _).bind fun ps => (spells_function _).bind fun f => ?_
  refine (spells_converted _ _).bind fun j => spells_line fun h => ?_
  exact Naming.admits_shortFunction.2 ⟨h.1.2, h.1.1.2, h.2⟩

/-- A target and what is assigned to it. -/
theorem spells_assigned (v : Node) {act : Lower Expr}
    (h : ∀ pre, Spells ν G pre act ν.Admits) :
    Spells ν G pre (do
      let (b, left) ← target v
      line (.assign b [left] (← act))) fun _ => True := by
  refine (spells_target v).bind fun r => (h _).bind fun j => spells_line fun h => ?_
  simpa using ⟨h.1.2, h.2⟩

theorem spells_assignment (stmt : Node) : Spells ν G pre (assignment stmt) fun _ => True := by
  unfold assignment
  split
  · refine spells_table (fun _ _ => rfl) fun t => ?_
    split
    · exact spells_statementFunction _ _
    · split
      · exact spells_assigned _ fun _ => spells_converted _ _
      · simp only
        split
        · exact spells_warn _ _ _
        · exact (spells_warn _ _ _).bind fun _ => spells_assigned _ fun _ => spells_exprOf _
  · exact .pure fun _ => trivial

/-- The definition of a function is the one change of the table besides spellings. -/
theorem spells_stmtFunction (hmodify : ∀ t f, G.rel t (t.modify f)) (stmt : Node) :
    Spells ν G pre (stmtFunction stmt) fun _ => True := by
  have hdefine : ∀ {pre : Prop} (f : Scope → Scope),
      Spells ν G pre (modifyTable (·.modify f)) fun _ => True := by
    intro pre f s a t hrun
    obtain ⟨-, rfl⟩ := Prod.mk.inj (Except.ok.inj hrun)
    refine ⟨hmodify _ _, ⟨rfl, fun past _ _ => ?_⟩, fun _ _ hfits => ⟨⟨hfits, [], rfl, by simp⟩, trivial⟩⟩
    show Except.ok ((), { s.behind past with collection :=
      { s.collection.behind past with table := (s.collection.table.behind past).modify f } }) = _
    rw [Table.modify_behind]
    rfl
  refine (spells_spell _).bind fun name => (spells_spellings _).bind fun args => ?_
  refine (hdefine _).bind fun _ => spells_table (fun _ _ => rfl) fun t => ?_
  split
  · exact spells_statementFunction _ _
  · exact .pure fun _ => trivial

/-! ## Initial values -/

theorem spells_dataConstant (parts : List Node) : ∀ {pre : Prop},
    Spells ν G pre (dataConstant parts) fun v => ν.Admits v.expr := by
  induction parts with
  | nil => exact .pure fun _ => by simp
  | cons part rest ih =>
    intro pre
    unfold dataConstant
    split
    · exact ih.bind fun v => .pure fun h => by simpa using h.2
    · exact (spells_variable _).bind fun w => spells_table (fun _ _ => rfl) fun t => .pure fun h => by simpa using h.1.2
    · exact (spells_exprOf _).bind fun j => (spells_typeOfNode _).bind fun y => .pure fun h => h.1.2

theorem spells_dataRepeat (value : Node) : Spells ν G pre (dataRepeat value) fun _ => True := by
  unfold dataRepeat
  split
  · exact .pure fun _ => trivial
  · split
    · exact .pure fun _ => trivial
    · exact (spells_warn _ _ _).bind fun _ => .pure fun _ => trivial

theorem spells_dataValues (values : List Node) : ∀ {pre : Prop},
    Spells ν G pre (dataValues values) fun vs => ∀ v ∈ vs, ν.Admits v.expr := by
  induction values with
  | nil => exact .pure fun _ => by simp
  | cons value rest ih =>
    intro pre
    refine (spells_dataRepeat _).bind fun n => (spells_dataConstant _).bind fun v => ?_
    refine ih.bind fun vs => .pure fun h w hw => ?_
    rcases List.mem_append.1 hw with hw | hw
    · rw [List.eq_of_mem_replicate hw]
      exact h.1.2
    · exact h.2 w hw

theorem spells_placeBounds (bounds : List Node) : ∀ {pre : Prop} {places : List Int} {i : Nat},
    Spells ν G pre (placeBounds places i bounds) fun _ => True := by
  induction bounds with
  | nil => exact .pure fun _ => trivial
  | cons b rest ih =>
    intro pre places i
    unfold placeBounds
    split
    · exact .pure fun _ => trivial
    · split
      · exact ih
      · exact .throw _ _

theorem spells_constantTrips (bounds : List Node) :
    Spells ν G pre (constantTrips bounds) fun _ => True := by
  unfold constantTrips
  split
  · exact .pure fun _ => trivial
  · refine (spells_placeBounds bounds).bind fun r => ?_
    split <;> exact .pure fun _ => trivial

/-- Values of which all are admitted, converted to a type. -/
theorem admits_values {vals : List DataValue} {n : Nat} (h : ∀ v ∈ vals, ν.Admits v.expr)
    (type : Option TypeName) : ∀ j ∈ (vals.take n).map (·.convertedTo type), ν.Admits j := by
  intro j hj
  obtain ⟨v, hv, rfl⟩ := List.mem_map.1 hj
  exact Naming.admits_convertValue (h v (List.mem_of_mem_take hv)) _ _

theorem spells_dataImpliedDo (object : Node) {vals : List DataValue}
    (h : pre → ∀ v ∈ vals, ν.Admits v.expr) :
    Spells ν G pre (dataImpliedDo object vals) fun _ => True := by
  have hrefuse : ∀ {pre : Prop}, Spells ν G pre (dataImpliedDo.refuse object) fun _ => True :=
    (spells_warn _ _ _).bind fun _ => .pure fun _ => trivial
  have hvalue : ν.Allows (.value "_v") := Naming.allows_ownValue (by decide)
  unfold dataImpliedDo
  simp only
  split
  · exact hrefuse
  · refine (spells_constantTrips _).bind fun trips => ?_
    split
    · exact hrefuse
    · refine spells_table (fun _ _ => rfl) fun t => (spells_itemsUpTo _ _).bind fun items => ?_
      refine (spells_variable _).bind fun v => (spells_rangeOf _).bind fun r => ?_
      refine (spells_line fun hall => ?_).bind fun _ => (spells_nested fun _ => ?_).bind fun _ => ?_
      · rw [hall.1.1.2]
        refine Naming.admits_forPairs.2 ⟨hall.1.2, hall.2, Naming.admits_vector.2 ?_⟩
        exact admits_values (h hall.1.1.1.1.1) _
      · exact spells_assigned _ fun _ => .pure fun _ => by simpa using hvalue
      · exact (spells_line fun _ => by simp).bind fun _ => .pure fun _ => trivial

theorem spells_dataObject (object : Node) {vals : List DataValue} (isLast : Bool)
    (h : pre → ∀ v ∈ vals, ν.Admits v.expr) :
    Spells ν G pre (dataObject object vals isLast) fun _ => True := by
  unfold dataObject
  split
  · exact spells_dataImpliedDo object h
  · refine spells_table (fun _ _ => rfl) fun t => ?_
    extract_lets type tails size n
    split
    · split
      · exact .pure fun _ => trivial
      · rename_i v rest
        have hset : ∀ {pre' : Prop}, (pre' → pre) → Spells ν G pre' (do
            let (b, left) ← target object
            line (.assign b [left] (v.convertedTo type))
            return 1) fun _ => True := by
          intro pre' hpre
          refine (spells_target _).bind fun r => (spells_line fun hall => ?_).bind fun _ => .pure fun _ => trivial
          have hv := h (hpre hall.1) v (by simp)
          exact Naming.admits_assign.2 ⟨by simpa using hall.2, Naming.admits_convertValue hv _ _⟩
        split
        · exact (spells_declare _).bind fun _ => hset fun hall => hall.1.1
        · exact hset fun hall => hall.1
    · split
      · exact (spells_warn _ _ _).bind fun _ => .pure fun _ => trivial
      · refine (spells_itemsUpTo _ _).bind fun items => (spells_variable _).bind fun w => ?_
        refine (spells_line fun hall => ?_).bind fun _ => .pure fun _ => trivial
        rw [hall.1.2]
        refine Naming.admits_assign.2 ⟨by simpa using hall.2, Naming.admits_vector.2 ?_⟩
        exact admits_values (h hall.1.1.1) _

theorem spells_dataObjects {vals : List DataValue} (objects : List Node) :
    ∀ {pre : Prop} {taken : Nat}, (pre → ∀ v ∈ vals, ν.Admits v.expr) →
      Spells ν G pre (dataObjects vals taken objects) fun _ => True := by
  induction objects with
  | nil => exact fun _ => .pure fun _ => trivial
  | cons object rest ih =>
    intro pre taken h
    refine (spells_itemsFrom _ _).bind fun items => ?_
    refine (spells_dataObject _ _ fun hall v hv => ?_).bind fun n => ih fun hall => h hall.1.1
    rw [hall.2] at hv
    exact h hall.1 v (List.mem_of_mem_drop hv)

theorem spells_dataStmt (stmt : Node) : Spells ν G pre (dataStmt stmt) fun _ => True := by
  refine .forM fun set _ => (spells_dataValues _).bind fun vals => ?_
  refine (spells_dataObjects _ fun h => h.2).bind fun taken => ?_
  split
  · exact spells_warn _ _ _
  · exact .pure fun _ => trivial

/-! ## Formats and units -/

theorem spells_printFormat (n : Node) (spec : String) :
    Spells ν G pre (printFormat n spec) fun _ => True := by
  unfold printFormat
  split
  · exact (spells_warn _ _ _).bind fun _ => .pure fun _ => trivial
  · simp only
    split
    · exact .pure fun _ => trivial
    · refine Spells.bind (Q := fun _ => True) ?_ fun _ => .pure fun _ => trivial
      exact .modify (fun _ => rfl) (fun _ => rfl) (fun _ _ => by simp [LowerState.behind]) (fun _ => rfl)
        (fun _ => rfl) (fun _ => rfl)
    · exact (spells_warn _ _ _).bind fun _ => .pure fun _ => trivial

theorem spells_labelledFormat (id : Node) (label : String) :
    Spells ν G pre (labelledFormat id label) fun _ => True := by
  refine spells_unit.bind fun u => ?_
  split
  · exact .pure fun _ => trivial
  · exact (spells_warn _ _ _).bind fun _ => .pure fun _ => trivial

theorem spells_tokenFormat (id : Node) (lx : Lexeme) :
    Spells ν G pre (tokenFormat id lx) fun _ => True := by
  unfold tokenFormat
  split
  · exact .pure fun _ => trivial
  · exact spells_labelledFormat _ _
  · exact spells_printFormat _ _
  · exact (spells_warn _ _ _).bind fun _ => .pure fun _ => trivial

theorem spells_formatOf (id : Option Node) : Spells ν G pre (formatOf id) fun _ => True := by
  unfold formatOf
  split
  · exact .pure fun _ => trivial
  · split
    · exact .pure fun _ => trivial
    · exact spells_tokenFormat _ _
    · split
      · split
        · exact spells_tokenFormat _ _
        · exact (spells_warn _ _ _).bind fun _ => .pure fun _ => trivial
      · split
        · exact spells_labelledFormat _ _
        · exact (spells_warn _ _ _).bind fun _ => .pure fun _ => trivial

/-- The handle is that of the console or of a file under the name of its unit or its number. -/
def HandleAllowed (ν : Naming) (h : Handle) : Prop :=
  ∀ e ∈ h.args, ν.Admits e

theorem handleAllowed_file {w : String} (h : ν.Allows (.value w)) : HandleAllowed ν (.file w) := by
  simpa [HandleAllowed, Handle.args] using h

theorem handleAllowed_ofNumber (n : Int) : HandleAllowed ν (.ofNumber n) := by
  have hstderr : ν.Allows (.value "stderr") := Naming.allows_ownValue (by decide)
  unfold Handle.ofNumber
  split
  · simp [HandleAllowed, Handle.args]
  · split
    · simpa [HandleAllowed, Handle.args] using hstderr
    · exact handleAllowed_file (.inr (.inl ⟨n, rfl⟩))

theorem spells_handleOf (id : Option Node) : Spells ν G pre (handleOf id) (HandleAllowed ν) := by
  have hconsole : HandleAllowed ν .console := by simp [HandleAllowed, Handle.args]
  have herrors : HandleAllowed ν .errors := by
    simpa [HandleAllowed, Handle.args] using Naming.allows_ownValue (ν := ν) (w := "stderr") (by decide)
  have hother : ∀ {pre : Prop} n, Spells ν G pre (handleOf.console n) (HandleAllowed ν) :=
    fun _ => (spells_warn _ _ _).bind fun _ => .pure fun _ => hconsole
  unfold handleOf
  split
  · exact .pure fun _ => hconsole
  · split
    · exact .pure fun _ => hconsole
    · split
      · exact .pure fun _ => hconsole
      · split
        · rename_i lx _
          split
          · split
            · exact .pure fun _ => handleAllowed_ofNumber _
            · exact .pure fun _ => herrors
          · refine (spells_spell lx.text).bind fun w => (spells_note _ _ _).bind fun _ => .pure fun h => ?_
            exact handleAllowed_file (.inr (.inr (.inr ⟨lx.text, h.1.2.1, by rw [h.1.2.2]; rfl⟩)))
          · exact hother _
        · exact hother _

theorem spells_control (c : Control) (spec : Node) :
    Spells ν G pre (control c spec) fun _ => True := by
  unfold control
  split
  · exact .pure fun _ => trivial
  · split
    · exact .pure fun _ => trivial
    · exact .pure fun _ => trivial
    · exact (spells_warn _ _ _).bind fun _ => .pure fun _ => trivial
  · split <;> exact .pure fun _ => trivial

theorem spells_controls (list : Option Node) : Spells ν G pre (controls list) fun _ => True :=
  .foldlM (fun c spec _ _ _ => spells_control c spec) fun _ => trivial

/-! ## Output -/

mutual

theorem spells_impliedDo : ∀ (n : Node) {pre : Prop}, Spells ν G pre (impliedDo n) ν.Admits
  | .leaf _ lx, _ => by
    rw [impliedDo]
    exact .pure fun _ => by simp
  | .inner i l cs, _ => by
    rw [impliedDo]
    refine (spells_variable _).bind fun v => (spells_rangeOf _).bind fun r => ?_
    refine (spells_impliedLists cs).bind fun es => ?_
    split
    · refine .pure fun h => Naming.admits_flattened.2 ⟨h.1.1.2, h.1.2, ?_⟩
      simpa using h.2
    · refine .pure fun h => Naming.admits_generator.2 ⟨?_, h.1.1.2, h.1.2⟩
      simpa using h.2
    · refine .pure fun h => Naming.admits_flattened.2 ⟨h.1.1.2, h.1.2, ?_⟩
      simpa using h.2

theorem spells_impliedLists : ∀ (ns : List Node) {pre : Prop},
    Spells ν G pre (impliedLists ns) fun es => ∀ e ∈ es, ν.Admits e
  | [], _ => by
    rw [impliedLists]
    exact .pure fun _ => by simp
  | .leaf _ _ :: rest, _ => by
    rw [impliedLists]
    exact spells_impliedLists rest
  | .inner _ l items :: rest, _ => by
    rw [impliedLists]
    split
    · exact spells_impliedItems items
    · exact spells_impliedLists rest

theorem spells_impliedItems : ∀ (ns : List Node) {pre : Prop},
    Spells ν G pre (impliedItems ns) fun es => ∀ e ∈ es, ν.Admits e
  | [], _ => by
    rw [impliedItems]
    exact .pure fun _ => by simp
  | n :: rest, _ => by
    unfold impliedItems
    split
    · refine (spells_impliedDo n).bind fun e => (spells_impliedItems rest).bind fun es => .pure fun h => ?_
      exact List.forall_mem_cons.2 ⟨by simpa using h.1.2, h.2⟩
    · refine (spells_exprOf n).bind fun e => (spells_impliedItems rest).bind fun es => .pure fun h => ?_
      exact List.forall_mem_cons.2 ⟨h.1.2, h.2⟩
    · exact spells_impliedItems rest

end

theorem spells_outputItems (ns : List Node) : ∀ {pre : Prop},
    Spells ν G pre (outputItems ns) fun is => ∀ i ∈ is, ν.Admits i.expr := by
  induction ns with
  | nil => exact .pure fun _ => by simp
  | cons n rest ih =>
    intro pre
    unfold outputItems
    split
    · refine (spells_impliedDo n).bind fun e => ih.bind fun es => .pure fun h => ?_
      exact List.forall_mem_cons.2 ⟨h.1.2, h.2⟩
    · refine (spells_exprOf n).bind fun e => ih.bind fun es => .pure fun h => ?_
      exact List.forall_mem_cons.2 ⟨h.1.2, h.2⟩
    · exact ih

theorem admits_printed {i : OutputItem} (h : ν.Admits i.expr) : ν.Admits i.printed := by
  unfold OutputItem.printed
  split
  · simpa [Naming.allows_helper] using h
  · exact h

theorem admits_formatted {i : OutputItem} (h : ν.Admits i.expr) : ν.Admits i.formatted := by
  unfold OutputItem.formatted
  split
  · simpa using h
  · exact h

theorem spells_output (stmt : Node) {h : Handle} (format : Option Node)
    (hh : pre → HandleAllowed ν h) : Spells ν G pre (output stmt h format) fun _ => True := by
  refine (spells_outputItems _).bind fun items => (spells_formatOf format).bind fun f => ?_
  have hargs : ∀ {rest : List Expr}, HandleAllowed ν h → (∀ e ∈ rest, ν.Admits e) →
      ∀ e ∈ h.args ++ rest, ν.Admits e :=
    fun hhandle hrest e he => (List.mem_append.1 he).elim (hhandle e) (hrest e)
  split
  · refine spells_line fun hall => Naming.admits_run.2 (Naming.admits_call.2 ⟨Naming.allows_helper (by simp), ?_⟩)
    refine hargs (hh hall.1.1) (intersperse_forall (by simp) fun e he => ?_)
    obtain ⟨i, hi, rfl⟩ := List.mem_map.1 he
    exact admits_printed (hall.1.2 i hi)
  · rename_i f
    have hwrite : ∀ {pre' : Prop}, (pre' → pre ∧ ∀ i ∈ items, ν.Admits i.expr) → Spells ν G pre'
        (line (.run (.call "@printf" (h.args ++ .str f.literal :: items.map (·.formatted)))))
        fun _ => True := by
      intro pre' hpre
      refine spells_line fun hall => Naming.admits_run.2 (Naming.admits_call.2 ⟨Naming.allows_helper (by simp), ?_⟩)
      refine hargs (hh (hpre hall).1) (List.forall_mem_cons.2 ⟨by simp, fun e he => ?_⟩)
      obtain ⟨i, hi, rfl⟩ := List.mem_map.1 he
      exact admits_formatted ((hpre hall).2 i hi)
    split
    · exact (spells_note _ _ _).bind fun _ => hwrite fun hall => hall.1.1
    · exact hwrite fun hall => hall.1

theorem spells_printStmt (stmt : Node) : Spells ν G pre (printStmt stmt) fun _ => True :=
  spells_output _ _ fun _ => by simp [HandleAllowed, Handle.args]

theorem spells_writeStmt (stmt : Node) : Spells ν G pre (writeStmt stmt) fun _ => True :=
  (spells_controls _).bind fun _ => (spells_handleOf _).bind fun _ => spells_output _ _ fun h => h.2

/-! ## Input -/

theorem spells_readItems (items : List Node) : ∀ {pre : Prop} {k : Nat},
    Spells ν G pre (readItems k items) fun _ => True := by
  induction items with
  | nil => exact .pure fun _ => trivial
  | cons item rest ih =>
    intro pre k
    have hvals : ν.Allows (.value "_vals") := Naming.allows_ownValue (by decide)
    have hvalue : ν.Allows (.value "_v") := Naming.allows_ownValue (by decide)
    have hend : ν.Allows (.value "end") := Naming.allows_ownValue (by decide)
    have hrefuse : ∀ {pre : Prop}, Spells ν G pre (do
        readItems.refuse item
        readItems (k + 1) rest) fun _ => True := (spells_warn _ _ _).bind fun _ => ih
    unfold readItems
    simp only
    split
    · refine (spells_target _).bind fun r => (spells_line fun h => ?_).bind fun _ => ih
      simpa [hvals] using h.2
    · split
      · split
        · refine (spells_variable _).bind fun v => (spells_rangeOf _).bind fun r => ?_
          refine (spells_line fun h => ?_).bind fun _ => (spells_nested fun _ => ?_).bind fun _ => ?_
          · simpa [hvals, hend] using ⟨h.1.2, h.2⟩
          · exact spells_assigned _ fun _ => .pure fun _ => by simpa using hvalue
          · exact (spells_line fun _ => by simp).bind fun _ => ih
        · exact hrefuse
      · exact hrefuse

theorem spells_readRecord {h : Handle} (items : List Node) (hh : pre → HandleAllowed ν h) :
    Spells ν G pre (readStmt.readRecord h items) fun _ => True := by
  have hvals : ν.Allows (.value "_vals") := Naming.allows_ownValue (by decide)
  refine spells_binding.bind fun b => (spells_line fun hall => ?_).bind fun _ => spells_readItems items
  refine Naming.admits_assign.2 ⟨by simpa using hvals, ?_⟩
  exact Naming.admits_call.2 ⟨Naming.allows_helper (by simp), hh hall.1⟩

theorem spells_readStmt (stmt : Node) : Spells ν G pre (readStmt stmt) fun _ => True := by
  unfold readStmt
  extract_lets terminal format items transfer
  clear_value items
  have htransfer : ∀ {pre : Prop} (r : PUnit) (handle : Handle) (format : Option Node),
      (pre → HandleAllowed ν handle) → Spells ν G pre (transfer r handle format) fun _ => True := by
    intro pre r handle format hh
    have hreadline : HandleAllowed ν handle → ν.Admits (.call "readline" handle.args) :=
      fun hhandle => Naming.admits_call.2 ⟨Naming.allows_helper (by simp), hhandle⟩
    refine (spells_formatOf format).bind fun f => ?_
    extract_lets record values
    have hvalues : ∀ {pre' : Prop} (r : PUnit), (pre' → HandleAllowed ν handle) →
        Spells ν G pre' (values r) fun _ => True := by
      intro pre' r hpre
      simp only [values]
      split
      · exact spells_line fun hall => hreadline (hpre hall)
      · split
        · refine (spells_target _).bind fun r => spells_table (fun _ _ => rfl) fun t => spells_line fun hall => ?_
          have hthis := hreadline (hpre hall.1.1)
          refine Naming.admits_assign.2 ⟨by simpa using hall.1.2, ?_⟩
          split
          · exact hthis
          · refine Naming.admits_call.2 ⟨Naming.allows_helper (by simp), fun e he => ?_⟩
            rw [List.mem_singleton.1 he]
            exact hthis
        · exact spells_readRecord _ hpre
      · exact spells_readRecord _ hpre
    split
    · exact (spells_note _ _ _).bind fun r => hvalues r fun hall => hh hall.1.1
    · exact hvalues () fun hall => hh hall.1
  split
  · refine (spells_controls _).bind fun c => (spells_handleOf _).bind fun h => ?_
    exact htransfer () h c.format fun hall => hall.2
  · exact htransfer () _ _ fun _ => by simp [terminal, HandleAllowed, Handle.args]

/-! ## Files -/

theorem spells_connect (c : Connection) (spec : Node)
    (h : pre → ∀ e, c.file = some e → ν.Admits e) :
    Spells ν G pre (connect c spec) fun c => ∀ e, c.file = some e → ν.Admits e := by
  unfold connect
  split
  · split
    · refine (spells_exprOf _).bind fun j => .pure fun hall e he => ?_
      obtain rfl := Option.some.inj he
      exact hall.2
    · exact (spells_exprOf _).bind fun j => .pure fun hall => h hall.1
    · exact (spells_note _ _ _).bind fun _ => .pure fun hall => h hall.1
    · exact (spells_note _ _ _).bind fun _ => .pure fun hall => h hall.1
    · exact (spells_note _ _ _).bind fun _ => .pure fun hall => h hall.1
    · exact (spells_note _ _ _).bind fun _ => .pure fun hall => h hall.1
    · exact (spells_warn _ _ _).bind fun _ => .pure fun hall => h hall.1
    · exact (spells_warn _ _ _).bind fun _ => .pure fun hall => h hall.1
    · exact .pure h
  · exact .pure h

theorem admits_openMode (status : String) {file : Expr} (h : ν.Admits file) :
    ν.Admits (openMode status file) := by
  unfold openMode
  split <;> simp [Naming.allows_helper, h]

theorem spells_openStmt (stmt : Node) : Spells ν G pre (openStmt stmt) fun _ => True := by
  unfold openStmt
  refine (spells_handleOf _).bind fun h => ?_
  split
  · rename_i w
    have hconnect : ∀ {pre : Prop} (specs : List Node), Spells ν G pre (specs.foldlM connect {})
        fun c => ∀ e, c.file = some e → ν.Admits e :=
      fun _ => .foldlM (fun c spec _ _ hc => spells_connect c spec hc) fun _ => by simp
    refine (hconnect _).bind fun c => ?_
    have hopen : ∀ {pre' : Prop} {e : Expr}, (pre' → HandleAllowed ν (.file w) ∧ ν.Admits e) →
        Spells ν G pre' (line (.assign .globally [.name w] (.call "open" [e, openMode c.status e])))
          fun _ => True := by
      intro pre' e hpre
      refine spells_line fun hall => ?_
      obtain ⟨hhandle, hfile⟩ := hpre hall
      have hw : ν.Allows (.value w) := by simpa [HandleAllowed, Handle.args] using hhandle
      simp [hw, hfile, Naming.allows_helper, admits_openMode]
    split
    · rename_i e he
      refine Spells.bind (Q := fun r => r = e) (.pure fun _ => rfl) fun r => hopen fun hall => ?_
      exact ⟨hall.1.1.2, by rw [hall.2]; exact hall.1.2 e he⟩
    · refine (spells_note _ _ _).bind fun _ => ?_
      refine Spells.bind (Q := ν.Admits) (.pure fun _ => by simp) fun r => hopen fun hall => ?_
      exact ⟨hall.1.1.1.2, hall.2⟩
  · exact spells_warn _ _ _

theorem spells_onFile {f : String} (unit : Option Node) (hf : ν.Allows (.callee f)) :
    Spells ν G pre (onFile f unit) fun _ => True := by
  refine (spells_handleOf _).bind fun h => ?_
  split
  · refine spells_line fun hall => ?_
    have hhandle := hall.2
    simp only [HandleAllowed, Handle.args] at hhandle
    exact Naming.admits_run.2 (Naming.admits_call.2 ⟨hf, hhandle⟩)
  · exact .pure fun _ => trivial

/-! ## Jumps and calls -/

theorem spells_labelMark (stmt : Node) : Spells ν G pre (labelMark stmt) fun _ => True := by
  unfold labelMark
  refine spells_unit.bind fun u => ?_
  split
  · exact spells_line fun _ => by simp
  · exact .pure fun _ => trivial

theorem spells_jumpTable {selector : Expr} (labels : List Node) : ∀ {pre : Prop} {number : Nat},
    (pre → ν.Admits selector) → Spells ν G pre (jumpTable selector number labels) fun _ => True := by
  induction labels with
  | nil => exact fun _ => .pure fun _ => trivial
  | cons l rest ih =>
    intro pre number h
    refine (spells_line fun hpre => ?_).bind fun _ => ?_
    · have hselector := h hpre
      split <;> simpa using hselector
    · exact (spells_nested fun _ => spells_line fun _ => by simp).bind fun _ => ih fun hall => h hall.1.1

theorem spells_computedGoto (stmt : Node) : Spells ν G pre (computedGoto stmt) fun _ => True := by
  unfold computedGoto
  simp only
  split
  · exact .pure fun _ => trivial
  · rename_i e he
    have htable : ∀ {pre : Prop} {selector : Expr}, (pre → ν.Admits selector) → Spells ν G pre (do
        jumpTable selector 1 ((grandchildren stmt .lblRefList).filter (·.hasLabel .lblRef))
        if !((grandchildren stmt .lblRefList).filter (·.hasLabel .lblRef)).isEmpty then line .close)
          fun _ => True := by
      intro pre selector h
      refine (spells_jumpTable _ h).bind fun _ => ?_
      split
      · exact spells_line fun _ => by simp
      · exact .pure fun _ => trivial
    have hown : ν.Allows (.value "_k") := Naming.allows_ownValue (by decide)
    refine (spells_exprOf e).bind fun k => ?_
    split
    · refine Spells.bind (Q := fun r => r = k) (.pure fun _ => rfl) fun r => htable fun hall => ?_
      rw [hall.2]
      exact hall.1.2
    · refine spells_binding.bind fun b => (spells_line fun hall => ?_).bind fun _ => ?_
      · exact Naming.admits_assign.2 ⟨by simpa using hown, hall.1.2⟩
      · refine Spells.bind (Q := fun r => r = Expr.name "_k") (.pure fun _ => rfl) fun r => ?_
        exact htable fun hall => by simpa [hall.2] using hown

theorem spells_isLoopIndex (name : String) : Spells ν G pre (isLoopIndex name) fun _ => True :=
  spells_unit.bind fun _ => .pure fun _ => trivial

theorem spells_writeBack (e : Expression) :
    Spells ν G pre (writeBack e) fun w => ν.Admits w.expr := by
  have hdrop : ∀ {pre : Prop}, Spells ν G pre (Pure.pure .drop : Lower WriteBack)
      fun w => ν.Admits w.expr :=
    .pure fun _ => by simpa [WriteBack.expr] using Naming.allows_ownValue (ν := ν) (w := "_") (by decide)
  unfold writeBack
  split
  · refine spells_table (fun _ _ => rfl) fun t => ?_
    split
    · exact hdrop
    · refine (spells_isLoopIndex _).bind fun b => ?_
      split
      · exact hdrop
      · split
        · split
          · exact hdrop
          · exact (spells_variable _).bind fun w => .pure fun h => by simpa [WriteBack.expr] using h.2
        · split
          · exact (spells_expr _).bind fun j => .pure fun h => h.2
          · exact hdrop
        · exact hdrop
  · exact hdrop

theorem spells_callArguments (args : List Node) : ∀ {pre : Prop}, Spells ν G pre (callArguments args)
    fun ps => ∀ p ∈ ps, ν.Admits p.1 ∧ ν.Admits p.2.expr := by
  induction args with
  | nil => exact .pure fun _ => by simp
  | cons arg rest ih =>
    intro pre
    have hdrop : ν.Allows (.value "_") := Naming.allows_ownValue (by decide)
    unfold callArguments
    split
    · split
      · refine ih.bind fun more => .pure fun h => List.forall_mem_cons.2 ⟨⟨by simp, ?_⟩, h.2⟩
        simpa [WriteBack.expr] using hdrop
      · exact (spells_warn _ _ _).bind fun _ => ih
    · refine (spells_expressionOf _).bind fun e => (spells_expr e).bind fun j => ?_
      refine (spells_writeBack e).bind fun w => ih.bind fun more => .pure fun h => ?_
      exact List.forall_mem_cons.2 ⟨⟨h.1.1.2, h.1.2⟩, h.2⟩
    · exact ih

theorem spells_unpack (targets : List WriteBack) : ∀ {pre : Prop} {number : Nat},
    (pre → ∀ w ∈ targets, ν.Admits w.expr) → Spells ν G pre (unpack number targets) fun _ => True := by
  have hown : ν.Allows (.value "_r") := Naming.allows_ownValue (by decide)
  induction targets with
  | nil => exact fun _ => .pure fun _ => trivial
  | cons w rest ih =>
    intro pre number h
    have hrest : ∀ {pre' : Prop}, (pre' → pre) → Spells ν G pre' (unpack (number + 1) rest)
        fun _ => True := fun hpre => ih fun hall v hv => h (hpre hall) v (by simp [hv])
    unfold unpack
    simp only
    split
    · refine (spells_line fun hall => ?_).bind fun _ => hrest fun hall => hall.1
      have hw := h hall w (by simp)
      simpa [hown] using hw
    · exact hrest fun hall => hall

theorem spells_bindResults {call : Expr} {targets : List WriteBack}
    (h : pre → ν.Admits call ∧ ∀ w ∈ targets, ν.Admits w.expr) :
    Spells ν G pre (bindResults call targets) fun _ => True := by
  have hown : ν.Allows (.value "_r") := Naming.allows_ownValue (by decide)
  unfold bindResults
  refine spells_unit.bind fun u => ?_
  simp only
  split
  · exact spells_line fun hall => (h hall.1).1
  · split
    · refine spells_line fun hall => Naming.admits_assign.2 ⟨fun t ht => ?_, (h hall.1).1⟩
      obtain ⟨w, hw, rfl⟩ := List.mem_map.1 ht
      exact (h hall.1).2 w hw
    · refine (spells_line fun hall => ?_).bind fun _ => spells_unpack _ fun hall => (h hall.1.1).2
      exact Naming.admits_assign.2 ⟨by simpa using hown, (h hall.1).1⟩

theorem spells_callStmt (stmt : Node) : Spells ν G pre (callStmt stmt) fun _ => True := by
  unfold callStmt
  refine (spells_callArguments _).bind fun args => (spells_function _).bind fun f => ?_
  refine spells_table (fun _ _ => rfl) fun t => ?_
  have hcall : (∀ p ∈ args, ν.Admits p.1 ∧ ν.Admits p.2.expr) → ν.Allows (.callee f) →
      ν.Admits (.call f (args.map (·.1))) := by
    refine fun hargs hf => Naming.admits_call.2 ⟨hf, fun j hj => ?_⟩
    obtain ⟨p, hp, rfl⟩ := List.mem_map.1 hj
    exact (hargs p hp).1
  simp only
  split
  · exact (spells_warn _ _ _).bind fun _ => spells_line fun h => hcall h.1.1.1.2 h.1.1.2
  · rename_i y _
    have hbind : ∀ {pre' : Prop}, (pre' → (∀ p ∈ args, ν.Admits p.1 ∧ ν.Admits p.2.expr) ∧
        ν.Allows (.callee f)) → Spells ν G pre'
          (bindResults (.call f (args.map (·.1))) ((args.map (·.2)).take y.params.length))
          fun _ => True := by
      intro pre' hpre
      refine spells_bindResults fun hall => ⟨hcall (hpre hall).1 (hpre hall).2, fun w hw => ?_⟩
      obtain ⟨p, hp, rfl⟩ := List.mem_map.1 (List.mem_of_mem_take hw)
      exact ((hpre hall).1 p hp).2
    split
    · exact (spells_warn _ _ _).bind fun _ => hbind fun h => ⟨h.1.1.1.2, h.1.1.2⟩
    · exact hbind fun h => ⟨h.1.1.2, h.1.2⟩

/-! ## Returns and stops -/

theorem admits_exit : ν.AdmitsCode (.run (.call "exit" [])) := by
  simp [Naming.allows_helper]

theorem spells_returnCode : Spells ν G pre returnCode ν.AdmitsCode := by
  unfold returnCode
  refine spells_unit.bind fun u => ?_
  split
  · exact (spells_variable _).bind fun w => .pure fun h => by simpa using h.2
  · refine spells_table (fun _ _ => rfl) fun t => (spells_idents _).bind fun ws => .pure fun h => ?_
    exact Naming.admits_returns.2 h.2
  · exact .pure fun _ => admits_exit

theorem spells_returnStmt (stmt : Node) : Spells ν G pre (returnStmt stmt) fun _ => True := by
  have hreturn : ∀ {pre : Prop}, Spells ν G pre (do line (← returnCode)) fun _ => True :=
    spells_returnCode.bind fun _ => spells_line fun h => h.2
  unfold returnStmt
  simp only
  split
  · exact (spells_warn _ _ _).bind fun _ => hreturn
  · exact hreturn

theorem spells_stopStmt (stmt : Node) : Spells ν G pre (stopStmt stmt) fun _ => True := by
  have hexit : ∀ {pre : Prop}, Spells ν G pre (line (.run (.call "exit" []))) fun _ => True :=
    spells_line fun _ => admits_exit
  unfold stopStmt
  split
  · split
    · split
      · exact hexit
      · exact spells_line fun _ => by simp [Naming.allows_helper]
    · exact (spells_line fun _ => by simp [Naming.allows_helper]).bind fun _ => hexit
    · exact hexit
  · exact hexit

/-! ## Loops and variables without a declaration -/

theorem spells_doStmt (stmt : Node) : Spells ν G pre (doStmt stmt) fun _ => True := by
  unfold doStmt
  split
  · exact .pure fun _ => trivial
  · refine (spells_variable _).bind fun v => (spells_rangeOf _).bind fun r => ?_
    refine (spells_line fun h => Naming.admits_forHead.2 ⟨h.1.2, h.2⟩).bind fun _ => ?_
    exact .modify (fun _ => rfl) (fun _ => rfl) (fun _ _ => rfl) (fun _ => rfl) (fun _ => rfl) (fun _ => rfl)

theorem spells_closeLoop : Spells ν G pre closeLoop fun _ => True := by
  unfold closeLoop
  refine spells_unit.bind fun u => ?_
  split
  · exact .throw _ _
  · refine Spells.bind (Q := fun _ => True) ?_ fun _ => spells_line fun _ => by simp
    exact .modify (fun _ => rfl) (fun _ => rfl) (fun _ _ => rfl) (fun _ => rfl) (fun _ => rfl) (fun _ => rfl)

theorem spells_closeLoops (label : String) (loops : List OpenLoop) : ∀ {pre : Prop},
    Spells ν G pre (closeLoops label loops) fun _ => True := by
  induction loops with
  | nil => exact .pure fun _ => trivial
  | cons loop rest ih =>
    intro pre
    refine .get (fun _ _ _ => rfl) fun s => ?_
    split
    · exact spells_closeLoop.bind fun _ => ih
    · exact .pure fun _ => trivial

theorem spells_needsZero (name : String) : Spells ν G pre (needsZero name) fun _ => True := by
  refine spells_table (fun _ _ => rfl) fun t => spells_unit.bind fun u => (spells_isResult name).bind fun b => ?_
  split
  · exact .pure fun _ => trivial
  · split <;> exact .pure fun _ => trivial

theorem spells_bindLocals : Spells ν G pre bindLocals fun _ => True := by
  have hdone : ∀ {pre : Prop}, Spells ν G pre (modifyUnit fun u => { u with localsDone := true })
      fun _ => True := spells_modifyUnit (fun _ => rfl) (fun _ => rfl)
  refine hdone.bind fun _ => spells_unit.bind fun u => .forM fun name _ => ?_
  refine (spells_needsZero name).bind fun b => ?_
  split
  · refine spells_table (fun _ _ => rfl) fun t => spells_binding.bind fun b => (spells_variable name).bind fun w => ?_
    refine (spells_line fun h => ?_).bind fun _ => spells_declare name
    exact Naming.admits_assign.2 ⟨by simpa using h.2, Naming.admits_zeroValue _⟩
  · exact .pure fun _ => trivial

/-! ## All statements -/

/-- A statement that holds no other one. -/
theorem spells_simple {stmt : Node}
    (hmodify : stmt.hasLabel .stmtFunctionStmt → ∀ t f, G.rel t (t.modify f)) :
    Spells ν G pre (simple stmt) fun _ => True := by
  have hwarn : ∀ message, Spells ν G pre (warn stmt stmt.labelName message) fun _ => True :=
    fun _ => spells_warn _ _ _
  unfold simple
  cases hl : stmt.label? with
  | none => exact hwarn _
  | some l =>
    cases l with
    | assignmentStmt => exact spells_assignment stmt
    | stmtFunctionStmt => exact spells_stmtFunction (hmodify (by simp [Node.hasLabel, hl])) stmt
    | labelDoStmt => exact spells_doStmt stmt
    | gotoStmt => exact spells_line fun _ => by simp
    | computedGotoStmt => exact spells_computedGoto stmt
    | continueStmt | implicitStmt | formatStmt => exact .pure fun _ => trivial
    | callStmt => exact spells_callStmt stmt
    | returnStmt => exact spells_returnStmt stmt
    | stopStmt => exact spells_stopStmt stmt
    | printStmt => exact spells_printStmt stmt
    | writeStmt => exact spells_writeStmt stmt
    | readStmt => exact spells_readStmt stmt
    | openStmt => exact spells_openStmt stmt
    | closeStmt | rewindStmt => exact spells_onFile _ (Naming.allows_helper (by simp))
    | typeDeclarationStmt | dimensionStmt => exact spells_bindAll _ _
    | commonStmt => exact spells_common stmt
    | parameterStmt => exact spells_parameters stmt
    | dataStmt => exact spells_dataStmt stmt
    | externalStmt | intrinsicStmt => exact spells_note _ _ _
    | _ => exact hwarn _

/-- What comes before the code of a statement once its declarations are recorded. -/
theorem spells_opening (stmt : Node) : Spells ν G pre (do
    if !(← unit).localsDone && !isSpecification (← table) stmt then bindLocals
    labelMark stmt) fun _ => True := by
  refine spells_unit.bind fun u => spells_table (fun _ _ => rfl) fun t => ?_
  split
  · exact spells_bindLocals.bind fun _ => spells_labelMark stmt
  · exact spells_labelMark stmt

theorem spells_after (stmt : Node) : Spells ν G pre (after stmt) fun _ => True := by
  have hlabel : ∀ {pre : Prop}, Spells ν G pre (closingLabel stmt) fun _ => True := by
    intro pre
    unfold closingLabel lastOf
    split
    · split
      · exact .pure fun _ => trivial
      · exact (Spells.throw _ fun _ => True).bind fun _ => .pure fun _ => trivial
    · exact .pure fun _ => trivial
  unfold after
  refine (spells_trailing stmt).bind fun _ => hlabel.bind fun label => ?_
  split
  · exact spells_unit.bind fun u => spells_closeLoops label u.loops
  · exact .pure fun _ => trivial

theorem spells_condition (stmt : Node) : Spells ν G pre (condition stmt) ν.Admits := by
  unfold condition
  split
  · exact spells_exprOf _
  · exact .pure fun _ => by simp

theorem spells_blockMark (stmt : Node) : Spells ν G pre (blockMark stmt) fun _ => True := by
  have htrailing : ∀ {pre : Prop} (_ : PUnit), Spells ν G pre (trailing stmt) fun _ => True :=
    fun _ => spells_trailing stmt
  unfold blockMark
  simp only
  split
  · refine (spells_labelMark stmt).bind fun _ => (spells_condition stmt).bind fun c => ?_
    exact (spells_line fun h => h.2).bind fun r => htrailing r
  · exact (spells_condition stmt).bind fun c => (spells_line fun h => h.2).bind fun r => htrailing r
  · exact (spells_line fun _ => by simp).bind fun r => htrailing r
  · refine (spells_nested fun _ => spells_labelMark stmt).bind fun _ => ?_
    exact (spells_line fun _ => by simp).bind fun r => htrailing r
  · exact htrailing ()

/-! ## Parts of units -/

theorem spells_routineHead (stmt : Node) : Spells ν G pre (routineHead stmt) fun _ => True := by
  unfold routineHead
  refine spells_unit.bind fun u => spells_table (fun _ _ => rfl) fun t => (spells_idents _).bind fun ps => ?_
  refine (spells_function _).bind fun f => ?_
  refine (spells_line fun h => Naming.admits_functionHead.2 ⟨h.2, h.1.2⟩).bind fun _ => ?_
  refine (spells_depth (· + 1)).bind fun _ => (spells_trailing stmt).bind fun _ => ?_
  split
  · refine spells_table (fun _ _ => rfl) fun t => (spells_variable _).bind fun w => spells_line fun h => ?_
    exact Naming.admits_assign.2 ⟨by simpa using h.2, Naming.admits_zeroValue _⟩
  · exact .pure fun _ => trivial

theorem spells_abandonLoops (stmt : Node) (loops : List OpenLoop) : ∀ {pre : Prop},
    Spells ν G pre (abandonLoops stmt loops) fun _ => True := by
  induction loops with
  | nil => exact .pure fun _ => trivial
  | cons loop rest ih =>
    exact fun {_} => (spells_warn _ _ _).bind fun _ => spells_closeLoop.bind fun _ => ih

theorem spells_unitEnd (whole stmt : Node) : Spells ν G pre (unitEnd whole stmt) fun _ => True := by
  have hend : ∀ {pre : Prop}, Spells ν G pre (do
      modify fun s => { s with depth := s.depth - 1 }
      line .close
      trailing stmt) fun _ => True :=
    (spells_depth (· - 1)).bind fun _ => (spells_line fun _ => by simp).bind fun _ => spells_trailing stmt
  unfold unitEnd
  refine spells_unit.bind fun u => (spells_abandonLoops stmt u.loops).bind fun _ => ?_
  refine (spells_labelMark stmt).bind fun _ => spells_unit.bind fun v => ?_
  split
  · split
    · exact spells_returnCode.bind fun c => (spells_line fun h => h.2).bind fun _ => hend
    · exact hend
  · exact spells_trailing stmt

/-- A source that is a single name has no result of a function. -/
theorem spells_lone (hresult : ∀ x, ν.result x = false) (name : String) :
    Spells ν G pre (callee name >>= fun w => line (.run (.name w))) fun _ => True := by
  refine (spells_callee name).bind fun w => spells_line fun h => ?_
  obtain ⟨hspelled, hw⟩ := h.2
  rw [Naming.written, ← show ν.written .variable name = _ from if_neg (by simp [hresult name])] at hw
  exact Naming.admits_run.2 (Naming.admits_name.2 (ν.allows_variable ⟨hspelled, hw⟩))

end Spells

end Lower

end FortranJulia
