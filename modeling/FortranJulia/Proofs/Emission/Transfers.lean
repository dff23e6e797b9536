import FortranJulia.Proofs.Emission.Parts

/-!
Transfers of data write nothing but what is made of the material: the strings of formats, the handles
of units, lists of output and of input, and the opening of files.
-/

namespace FortranJulia

set_option autoImplicit false

open Julia (Expr Code Line Binding)

namespace Lower

section Makes

set_option linter.unusedSectionVars false

variable {m : Material} {known : Collection → UnitState → Prop} {base : LowerState}
  (law : m.Lawful known)

include law

/-! ## Formats and units -/

omit law in
theorem makes_overflow (b : Bool) :
    Makes m known base (modify fun s => { s with overflow := b } : Lower Unit) fun _ => True :=
  .modify (fun _ hs => hs.step hs.known rfl rfl)

omit law in
/-- The Julia string of a format is a quoted text. -/
theorem makes_printFormat (n : Node) (spec : String) :
    Makes m known base (printFormat n spec) fun r =>
      ∀ f, r = some f → ∃ s, f.literal = Text.juliaString s := by
  have hwarn : ∀ message, Makes m known base (do
      warn n n.labelName message
      return (none : Option PrintFormat)) fun r => ∀ f, r = some f → ∃ s, f.literal = Text.juliaString s :=
    fun message => (makes_warn n.labelName_resolved).bind (fun _ _ => .pure (by simp))
  unfold printFormat
  split
  · exact hwarn _
  · extract_lets p
    split
    · exact .pure (by rintro f ⟨⟩; exact ⟨_, rfl⟩)
    · exact (makes_overflow true).bind (fun _ _ => .pure (by simp))
    · exact hwarn _

/-- The format has a string that may be written. -/
def Formatted (m : Material) (r : Option PrintFormat) : Prop :=
  ∀ f, r = some f → m.Wrought (.str f.literal)

omit law in
theorem formatted_none : Formatted m none :=
  fun _ h => nomatch h

theorem makes_labelledFormat (id : Node) (label : String) :
    Makes m known base (labelledFormat id label) (Formatted m) := by
  unfold labelledFormat
  refine makes_unit.bind (fun u hu => ?_)
  obtain ⟨c, hknown⟩ := hu
  split
  · rename_i f hf
    refine .pure (fun g hg => ?_)
    subst hg
    exact .constant (law.formats hknown hf)
  · exact (makes_warn (by decide)).bind (fun _ _ => .pure formatted_none)

theorem makes_tokenFormat (id : Node) (lx : Lexeme) :
    Makes m known base (tokenFormat id lx) (Formatted m) := by
  unfold tokenFormat
  split
  · exact .pure formatted_none
  · exact makes_labelledFormat law id _
  · refine (makes_printFormat id _).imp (fun r hr f hf => ?_)
    obtain ⟨s, hs⟩ := hr f hf
    rw [hs]
    exact .quoted s
  · exact (makes_warn (by decide)).bind (fun _ _ => .pure formatted_none)

theorem makes_formatOf (id : Option Node) : Makes m known base (formatOf id) (Formatted m) := by
  have hwarn : ∀ n message, Makes m known base (do
      warn n Label.formatIdentifier.name message
      return (none : Option PrintFormat)) (Formatted m) :=
    fun n message => (makes_warn (by decide)).bind (fun _ _ => .pure formatted_none)
  unfold formatOf
  split
  · exact .pure formatted_none
  · split
    · exact .pure formatted_none
    · exact makes_tokenFormat law _ _
    · split
      · split
        · exact makes_tokenFormat law _ _
        · exact hwarn _ _
      · split
        · exact makes_labelledFormat law _ _
        · exact hwarn _ _

/-- The handle has a name that may be written. -/
def Handled (m : Material) : Handle → Prop
  | .file w => m.Named w
  | _ => True

omit law in
theorem handled_args {h : Handle} (hh : Handled m h) : ∀ j ∈ h.args, m.Wrought j := by
  cases h with
  | console => simp [Handle.args]
  | errors => simpa [Handle.args] using Material.Wrought.own (m := m) (w := "stderr") (by simp)
  | file w => simpa [Handle.args] using Material.Wrought.name hh

theorem makes_handleOf {id : Option Node} (h : ∀ n, id = some n → m.Fits known n) :
    Makes m known base (handleOf id) (Handled m) := by
  have hconsole : ∀ n, Makes m known base (handleOf.console n) (Handled m) :=
    fun n => (makes_warn (by decide)).bind (fun _ _ => .pure trivial)
  unfold handleOf
  split
  · exact .pure trivial
  · rename_i id
    split
    · exact .pure trivial
    · rename_i first hfirst
      split
      · exact .pure trivial
      · split
        · rename_i lx hlx
          split
          · split
            · rename_i number _
              refine .pure ?_
              unfold Handle.ofNumber
              split
              · trivial
              · split
                · trivial
                · exact .unit number
            · exact .pure trivial
          · rename_i hkind
            have hmem : lx ∈ first.lexemes := by rw [hlx]; simp
            have hname : m.name lx.text :=
              (((h id rfl).child (List.mem_of_head? hfirst)).lexemes lx hmem).2 hkind
            refine (makes_spell law hname).bind (fun w hw => ?_)
            exact (makes_note (by decide)).bind (fun _ _ => .pure (.marked hname hw.1))
          · exact hconsole _
        · exact hconsole _

omit law in
/-- The unit among the specifiers of a statement. -/
theorem specUnit_fits {list : Option Node} (h : ∀ n, list = some n → m.Fits known n) :
    ∀ n, specUnit list = some n → m.Fits known n := by
  intro n hn
  obtain ⟨spec, hspec, hunit⟩ := Option.bind_eq_some_iff.1 hn
  have hmem := List.mem_of_find?_eq_some hspec
  cases list with
  | none => simp at hmem
  | some l => exact ((h l rfl).child hmem).child? hunit

/-- The unit and the format of a transfer are parts of the tree. -/
structure ControlFits (m : Material) (known : Collection → UnitState → Prop) (c : Control) : Prop where
  unit : ∀ n, c.unit = some n → m.Fits known n
  format : ∀ n, c.format = some n → m.Fits known n

omit law in
theorem makes_control {c : Control} (hc : ControlFits m known c) {spec : Node} (h : m.Fits known spec) :
    Makes m known base (control c spec) (ControlFits m known) := by
  unfold control
  split
  · exact .pure hc
  · split
    · exact .pure ⟨hc.unit, fun _ hn => h.child? hn⟩
    · exact .pure ⟨fun _ hn => h.child? hn, hc.format⟩
    · exact (makes_warn (by decide)).bind (fun _ _ => .pure hc)
  · rename_i first _ hfirst
    have hthis : m.Fits known first := h.child (List.mem_of_head? hfirst)
    split
    · exact .pure ⟨by rintro n ⟨⟩; exact hthis, hc.format⟩
    · exact .pure ⟨hc.unit, by rintro n ⟨⟩; exact hthis⟩
    · exact .pure ⟨hc.unit, hc.format⟩

omit law in
theorem makes_controls {list : Option Node} (h : ∀ n, list = some n → m.Fits known n) :
    Makes m known base (controls list) (ControlFits m known) := by
  refine .foldlM (fun c hc spec hspec => makes_control hc ?_) {} ⟨by simp, by simp⟩
  cases list with
  | none => cases hspec
  | some l => exact (h l rfl).childrenWith hspec

/-! ## Output -/

mutual

theorem makes_impliedDo : ∀ n : Node, m.Fits known n → n.label? ≠ none →
    Makes m known base (impliedDo n) m.Wrought
  | .leaf _ _, _, hl => absurd rfl hl
  | .inner i l cs, h, _ => by
    have hbounds : ∀ n ∈ (Node.inner i l cs).childrenWith .expr, ∀ e, n.expression? = some e →
        m.expression e :=
      fun n hn => (h.childrenWith hn).expression n (nodes_self n) (Node.hasLabel_childrenWith hn)
    rw [impliedDo]
    refine (makes_named law (h.childText (by decide) law.empty.1)).bind (fun v hv => ?_)
    refine (makes_rangeOf law hbounds).bind (fun r hr => ?_)
    refine (makes_impliedLists cs (fun c hc => h.child hc)).bind (fun elements helements => ?_)
    split
    · exact .pure (.flattened hv hr (helements _ List.mem_cons_self))
    · exact .pure (.generator (helements _ List.mem_cons_self) hv hr)
    · exact .pure (.flattened hv hr (.spread (.tuple helements)))

theorem makes_impliedLists : ∀ ns : List Node, (∀ n ∈ ns, m.Fits known n) →
    Makes m known base (impliedLists ns) fun js => ∀ j ∈ js, m.Wrought j
  | [], _ => by
    rw [impliedLists]
    exact .pure (by simp)
  | .leaf _ _ :: rest, h => by
    rw [impliedLists]
    exact makes_impliedLists rest (fun n hn => h n (by simp [hn]))
  | .inner i l items :: rest, h => by
    rw [impliedLists]
    split
    · exact makes_impliedItems items (fun n hn => (h (.inner i l items) (by simp)).child hn)
    · exact makes_impliedLists rest (fun n hn => h n (by simp [hn]))

theorem makes_impliedItems : ∀ ns : List Node, (∀ n ∈ ns, m.Fits known n) →
    Makes m known base (impliedItems ns) fun js => ∀ j ∈ js, m.Wrought j
  | [], _ => by
    rw [impliedItems]
    exact .pure (by simp)
  | n :: rest, h => by
    have hrest := makes_impliedItems rest (fun n hn => h n (by simp [hn]))
    rw [impliedItems]
    split
    · rename_i hl
      refine (makes_impliedDo n (h n (by simp)) (by rw [hl]; simp)).bind (fun j hj => ?_)
      refine hrest.bind (fun js hjs => .pure ?_)
      exact List.forall_mem_cons.2 ⟨.spread hj, hjs⟩
    · rename_i hl
      have hexpr := (h n (by simp)).expression n (nodes_self n) (by simp [Node.hasLabel, hl])
      refine (makes_exprOf law hexpr).bind (fun j hj => hrest.bind (fun js hjs => .pure ?_))
      exact List.forall_mem_cons.2 ⟨hj, hjs⟩
    · exact hrest

end

theorem makes_outputItems {ns : List Node} (h : ∀ n ∈ ns, m.Fits known n) :
    Makes m known base (outputItems ns) fun is => ∀ i ∈ is, m.Wrought i.expr := by
  induction ns with
  | nil => exact .pure (by simp)
  | cons n rest ih =>
    have hrest := ih (fun n hn => h n (by simp [hn]))
    unfold outputItems
    split
    · rename_i hl
      refine (makes_impliedDo law n (h n (by simp)) (by rw [hl]; simp)).bind (fun j hj => ?_)
      exact hrest.bind (fun is his => .pure (List.forall_mem_cons.2 ⟨hj, his⟩))
    · rename_i hl
      have hexpr := (h n (by simp)).expression n (nodes_self n) (by simp [Node.hasLabel, hl])
      refine (makes_exprOf law hexpr).bind (fun j hj => hrest.bind (fun is his => .pure ?_))
      exact List.forall_mem_cons.2 ⟨hj, his⟩
    · exact hrest

omit law in
theorem printed_wrought (hjoin : m.helper "join") {i : OutputItem} (h : m.Wrought i.expr) :
    m.Wrought i.printed := by
  unfold OutputItem.printed
  split
  · have hblank : m.Wrought (.str "\" \"") := .literal (by simp)
    exact .helper hjoin (by simp [h, hblank])
  · exact h

omit law in
theorem formatted_wrought {i : OutputItem} (h : m.Wrought i.expr) : m.Wrought i.formatted := by
  unfold OutputItem.formatted
  split
  · exact .spread h
  · exact h

omit law in
theorem intersperse_forall {α : Type} {p : α → Prop} {sep : α} (hsep : p sep) {xs : List α}
    (h : ∀ x ∈ xs, p x) : ∀ x ∈ xs.intersperse sep, p x := by
  induction xs with
  | nil => simp
  | cons x xs ih =>
    cases xs with
    | nil => simpa using h
    | cons y ys =>
      rw [List.intersperse_cons_cons]
      have hrest := ih (fun z hz => h z (by simp [hz]))
      exact List.forall_mem_cons.2 ⟨h x (by simp), List.forall_mem_cons.2 ⟨hsep, hrest⟩⟩

theorem makes_output (hhelpers : ∀ f ∈ Label.printStmt.helpers, m.helper f) {stmt : Node}
    (h : m.Fits known stmt) {handle : Handle} (hhandle : Handled m handle) (format : Option Node) :
    Makes m known base (output stmt handle format) fun _ => True := by
  unfold output
  refine (makes_outputItems law (fun n hn => h.grandchildren hn)).bind (fun items hitems => ?_)
  refine (makes_formatOf law format).bind (fun f hf => ?_)
  split
  · have hblank : m.Wrought (.str "\" \"") := .literal (by simp)
    have hprinted : ∀ j ∈ items.map (·.printed), m.Wrought j := by
      intro j hj
      obtain ⟨i, hi, rfl⟩ := List.mem_map.1 hj
      exact printed_wrought (hhelpers _ (by decide)) (hitems i hi)
    refine makes_line (.run (.helper (hhelpers _ (by decide)) (fun j hj => ?_)))
    rcases List.mem_append.1 hj with hj | hj
    · exact handled_args hhandle j hj
    · exact intersperse_forall hblank hprinted j hj
  · rename_i f
    have hline : Makes m known base
        (line (.run (.call "@printf" (handle.args ++ .str f.literal :: items.map (·.formatted)))))
        fun _ => True := by
      refine makes_line (.run (.helper (hhelpers _ (by decide)) (fun j hj => ?_)))
      rcases List.mem_append.1 hj with hj | hj
      · exact handled_args hhandle j hj
      · rcases List.mem_cons.1 hj with rfl | hj
        · exact hf f rfl
        · obtain ⟨i, hi, rfl⟩ := List.mem_map.1 hj
          exact formatted_wrought (hitems i hi)
    split
    · exact (makes_note stmt.labelName_resolved).bind (fun _ _ => hline)
    · exact hline

theorem makes_printStmt {stmt : Node} (h : m.Fits known stmt) (hl : stmt.hasLabel .printStmt) :
    Makes m known base (printStmt stmt) fun _ => True := by
  have hconsole : Handled m .console := trivial
  exact makes_output law (h.helpers stmt (nodes_self stmt) .printStmt hl) h hconsole _

theorem makes_writeStmt {stmt : Node} (h : m.Fits known stmt) (hl : stmt.hasLabel .writeStmt) :
    Makes m known base (writeStmt stmt) fun _ => True := by
  have hhelpers := h.helpers stmt (nodes_self stmt) .writeStmt hl
  refine (makes_controls (fun n hn => h.child? hn)).bind (fun c hc => ?_)
  exact (makes_handleOf law hc.unit).bind
    (fun handle hhandle => makes_output law hhelpers h hhandle _)

/-! ## Input -/

theorem makes_readItems {items : List Node} (h : ∀ n ∈ items, m.Fits known n) : ∀ k,
    Makes m known base (readItems k items) fun _ => True := by
  have hrefuse : ∀ item, Makes m known base (readItems.refuse item) fun _ => True :=
    fun _ => makes_warn (by decide)
  induction items with
  | nil => exact fun _ => .pure trivial
  | cons item rest ih =>
    intro k
    have hitem := h item (by simp)
    have hrest := ih (fun n hn => h n (by simp [hn])) (k + 1)
    have hbounds : ∀ n ∈ item.childrenWith .expr, ∀ e, n.expression? = some e → m.expression e :=
      fun n hn => (hitem.childrenWith hn).expression n (nodes_self n) (Node.hasLabel_childrenWith hn)
    have hself : m.Wrought (.name "_v") := .name (.helper (by decide))
    have hnumber : m.Wrought (.number (Decimal.digits k)) := .count k
    have hend : m.Wrought (.name "end") := .own (by simp)
    unfold readItems
    extract_lets number
    split
    · refine (makes_target law hitem).bind (fun r hr => ?_)
      have hvalue : m.Wrought (.index (.name "_vals") [number]) :=
        .part (by decide) (by simpa using hnumber)
      refine (makes_line ?_).bind (fun _ _ => hrest)
      exact .assign r.1 (by simp) (by simpa using hr) (.inl hvalue)
    · split
      · rename_i v hv _
        split
        · have hfits : m.Fits known v := hitem.grandchildren (by rw [hv]; simp)
          have hrange : m.Wrought (.range [number, .name "end"]) := .range (by simp [hend, hnumber, number])
          refine (makes_named law (hitem.childText (by decide) law.empty.1)).bind (fun w hw => ?_)
          refine (makes_rangeOf law hbounds).bind (fun r hr => ?_)
          refine (makes_line (.forPairs hw hr (.part (by decide) (by simpa using hrange)))).bind
            (fun _ _ => ?_)
          refine (makes_nested (makes_assigned law hfits hself)).bind (fun _ _ => ?_)
          exact (makes_line .close).bind (fun _ _ => hrest)
        · exact (hrefuse item).bind (fun _ _ => hrest)
      · exact (hrefuse item).bind (fun _ _ => hrest)

theorem makes_readStmt {stmt : Node} (h : m.Fits known stmt) (hl : stmt.hasLabel .readStmt) :
    Makes m known base (readStmt stmt) fun _ => True := by
  have hhelpers : ∀ f ∈ Label.readStmt.helpers, m.helper f :=
    h.helpers stmt (nodes_self stmt) .readStmt hl
  unfold readStmt
  extract_lets terminal format items transfer
  have hitems : ∀ n ∈ items, m.Fits known n :=
    fun n hn => h.grandchildren (List.mem_filter.1 hn).1
  clear_value items
  have hrecord : ∀ handle, Handled m handle →
      Makes m known base (readStmt.readRecord handle items) fun _ => True := by
    intro handle hhandle
    have hvals : m.Target (.name "_vals") := .name (.helper (by decide))
    have hcall : m.Wrought (.call "read_values" handle.args) :=
      .helper (hhelpers _ (by decide)) (handled_args hhandle)
    refine makes_binding.bind (fun b _ => (makes_line ?_).bind (fun _ _ => ?_))
    · exact .assign b (by simp) (by simpa using hvals) (.inl hcall)
    · exact makes_readItems law hitems 1
  have htransfer : ∀ r handle, Handled m handle → ∀ format,
      Makes m known base (transfer r handle format) fun _ => True := by
    intro r handle hhandle format
    have hreadline : m.Wrought (.call "readline" handle.args) :=
      .helper (hhelpers _ (by decide)) (handled_args hhandle)
    refine (makes_formatOf law format).bind (fun f _ => ?_)
    extract_lets record values
    have hvalues : ∀ r, Makes m known base (values r) fun _ => True := by
      intro r
      simp only [values]
      split
      · exact makes_line (.run (.helper (hhelpers _ (by decide)) (handled_args hhandle)))
      · rename_i item
        split
        · refine (makes_target law (hitems item (by simp))).bind (fun r hr => ?_)
          refine makes_table.bind (fun t _ => makes_line ?_)
          refine .assign r.1 (by simp) (by simpa using hr) (.inl ?_)
          split
          · exact hreadline
          · exact .helper (hhelpers _ (by decide)) (by simpa using hreadline)
        · exact hrecord handle hhandle
      · exact hrecord handle hhandle
    split
    · exact (makes_note (by decide)).bind (fun r _ => hvalues r)
    · exact hvalues ()
  split
  · rename_i list hlist
    refine (makes_controls (fun n hn => ?_)).bind (fun c hc => ?_)
    · obtain rfl := Option.some.inj hn
      exact h.child? hlist
    · exact (makes_handleOf law hc.unit).bind (fun handle hhandle => htransfer () handle hhandle _)
  · exact htransfer () terminal trivial _

/-! ## Files -/

/-- The name of the file can be written. -/
def Connected (m : Material) (c : Connection) : Prop :=
  ∀ j, c.file = some j → m.Wrought j

theorem makes_connect {c : Connection} (hc : Connected m c) {spec : Node} (h : m.Fits known spec) :
    Makes m known base (connect c spec) (Connected m) := by
  have hexpr : ∀ {e : Node}, spec.child? .expr = some e → ∀ x, e.expression? = some x → m.expression x :=
    fun he => (h.child? he).expression _ (nodes_self _) (Node.hasLabel_child? he)
  have hstatus : ∀ status, Connected m { c with status } := fun _ => hc
  have hnote : ∀ message, Makes m known base (do
      note spec Label.connectSpec.name message
      return c) (Connected m) :=
    fun message => (makes_note (by decide)).bind (fun _ _ => .pure hc)
  have hwarn : ∀ message, Makes m known base (do
      warn spec Label.connectSpec.name message
      return c) (Connected m) :=
    fun message => (makes_warn (by decide)).bind (fun _ _ => .pure hc)
  unfold connect
  split
  · split
    · rename_i he
      refine (makes_exprOf law (hexpr he)).bind (fun j hj => .pure ?_)
      rintro k ⟨⟩
      exact hj
    · rename_i he
      exact (makes_exprOf law (hexpr he)).bind (fun _ _ => .pure (hstatus _))
    · exact hnote _
    · exact hnote _
    · exact hnote _
    · exact hnote _
    · exact hwarn _
    · exact hwarn _
    · exact .pure hc
  · exact .pure hc

omit law in
theorem openMode_wrought (hisfile : m.helper "isfile") (status : String) {j : Expr} (hj : m.Wrought j) :
    m.Wrought (openMode status j) := by
  unfold openMode
  split
  · exact .literal (by simp)
  · exact .literal (by simp)
  · exact .literal (by simp)
  · exact .literal (by simp)
  · have hmissing : m.Wrought (.call "isfile" [j]) := .helper hisfile (by simpa using hj)
    exact .conditional hmissing (.literal (by simp)) (.literal (by simp))

theorem makes_openStmt {stmt : Node} (h : m.Fits known stmt) (hl : stmt.hasLabel .openStmt) :
    Makes m known base (openStmt stmt) fun _ => True := by
  have hhelpers : ∀ f ∈ Label.openStmt.helpers, m.helper f :=
    h.helpers stmt (nodes_self stmt) .openStmt hl
  have hlist : ∀ n, stmt.child? .connectSpecList = some n → m.Fits known n := fun n hn => h.child? hn
  unfold openStmt
  extract_lets list
  refine (makes_handleOf law (specUnit_fits hlist)).bind (fun handle hhandle => ?_)
  split
  · rename_i w
    have hline : ∀ (c : Connection) {j : Expr}, m.Wrought j → Makes m known base
        (line (.assign .globally [.name w] (.call "open" [j, openMode c.status j]))) fun _ => True := by
      intro c j hj
      have hcall : m.Wrought (.call "open" [j, openMode c.status j]) :=
        .helper (hhelpers _ (by decide))
          (by simp [hj, openMode_wrought (hhelpers _ (by decide)) c.status hj])
      have hfile : m.Target (.name w) := .name hhandle
      exact makes_line (.assign _ (by simp) (by simpa using hfile) (.inl hcall))
    have hspecs : ∀ spec ∈ (list.map (·.childrenWith .connectSpec)).getD [], m.Fits known spec := by
      intro spec hspec
      cases hl : list with
      | none => simp [hl] at hspec
      | some n =>
        rw [hl, Option.map_some, Option.getD_some] at hspec
        exact (hlist n hl).childrenWith hspec
    refine (Ensures.foldlM (fun c hc spec hspec => makes_connect law hc (hspecs spec hspec)) {}
      (by simp [Connected])).bind (fun c hc => ?_)
    split
    · rename_i e he
      exact (Ensures.pure (hc e he)).bind (fun j hj => hline c hj)
    · refine (makes_note (by decide)).bind (fun _ _ => ?_)
      exact (Ensures.pure (.quoted _)).bind (fun j hj => hline c hj)
  · exact makes_warn (by decide)

theorem makes_onFile {f : String} (hf : m.helper f) {unit : Option Node}
    (h : ∀ n, unit = some n → m.Fits known n) : Makes m known base (onFile f unit) fun _ => True := by
  unfold onFile
  refine (makes_handleOf law h).bind (fun handle hhandle => ?_)
  split
  · rename_i w
    have hfile : m.Wrought (.name w) := .name hhandle
    exact makes_line (.run (.helper hf (by simpa using hfile)))
  · exact .pure trivial

end Makes

end Lower

end FortranJulia
