import FortranJulia.Proofs.Format.Conversions
import FortranJulia.Proofs.Format.Reading
import FortranJulia.Proofs.Lowering.Transfers
import FortranJulia.Proofs.Scanning.Constants
import FortranJulia.Proofs.Scanning.Steps

/-!
Texts in formats. A FORMAT statement may hold its texts as character constants or as Hollerith
constants. They are read from the source as their values, written as quoted constants into the
specification, read from there as items, and printed with every percent sign doubled into a Julia
literal; what the literal prints is the values again.
-/

namespace FortranJulia

set_option autoImplicit false

/-! ## Quoted texts -/

namespace Text

theorem undoubleQuotes_doubled (cs : List Char) : undoubleQuotes (Scan.doubled '\'' cs) = cs := by
  induction cs with
  | nil => rfl
  | cons c cs ih =>
    rw [Scan.doubled, List.flatMap_cons, ← Scan.doubled]
    by_cases hc : c = '\''
    · rw [if_pos hc, List.cons_append, List.cons_append, List.nil_append, undoubleQuotes, ih, hc]
    · rw [if_neg hc, List.cons_append, List.nil_append, undoubleQuotes, ih]
      exact fun _ h _ => hc h

/-- A text that is quoted is read back. -/
theorem fortranText_fortranConstant (s : String) : fortranText (fortranConstant s) = s := by
  rw [fortranText, Format.Token.toList_fortranConstant, List.drop_succ_cons, List.drop_zero,
    List.dropLast_concat, undoubleQuotes_doubled, String.ofList_toList]

end Text

/-! ## Constants in the source -/

namespace Scan

/-- A constant as it stands in a source, and its value: between quotes, or behind its length and the
letter H. -/
inductive WritesConstant : List Char → List Char → Prop where
  | quoted {q : Char} {value : List Char} (quote : q = '\'' ∨ q = '"') (line : '\n' ∉ value) :
      WritesConstant (q :: (doubled q value ++ [q])) value
  | hollerith {c h : Char} {ds value : List Char} (digits : ∀ d ∈ c :: ds, Decimal.isDigit d)
      (letter : h = 'H' ∨ h = 'h') (count : Decimal.ofDigits (c :: ds) = value.length)
      (range : value.length ≤ Decimal.maxInt) (line : '\n' ∉ value) :
      WritesConstant (c :: (ds ++ h :: value)) value

/-- Constants with commas between them and blanks anywhere between the tokens, and their values. -/
inductive WritesConstants : List Char → List (List Char) → Prop where
  | one {text value blanks : List Char} (first : WritesConstant text value)
      (blank : ∀ c ∈ blanks, c = ' ') : WritesConstants (text ++ blanks) [value]
  | more {text value blanks blanks' rest : List Char} {values : List (List Char)}
      (first : WritesConstant text value) (blank : ∀ c ∈ blanks, c = ' ')
      (blank' : ∀ c ∈ blanks', c = ' ') (others : WritesConstants rest values) :
      WritesConstants (text ++ (blanks ++ ',' :: (blanks' ++ rest))) (value :: values)

end Scan

namespace Lexeme

/-- A character or Hollerith constant with a value. -/
def IsConstant (lx : Lexeme) (value : String) : Prop :=
  (lx.kind = .charConst ∨ lx.kind = .hollerithConst) ∧ lx.value = some (.text value)

/-- Constants with these values and commas between them. -/
inductive Constants : List String → List Lexeme → Prop where
  | one {lx : Lexeme} {value : String} (first : lx.IsConstant value) : Constants [value] [lx]
  | more {lx comma : Lexeme} {value : String} {values : List String} {lxs : List Lexeme}
      (first : lx.IsConstant value) (separator : comma.kind = .comma ∧ comma.text = ",")
      (others : Constants values lxs) : Constants (value :: values) (lx :: comma :: lxs)

end Lexeme

namespace Scan

section Reading

variable {source : String} {front rest : List Char} {read : List Lexeme} {p : Place}

/-- Blanks are skipped. -/
theorem Comes.blanks {blanks : List Char} (hblanks : ∀ c ∈ blanks, c = ' ') :
    ∀ {front : List Char} {p : Place}, Comes source front read p (blanks ++ rest) →
      ∃ p', Comes source (front ++ blanks) read p' rest := by
  induction blanks with
  | nil => exact fun {front p} h => ⟨p, by rwa [List.append_nil]⟩
  | cons c cs ih =>
    intro front p h
    obtain rfl := hblanks c List.mem_cons_self
    have hstep : Comes source (front ++ [' ']) (read ++ []) (p.after .skip) (cs ++ rest) :=
      h.step rfl
    rw [List.append_nil] at hstep
    obtain ⟨p', hrest⟩ := ih (fun d hd => hblanks d (List.mem_cons_of_mem _ hd)) hstep
    exact ⟨p', by simpa using hrest⟩

/-- A Hollerith constant takes as many characters as its count says. -/
theorem number_hollerith {c h : Char} {ds value : List Char}
    (hdigits : ∀ d ∈ c :: ds, Decimal.isDigit d) (hletter : h = 'H' ∨ h = 'h')
    (hcount : Decimal.ofDigits (c :: ds) = value.length) (hrange : value.length ≤ Decimal.maxInt)
    (hline : '\n' ∉ value) (rest : List Char) :
    number c (ds ++ h :: (value ++ rest)) =
      .constant .hollerithConst (ds.length + 1 + value.length)
        (some (.text (String.ofList value))) := by
  have hds : ∀ d ∈ ds, Decimal.isDigit d := fun d hd => hdigits d (List.mem_cons_of_mem c hd)
  have hbehind : (h :: (value ++ rest)).head?.any Decimal.isDigit = false := by
    rcases hletter with rfl | rfl <;> rfl
  have hrun : run Decimal.isDigit (ds ++ h :: (value ++ rest)) = ds.length := by
    rw [run, (Decimal.takeWhile_digits hds hbehind).1]
  have hpayload : value.takeWhile (· != '\n') = value :=
    List.takeWhile_eq_self_iff.2 fun d hd => by
      rw [bne_iff_ne]
      rintro rfl
      exact hline hd
  have hnext : (h == 'H' || h == 'h') = true := by
    rcases hletter with rfl | rfl <;> rfl
  have hdrop : (ds ++ h :: (value ++ rest)).drop (ds.length + 1) = value ++ rest := by
    rw [← List.drop_drop, List.drop_left]
    rfl
  simp only [number, hrun, List.drop_left, hnext, if_true, List.take_left, hollerith, hcount,
    hrange, hdrop, hpayload]

/-- A constant is read as one lexeme with its value. -/
theorem Comes.writtenConstant {text value : List Char} (hwrites : WritesConstant text value)
    (hrest : ∀ c, rest.head? = some c → c ≠ '\'' ∧ c ≠ '"')
    (h : Comes source front read p (text ++ rest)) :
    ∃ lx p', lx.IsConstant (String.ofList value) ∧
      Comes source (front ++ text) (read ++ [lx]) p' rest := by
  cases hwrites with
  | @quoted q _ hquote hline =>
    have hother : rest.head? ≠ some q := by
      intro hq
      rcases hquote with rfl | rfl
      · exact (hrest _ hq).1 rfl
      · exact (hrest _ hq).2 rfl
    rw [List.cons_append, List.append_assoc, List.singleton_append] at h
    exact ⟨_, _, ⟨.inl rfl, rfl⟩, h.constant hquote hline hother⟩
  | @hollerith c letter ds _ hdigits hletter hcount hrange hline =>
    rw [List.cons_append, List.append_assoc, List.cons_append] at h
    have hpiece := (piece_digit (hdigits c List.mem_cons_self) (p.col == 1) p.depth _).trans
      (number_hollerith hdigits hletter hcount hrange hline rest)
    have hstep := h.step hpiece
    have hlength : ds.length + 1 + value.length = (ds ++ letter :: value).length := by
      simp only [List.length_append, List.length_cons]
      omega
    have hfront : ds ++ letter :: (value ++ rest) = ds ++ letter :: value ++ rest := by
      rw [List.append_assoc, List.cons_append]
    simp only [Piece.constant, hlength, hfront, List.take_left, List.drop_left] at hstep
    exact ⟨_, _, ⟨.inr rfl, rfl⟩, hstep⟩

/-- Constants in a row are read up to the closing parenthesis. -/
theorem Comes.writtenConstants {text : List Char} {values : List (List Char)}
    (hwrites : WritesConstants text values) :
    ∀ {front : List Char} {read : List Lexeme} {p : Place},
      Comes source front read p (text ++ ')' :: rest) →
      ∃ lxs p', Lexeme.Constants (values.map String.ofList) lxs ∧
        Comes source (front ++ text) (read ++ lxs) p' (')' :: rest) := by
  -- Neither a blank nor a comma nor the parenthesis continues a constant.
  have hblanks : ∀ {blanks cs : List Char} {d : Char}, (∀ c ∈ blanks, c = ' ') →
      d ≠ '\'' ∧ d ≠ '"' → ∀ c, (blanks ++ d :: cs).head? = some c → c ≠ '\'' ∧ c ≠ '"' := by
    intro blanks cs d hblank hd c hc
    cases blanks with
    | nil => rwa [← Option.some.inj hc]
    | cons b bs =>
      rw [← Option.some.inj hc, hblank b List.mem_cons_self]
      decide
  induction hwrites with
  | one first blank =>
    intro front read p h
    rw [List.append_assoc] at h
    obtain ⟨lx, p₁, hlx, hconstant⟩ := h.writtenConstant first (hblanks blank (by decide))
    obtain ⟨p₂, hend⟩ := hconstant.blanks blank
    exact ⟨[lx], p₂, .one hlx, by rwa [List.append_assoc] at hend⟩
  | @more text value blanks blanks' more values first blank blank' others ih =>
    intro front read p h
    simp only [List.append_assoc, List.cons_append] at h
    obtain ⟨lx, p₁, hlx, hconstant⟩ := h.writtenConstant first (hblanks blank (by decide))
    obtain ⟨p₂, hcomma⟩ := hconstant.blanks blank
    have hstep : Comes source (front ++ text ++ blanks ++ [','])
        (read ++ [lx] ++ [⟨.comma, ",", none, p₂.line, p₂.col⟩]) (p₂.after (.plain .comma 0))
        (blanks' ++ (more ++ ')' :: rest)) := hcomma.step rfl
    obtain ⟨p₃, hnext⟩ := hstep.blanks blank'
    obtain ⟨lxs, p₄, hlxs, hend⟩ := ih hnext
    refine ⟨lx :: ⟨.comma, ",", none, p₂.line, p₂.col⟩ :: lxs, p₄,
      .more hlx ⟨rfl, rfl⟩ hlxs, ?_⟩
    simpa using hend

end Reading

end Scan

/-! ## Formats of texts -/

namespace Format

/-- The items of texts with commas between them. -/
def textItems : List String → List Item
  | [] => []
  | [v] => [.text (Text.fortranConstant v)]
  | v :: w :: vs => .text (Text.fortranConstant v) :: .comma :: textItems (w :: vs)

theorem textItems_proper (values : List String) : ∀ i ∈ textItems values, i.Proper := by
  fun_induction textItems values with
  | case1 => exact fun i hi => absurd hi List.not_mem_nil
  | case2 v => exact List.forall_mem_singleton.2 (.text v)
  | case3 v w vs ih => exact List.forall_mem_cons.2 ⟨.text v, List.forall_mem_cons.2 ⟨.comma, ih⟩⟩

/-- The text that a `@printf` string without conversions prints. -/
def printed? : List Char → Option (List Char)
  | [] => some []
  | '%' :: '%' :: cs => (printed? cs).map ('%' :: ·)
  | '%' :: _ => none
  | c :: cs => (printed? cs).map (c :: ·)

/-- A plain text is printed as it is. -/
theorem printed?_plainText (s : String) (rest : List Char) :
    printed? ((plainText s).toList ++ rest) = (printed? rest).map (s.toList ++ ·) := by
  rw [plainText, String.toList_ofList]
  induction s.toList with
  | nil => simp
  | cons c cs ih =>
    rw [List.flatMap_cons, List.append_assoc]
    by_cases hc : c = '%'
    · subst hc
      simp only [beq_self_eq_true, if_true, List.cons_append, List.nil_append, printed?, ih,
        Option.map_map]
      rfl
    · rw [if_neg (by simpa using hc), List.singleton_append, printed?, ih, Option.map_map]
      · rfl
      · exact fun _ h _ => hc h
      · exact hc

/-- Texts are printed one after the other, without a value. -/
theorem printItems_textItems (values : List String) :
    printItems (textItems values) = { text := String.join (values.map plainText) } := by
  have hfirst : ∀ (v : String) (is : List Item) (t : String), printItems is = { text := t } →
      printItems (.text (Text.fortranConstant v) :: is) = { text := plainText v ++ t } := by
    intro v is t h
    rw [printItems, h, printItem, Text.fortranText_fortranConstant]
    rfl
  fun_induction textItems values with
  | case1 => rfl
  | case2 v => rw [hfirst v [] "" rfl, List.map_cons, List.map_nil, String.join_cons]; rfl
  | case3 v w vs ih =>
    have hcomma : printItems (.comma :: textItems (w :: vs)) =
        { text := String.join ((w :: vs).map plainText) } := by
      rw [printItems, ih]
      simp only [printItem, Printed.andThen, String.empty_append]
    rw [hfirst v _ _ hcomma]
    simp only [List.map_cons, String.join_cons]

theorem printed?_join (values : List String) :
    printed? (String.join (values.map plainText) ++ "\n").toList =
      some ((String.join values).toList ++ ['\n']) := by
  rw [String.toList_append]
  induction values with
  | nil => rfl
  | cons v vs ih =>
    rw [List.map_cons, String.join_cons, String.toList_append, List.append_assoc,
      printed?_plainText, ih, String.join_cons, String.toList_append, List.append_assoc,
      Option.map_some]

theorem writtenItems_eq (gap : List Char) (is : List Item) :
    writtenItems gap is = gap.intercalate (is.map (Item.written gap)) := by
  induction is with
  | nil => rfl
  | cons i is ih =>
    cases is with
    | nil => simp [writtenItems, List.intercalate]
    | cons j js =>
      rw [writtenItems, ih]
      simp only [List.map_cons, List.intercalate_cons_cons, List.isEmpty_cons, Bool.false_eq_true,
        if_false, List.append_assoc]

end Format

namespace Lower

open Format

/-- A token as it is written in a specification. -/
def specText (lx : Lexeme) : String :=
  match lx.kind with
  | .charConst | .hollerithConst => Text.fortranConstant lx.textValue
  | _ => lx.text

theorem formatSpec_eq (spec : Node) :
    formatSpec (some spec) = Julia.Expr.separated " " (spec.lexemes.map specText) := rfl

theorem specText_constant {lx : Lexeme} {value : String} (h : lx.IsConstant value) :
    specText lx = Text.fortranConstant value := by
  obtain ⟨hkind, hvalue⟩ := h
  rcases hkind with hkind | hkind <;> simp only [specText, hkind, Lexeme.textValue, hvalue]

/-- The specification of constants is that of their values. -/
theorem formatSpec_constants {values : List String} {spec : Node}
    (h : Lexeme.Constants values spec.lexemes) :
    formatSpec (some spec) = String.ofList (writtenItems [' '] (textItems values)) := by
  rw [← String.toList_inj, String.toList_ofList, writtenItems_eq, formatSpec_eq,
    Julia.Expr.separated, String.toList_intercalate]
  congr 1
  generalize spec.lexemes = lxs at h
  induction h with
  | one first =>
    rw [List.map_singleton, List.map_singleton, specText_constant first]
    rfl
  | @more lx comma value values lxs first separator others ih =>
    obtain ⟨hkind, htext⟩ := separator
    have hcomma : specText comma = "," := by simp only [specText, hkind, htext]
    obtain ⟨w, ws, rfl⟩ : ∃ w ws, values = w :: ws := by cases others <;> exact ⟨_, _, rfl⟩
    rw [List.map_cons, List.map_cons, List.map_cons, List.map_cons, specText_constant first, ih,
      hcomma]
    simp only [textItems, List.map_cons]
    rfl

/-- The format of texts needs no value and prints them and a line end. -/
theorem printFormat_constants {values : List String} {spec : Node}
    (h : Lexeme.Constants values spec.lexemes) (stmt : Node) (s : LowerState) :
    (printFormat stmt (formatSpec (some spec))).run s =
      .ok (some ⟨Text.juliaString (String.join (values.map plainText) ++ "\n"), 0⟩, s) := by
  have hgap : IsGap [' '] := ⟨List.cons_ne_nil _ _, List.forall_mem_singleton.2 rfl⟩
  have hread := read_writtenItems hgap (textItems_proper values)
  rw [formatSpec_constants h, printFormat, hread]
  simp only [printItems_textItems]
  rfl

/-- All formats of a unit are recorded. -/
theorem formatsOf_records (stmts : List Node) :
    (∀ stmt ∈ stmts, stmt.label? = some .formatStmt) →
    ∀ (found : List (String × Option PrintFormat)) (s : LowerState),
      (formatsOf stmts found).Does s fun fs _ => (∀ x ∈ found, x ∈ fs) ∧
        ∀ stmt ∈ stmts, ∀ f, (∀ s, (printFormat stmt (formatSpec (stmt.child? .fmtSpec))).run s =
          .ok (f, s)) → (labelOf stmt, f) ∈ fs := by
  induction stmts with
  | nil =>
    exact fun _ found s => ⟨found, s, rfl, fun x hx => hx, fun _ h => absurd h List.not_mem_nil⟩
  | cons stmt rest ih =>
    intro hlabels found s
    obtain ⟨hlabel, hrest⟩ := List.forall_mem_cons.1 hlabels
    have hruns := @reports_printFormat True stmt (formatSpec (stmt.child? .fmtSpec))
      (by rw [hlabel]; decide) (fun _ => trivial) s
    obtain ⟨f, t, hf, -⟩ := hruns
    obtain ⟨fs, u, hfs, hfound, hrecords⟩ := ih hrest ((labelOf stmt, f) :: found) t
    refine ⟨fs, u, ?_, fun x hx => hfound x (List.mem_cons_of_mem _ hx),
      List.forall_mem_cons.2 ⟨fun f' hf' => ?_, hrecords⟩⟩
    · rw [formatsOf, run_bind_ok hf]
      exact hfs
    · obtain rfl : f = f' := by
        have hsame := hf.symm.trans (hf' s)
        exact (Prod.mk.inj (Except.ok.inj hsame)).1
      exact hfound _ List.mem_cons_self

end Lower

/-! ## Main statement -/

/-- Quoting a text loses nothing. Constants with commas between them are read from a source as
lexemes with their values; and a FORMAT statement with such a specification is recorded, without a
message, as a format without values whose literal prints the values and a line end. -/
theorem format_texts_verbatim :
    (∀ s, Text.fortranText (Text.fortranConstant s) = s) ∧
    (∀ {source : String} {text front rest : List Char} {values : List (List Char)}
        {read : List Lexeme} {p : Scan.Place}, Scan.WritesConstants text values →
      Scan.Comes source front read p (text ++ ')' :: rest) →
      ∃ lxs p', Lexeme.Constants (values.map String.ofList) lxs ∧
        Scan.Comes source (front ++ text) (read ++ lxs) p' (')' :: rest) ∧
        scan source = read ++ lxs ++ Scan.lexemesFrom p' (')' :: rest)) ∧
    ∀ (whole : Node) (s : LowerState), ∃ u t, (Lower.survey whole).run s = .ok (u, t) ∧
      ∀ stmt ∈ whole.findAll .formatStmt, ∀ spec, stmt.child? .fmtSpec = some spec →
        ∀ values, Lexeme.Constants values spec.lexemes →
          ∃ f text, (Lower.labelOf stmt, some f) ∈ u.formats ∧
            (∀ s, (Lower.printFormat stmt (Lower.formatSpec (some spec))).run s = .ok (some f, s)) ∧
            f.values = 0 ∧ Julia.stringValue? f.literal = some text ∧
            Format.printed? text.toList = some ((String.join values).toList ++ ['\n']) := by
  refine ⟨Text.fortranText_fortranConstant, fun hwrites h => ?_, fun whole s => ?_⟩
  · obtain ⟨lxs, p', hlxs, hend⟩ := h.writtenConstants hwrites
    exact ⟨lxs, p', hlxs, hend, hend.scan_eq⟩
  · have hlabels : ∀ stmt ∈ whole.findAll .formatStmt, stmt.label? = some .formatStmt := by
      intro stmt hstmt
      simpa [Node.hasLabel] using Node.hasLabel_findAll hstmt
    obtain ⟨fs, t, hfs, -, hrecords⟩ := Lower.formatsOf_records _ hlabels [] s
    refine ⟨_, t, by rw [Lower.survey, Lower.run_bind_ok hfs]; rfl, ?_⟩
    intro stmt hstmt spec hspec values hvalues
    have hprint := Lower.printFormat_constants hvalues stmt
    exact ⟨_, _, hrecords stmt hstmt _ (by rw [hspec]; exact hprint), hprint, rfl,
      Text.stringValue?_juliaString _, Format.printed?_join values⟩

/-- A Hollerith constant that ends in a comma, and a quoted one with its own quote, a dollar and a
percent sign. -/
theorem format_texts_verbatim_mixed :
    ∃ lx comma lx' p', scan "(4H'50, , 'IT''S $5%')" =
        [⟨.lparen, "(", none, 1, 1⟩] ++ [lx, comma, lx'] ++ Scan.lexemesFrom p' [')'] ∧
      ∃ u t f text, (Lower.survey (.inner 0 .mainProgram [.inner 1 .formatStmt
          [.inner 2 .fmtSpec [.leaf 3 lx, .leaf 4 comma, .leaf 5 lx']]])).run {} = .ok (u, t) ∧
        ("", some f) ∈ u.formats ∧ f.values = 0 ∧ Julia.stringValue? f.literal = some text ∧
        Format.printed? text.toList = some "'50,IT'S $5%\n".toList := by
  obtain ⟨-, hread, hrecords⟩ := format_texts_verbatim
  have htext : "4H'50, , 'IT''S $5%'".toList = ('4' :: ([] ++ 'H' :: "'50,".toList)) ++
      ([' '] ++ ',' :: ([' '] ++
        (('\'' :: (Scan.doubled '\'' "IT'S $5%".toList ++ ['\''])) ++ []))) := by decide
  have hwrites : Scan.WritesConstants "4H'50, , 'IT''S $5%'".toList
      ["'50,".toList, "IT'S $5%".toList] := by
    have hblank : ∀ c ∈ [' '], c = ' ' := List.forall_mem_singleton.2 rfl
    have hcount : ∀ c ∈ ['4'], Decimal.isDigit c := List.forall_mem_singleton.2 (by decide)
    rw [htext]
    exact .more (.hollerith hcount (.inl rfl) (by decide) (by decide) (by decide))
      hblank hblank (.one (.quoted (.inl rfl) (by decide)) (List.forall_mem_nil _))
  have hstart : Scan.Comes "(4H'50, , 'IT''S $5%')" [] [] .start
      "(4H'50, , 'IT''S $5%')".toList := .start
  have hsource : "(4H'50, , 'IT''S $5%')".toList =
      '(' :: ("4H'50, , 'IT''S $5%'".toList ++ ')' :: []) := by decide
  rw [hsource] at hstart
  obtain ⟨lxs, p', hlxs, -, hscan⟩ := hread hwrites (hstart.step rfl)
  obtain ⟨lx, comma, lx', rfl⟩ : ∃ lx comma lx', lxs = [lx, comma, lx'] := by
    cases hlxs with
    | more _ _ others =>
      cases others with
      | one _ => exact ⟨_, _, _, rfl⟩
      | more _ _ none => cases none
  refine ⟨lx, comma, lx', p', hscan, ?_⟩
  obtain ⟨u, t, hsurvey, hformats⟩ := hrecords (.inner 0 .mainProgram [.inner 1 .formatStmt
    [.inner 2 .fmtSpec [.leaf 3 lx, .leaf 4 comma, .leaf 5 lx']]]) {}
  obtain ⟨f, text, hmem, -, hvalues, hliteral, hprinted⟩ := hformats
    (.inner 1 .formatStmt [.inner 2 .fmtSpec [.leaf 3 lx, .leaf 4 comma, .leaf 5 lx']])
    (List.mem_singleton_self _) _ rfl _ hlxs
  refine ⟨u, t, f, text, hsurvey, hmem, hvalues, hliteral, hprinted.trans ?_⟩
  decide

end FortranJulia
