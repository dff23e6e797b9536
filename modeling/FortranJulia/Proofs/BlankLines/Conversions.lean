import FortranJulia.Proofs.BlankLines.Parsing
import FortranJulia.Proofs.Likeness.Conversions
import FortranJulia.Proofs.Scanning.Lines
import Mathlib.Data.List.Forall2

/-!
Blank lines do not matter. A line of blanks behind another line is one line end more to the scan, with
what follows one line further down, and so is a line end behind the whole source. The sources parse where
they did before, the programs are the same, and the diagnostics are those of the same lines.
-/

namespace FortranJulia

set_option autoImplicit false

/-! ## Scanning -/

namespace Scan

theorem after_line_le (p : Place) (q : Piece) : p.line ≤ (p.after q).line := by
  unfold Place.after
  split <;> simp

/-- The lines of the lexemes, from that of the place on, in order. -/
theorem lexemesFrom_lines (p : Place) (cs : List Char) :
    (∀ lx ∈ lexemesFrom p cs, p.line ≤ lx.line) ∧
      (lexemesFrom p cs).Pairwise fun lx lx' => lx.line ≤ lx'.line := by
  fun_induction lexemesFrom p cs with
  | case1 p => exact ⟨by simp [Lexeme.endOfSource], by simp⟩
  | case2 p c cs q rest lx hlx ih =>
    obtain ⟨hle, hordered⟩ := ih
    have hafter := after_line_le p q
    have hline : lx.line = p.line := by
      obtain ⟨k, -, rfl⟩ := Option.map_eq_some_iff.1 hlx
      rfl
    refine ⟨List.forall_mem_cons.2 ⟨Nat.le_of_eq hline.symm, fun m hm => ?_⟩,
      List.pairwise_cons.2 ⟨fun m hm => ?_, hordered⟩⟩
    · exact Nat.le_trans hafter (hle m hm)
    · exact hline ▸ Nat.le_trans hafter (hle m hm)
  | case3 p c cs q rest hlx ih =>
    exact ⟨fun m hm => Nat.le_trans (after_line_le p q) (ih.1 m hm), ih.2⟩

/-- Of a line of blanks there is a line end, at whatever depth of parentheses. -/
theorem lexemesFrom_blank_line {w : List Char} (h : ∀ c ∈ w, c = ' ' ∨ c = '\t') (p : Place)
    (rest : List Char) :
    ∃ n : Lexeme, n.kind = .newline ∧
      lexemesFrom p (w ++ '\n' :: rest) = n :: lexemesFrom ⟨p.line + 1, 1, p.depth⟩ rest := by
  induction w generalizing p with
  | nil => exact ⟨⟨.newline, "\n", none, p.line, p.col⟩, rfl, by rw [List.nil_append, lexemesFrom]; rfl⟩
  | cons c w ih =>
    have hskip : piece (p.col == 1) p.depth c (w ++ '\n' :: rest) = .skip := by
      rcases h c (by simp) with rfl | rfl <;> rfl
    obtain ⟨n, hn, heq⟩ := ih (fun d hd => h d (by simp [hd])) (p.after .skip)
    refine ⟨n, hn, ?_⟩
    rw [List.cons_append, lexemesFrom, hskip]
    exact heq

end Scan

/-- The lexemes of a first part of a source, and where the scan goes on behind its last line end. -/
theorem scan_behind_line (a : String) :
    ∃ (front : List Lexeme) (n : Lexeme) (depth : Nat), n.kind = .newline ∧ (∀ lx ∈ front ++ [n], lx.line ≤ lineBehind a.toList) ∧
      ∀ b : String, scan (a ++ "\n" ++ b) =
        (front ++ [n]) ++ Scan.lexemesFrom ⟨lineBehind a.toList + 1, 1, depth⟩ b.toList := by
  obtain ⟨front, line, col, hfront, hrest⟩ := Scan.lexemesFrom_line .start a.toList
  obtain rfl : line = lineBehind a.toList := by
    obtain ⟨_, lexemes, hall, -⟩ := scan_covers a
    obtain ⟨-, hend⟩ := List.append_inj' (hfront.symm.trans hall) rfl
    exact congrArg Lexeme.line (List.head_eq_of_cons_eq hend)
  have hlines := (Scan.lexemesFrom_lines .start a.toList).2
  rw [hfront, List.pairwise_append] at hlines
  refine ⟨front, (Lexeme.endOfSource (lineBehind a.toList) col).lineEnd, Scan.depthBehind 0 front, rfl,
    fun lx hlx => ?_, fun b => ?_⟩
  · rcases List.mem_append.1 hlx with hlx | hlx
    · exact hlines.2.2 lx hlx _ (List.mem_singleton_self _)
    · exact Nat.le_of_eq (congrArg Lexeme.line (List.mem_singleton.1 hlx))
  · have hsource : (a ++ "\n" ++ b).toList = a.toList ++ '\n' :: b.toList := by simp
    rw [scan, hsource, hrest, List.append_assoc, List.singleton_append]
    rfl

/-- The lexemes of a source with and without a line of blanks behind one of its lines: one line end more,
and what follows one line further down. -/
theorem scan_blank_line (a b : String) {w : String} (hw : ∀ c ∈ w.toList, c = ' ' ∨ c = '\t') :
    ∃ (front : List Lexeme) (n n' : Lexeme) (back : List Lexeme),
      scan (a ++ "\n" ++ b) = (front ++ [n]) ++ back ∧
      scan (a ++ "\n" ++ w ++ "\n" ++ b) = (front ++ [n]) ++ n' :: back.map (.down 1) ∧
      n.kind = .newline ∧ n'.kind = .newline ∧ back ≠ [] ∧
      (∀ lx ∈ front ++ [n], lx.line ≤ lineBehind a.toList) ∧
      ∀ lx ∈ back, lineBehind a.toList < lx.line := by
  obtain ⟨front, n, depth, hn, hfront, hscan⟩ := scan_behind_line a
  obtain ⟨n', hn', hblank⟩ :=
    Scan.lexemesFrom_blank_line hw ⟨lineBehind a.toList + 1, 1, depth⟩ b.toList
  refine ⟨front, n, n', _, hscan b, ?_, hn, hn', ?_, hfront, (Scan.lexemesFrom_lines _ _).1⟩
  · have hsource : a ++ "\n" ++ w ++ "\n" ++ b = a ++ "\n" ++ (w ++ "\n" ++ b) := by
      simp only [String.append_assoc]
    have hrest : (w ++ "\n" ++ b).toList = w.toList ++ '\n' :: b.toList := by simp
    rw [hsource, hscan, hrest, hblank, ← Scan.lexemesFrom_down]
    rfl
  · obtain ⟨body, line, col, heq, -⟩ :=
      Scan.lexemesFrom_shape ⟨lineBehind a.toList + 1, 1, depth⟩ b.toList
    simp [heq]

/-- The lexemes of a source with a line end behind it: that line end, and the end of the source behind. -/
theorem scan_last_line (s : String) :
    ∃ (front : List Lexeme) (eof n eof' : Lexeme), scan s = front ++ [eof] ∧ scan (s ++ "\n") = front ++ [n, eof'] ∧
      eof.kind = .eof ∧ n.kind = .newline ∧ eof'.kind = .eof := by
  obtain ⟨front, line, col, hfront, hline⟩ := Scan.lexemesFrom_line .start s.toList
  have hsource : (s ++ "\n").toList = s.toList ++ '\n' :: [] := by simp
  refine ⟨front, .endOfSource line col, (Lexeme.endOfSource line col).lineEnd, .endOfSource (line + 1) 1,
    hfront, ?_, rfl, rfl, rfl⟩
  rw [scan, hsource, hline, Scan.lexemesFrom]

/-- Lexemes that are no names do not tell the name of a program, whatever stands in front of them. -/
theorem programName_behind {x y : Lexeme} {xs ys : List Lexeme} (hx : x.kind ≠ .name) (hy : y.kind ≠ .name)
    (h : programName (x :: xs) = programName (y :: ys)) (front : List Lexeme) :
    programName (front ++ x :: xs) = programName (front ++ y :: ys) := by
  induction front with
  | nil => exact h
  | cons a front ih =>
    cases front with
    | nil =>
      rw [List.singleton_append, List.singleton_append, programName, programName, if_neg (by simp [hx]),
        if_neg (by simp [hy])]
      exact h
    | cons b front =>
      simp only [List.cons_append] at ih ⊢
      rw [programName, ih, programName]

/-! ## Tokens -/

namespace TreeMatch

theorem tokenAt_toArray (tokens : List Lexeme) (i : Nat) :
    tokenAt tokens.toArray i = tokens[min i (tokens.length - 1)]?.getD default := by
  simp [tokenAt]

section Lists

variable {g : Guise} {front back back' : List Lexeme} {i : Nat}

theorem tokenAt_front (hi : i < front.length) (hne : back ≠ []) :
    tokenAt (front ++ back).toArray i = front[i]?.getD default := by
  have hpos := List.length_pos_iff.2 hne
  have hmin : min i ((front ++ back).length - 1) = i := by
    rw [List.length_append]
    omega
  rw [tokenAt_toArray, hmin, List.getElem?_append_left hi]

theorem tokenAt_back (hi : front.length ≤ i) (hne : back ≠ []) :
    tokenAt (front ++ back).toArray i = tokenAt back.toArray (i - front.length) := by
  have hpos := List.length_pos_iff.2 hne
  have hmin : min i ((front ++ back).length - 1) =
      front.length + min (i - front.length) (back.length - 1) := by
    rw [List.length_append]
    omega
  rw [tokenAt_toArray, tokenAt_toArray, hmin, List.getElem?_append_right (Nat.le_add_right _ _),
    Nat.add_sub_cancel_left]

/-- One line end more, behind some tokens that look the same and in front of others. -/
theorem widened_of_lists {n : Lexeme} (hplain : g.caps = false) (hn : n.kind = .newline)
    (hends : EndsInEof (front ++ back).toArray) (hfront : ∀ lx ∈ front, Lexeme.Alike g lx lx)
    (hback : List.Forall₂ (Lexeme.Alike g) back back') (hne : back ≠ [])
    (hfollows : (∃ lx, front.getLast? = some lx ∧ lx.kind = .newline) ∨
      ∃ lx, back.head? = some lx ∧ lx.kind = .eof) :
    Widened g (front ++ back).toArray (front ++ n :: back').toArray front.length := by
  have hlength := hback.length_eq
  have hpos := List.length_pos_iff.2 hne
  have hne' : back' ≠ [] := List.length_pos_iff.1 (hlength ▸ hpos)
  refine ⟨hplain, hends, ?_, ?_, fun i hi => ?_, ?_, fun i hi => ?_, ?_⟩
  · simp [hpos]
  · simp [hlength, Nat.add_assoc]
  · rw [tokenAt_front hi hne, tokenAt_front hi (List.cons_ne_nil _ _), List.getElem?_eq_getElem hi,
      Option.getD_some]
    exact hfront _ (List.getElem_mem hi)
  · rw [tokenAt_back (Nat.le_refl _) (List.cons_ne_nil _ _), Nat.sub_self]
    exact hn
  · have hi' : (front ++ [n]).length ≤ i + 1 := by simpa using hi
    rw [tokenAt_back hi hne, List.append_cons, tokenAt_back hi' hne', List.length_append,
      List.length_singleton, Nat.add_sub_add_right, tokenAt_toArray, tokenAt_toArray, ← hlength]
    have hinside : min (i - front.length) (back.length - 1) < back.length := by omega
    rw [List.getElem?_eq_getElem hinside, List.getElem?_eq_getElem (hlength ▸ hinside)]
    exact (List.forall₂_iff_get.1 hback).2 _ hinside (hlength ▸ hinside)
  · rcases hfollows with ⟨lx, hlast, hkind⟩ | ⟨lx, hhead, hkind⟩
    · obtain ⟨ys, rfl⟩ := List.getLast?_eq_some_iff.1 hlast
      refine .inr ⟨ys.length, by simp, ?_⟩
      rw [tokenAt_front (by simp) hne]
      simpa using hkind
    · obtain ⟨ys, rfl⟩ := List.head?_eq_some_iff.1 hhead
      refine .inl ?_
      rw [tokenAt_back (Nat.le_refl _) hne, Nat.sub_self]
      exact hkind

end Lists

end TreeMatch

/-! ## Lines -/

/-- The source with its lines behind one of them numbered one higher. -/
def Guise.lineAdded (n : Nat) : Guise where
  caps := false
  line l := if l ≤ n then l else l + 1
  line_zero := rfl
  strict l m h := by
    dsimp only
    split <;> split <;> omega

theorem Guise.lexeme_lineAdded (n : Nat) (lx : Lexeme) :
    (lineAdded n).lexeme lx = if lx.line ≤ n then lx else lx.down 1 := by
  have hvalue : lx.value.map (lineAdded n).literal = lx.value := by
    rw [literal, on_plain _ rfl, Option.map_id, id]
  rw [lexeme, hvalue]
  split
  · rename_i hle
    exact congrArg (Lexeme.mk lx.kind lx.text lx.value · lx.col) (if_pos hle)
  · rename_i hgt
    exact congrArg (Lexeme.mk lx.kind lx.text lx.value · lx.col) (if_neg hgt)

theorem Guise.declarationError_same (e : DeclarationError) : same.declarationError e = e := by
  cases e <;> rfl

/-- Messages that read the same, with the same numbers of lines, are equal. -/
theorem Message.Alike.eq_of_same {rule m m' : String} (h : Message.Alike .same rule m m') : m' = m := by
  cases h with
  | same _ hm => exact hm.symm
  | errors es => rw [funext Guise.declarationError_same, List.map_id']

theorem Diagnostic.Alike.eq_of_same {d d' : Diagnostic} (h : d.Alike .same d') : d' = d := by
  obtain ⟨k, hk, hk'⟩ := h.place
  have hline : d'.line = d.line := hk'.trans hk.symm
  have hmessage := h.message.eq_of_same
  have hseverity := h.severity
  have hrule := h.rule
  have hcol := h.col
  cases d
  cases d'
  simp_all only

theorem Diagnostic.eq_of_same {ds ds' : List Diagnostic} (h : List.Forall₂ (Alike .same) ds ds') :
    ds' = ds := by
  have hequal : List.Forall₂ (· = ·) ds ds' := h.imp fun _ _ hd => hd.eq_of_same.symm
  rw [List.forall₂_eq_eq_eq] at hequal
  exact hequal.symm

/-! ## Conversions -/

/-- The conversions have the same program, and the same diagnostics at the new numbers of their lines. -/
structure Conversion.Renumbered (g : Guise) (c c' : Conversion) : Prop where
  program : c'.program = c.program
  support : c'.support = c.support
  name : c'.name = c.name
  diagnostics : List.Forall₂ (Diagnostic.Alike g) c.diagnostics c'.diagnostics

section Widened

variable {g : Guise} {s s' : String} {u : Nat}
  (hw : TreeMatch.Widened g (scan s).toArray (scan s').toArray u) (hempty : u = 0 → (scan s).length = 1)

include hw hempty

theorem parse_widened {name : String} {p q p' q' : Parser} {r r' : Except ParseError Node}
    (hp : Parser.start? name (scan s) = some p) (hq : p.parse = .ok (r, q))
    (hp' : Parser.start? name (scan s') = some p') (hq' : p'.parse = .ok (r', q')) :
    Related (fun _ _ => True) (fun n n' => n.digest g = n'.digest .same) r r' := by
  have hwidens : Parser.Widens g u p p' := by
    obtain rfl := start_eq hp
    obtain rfl := start_eq hp'
    exact ⟨hw, fun hu => by simpa using hempty hu, rfl, rfl, Parser.start_sound hp, Parser.start_sound hp'⟩
  rcases hwidens.parse (Parser.start_endsInEof hp') with
    ⟨n, n', v, v', hn, hn', hdigest⟩ | ⟨e, e', v, v', he, he'⟩
  · obtain ⟨rfl, -⟩ := Prod.mk.inj (Except.ok.inj (hn.symm.trans hq))
    obtain ⟨rfl, -⟩ := Prod.mk.inj (Except.ok.inj (hn'.symm.trans hq'))
    exact .ok hdigest
  · obtain ⟨rfl, -⟩ := Prod.mk.inj (Except.ok.inj (he.symm.trans hq))
    obtain ⟨rfl, -⟩ := Prod.mk.inj (Except.ok.inj (he'.symm.trans hq'))
    exact .error trivial

theorem parseSource_widened (name : String) :
    Related (fun _ _ => True) (fun r r' => r.1.digest g = r'.1.digest .same) (parseSource name s)
      (parseSource name s') := by
  have hp := start_scan name s
  have hp' := start_scan name s'
  obtain ⟨r, q, hq⟩ := Parser.parse_ends (Parser.start_sound hp)
  obtain ⟨r', q', hq'⟩ := Parser.parse_ends (Parser.start_sound hp')
  rw [parseSource_eq hp hq, parseSource_eq hp' hq']
  cases parse_widened hw hempty hp hq hp' hq' with
  | error he => exact .error he
  | ok hn => exact .ok hn

theorem convert_widened (hname : programName (scan s') = programName (scan s)) (o : Options) :
    Related (ConversionError.Alike (fun _ _ => True) (Conversion.Renumbered g)) (Conversion.Renumbered g)
      (convert s o) (convert s' o) := by
  rcases conversion_steps s o with ⟨p, q, e, hp, hq, hs⟩ | ⟨p, q, root, r, hp, hq, hrun, hs⟩ <;>
    rcases conversion_steps s' o with ⟨p', q', e', hp', hq', ht⟩ | ⟨p', q', root', r', hp', hq', hrun', ht⟩
  · rw [hs, ht]
    exact .error (.syntactic trivial)
  · cases parse_widened hw hempty hp hq hp' hq'
  · cases parse_widened hw hempty hp hq hp' hq'
  · cases parse_widened hw hempty hp hq hp' hq' with
    | ok hdigest =>
      have hmatch := Generator.runs_match (parse_whole hp hq) (parse_whole hp' hq') hdigest o hrun hrun'
      obtain ⟨text, htext, htext'⟩ := hmatch.program
      obtain ⟨ds, hds, hds'⟩ := hmatch.diagnostics
      have hplain : ∀ t, g.text t = t := fun t => by rw [Guise.text, g.on_plain hw.plain, id]
      rw [hplain, hplain] at htext
      obtain rfl := Diagnostic.eq_of_same hds'
      rw [hs, ht]
      exact Conversion.outcome_matches hmatch o _ ⟨htext'.trans htext.symm, rfl, hname, hds⟩

end Widened

/-- A source with a line of blanks behind one of its lines. -/
theorem blank_line_widened (a b : String) {w : String} (hw : ∀ c ∈ w.toList, c = ' ' ∨ c = '\t') :
    ∃ u, TreeMatch.Widened (.lineAdded (lineBehind a.toList)) (scan (a ++ "\n" ++ b)).toArray
        (scan (a ++ "\n" ++ w ++ "\n" ++ b)).toArray u ∧ 0 < u ∧
      programName (scan (a ++ "\n" ++ w ++ "\n" ++ b)) = programName (scan (a ++ "\n" ++ b)) := by
  obtain ⟨front, n, n', back, hscan, hscan', hn, hn', hne, hfront, hback⟩ := scan_blank_line a b hw
  have hends := scan_endsInEof (a ++ "\n" ++ b)
  have habove : ∀ lx ∈ front ++ [n], Lexeme.Alike (.lineAdded (lineBehind a.toList)) lx lx := fun lx hlx =>
    ⟨rfl, fun _ => by rw [Guise.lexeme_lineAdded, if_pos (hfront lx hlx)]⟩
  have hbelow : List.Forall₂ (Lexeme.Alike (.lineAdded (lineBehind a.toList))) back (back.map (.down 1)) :=
    List.forall₂_map_right_iff.2 (List.forall₂_same.2 fun lx hlx =>
      ⟨rfl, fun _ => by rw [Guise.lexeme_lineAdded, if_neg (Nat.not_le_of_lt (hback lx hlx))]⟩)
  rw [hscan] at hends
  refine ⟨(front ++ [n]).length, ?_, by simp, ?_⟩
  · rw [hscan, hscan']
    exact TreeMatch.widened_of_lists rfl hn' hends habove hbelow hne (.inl ⟨n, by simp, hn⟩)
  · rw [hscan, hscan', ← List.append_cons, ← List.append_cons]
    refine programName_behind (by simp [hn]) (by simp [hn]) ?_ front
    rw [programName_cons (by simp [hn]), programName_cons (by simp [hn']), programName_down,
      programName_cons (by simp [hn])]

/-- A source with a line end behind it. -/
theorem last_line_widened (s : String) :
    ∃ u, TreeMatch.Widened .same (scan s).toArray (scan (s ++ "\n")).toArray u ∧
      (u = 0 → (scan s).length = 1) ∧ programName (scan (s ++ "\n")) = programName (scan s) := by
  obtain ⟨front, eof, n, eof', hscan, hscan', heof, hn, heof'⟩ := scan_last_line s
  have hends := scan_endsInEof s
  rw [hscan] at hends
  refine ⟨front.length, ?_, fun hu => ?_, ?_⟩
  · rw [hscan, hscan']
    refine TreeMatch.widened_of_lists rfl hn hends (fun lx _ => ⟨rfl, fun _ => ?_⟩) (.cons ⟨?_, ?_⟩ .nil)
      (by simp) (.inr ⟨eof, rfl, heof⟩)
    · rw [Guise.lexeme_same, id]
    · rw [heof, heof']
    · exact fun hne => absurd heof hne
  · rw [hscan, List.length_append, hu, List.length_singleton]
  · rw [hscan, hscan']
    refine programName_behind (by simp [hn]) (by simp [heof]) ?_ front
    rw [programName_cons (by simp [hn])]
    rfl

/-! ## Main statement -/

/-- The conversions give the same program with the same diagnostics. -/
structure Conversion.Same (c c' : Conversion) : Prop where
  program : c'.program = c.program
  support : c'.support = c.support
  name : c'.name = c.name
  diagnostics : c'.diagnostics = c.diagnostics

theorem Conversion.Renumbered.same {c c' : Conversion} (h : Renumbered .same c c') : c.Same c' :=
  ⟨h.program, h.support, h.name, Diagnostic.eq_of_same h.diagnostics⟩

theorem ConversionError.Alike.imp {E : ParseError → ParseError → Prop}
    {R R' : Conversion → Conversion → Prop} {e e' : ConversionError} (h : Alike E R e e')
    (hr : ∀ c c', R c c' → R' c c') : Alike E R' e e' := by
  cases h with
  | syntactic h => exact .syntactic h
  | strict source warnings h => exact .strict source warnings (hr _ _ h)
  | overflow => exact .overflow

theorem Related.isOk_eq {α β ε φ : Type} {E : ε → φ → Prop} {R : α → β → Prop} {x : Except ε α}
    {y : Except φ β} (h : Related E R x y) : x.isOk = y.isOk := by
  cases h <;> rfl

/-- A line of blanks behind a line end changes no program, and neither does a line end behind the source.
The sources parse where they did before; the programs are the same, and so are the diagnostics, but for
the numbers of the lines below a new one, which are one higher, also in messages. -/
theorem blank_lines_ignored (name : String) (o : Options) :
    (∀ a b w : String, (∀ c ∈ w.toList, c = ' ' ∨ c = '\t') →
      (parseSource name (a ++ "\n" ++ b)).isOk =
          (parseSource name (a ++ "\n" ++ w ++ "\n" ++ b)).isOk ∧
        Related (ConversionError.Alike (fun _ _ => True)
            (Conversion.Renumbered (.lineAdded (lineBehind a.toList))))
          (Conversion.Renumbered (.lineAdded (lineBehind a.toList)))
          (convert (a ++ "\n" ++ b) o) (convert (a ++ "\n" ++ w ++ "\n" ++ b) o)) ∧
    ∀ s : String, (parseSource name s).isOk = (parseSource name (s ++ "\n")).isOk ∧
      Related (ConversionError.Alike (fun _ _ => True) Conversion.Same) Conversion.Same (convert s o)
        (convert (s ++ "\n") o) := by
  refine ⟨fun a b w hw => ?_, fun s => ?_⟩
  · obtain ⟨u, hwidened, hpos, hname⟩ := blank_line_widened a b hw
    have hempty : u = 0 → (scan (a ++ "\n" ++ b)).length = 1 := fun hu => absurd hu (Nat.ne_of_gt hpos)
    exact ⟨(parseSource_widened hwidened hempty name).isOk_eq, convert_widened hwidened hempty hname o⟩
  · obtain ⟨u, hwidened, hempty, hname⟩ := last_line_widened s
    refine ⟨(parseSource_widened hwidened hempty name).isOk_eq, ?_⟩
    exact (convert_widened hwidened hempty hname o).imp (fun _ _ h => h.imp fun _ _ hc => hc.same)
      fun _ _ hc => hc.same

/-- Blanks and a tab between two statements, of which the second one has a warning. -/
theorem blank_lines_ignored_save :
    (∀ c ∈ " \t".toList, c = ' ' ∨ c = '\t') ∧
      (parseSource "" ("x=1" ++ "\n" ++ "save\nend")).isOk ∧
      (parseSource "" ("x=1" ++ "\n" ++ " \t" ++ "\n" ++ "save\nend")).isOk ∧
      (parseSource "" ("x=1" ++ "\n" ++ "save\nend" ++ "\n")).isOk ∧
      Related (ConversionError.Alike (fun _ _ => True) (Conversion.Renumbered (.lineAdded 1)))
        (Conversion.Renumbered (.lineAdded 1)) (convert ("x=1" ++ "\n" ++ "save\nend") {})
        (convert ("x=1" ++ "\n" ++ " \t" ++ "\n" ++ "save\nend") {}) := by
  have hblank : ∀ c ∈ " \t".toList, c = ' ' ∨ c = '\t' := by simp
  obtain ⟨hblanks, hends⟩ := blank_lines_ignored "" {}
  obtain ⟨hparse, hconvert⟩ := hblanks "x=1" "save\nend" " \t" hblank
  obtain ⟨hparse', -⟩ := hends ("x=1" ++ "\n" ++ "save\nend")
  have hstart := start_scan "" ("x=1" ++ "\n" ++ "save\nend")
  have hmatched : (Parser.matched? { source := "", tokens :=
      (scan ("x=1" ++ "\n" ++ "save\nend")).toArray }).isSome := by
    rw [← String.ofList_append, ← String.ofList_append, scan_within]
    decide +kernel
  obtain ⟨n, hn⟩ := Option.isSome_iff_exists.1 hmatched
  obtain ⟨q, hq⟩ := parse_of_match (Parser.start_sound hstart) hn
  have hok : (parseSource "" ("x=1" ++ "\n" ++ "save\nend")).isOk := by
    rw [parseSource_eq hstart hq]
    rfl
  exact ⟨hblank, hok, hparse ▸ hok, hparse' ▸ hok, hconvert⟩

end FortranJulia
