import FortranJulia.Proofs.Parsing.Acceptance
import FortranJulia.Proofs.Parsing.Neighbours

/-!
The source of an expression is scanned and parsed back. The leaves spell the same tokens at other places, so
that a derivation of the tokens is one of these too. It is the only one, and the tree that is parsed is the
derivation tree less its levels, whatever the places are.
-/

namespace FortranJulia

set_option autoImplicit false

namespace Bnf

/-! ## Trees without places -/

mutual

/-- The tree with the places of its lexemes left out. -/
def Tree.unplaced : Tree → Tree
  | .leaf lx => .leaf lx.unplaced
  | .inner l kids => .inner l (unplacedAll kids)

def Tree.unplacedAll : List Tree → List Tree
  | [] => []
  | t :: ts => t.unplaced :: unplacedAll ts

end

@[simp]
theorem Tree.unplacedAll_append (ts us : List Tree) :
    Tree.unplacedAll (ts ++ us) = Tree.unplacedAll ts ++ Tree.unplacedAll us := by
  induction ts with
  | nil => rfl
  | cons t ts ih => simp [Tree.unplacedAll, ih]

theorem Tree.unplaced_giveWay (l : Label) (ts : List Tree) :
    (Tree.giveWay l ts).unplaced = Tree.giveWay l (Tree.unplacedAll ts) := by
  match ts with
  | [] => rfl
  | [.leaf lx] => rfl
  | [.inner m kids] =>
    simp only [Tree.giveWay, Tree.unplacedAll, Tree.unplaced]
    split <;> rfl
  | .leaf lx :: u :: us => rfl
  | .inner m kids :: u :: us => rfl

mutual

theorem Tree.unplaced_collapsed : ∀ t : Tree, t.collapsed.unplaced = t.unplaced.collapsed
  | .leaf lx => rfl
  | .inner l kids => by
    rw [Tree.collapsed, Tree.unplaced_giveWay, Tree.unplaced_collapsedAll kids]
    rfl

theorem Tree.unplaced_collapsedAll : ∀ ts : List Tree,
    Tree.unplacedAll (Tree.collapsedAll ts) = Tree.collapsedAll (Tree.unplacedAll ts)
  | [] => rfl
  | t :: ts => by
    simp only [Tree.collapsedAll, Tree.unplacedAll, Tree.unplaced_collapsed t, Tree.unplaced_collapsedAll ts]

end

/-- Lexemes at other places are derived alike. -/
theorem Gives.moved {a : Bnf} {w : List Lexeme} {ts : List Tree} (h : Gives a w ts) :
    ∀ w' : List Lexeme, w'.map Lexeme.unplaced = w.map Lexeme.unplaced →
      ∃ ts', Gives a w' ts' ∧ Tree.unplacedAll ts' = Tree.unplacedAll ts := by
  -- What stands for one lexeme stands for it at another place.
  have hsingle : ∀ {lx : Lexeme} {w' : List Lexeme}, w'.map Lexeme.unplaced = [lx].map Lexeme.unplaced →
      ∃ lx', w' = [lx'] ∧ lx'.unplaced = lx.unplaced := fun hsame => List.map_eq_singleton_iff.1 hsame
  have happend : ∀ {w v w' : List Lexeme}, w'.map Lexeme.unplaced = (w ++ v).map Lexeme.unplaced →
      ∃ u u', w' = u ++ u' ∧ u.map Lexeme.unplaced = w.map Lexeme.unplaced ∧
        u'.map Lexeme.unplaced = v.map Lexeme.unplaced := by
    intro w v w' hsame
    rw [List.map_append] at hsame
    exact List.map_eq_append_iff.1 hsame
  induction h with
  | @token ks lx h =>
    intro w' hsame
    obtain ⟨lx', rfl, hlx⟩ := hsingle hsame
    have hkind : lx'.kind = lx.kind := (congrArg Lexeme.kind hlx :)
    exact ⟨[.leaf lx'], .token (hkind ▸ h), by simp [Tree.unplacedAll, Tree.unplaced, hlx]⟩
  | @name lx h =>
    intro w' hsame
    obtain ⟨lx', rfl, hlx⟩ := hsingle hsame
    have hname : Match.isName lx' = Match.isName lx := (congrArg Match.isName hlx :)
    exact ⟨[.leaf lx'], .name (hname ▸ h), by simp [Tree.unplacedAll, Tree.unplaced, hlx]⟩
  | phrase l _ ih =>
    intro w' hsame
    obtain ⟨ts', hgives, hts⟩ := ih w' hsame
    exact ⟨[.inner l ts'], .phrase l hgives, by simp [Tree.unplacedAll, Tree.unplaced, hts]⟩
  | seq _ _ ih₁ ih₂ =>
    intro w' hsame
    obtain ⟨u, u', rfl, hu, hu'⟩ := happend hsame
    obtain ⟨ts₁, hgives₁, hts₁⟩ := ih₁ u hu
    obtain ⟨ts₂, hgives₂, hts₂⟩ := ih₂ u' hu'
    exact ⟨ts₁ ++ ts₂, .seq hgives₁ hgives₂, by simp [hts₁, hts₂]⟩
  | many_more _ _ ih₁ ih₂ =>
    intro w' hsame
    obtain ⟨u, u', rfl, hu, hu'⟩ := happend hsame
    obtain ⟨ts₁, hgives₁, hts₁⟩ := ih₁ u hu
    obtain ⟨ts₂, hgives₂, hts₂⟩ := ih₂ u' hu'
    exact ⟨ts₁ ++ ts₂, .many_more hgives₁ hgives₂, by simp [hts₁, hts₂]⟩
  | alt_first _ ih =>
    intro w' hsame
    obtain ⟨ts', hgives, hts⟩ := ih w' hsame
    exact ⟨ts', .alt_first hgives, hts⟩
  | alt_second _ ih =>
    intro w' hsame
    obtain ⟨ts', hgives, hts⟩ := ih w' hsame
    exact ⟨ts', .alt_second hgives, hts⟩
  | many_end a =>
    intro w' hsame
    obtain rfl := List.map_eq_nil_iff.1 hsame
    exact ⟨[], .many_end a, rfl⟩
  | opt_none a =>
    intro w' hsame
    obtain rfl := List.map_eq_nil_iff.1 hsame
    exact ⟨[], .opt_none a, rfl⟩
  | opt _ ih =>
    intro w' hsame
    obtain ⟨ts', hgives, hts⟩ := ih w' hsame
    exact ⟨ts', .opt hgives, hts⟩

/-! ## The tokens of expressions -/

/-- The kinds of the tokens of expressions, except names. -/
def tokenKinds : List Kind :=
  .charConst :: Scan.speltKinds

/-- Are all tokens of a right side tokens of expressions? -/
def ofExpr : Bnf → Bool
  | .token ks => ks.all tokenKinds.contains
  | .name | .phrase _ => true
  | .seq a b | .alt a b => a.ofExpr && b.ofExpr
  | .many a | .opt a => a.ofExpr

theorem production_ofExpr (l : Label) : (production l).ofExpr := by
  unfold production
  split <;> decide

theorem Gives.kinds {a : Bnf} {w : List Lexeme} {ts : List Tree} (h : Gives a w ts) : a.ofExpr →
    ∀ lx ∈ w, Match.isName lx ∨ lx.kind ∈ tokenKinds := by
  induction h with
  | token h =>
    intro ha lx hlx
    obtain rfl := List.mem_singleton.1 hlx
    exact .inr (by simpa using List.all_eq_true.1 ha _ h)
  | name h =>
    intro _ lx hlx
    obtain rfl := List.mem_singleton.1 hlx
    exact .inl h
  | phrase l _ ih => exact fun _ => ih (production_ofExpr l)
  | seq _ _ ih₁ ih₂ =>
    intro ha lx hlx
    obtain ⟨ha, hb⟩ := Bool.and_eq_true_iff.1 ha
    exact (List.mem_append.1 hlx).elim (ih₁ ha lx) (ih₂ hb lx)
  | many_more _ _ ih₁ ih₂ => exact fun ha lx hlx => (List.mem_append.1 hlx).elim (ih₁ ha lx) (ih₂ ha lx)
  | alt_first _ ih => exact fun ha => ih (Bool.and_eq_true_iff.1 ha).1
  | alt_second _ ih => exact fun ha => ih (Bool.and_eq_true_iff.1 ha).2
  | opt _ ih => exact ih
  | many_end | opt_none => simp

end Bnf

open Bnf (Tree)
open TreeMatch (gives_phrase)

mutual

/-- The text of a nested expression does not tell places. -/
theorem Node.sexpr_unplaced : ∀ n m : Node, n.shape.unplaced = m.shape.unplaced → n.sexpr = m.sexpr
  | .leaf _ lx, .leaf _ lx', h => by
    have hsame : lx.unplaced = lx'.unplaced := Tree.leaf.inj h
    exact (congrArg Node.leafText hsame :)
  | .inner _ l cs, .inner _ l' cs', h => by
    obtain ⟨rfl, hkids⟩ := Tree.inner.inj h
    rw [Node.sexpr, Node.sexpr, Node.sexprs_unplaced cs cs' hkids]
  | .leaf _ _, .inner _ _ _, h => by cases h
  | .inner _ _ _, .leaf _ _, h => by cases h

theorem Node.sexprs_unplaced : ∀ ns ms : List Node,
    Tree.unplacedAll (Node.shapes ns) = Tree.unplacedAll (Node.shapes ms) → Node.sexprs ns = Node.sexprs ms
  | [], [], _ => rfl
  | n :: ns, m :: ms, h => by
    obtain ⟨hhead, htail⟩ := List.cons.inj h
    rw [Node.sexprs, Node.sexprs, Node.sexpr_unplaced n m hhead, Node.sexprs_unplaced ns ms htail]
  | [], _ :: _, h => by cases h
  | _ :: _, [], h => by cases h

end

/-! ## Tokens in a scan -/

section Scans

variable {source : String} {front rest : List Lexeme} {lx : Lexeme}

/-- A character constant stands on one line, and its text is the Julia string of its value. -/
theorem scan_constant (h : lx ∈ scan source) (hlx : lx.kind = .charConst) : ∃ value : List Char,
    lx.value = some (.text (String.ofList value)) ∧ lx.text = Text.juliaString (String.ofList value) ∧
      '\n' ∉ value := by
  obtain ⟨front, rest, hscan⟩ := List.append_of_mem h
  obtain ⟨before, p, c, cs, -, hlexeme⟩ := Scan.Comes.of_scan (by simp [hlx]) hscan
  have htakes := Scan.piece_takes (p.col == 1) p.depth c cs
  obtain ⟨k, hk, rfl⟩ := Option.map_eq_some_iff.1 hlexeme
  obtain rfl : k = .charConst := hlx
  obtain ⟨value, hvalue, htext, q, -, hquotes⟩ := htakes.constant hk
  have hline := htakes.newline
  rw [hk, if_neg (by decide)] at hline
  refine ⟨value, hvalue, by simp [htext], fun hmem => hline ?_⟩
  have hinside : '\n' ∈ value.flatMap fun d => if d = q then [q, q] else [d] :=
    List.mem_flatMap.2 ⟨'\n', hmem, by split <;> simp_all only [List.mem_cons, true_or]⟩
  rcases hquotes with ⟨hquotes, -⟩ | ⟨hquotes, -⟩ <;> rw [hquotes] <;> simp [hinside]

/-- Tokens of expressions that meet in a source can be read again one behind the other, if no number with a
point stands behind the last one. -/
theorem scan_readable {w : List Lexeme} (h : scan source = front ++ w ++ rest)
    (hkinds : ∀ lx ∈ w, Match.isName lx ∨ lx.kind ∈ Bnf.tokenKinds)
    (hmeets : w.IsChain fun a b => a.kind.meets b.kind)
    (hrest : ∀ next ∈ rest.head?, next.kind ≠ .realConst)
    (hplain : ∀ lx ∈ w, lx.kind = .charConst → ∀ s, lx.value = some (.text s) →
      ∀ c ∈ s.toList, c ∉ escapedChars) :
    Scan.Readable w := by
  induction w generalizing front with
  | nil => exact .nil
  | cons a w ih =>
    have hscan : scan source = front ++ a :: (w ++ rest) := by simpa using h
    have hbehind : scan source = front ++ [a] ++ w ++ rest := by simpa using h
    obtain ⟨hhead, htail⟩ := List.isChain_cons.1 hmeets
    refine .cons ?_ hhead (ih hbehind (fun lx hlx => hkinds lx (List.mem_cons_of_mem a hlx)) htail
      fun lx hlx => hplain lx (List.mem_cons_of_mem a hlx))
    have hmem : a ∈ scan source := by simp [hscan]
    have hplain' := hplain a List.mem_cons_self
    by_cases hconst : a.kind = .charConst
    · obtain ⟨value, hvalue, htext, hinline⟩ := scan_constant hmem hconst
      have hvalues := hplain' hconst _ hvalue
      rw [String.toList_ofList] at hvalues
      exact .constant hconst hvalue htext hinline hvalues
    · have hkind : a.kind ∈ Scan.speltKinds ∨ a.kind = .name ∨
          a.kind = .editConst ∧ '.' ∉ a.text.toList := by
        rcases hkinds a List.mem_cons_self with hname | hkind
        · simpa [Match.isName] using Or.inr hname
        · exact .inl (List.mem_of_ne_of_mem hconst hkind)
      refine .token ((scan_spelt hscan hkind ?_).mono ?_)
      · intro hname next hnext hreal
        cases w with
        | nil => exact hrest next hnext hreal
        | cons b w =>
          obtain rfl : b = next := Option.some.inj hnext
          have hpair := hhead b rfl
          simp [Kind.meets, hname, hreal] at hpair
      · -- Neither the end of the source nor that of a line is a token of an expression.
        rintro ⟨next, hnext, hend⟩
        cases w with
        | nil => rfl
        | cons b w =>
          obtain rfl : b = next := Option.some.inj hnext
          have hb := hkinds b (by simp)
          rcases hend with hend | hend <;> simp [Match.isName, hend, Bnf.tokenKinds, Scan.speltKinds] at hb

end Scans

/-! ## Main statement -/

/-- Expressions are spelled so that they are scanned and parsed back. Behind a blank the source of an
expression in a parsed tree is scanned as the tokens of its leaves, with their kinds, texts and values, and
nothing else, if no character of its character constants is escaped in a Julia string. A match of an
expression that starts with them takes them all and makes a node with the same nested expression. -/
theorem sources_scan_back {name source : String} {p q : Parser} {root n : Node}
    (hp : Parser.start? name (scan source) = some p) (hq : p.parse = .ok (.ok root, q)) (hn : n ∈ root.nodes)
    (hlabel : n.hasLabel .expr)
    (hplain : ∀ lx ∈ n.lexemes, lx.kind = .charConst → ∀ s, lx.value = some (.text s) →
      ∀ c ∈ s.toList, c ∉ escapedChars) :
    ∃ read line col, scan (" " ++ n.source) = read ++ [.endOfSource line col] ∧
      read.map Lexeme.unplaced = n.lexemes.map Lexeme.unplaced ∧
      ∀ c : Call, c.pattern = Grammar.expr → c.state.pos = 0 → c.Sound (scan (" " ++ n.source)).toArray →
        c.Deep (scan (" " ++ n.source)).toArray →
        ∃ t m, c.Adds (scan (" " ++ n.source)).toArray t m ∧ t.pos = read.length ∧ m.sexpr = n.sexpr := by
  have hderives := parse_expr hp hq hn hlabel
  have hlexemes : Node.lexemesOf [n] = n.lexemes := by simp [Node.lexemesOf]
  obtain ⟨ts, hgives, hshapes⟩ := derives_bnf hderives rfl
  obtain ⟨kids, rfl, -⟩ := gives_phrase (l := .expr) hgives
  have hmeets := derives_meets hderives rfl
  rw [hlexemes] at hgives hmeets
  obtain ⟨front, rest, hscan, hrest⟩ := parse_parted hp hq hn hlabel
  have hreadable := scan_readable hscan (hgives.kinds rfl) hmeets hrest hplain
  have hne : n.lexemes ≠ [] := hlexemes ▸ derives_ne_nil hderives rfl
  obtain ⟨read, line, col, hread, hsame⟩ := scan_sourceOf hreadable hne
  refine ⟨read, line, col, hread, hsame, fun c hexpr hpos hsound hdeep => ?_⟩
  obtain ⟨ts', hgives', hts'⟩ := hgives.moved read hsame
  obtain ⟨kids', rfl, -⟩ := gives_phrase (l := .expr) hgives'
  have hdrop : (scan (" " ++ n.source)).toArray.toList.drop c.state.pos =
      read ++ .endOfSource line col :: [] := by
    rw [hpos]
    exact hread
  obtain ⟨t, m, hadds, htpos, hshape⟩ := expr_taken (scan_endsInEof _) hsound hdeep hexpr hdrop
    hgives' (show Kind.eof ∉ TreeMatch.exprKinds by decide)
  refine ⟨t, m, hadds, by rw [htpos, hpos, Nat.zero_add], Node.sexpr_unplaced m n ?_⟩
  have hn : n.shape = (Tree.inner .expr kids).collapsed := (List.cons.inj hshapes).1
  rw [hshape, hn, Tree.unplaced_collapsed, Tree.unplaced_collapsed, (List.cons.inj hts').1]

/-- A negation right in front of a number with a point, a name that could be a descriptor, and a text. -/
theorem sources_scan_back_negation :
    let start : Parser := { source := "", tokens := (scan "L=.NOT..5.LT.I5*F('A')\nEND").toArray }
    ∃ root q n read line col, start.parse = .ok (.ok root, q) ∧ n ∈ root.nodes ∧
      n.source = ".NOT..5 .LT. I5*F(\"A\")" ∧ scan (" " ++ n.source) = read ++ [.endOfSource line col] ∧
      read.map Lexeme.unplaced = n.lexemes.map Lexeme.unplaced ∧
      ∃ c : Call, c.pattern = Grammar.expr ∧ c.Sound (scan (" " ++ n.source)).toArray ∧
        c.Deep (scan (" " ++ n.source)).toArray ∧
        ∃ t m, c.Adds (scan (" " ++ n.source)).toArray t m ∧ t.pos = read.length ∧ m.sexpr = n.sexpr := by
  intro start
  have hstart : Parser.start? "" (scan "L=.NOT..5.LT.I5*F('A')\nEND") = some start := start_scan _ _
  have hok : (start.matched?.any fun root => root.nodes.any fun n => n.hasLabel .expr &&
      n.source == ".NOT..5 .LT. I5*F(\"A\")" &&
      n.lexemes.all fun lx => lx.kind != .charConst || lx.value == some (.text "A")) = true := by
    rw [show start = { source := "", tokens := (scan "L=.NOT..5.LT.I5*F('A')\nEND").toArray } from rfl,
      scan_within]
    decide +kernel
  obtain ⟨root, hmatched, hroot⟩ := (Option.any_eq_true _ _).1 hok
  obtain ⟨q, hparse⟩ := parse_of_match (Parser.start_sound hstart) hmatched
  simp only [List.any_eq_true, Bool.and_eq_true, beq_iff_eq, List.all_eq_true, Bool.or_eq_true,
    bne_iff_ne] at hroot
  obtain ⟨n, hn, ⟨hlabel, hsource⟩, hconstants⟩ := hroot
  have hplain : ∀ lx ∈ n.lexemes, lx.kind = .charConst → ∀ s, lx.value = some (.text s) →
      ∀ c ∈ s.toList, c ∉ escapedChars := by
    intro lx hlx hkind s hs
    have hvalue := (hconstants lx hlx).resolve_left (fun hne => hne hkind)
    obtain rfl : s = "A" := Literal.text.inj (Option.some.inj (hs.symm.trans hvalue))
    simp [escapedChars]
  obtain ⟨read, line, col, hread, hsame, hmatch⟩ := sources_scan_back hstart hparse hn hlabel hplain
  let tokens := (scan (" " ++ n.source)).toArray
  let c : Call := ⟨tokens.size * 4096 + Grammar.expr.chain, Grammar.expr, some 0,
    (({} : Match.State).push (.phrase .assignmentStmt)).2⟩
  have hsize : 0 < tokens.size := by simp [tokens, hread]
  have hsound : c.Sound tokens :=
    ⟨⟨hsize, Arena.push_sound Arena.sound_empty (Cell.sound_phrase _)⟩, Nat.zero_lt_one⟩
  have hdeep : c.Deep tokens := Nat.add_le_add_right (Nat.mul_le_mul_right _ (Nat.sub_le _ _)) _
  exact ⟨root, q, n, read, line, col, hparse, hn, hsource, hread, hsame, c, rfl, hsound, hdeep,
    hmatch c rfl rfl hsound hdeep⟩

end FortranJulia
