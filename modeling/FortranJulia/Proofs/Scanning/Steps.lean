import FortranJulia.Proofs.Lowering.Names
import FortranJulia.Proofs.Scanning.Constants
import FortranJulia.Proofs.Scanning.Lines

/-!
The places that a scan comes to: they are known from the characters and the lexemes read so far, every
lexeme is read at one of them, and the start of every line is one of them.
-/

namespace FortranJulia

set_option autoImplicit false

open Decimal (isDigit)

namespace Scan

/-! ## Digits -/

theorem digit_not_letter {c : Char} (hc : isDigit c) : isLetter c = false := by
  rw [Bool.eq_false_iff]
  intro hletter
  rw [letter_not_digit hletter] at hc
  cases hc

/-- What starts with a digit is a number. -/
theorem piece_digit {c : Char} (hc : isDigit c) (lineStart : Bool) (depth : Nat) (cs : List Char) :
    piece lineStart depth c cs = number c cs := by
  have hletter := digit_not_letter hc
  unfold piece
  split
  case h_41 =>
    rw [hletter, hc]
    rfl
  all_goals exact absurd hc (by decide)

/-! ## Places -/

namespace Comes

variable {source : String} {front rest : List Char} {read : List Lexeme} {p : Place}

/-- The line and the column are those behind the characters read so far. -/
theorem behind (h : Comes source front read p rest) : p.Behind front := by
  induction h with
  | start => exact ⟨rfl, rfl⟩
  | @step front cs c read p q _ hq ih =>
    have htakes : q.Takes c cs := hq ▸ piece_takes _ _ c cs
    exact htakes.behind ih

/-- The depth of parentheses is the one behind the lexemes read so far. -/
theorem depth_eq (h : Comes source front read p rest) : p.depth = depthBehind 0 read := by
  induction h with
  | start => rfl
  | @step front cs c read p q _ hq ih =>
    have hafter := depth_after p q c cs []
    rw [List.append_nil, ih] at hafter
    rw [depthBehind, List.foldl_append]
    exact hafter

/-- From a place on, a scan comes to every place where it reads a lexeme. -/
theorem reads {lx : Lexeme} {more : List Lexeme} (hlx : lx.kind ≠ .eof) (p : Place)
    (cs : List Char) : ∀ (front : List Char) (read mid : List Lexeme),
      Comes source front read p cs → lexemesFrom p cs = mid ++ lx :: more →
      ∃ front' p' c cs', Comes source front' (read ++ mid) p' (c :: cs') ∧
        lexeme? p' (piece (p'.col == 1) p'.depth c cs') c cs' = some lx := by
  fun_induction lexemesFrom p cs with
  | case1 p =>
    intro front read mid h hscan
    have hmem : lx ∈ [Lexeme.endOfSource p.line p.col] := by
      rw [hscan]
      exact List.mem_append_right _ List.mem_cons_self
    obtain rfl := List.mem_singleton.1 hmem
    exact absurd rfl hlx
  | case2 p c cs q rest first hfirst ih =>
    intro front read mid h hscan
    cases mid with
    | nil =>
      obtain ⟨rfl, -⟩ := List.cons.inj hscan
      exact ⟨front, p, c, cs, by rwa [List.append_nil], hfirst⟩
    | cons m mid =>
      obtain ⟨rfl, hrest⟩ := List.cons.inj hscan
      have hnext := h.step rfl
      rw [hfirst] at hnext
      have hread := ih _ _ _ hnext hrest
      rwa [List.append_assoc] at hread
  | case3 p c cs q rest hskip ih =>
    intro front read mid h hscan
    have hnext := h.step rfl
    rw [hskip] at hnext
    have hread := ih _ _ _ hnext hscan
    rwa [List.append_assoc] at hread

/-- A scan reads each of its lexemes, except the end of the source, at a place it comes to. -/
theorem of_scan {lx : Lexeme} {more : List Lexeme} (hlx : lx.kind ≠ .eof)
    (h : scan source = read ++ lx :: more) :
    ∃ front p c cs, Comes source front read p (c :: cs) ∧
      lexeme? p (piece (p.col == 1) p.depth c cs) c cs = some lx :=
  reads hlx .start source.toList [] [] read .start h

/-- Blanks are passed over. -/
theorem indent {bs : List Char} (hbs : ∀ b ∈ bs, b = ' ' ∨ b = '\t')
    (h : Comes source front read p (bs ++ rest)) :
    Comes source (front ++ bs) read ⟨p.line, p.col + bs.length, p.depth⟩ rest := by
  induction bs generalizing front p with
  | nil => simpa using h
  | cons b bs ih =>
    have hskip : piece (p.col == 1) p.depth b (bs ++ rest) = .skip := by
      rcases hbs b List.mem_cons_self with rfl | rfl <;> rfl
    have hnext := h.step hskip
    have hrest := ih (fun d hd => hbs d (List.mem_cons_of_mem b hd))
      (by simpa [lexeme?, Piece.skip] using hnext)
    have hcol : p.col + (b :: bs).length = p.col + 1 + bs.length := by
      rw [List.length_cons]
      omega
    rw [hcol]
    simpa [Place.after, Piece.skip] using hrest

/-- A scan comes to the place behind a line end. -/
theorem line {cs : List Char} (h : Comes source front read p (cs ++ '\n' :: rest)) :
    ∃ read' lx p', lx.kind = .newline ∧ p'.col = 1 ∧
      Comes source (front ++ cs ++ ['\n']) (read' ++ [lx]) p' rest := by
  induction hn : cs.length using Nat.strong_induction_on generalizing cs front read p with
  | _ n ih =>
    cases cs with
    | nil =>
      have hend : piece (p.col == 1) p.depth '\n' rest = .plain .newline 0 := rfl
      rw [List.append_nil]
      exact ⟨read, _, _, rfl, rfl, h.step hend⟩
    | cons c cs =>
      have hinside : (piece (p.col == 1) p.depth c cs).extra ≤ cs.length :=
        (piece_takes _ _ c cs).inside
      rw [List.cons_append] at h
      have hnext := h.step (piece_line (p.col == 1) p.depth c cs rest)
      rw [take_line cs rest hinside, drop_line cs rest hinside] at hnext
      have hshorter : (cs.drop (piece (p.col == 1) p.depth c cs).extra).length < n := by
        rw [← hn, List.length_drop, List.length_cons]
        omega
      obtain ⟨read', lx, p', hkind, hcol, hcomes⟩ := ih _ hshorter hnext rfl
      refine ⟨read', lx, p', hkind, hcol, ?_⟩
      simpa only [List.append_assoc, List.cons_append, List.take_append_drop] using hcomes

end Comes

end Scan

end FortranJulia
