/-
  Pascaline.Proofs.Reading.Splice — programs with a part of the text replaced.

  If a text in three parts is parsed, the tokens of the parts, one after the other, are those
  of its tree (`Parts.exists_ends`). Where the tokens with others in the middle are those of a
  program again, the text with the others in the middle is parsed as that program, up to
  lines. So it runs to the end if the first text does and the two programs succeed alike
  (`Parts.run_splice`).
-/

import Pascaline.Proofs.Reading.Exchange
import Pascaline.Proofs.Token.Splice

namespace Pascaline

namespace Parts

variable {u m v w : String} {us ms ws : List Lexeme}

/-- The tokens behind the two parts lead to the end of the program. -/
theorem exists_ends (h : Parts u.toList m.toList v.toList us ms) {p : Tree} (hp : parse (u ++ m ++ v) = .ok p) :
    ∃ (vs : List Lexeme) (n : Nat),
      (Cursor.between (u.toList ++ m.toList) v.toList).items = vs.map Lexeme.item ++ [.token .endOfInput n] ∧
      Reading.opening.Ends (us ++ (ms ++ vs)) p := by
  obtain ⟨vs, last, hvs, hlast, -⟩ := (Cursor.between (u.toList ++ m.toList) v.toList).exists_items
  have hitems : (Cursor.ofString (u ++ m ++ v)).items = (us ++ (ms ++ vs)).map Lexeme.item ++ [last] := by
    rw [Cursor.ofString_eq_between, String.toList_append, String.toList_append, List.append_assoc]
    exact h.items hvs
  obtain ⟨hends, n, rfl⟩ := (Reading.run_eq_ok_iff hitems hlast).1 hp
  exact ⟨vs, n, hvs, hends⟩

/-- Tokens in place of those in the middle, if they make a program that succeeds alike on
    whatever lines, give a text that does. -/
theorem run_splice (h : Parts u.toList m.toList v.toList us ms) (hne : m.toList ++ v.toList ≠ [])
    (hw : Holds [] w.toList [' '] ws)
    (hreplace : ∀ vs n p,
      (Cursor.between (u.toList ++ m.toList) v.toList).items = vs.map Lexeme.item ++ [.token .endOfInput n] →
      Reading.opening.Ends (us ++ (ms ++ vs)) p →
      ∃ ws' q, ws'.map Lexeme.token = ws.map Lexeme.token ∧ Reading.opening.Ends (us ++ (ws' ++ vs)) q ∧
        p.eval.Within q.eval)
    {table : Table} (hrun : run (u ++ m ++ v) = .ok table) : run (u ++ " " ++ w ++ " " ++ v) = .ok table := by
  obtain ⟨p, x, hparse, heval⟩ := exists_of_run hrun
  obtain ⟨vs, n, hvs, hp⟩ := h.exists_ends hparse
  obtain ⟨ws', vs', n', hws', hvs', -, hitems⟩ := h.items_splice hne hvs hw
  obtain ⟨ws'', q, hws, hq, hwithin⟩ := hreplace vs n p hvs hp
  have htokens : (us ++ (ws' ++ vs')).map Lexeme.token = (us ++ (ws'' ++ vs)).map Lexeme.token := by
    simp [hws, hws', hvs']
  obtain ⟨q', hq', hlines⟩ := Reading.Ends.eqUpToLines hq htokens
  have hitems' : (Cursor.ofString (u ++ " " ++ w ++ " " ++ v)).items =
      (us ++ (ws' ++ vs')).map Lexeme.item ++ [.token .endOfInput n'] := by
    rw [Cursor.ofString_eq_between]
    simpa using hitems
  have hparse' := (Reading.run_eq_ok_iff hitems' rfl).2 ⟨hq', n', rfl⟩
  rw [run_of_parse hparse', (hwithin.trans hlines.within) _ _ _ heval]

end Parts

end Pascaline
