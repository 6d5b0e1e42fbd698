/-
  Pascaline.Proofs.Reading.Lines — tokens on other lines give the same tree on other lines.

  Moving to other lines is relabelling with the names as they are, so lexemes that are moved
  are read as the tree that is moved like them (`ends_mapLines_iff`), and programs with the
  same tokens have the same tree up to lines (`Ends.eqUpToLines`).
-/

import Pascaline.Proofs.Reading.Relabel

namespace Pascaline

def Lexeme.mapLine (f : Nat → Nat) (l : Lexeme) : Lexeme := ⟨l.token, f l.line⟩

theorem Lexeme.relabel_id (f : Nat → Nat) (l : Lexeme) : l.relabel id f = l.mapLine f := by
  rw [relabel, Token.rename_id, mapLine]

namespace Reading

variable {f : Nat → Nat} {ls ms : List Lexeme} {p : Tree}

theorem ends_mapLines_iff :
    Reading.opening.Ends (ls.map (Lexeme.mapLine f)) p ↔ ∃ q, Reading.opening.Ends ls q ∧ q.mapLines f = p := by
  have h : Reading.opening.Ends (ls.map (Lexeme.relabel id f)) p ↔ _ := ends_relabel_iff
  simpa only [Tree.relabel_id, funext (Lexeme.relabel_id f)] using h

/-- Programs with the same tokens have the same tree up to lines. -/
theorem Ends.eqUpToLines (h : Reading.opening.Ends ls p) (hl : ms.map Lexeme.token = ls.map Lexeme.token) :
    ∃ q, Reading.opening.Ends ms q ∧ q.EqUpToLines p := by
  have hline : ∀ ls : List Lexeme,
      ls.map (Lexeme.mapLine fun _ => 0) = (ls.map Lexeme.token).map fun t => ⟨t, 0⟩ := by
    intro ls
    rw [List.map_map]
    rfl
  refine ends_mapLines_iff.1 ?_
  rw [hline, hl, ← hline]
  exact ends_mapLines_iff.2 ⟨p, h, rfl⟩

end Reading

end Pascaline
