/-
  Pascaline.Proofs.Reading.Parse — a text is parsed exactly if its tokens are a program.

  A reading of a text goes through the items one by one (`run_after`) until it does not take
  one (`run_refused`). So it gives a tree exactly if the lexemes lead to the end of a
  program and no stray character stands behind them (`run_eq_ok_iff`); and what leads there
  is a derivation, which there is one of, and the tree is what it means
  (`parse_derivation`).
-/

import Mathlib.Logic.ExistsUnique
import Pascaline.Proofs.Grammar.Unambiguous
import Pascaline.Proofs.Reading.Viable
import Pascaline.Proofs.Token.Items
import Pascaline.Program

namespace Pascaline

namespace Reading

/-! ## Item by item -/

/-- The item is taken: its token has room, or it is the end of the input and the program is
    complete. A stray character never is. -/
def Takes (r : Reading) : Item → Prop
  | .stray _ => False
  | .token t n => (r.accept? t n).isSome ∨ t = .endOfInput ∧ ∃ p, r = .complete p

/-- Why an item is not taken. -/
def refuse (r : Reading) : Item → Error
  | .stray e => .stray e
  | .token t n => .grammar (r.reject t n)

variable {r s : Reading} {c : Cursor}

theorem ne_endOfInput_of_accept? {t : Token} {n : Nat} (h : r.accept? t n = some s) : t ≠ .endOfInput := by
  rintro rfl
  rw [accept?_endOfInput] at h
  cases h

theorem run_accept {t : Token} {n : Nat} (hc : c.next.1 = .token t n) (h : r.accept? t n = some s) :
    r.run c = s.run c.next.2 := by
  rw [run]
  split
  · rename_i hstray
    rw [hc] at hstray
    cases hstray
  · rename_i u m htoken
    obtain ⟨rfl, rfl⟩ := Item.token.inj (hc.symm.trans htoken)
    rw [dif_neg (ne_endOfInput_of_accept? h), h]

theorem finish_eq_error (h : ∀ p, r ≠ .complete p) (n : Nat) : r.finish n = .error (r.reject .endOfInput n) := by
  cases r with
  | complete p => exact absurd rfl (h p)
  | _ => rfl

/-- The first item that is not taken decides the error. -/
theorem run_refused {item : Item} (hc : c.next.1 = item) (h : ¬r.Takes item) :
    (r.run c).1 = .error (r.refuse item) := by
  rw [run]
  split
  · rename_i e hstray
    obtain rfl := hc.symm.trans hstray
    rfl
  · rename_i t n htoken
    obtain rfl := hc.symm.trans htoken
    simp only [Takes, not_or, not_and, not_exists] at h
    split
    · rename_i hend
      subst hend
      rw [finish_eq_error (h.2 rfl)]
      rfl
    · rw [Option.not_isSome_iff_eq_none.1 h.1]
      rfl

theorem run_complete {p : Tree} {n : Nat} (hc : c.next.1 = .token .endOfInput n) :
    ((Reading.complete p).run c).1 = .ok p := by
  rw [run]
  split
  · rename_i hstray
    rw [hc] at hstray
    cases hstray
  · rename_i u m htoken
    obtain ⟨rfl, rfl⟩ := Item.token.inj (hc.symm.trans htoken)
    rfl

/-- Lexemes at the head of the items are read first, and then what is behind them. -/
theorem run_after {ls : List Lexeme} {rest : List Item} (hr : r.readAll? ls = some s)
    (hc : c.items = ls.map Lexeme.item ++ rest) :
    (r.run c).1 = (s.run (c.after ls.length)).1 ∧ (c.after ls.length).items = rest := by
  induction ls generalizing r c with
  | nil =>
    obtain rfl := Option.some.inj hr
    exact ⟨rfl, hc⟩
  | cons l ls ih =>
    obtain ⟨r', hl, hr'⟩ := Option.bind_eq_some_iff.1 hr
    have hlast : ¬l.item.isLast := by simpa [Lexeme.item, Item.isLast] using ne_endOfInput_of_accept? hl
    rw [run_accept (Cursor.next_of_items hc) hl]
    exact ih hr' (Cursor.items_next hc hlast)

/-- A reading gives a tree exactly if the lexemes lead to the end of the program and the
    input ends there. -/
theorem run_eq_ok_iff {ls : List Lexeme} {last : Item} {p : Tree} (hc : c.items = ls.map Lexeme.item ++ [last])
    (hlast : last.isLast) : (r.run c).1 = .ok p ↔ r.Ends ls p ∧ ∃ n, last = .token .endOfInput n := by
  induction ls generalizing r c with
  | nil =>
    have hnext := Cursor.next_of_items hc
    by_cases ht : r.Takes last
    · cases last with
      | stray e => cases ht
      | token t n =>
        obtain rfl : t = .endOfInput := by simpa [Item.isLast] using hlast
        obtain ⟨q, rfl⟩ : ∃ q, r = .complete q := by simpa [Takes, accept?_endOfInput] using ht
        rw [run_complete hnext]
        simp [Ends]
    · rw [run_refused hnext ht]
      refine iff_of_false (by simp) ?_
      rintro ⟨hend, n, rfl⟩
      exact ht (Or.inr ⟨rfl, p, Option.some.inj hend⟩)
  | cons l ls ih =>
    have hnext := Cursor.next_of_items hc
    have hl : ¬l.item.isLast := Cursor.not_isLast_of_items hc (by simp)
    cases hs : r.accept? l.token l.line with
    | none =>
      have ht : ¬r.Takes l.item := by
        rintro (hsome | ⟨hend, -⟩)
        · rw [hs] at hsome
          cases hsome
        · exact hl (by simp [Lexeme.item, Item.isLast, hend])
      rw [run_refused hnext ht, Ends, readAll?_cons, hs]
      simp
    | some s =>
      rw [run_accept hnext hs, Ends, readAll?_cons, hs]
      exact ih (Cursor.items_next hc hl)

end Reading

open Phrase

/-- What is parsed is what the grammar derives.

    Of a text with no stray character, `ls` being its tokens with their lines: it is parsed
    exactly if the tokens are those of a program, which on these lines is then one program
    and no other, and the tree of the text is the tree of that program. A text with a stray
    character is never parsed. -/
theorem parse_derivation (source : String) :
    (∀ ls n, (Cursor.ofString source).items = ls.map Lexeme.item ++ [.token .endOfInput n] →
      ((∃ tree, parse source = .ok tree) ↔ ∃ p : Program, p.tokens = ls.map Lexeme.token) ∧
      ((∃ p : Program, p.tokens = ls.map Lexeme.token) → ∃! p : Program, p.lexemes = ls) ∧
      ∀ p : Program, p.lexemes = ls → parse source = .ok p.tree) ∧
    ∀ e, .stray e ∈ (Cursor.ofString source).items → ∀ tree, parse source ≠ .ok tree := by
  refine ⟨fun ls n hls => ?_, fun e he tree hparse => ?_⟩
  · have hok : ∀ tree, parse source = .ok tree ↔ Reading.opening.Ends ls tree := fun tree =>
      (Reading.run_eq_ok_iff hls rfl).trans (by simp)
    have hderives : (∃ p : Program, p.tokens = ls.map Lexeme.token) → ∃ p : Program, p.lexemes = ls := by
      rintro ⟨p, hp⟩
      obtain ⟨tree, htree⟩ := Reading.Ends.of_tokens_eq (Reading.readAll?_program p) hp.symm
      obtain ⟨q, hq, -⟩ := Reading.exists_program htree
      exact ⟨q, hq⟩
    refine ⟨⟨?_, fun h => ?_⟩, fun h => ?_, ?_⟩
    · rintro ⟨tree, htree⟩
      obtain ⟨p, rfl, -⟩ := Reading.exists_program ((hok tree).1 htree)
      exact ⟨p, rfl⟩
    · obtain ⟨p, rfl⟩ := hderives h
      exact ⟨p.tree, (hok _).2 (Reading.readAll?_program p)⟩
    · obtain ⟨p, rfl⟩ := hderives h
      exact ⟨p, rfl, fun q hq => Program.eq_of_lexemes_eq hq⟩
    · rintro p rfl
      exact (hok _).2 (Reading.readAll?_program p)
  · obtain ⟨ls, last, hls, hlast, -⟩ := (Cursor.ofString source).exists_items
    obtain ⟨-, n, rfl⟩ := (Reading.run_eq_ok_iff hls hlast).1 hparse
    rw [hls] at he
    simp [Lexeme.item] at he

/-- The assignment is on the first line and the end of the program on the second. -/
theorem parse_derivation_assignment :
    parse "PROGRAM p; BEGIN x := y\nEND." =
      .ok (.program "p" (.block [] (.compound [.assign (.var "x" 1) (.var "y" 1)]))) :=
  ((parse_derivation _).1 _ 2 (by decide +kernel)).2.2
    ⟨1, ⟨"p", 1⟩, 1, ⟨.none, .mk 1 (.mk (.assignment ⟨⟨"x", 1⟩, 1, .mk (.mk (.name ⟨"y", 1⟩) .nil) .nil⟩) .nil) 2⟩, 2⟩
    rfl

end Pascaline
