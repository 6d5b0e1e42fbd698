/-
  Pascaline.Proofs.Token.Items — the items of a text, in order.

  All items but the last are tokens, and the last is the end of the input or a stray
  character (`exists_items`). `after` is the cursor behind some of them; behind a token it
  is still on the token's line (`next_line`), because lines are counted in trivia only.
-/

import Pascaline.Proofs.Grammar.Phrase

namespace Pascaline

namespace Cursor

/-- Behind a token the cursor is on the token's line. -/
theorem next_line {c : Cursor} {t : Token} {n : Nat} (h : c.next.1 = .token t n) : c.next.2.line = n := by
  fun_induction next c with
  | case1 c => injection h
  | case2 c x xs e piece hstray => cases h
  | case3 c x xs e piece u hu htrivia ih => exact ih h
  | case4 c x xs e piece u hu htrivia =>
    obtain ⟨rfl, rfl⟩ := Item.token.inj h
    simp [skip, hu, htrivia]

/-- The cursor behind the first `k` items. -/
def after (c : Cursor) : Nat → Cursor
  | 0 => c
  | k + 1 => c.next.2.after k

theorem after_succ (c : Cursor) (k : Nat) : c.after (k + 1) = (c.after k).next.2 := by
  induction k generalizing c with
  | zero => rfl
  | succ k ih => exact ih c.next.2

/-- The item at `i`, counted from 0; behind the last one there is only the end of the input. -/
def item (c : Cursor) (i : Nat) : Item := (c.after i).next.1

theorem items_eq_cons (c : Cursor) : c.items = c.next.1 :: if c.next.1.isLast then [] else c.next.2.items := by
  rw [items]
  split <;> rfl

variable {c : Cursor} {item : Item} {rest : List Item}

theorem next_of_items (h : c.items = item :: rest) : c.next.1 = item := by
  rw [items_eq_cons] at h
  exact (List.cons.inj h).1

theorem items_next (h : c.items = item :: rest) (hlast : ¬item.isLast) : c.next.2.items = rest := by
  have hnext := next_of_items h
  rw [items_eq_cons, hnext, if_neg hlast] at h
  exact (List.cons.inj h).2

/-- Nothing stands behind the last item. -/
theorem not_isLast_of_items (h : c.items = item :: rest) (hrest : rest ≠ []) : ¬item.isLast := by
  intro hlast
  have hnext := next_of_items h
  rw [items_eq_cons, hnext, if_pos hlast] at h
  exact hrest (List.cons.inj h).2.symm

/-- The item at `k` is the next one behind the first `k`. -/
theorem next_after {k : Nat} (h : c.items[k]? = some item) : (c.after k).next.1 = item := by
  induction k generalizing c with
  | zero =>
    rw [items_eq_cons] at h
    exact Option.some.inj h
  | succ k ih =>
    rw [items_eq_cons, List.getElem?_cons_succ] at h
    split at h
    · cases h
    · exact ih h

theorem item_of_items {ls : List Lexeme} {l : Lexeme} {k : Nat} (h : c.items = ls.map Lexeme.item ++ rest)
    (hl : ls[k]? = some l) : c.item k = l.item := by
  have hk : k < ls.length := (List.getElem?_eq_some_iff.1 hl).1
  refine next_after ?_
  rw [h, List.getElem?_append_left (by simpa using hk), List.getElem?_map, hl]
  rfl

/-- The items are tokens of the text, and then its end or a stray character. -/
theorem exists_items (c : Cursor) :
    ∃ (ls : List Lexeme) (last : Item), c.items = ls.map Lexeme.item ++ [last] ∧ last.isLast ∧
      ∀ l ∈ ls, l.token ≠ .endOfInput := by
  fun_induction items c with
  | case1 c hlast => exact ⟨[], c.next.1, rfl, hlast, nofun⟩
  | case2 c hlast ih =>
    obtain ⟨ls, last, hls, hl, hne⟩ := ih
    cases hnext : c.next.1 with
    | stray e => rw [hnext] at hlast; exact absurd rfl hlast
    | token t n =>
      rw [hnext] at hlast
      refine ⟨⟨t, n⟩ :: ls, last, by rw [hls]; rfl, hl, ?_⟩
      rintro l (_ | ⟨_, hmem⟩)
      · simpa [Item.isLast] using hlast
      · exact hne l hmem

end Cursor

end Pascaline
