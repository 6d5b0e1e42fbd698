/-
  Pascaline.Token.Cursor — reading a text token by token.

  A cursor is a place in a text: what is left of it, how many bytes of UTF-8 lie before
  it, and its line. `next` skips trivia and takes one item, a token with the line it
  stands on or a stray character, which it steps over. At the end of the text it finds the
  end of the input again and again, without moving.

  A `Feed` reads the items of a cursor in two ways: `pull` takes one item always, `next?`
  takes items up to the first end of input or stray character that `next?` itself has met.
-/

import Pascaline.Token.Piece
import Pascaline.Error

namespace Pascaline

/-- A token with its line, or a character that no token starts with. -/
inductive Item where
  | token (token : Token) (line : Nat)
  | stray (error : StrayCharacter)
  deriving DecidableEq

/-- The end of the input and a stray character stop a reading that does not insist. -/
def Item.isLast : Item → Bool
  | .token t _ => t = .endOfInput
  | .stray _ => true

/-- A place in a text: the rest of it, the bytes before it and its line, counted from 1. -/
structure Cursor where
  rest : List Char
  position : Nat
  line : Nat
  deriving DecidableEq

namespace Cursor

def ofString (s : String) : Cursor := ⟨s.toList, 0, 1⟩

/-- The cursor behind a piece of its text. Line feeds are counted in trivia and nowhere else. -/
def skip (c : Cursor) (p : Piece) : Cursor :=
  ⟨p.rest, c.position + (String.ofList p.text).utf8ByteSize,
    if p.reading.any Token.isTrivia then c.line + p.text.count '\n' else c.line⟩

/-- The next item and the cursor behind it. -/
def next (c : Cursor) : Item × Cursor :=
  match _ : c.rest with
  | [] => (.token .endOfInput c.line, c)
  | x :: xs =>
    let piece := Piece.cut x xs
    match piece.reading with
    | none => (.stray ⟨x, c.position, c.line⟩, c.skip piece)
    | some t => if t.isTrivia then (c.skip piece).next else (.token t c.line, c.skip piece)
termination_by c.rest.length
decreasing_by rename_i h; rw [h]; exact Piece.rest_length_lt x xs

theorem next_rest_length_le (c : Cursor) : c.next.2.rest.length ≤ c.rest.length := by
  fun_induction next c with
  | case1 => exact Nat.le_refl _
  | case2 c x xs h piece => rw [h]; exact Nat.le_of_lt (Piece.rest_length_lt x xs)
  | case3 c x xs h piece t _ _ ih =>
    rw [h]; exact Nat.le_trans ih (Nat.le_of_lt (Piece.rest_length_lt x xs))
  | case4 c x xs h piece => rw [h]; exact Nat.le_of_lt (Piece.rest_length_lt x xs)

theorem next_rest_length_lt {c : Cursor} (h : ∀ line, c.next.1 ≠ .token .endOfInput line) :
    c.next.2.rest.length < c.rest.length := by
  fun_induction next c with
  | case1 c => exact absurd rfl (h c.line)
  | case2 c x xs e piece => rw [e]; exact Piece.rest_length_lt x xs
  | case3 c x xs e piece t _ _ ih =>
    rw [e]; exact Nat.lt_of_le_of_lt (next_rest_length_le _) (Piece.rest_length_lt x xs)
  | case4 c x xs e piece => rw [e]; exact Piece.rest_length_lt x xs

end Cursor

/-- A cursor, and whether `next?` has met its last item. -/
structure Feed where
  cursor : Cursor
  ended : Bool
  deriving DecidableEq

namespace Feed

def ofString (s : String) : Feed := ⟨.ofString s, false⟩

/-- The next item, whatever came before. -/
def pull (f : Feed) : Item × Feed :=
  let (item, cursor) := f.cursor.next
  (item, { f with cursor })

/-- The next item, unless `next?` has met its last one. -/
def next? (f : Feed) : Option Item × Feed :=
  if f.ended then (none, f)
  else
    let (item, f) := f.pull
    (some item, { f with ended := item.isLast })

end Feed

/-- The items from a cursor up to the end of the input or the first stray character. -/
def Cursor.items (c : Cursor) : List Item :=
  if _ : c.next.1.isLast then [c.next.1] else c.next.1 :: c.next.2.items
termination_by c.rest.length
decreasing_by
  rename_i h
  exact next_rest_length_lt (fun line e => h (by simp [e, Item.isLast]))

end Pascaline
