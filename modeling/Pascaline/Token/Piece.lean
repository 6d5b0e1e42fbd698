/-
  Pascaline.Token.Piece — cutting the longest piece off the head of a text.

  A piece is a run of blanks, a comment, a number, a word, a symbol, or a stray character
  that starts none of these. `cut` takes it; nothing is lost (`text_append_rest`) and
  something is always taken (`text_ne_nil`), so the rest is shorter (`rest_length_lt`).

  Letters, digits and blanks are those of ASCII, of blanks the space, the tab, the line
  feed and the carriage return. Comments do not nest, and one that is not closed runs to
  the end of the text. A point ends a number unless it is its first: `1.2.3` is `1.2`,
  `.`, `3`.
-/

import Pascaline.Token.Basic

namespace Pascaline

/-- What stands at the head of a text; a stray character has no reading. -/
structure Piece where
  text : List Char
  reading : Option Token
  rest : List Char

namespace Piece

/-- The literal `whole.fraction`. -/
def real (whole fraction : List Char) : Token := .real (Decimal.ofDigits whole fraction).toFloat

def integer (whole : List Char) : Token := .integer (Decimal.ofDigits whole []).toFloat

/-- A word is a reserved word or else an identifier. -/
def word (cs : List Char) : Token :=
  let s := String.ofList cs
  match Keyword.ofSpelling? s with
  | some k => .keyword k
  | none => .name s

/-- The comment whose opening brace stands before `cs`, up to the first closing brace. -/
def comment (cs : List Char) : Piece :=
  let body := cs.takeWhile (· != '}')
  match cs.dropWhile (· != '}') with
  | [] => ⟨'{' :: body, some .comment, []⟩
  | close :: rest => ⟨'{' :: body ++ [close], some .comment, rest⟩

/-- The number whose first digit is `c`. -/
def number (c : Char) (cs : List Char) : Piece :=
  let whole := c :: cs.takeWhile Char.isDigit
  match cs.dropWhile Char.isDigit with
  | '.' :: rest =>
    let fraction := rest.takeWhile Char.isDigit
    ⟨whole ++ '.' :: fraction, some (real whole fraction), rest.dropWhile Char.isDigit⟩
  | rest => ⟨whole, some (integer whole), rest⟩

/-- The sign `c`, or `:=`. -/
def sign (c : Char) (cs : List Char) : Piece :=
  match c, cs with
  | ':', '=' :: rest => ⟨[':', '='], some (.symbol .assign), rest⟩
  | _, _ => ⟨[c], (Symbol.ofChar? c).map .symbol, cs⟩

/-- The piece at the head of `c :: cs`. -/
def cut (c : Char) (cs : List Char) : Piece :=
  if c.isWhitespace then ⟨c :: cs.takeWhile Char.isWhitespace, some .blank, cs.dropWhile Char.isWhitespace⟩
  else if c = '{' then comment cs
  else if c.isDigit then number c cs
  else if c.isAlpha then
    let text := c :: cs.takeWhile Char.isAlphanum
    ⟨text, some (word text), cs.dropWhile Char.isAlphanum⟩
  else sign c cs

/-! ## Nothing is lost -/

theorem comment_text_append_rest (cs : List Char) : (comment cs).text ++ (comment cs).rest = '{' :: cs := by
  have h := List.takeWhile_append_dropWhile (p := (· != '}')) (l := cs)
  unfold comment
  split <;> rename_i e <;> rw [e] at h <;> simp_all

theorem number_text_append_rest (c : Char) (cs : List Char) :
    (number c cs).text ++ (number c cs).rest = c :: cs := by
  have h := List.takeWhile_append_dropWhile (p := Char.isDigit) (l := cs)
  unfold number
  split
  · rename_i rest e; rw [e] at h
    simp [List.takeWhile_append_dropWhile, h]
  · simp [h]

theorem sign_text_append_rest (c : Char) (cs : List Char) : (sign c cs).text ++ (sign c cs).rest = c :: cs := by
  unfold sign; split <;> rfl

theorem text_append_rest (c : Char) (cs : List Char) : (cut c cs).text ++ (cut c cs).rest = c :: cs := by
  unfold cut
  split
  · simp [List.takeWhile_append_dropWhile]
  split
  · rename_i h; simp [h, comment_text_append_rest]
  split
  · exact number_text_append_rest c cs
  split
  · simp [List.takeWhile_append_dropWhile]
  · exact sign_text_append_rest c cs

theorem text_ne_nil (c : Char) (cs : List Char) : (cut c cs).text ≠ [] := by
  simp only [cut, comment, number, sign]
  repeat' split
  all_goals simp

theorem rest_length_lt (c : Char) (cs : List Char) : (cut c cs).rest.length < (c :: cs).length := by
  have h := congrArg List.length (text_append_rest c cs)
  have := List.length_pos_iff.2 (text_ne_nil c cs)
  simp only [List.length_append] at h
  omega

end Piece

end Pascaline
