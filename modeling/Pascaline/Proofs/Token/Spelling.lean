/-
  Pascaline.Proofs.Token.Spelling — texts with given tokens.

  A word in front of a blank is a piece of its own, whatever stands before and behind
  (`Rule.items_blank`). So words with blanks between them make a text with the tokens of the
  words, one after the other (`exists_text`).

  A literal is an integer or a real number by how it is spelled, and the grammar has room
  for the one where it has room for the other. `Cursor.Spells` says which tokens a text has,
  with integers for all numbers.
-/

import Pascaline.Proofs.Token.Trivia

namespace Pascaline

/-- The token, with an integer for any number. -/
def Token.asInteger : Token → Token
  | .real v => .integer v
  | t => t

def Lexeme.asInteger (l : Lexeme) : Lexeme := ⟨l.token.asInteger, l.line⟩

/-- There is no stray character behind the cursor, and these are the tokens, with integers
    for all numbers. -/
def Cursor.Spells (c : Cursor) (ts : List Token) : Prop :=
  ∃ (ls : List Lexeme) (n : Nat), c.items = ls.map Lexeme.item ++ [.token .endOfInput n] ∧
    (ls.map Lexeme.asInteger).map Lexeme.token = ts

/-- There is a word for the token, or a number of the same value. -/
def Token.Spelled (t : Token) : Prop := ∃ text u, Rule text u ∧ ¬u.isTrivia ∧ u.asInteger = t

theorem Keyword.spelled (k : Keyword) : (Token.keyword k).Spelled := ⟨_, _, .keyword k, nofun, rfl⟩

theorem Symbol.spelled (s : Symbol) : (Token.symbol s).Spelled := ⟨_, _, .symbol s, nofun, rfl⟩

theorem IsIdentifier.spelled {s : String} (h : IsIdentifier s) : (Token.name s).Spelled := ⟨_, _, .name h, nofun, rfl⟩

/-- A blank may follow where another rest does. -/
theorem blank_follows (rest tail : List Char) :
    ∀ d ∈ (' ' :: tail).head?, d ∈ rest.head? ∨ d.isWhitespace ∨ d = '{' := by
  intro d hd
  obtain rfl := Option.some.inj hd
  exact Or.inr (Or.inl rfl)

namespace Rule

variable {text : List Char} {u : Token}

/-- A word by itself is the longest match. -/
theorem isLongest (h : Rule text u) : (⟨text, some u, []⟩ : Piece).IsLongest :=
  ⟨h, fun ds v _ hds => by simpa using hds.length_le⟩

/-- A word in front of a blank is what the next call returns, and the one behind it starts
    behind the blank. -/
theorem items_blank (h : Rule text u) (ht : ¬u.isTrivia) (before rest : List Char) :
    (Cursor.between before (text ++ ' ' :: rest)).items =
      .token u (lineBehind before) :: (Cursor.between (before ++ text ++ [' ']) rest).items := by
  have hitem : (⟨text, some u, []⟩ : Piece).item? before = some (.token u (lineBehind before)) := by
    simp [Piece.item?, ht]
  have hnext := h.isLongest.next_replace hitem (blank_follows [] rest)
  have hblank := Cursor.items_congr (Skips.blank (show ' '.isWhitespace by decide) rest (before ++ text))
  have hlast : ¬(Item.token u (lineBehind before)).isLast := by simpa [Item.isLast] using h.ne_endOfInput
  rw [Cursor.items_eq_cons, hnext, if_neg hlast]
  exact congrArg _ hblank

end Rule

/-- Words with blanks between them have their tokens, and no others, wherever they stand. -/
theorem exists_text {ts : List Token} (h : ∀ t ∈ ts, t.Spelled) :
    ∃ text : List Char, ∀ before, (Cursor.between before text).Spells ts := by
  induction ts with
  | nil =>
    refine ⟨[], fun before => ⟨[], lineBehind before, ?_, rfl⟩⟩
    have hnext := Cursor.next_of_nil (c := Cursor.between before []) rfl
    rw [Cursor.items_eq_cons, hnext]
    rfl
  | cons t ts ih =>
    obtain ⟨⟨word, u, hrule, htrivia, rfl⟩, hts⟩ := List.forall_mem_cons.1 h
    obtain ⟨text, htext⟩ := ih hts
    refine ⟨word ++ ' ' :: text, fun before => ?_⟩
    obtain ⟨ls, n, hls, hmap⟩ := htext (before ++ word ++ [' '])
    refine ⟨⟨u, lineBehind before⟩ :: ls, n, ?_, by rw [← hmap]; rfl⟩
    rw [hrule.items_blank htrivia, hls]
    rfl

theorem exists_spells {ts : List Token} (h : ∀ t ∈ ts, t.Spelled) :
    ∃ source, (Cursor.ofString source).Spells ts := by
  obtain ⟨text, htext⟩ := exists_text h
  refine ⟨String.ofList text, ?_⟩
  rw [Cursor.ofString_eq_between, String.toList_ofList]
  exact htext []

end Pascaline
