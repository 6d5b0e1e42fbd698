/-
  Pascaline.Token.Basic — the words of the language.

  A token is a literal, an identifier, one of the seven reserved words, one of the
  punctuation symbols, trivia (a comment or a run of blanks) or the end of the input.
  `describe` is how messages speak of a token, `category` the coarse class it belongs to,
  `operator?` the arithmetic operator it spells.

  Two tokens are of the same kind when they differ in nothing but the literal or the name
  they carry (`sameKind`). `==` compares the literals as doubles, so a literal that is not
  a number differs from itself and the two zeros are equal.
-/

import Pascaline.Operator
import Pascaline.Decimal.Plain

namespace Pascaline

/-- The reserved words. They are reserved in exactly this spelling. -/
inductive Keyword where
  | program
  | var
  | div
  | integer
  | real
  | beginBody
  | endBody
  deriving DecidableEq, Repr

namespace Keyword

def spelling : Keyword → String
  | .program => "PROGRAM"
  | .var => "VAR"
  | .div => "DIV"
  | .integer => "INTEGER"
  | .real => "REAL"
  | .beginBody => "BEGIN"
  | .endBody => "END"

def all : List Keyword := [.program, .var, .div, .integer, .real, .beginBody, .endBody]

/-- The reserved word spelled `s`. -/
def ofSpelling? (s : String) : Option Keyword := all.find? fun k => k.spelling = s

theorem mem_all (k : Keyword) : k ∈ all := by cases k <;> decide

theorem ofSpelling?_eq_some_iff {s : String} {k : Keyword} : ofSpelling? s = some k ↔ k.spelling = s := by
  constructor
  · intro h; simpa using List.find?_some h
  · rintro rfl; cases k <;> decide

end Keyword

/-- Punctuation, the arithmetic signs among it. -/
inductive Symbol where
  | assign
  | semicolon
  | colon
  | comma
  | plus
  | minus
  | star
  | slash
  | openParen
  | closeParen
  | dot
  deriving DecidableEq, Repr

namespace Symbol

def spelling : Symbol → String
  | .assign => ":="
  | .semicolon => ";"
  | .colon => ":"
  | .comma => ","
  | .plus => "+"
  | .minus => "-"
  | .star => "*"
  | .slash => "/"
  | .openParen => "("
  | .closeParen => ")"
  | .dot => "."

/-- The symbol that is the single character `c`. -/
def ofChar? : Char → Option Symbol
  | ';' => some .semicolon
  | ':' => some .colon
  | ',' => some .comma
  | '+' => some .plus
  | '-' => some .minus
  | '*' => some .star
  | '/' => some .slash
  | '(' => some .openParen
  | ')' => some .closeParen
  | '.' => some .dot
  | _ => none

end Symbol

inductive Token where
  | integer (value : Float)
  | real (value : Float)
  | name (text : String)
  | keyword (word : Keyword)
  | symbol (sign : Symbol)
  | comment
  | blank
  | endOfInput
  deriving DecidableEq

/-- The coarse class of a token. -/
inductive Category where
  | number
  | operator
  | keyword
  | identifier
  | punctuation
  | endOfInput
  deriving DecidableEq, Repr

namespace Token

/-- The token as messages name it. -/
def describe : Token → String
  | .integer v => "integer literal " ++ plain v
  | .real v => "real literal " ++ plain v
  | .name s => "identifier '" ++ s ++ "'"
  | .keyword k => "'" ++ k.spelling ++ "'"
  | .symbol s => "'" ++ s.spelling ++ "'"
  | .comment => "comment"
  | .blank => "whitespace"
  | .endOfInput => "end of input"

/-- The arithmetic operator that the token spells. -/
def operator? : Token → Option Operator
  | .symbol .plus => some .plus
  | .symbol .minus => some .minus
  | .symbol .star => some .times
  | .symbol .slash => some .div
  | .keyword .div => some .intDiv
  | _ => none

/-- An operator's class comes before that of the word or sign that spells it. -/
def category (t : Token) : Category :=
  if t.operator?.isSome then .operator
  else match t with
    | .integer _ | .real _ => .number
    | .name _ => .identifier
    | .keyword _ => .keyword
    | .symbol _ | .comment | .blank => .punctuation
    | .endOfInput => .endOfInput

/-- Do the tokens differ at most in the literal or the name they carry? -/
def sameKind : Token → Token → Bool
  | .integer _, .integer _ | .real _, .real _ | .name _, .name _ => true
  | .comment, .comment | .blank, .blank | .endOfInput, .endOfInput => true
  | .keyword k, .keyword l => k = l
  | .symbol s, .symbol r => s = r
  | _, _ => false

/-- Equality with literals compared as doubles. -/
def beq : Token → Token → Bool
  | .integer v, .integer w | .real v, .real w => v == w
  | .name s, .name r => s == r
  | a, b => sameKind a b

instance : BEq Token := ⟨beq⟩

/-- Blanks and comments stand between tokens and mean nothing. -/
def isTrivia : Token → Bool
  | .comment | .blank => true
  | _ => false

/-- The token that an operator is read from. -/
def ofOperator : Operator → Token
  | .plus => .symbol .plus
  | .minus => .symbol .minus
  | .times => .symbol .star
  | .div => .symbol .slash
  | .intDiv => .keyword .div

theorem operator?_eq_some_iff {t : Token} {op : Operator} : t.operator? = some op ↔ t = ofOperator op := by
  constructor
  · intro h; cases op <;> simp only [operator?] at h <;> split at h <;> simp_all [ofOperator]
  · rintro rfl; cases op <;> rfl

theorem sameKind_refl (t : Token) : t.sameKind t := by cases t <;> simp [sameKind]

end Token

end Pascaline
