/-
  Pascaline.Error — what can be wrong with a program, and how it is said.

  A text can hold a stray character, tokens can be out of place, and a run can fail; an
  error is the cause with the line it stands on. What the grammar would have taken instead
  of a token out of place is an `Expectation`, and `Expectation.admits` lists the tokens
  that its wording names.
-/

import Pascaline.Token.Basic

namespace Pascaline

/-- A character that no token starts with; `position` counts the bytes before it. -/
structure StrayCharacter where
  character : Char
  position : Nat
  line : Nat
  deriving DecidableEq, Repr

/-- What the grammar has room for where a token is out of place. -/
inductive Expectation where
  | keyword (word : Keyword)
  | symbol (sign : Symbol)
  | name
  | typeName
  | operand
  deriving DecidableEq, Repr

namespace Expectation

def describe : Expectation → String
  | .keyword k => (Token.keyword k).describe
  | .symbol s => (Token.symbol s).describe
  | .name => (Token.name "").describe
  | .typeName => "type 'INTEGER' or 'REAL'"
  | .operand => "number, identifier, '(', '+' or '-'"

/-- Is the token one of those that the wording names? -/
def admits : Expectation → Token → Bool
  | .keyword k, .keyword l => k = l
  | .symbol s, .symbol r => s = r
  | .name, .name _ => true
  | .typeName, .keyword .integer | .typeName, .keyword .real => true
  | .operand, .integer _ | .operand, .real _ | .operand, .name _ => true
  | .operand, .symbol .openParen | .operand, .symbol .plus | .operand, .symbol .minus => true
  | _, _ => false

end Expectation

/-- A token out of place: other than what is due, the start of a statement that no `;`
    sets off, or anything after the end of the program. -/
inductive GrammarError where
  | unexpected (expected : Expectation) (found : Token) (line : Nat)
  | missingSeparator (found : Token) (line : Nat)
  | trailing (found : Token) (line : Nat)
  deriving DecidableEq

namespace GrammarError

def found : GrammarError → Token
  | .unexpected _ t _ | .missingSeparator t _ | .trailing t _ => t

def line : GrammarError → Nat
  | .unexpected _ _ n | .missingSeparator _ n | .trailing _ n => n

end GrammarError

/-- A variable read before any assignment to it, an operator that cannot stand before an
    operand, or an assignment to something that is not a variable. -/
inductive EvalError where
  | undefinedVariable (name : String) (line : Nat)
  | unknownOperator (operator : Operator) (line : Nat)
  | notAssignable (label : String)
  deriving DecidableEq, Repr

inductive Error where
  | stray (error : StrayCharacter)
  | grammar (error : GrammarError)
  | eval (error : EvalError)
  deriving DecidableEq

/-! ## Messages -/

/-- A message that belongs to a line. -/
def onLine (line : Nat) (message : String) : String := "Error on line " ++ line.repr ++ ": " ++ message

def StrayCharacter.message (e : StrayCharacter) : String :=
  onLine e.line ("Unrecognized character '" ++ e.character.toString ++ "' at position " ++ e.position.repr ++ ".")

def GrammarError.message : GrammarError → String
  | .unexpected e t n => onLine n ("Expected " ++ e.describe ++ ", found " ++ t.describe ++ ".")
  | .missingSeparator t n => onLine n ("Missing ';' before " ++ t.describe ++ ".")
  | .trailing t n => onLine n ("Extra tokens after the end of the program: " ++ t.describe ++ ".")

def EvalError.message : EvalError → String
  | .undefinedVariable x n => onLine n ("Undefined variable '" ++ x ++ "'.")
  | .unknownOperator op n => onLine n ("Unknown operator '" ++ op.symbol ++ "'.")
  | .notAssignable label => "Cannot assign to '" ++ label ++ "': not a variable."

def Error.message : Error → String
  | .stray e => e.message
  | .grammar e => e.message
  | .eval e => e.message

end Pascaline
