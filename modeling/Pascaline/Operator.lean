/-
  Pascaline.Operator — the five arithmetic operators and what they do to doubles.

  `DIV` and `/` are two spellings that a tree keeps apart, with one meaning: division of
  doubles (`intDiv_binary`). Only `+` and `-` may stand before a single operand.
-/

namespace Pascaline

inductive Operator where
  | plus
  | minus
  | times
  | intDiv
  | div
  deriving DecidableEq, Repr

namespace Operator

def symbol : Operator → String
  | .plus => "+"
  | .minus => "-"
  | .times => "*"
  | .intDiv => "DIV"
  | .div => "/"

/-- The operator between two operands; a division by zero is infinite or not a number. -/
def binary : Operator → Float → Float → Float
  | .plus, a, b => a + b
  | .minus, a, b => a - b
  | .times, a, b => a * b
  | .intDiv, a, b | .div, a, b => a / b

/-- The operator before one operand: `+` keeps it, `-` negates it, no other may stand there. -/
def unary? : Operator → Float → Option Float
  | .plus, a => some a
  | .minus, a => some (-a)
  | _, _ => none

theorem unary?_isSome_iff {op : Operator} {a : Float} : (op.unary? a).isSome ↔ op = .plus ∨ op = .minus := by
  cases op <;> simp [unary?]

end Operator

end Pascaline
