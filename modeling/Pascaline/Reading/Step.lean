/-
  Pascaline.Reading.Step — what one token does to a reading.

  `accept?` takes the token where the grammar has room for it. Where it has none, `reject`
  says why not: the program was over, a `;` is missing before a statement, or another token
  was due (`due?`). The end of the input is accepted nowhere; `finish` tells whether the
  program is complete there.
-/

import Pascaline.Reading.Basic
import Pascaline.Error

namespace Pascaline

namespace Body

/-- Ends the innermost statement list. -/
def close (b : Body) : Reading :=
  let compound := Tree.compound b.inner.toList
  match b.outer with
  | [] => .closing b.heading compound
  | list :: outer => .separator { b with inner := list.push compound, outer }

/-- The token after a statement. -/
def accept? (b : Body) : Token → Option Reading
  | .symbol .semicolon => some (.statement b)
  | .keyword .endBody => some b.close
  | _ => none

end Body

namespace Assignment

/-- The reading after a factor. -/
def supply (a : Assignment) (level : Level) (factor : Tree) : Reading := .operator a level.sum (level.term factor)

/-- The token where a factor is due. -/
def operand? (a : Assignment) (level : Level) (line : Nat) : Token → Option Reading
  | .integer v | .real v => some (a.supply level (.number v))
  | .name s => some (a.supply level (.var s line))
  | .symbol .plus => some (.operand a { level with signs := (.plus, line) :: level.signs })
  | .symbol .minus => some (.operand a { level with signs := (.minus, line) :: level.signs })
  | .symbol .openParen => some (.operand { a with outer := level :: a.outer } .start)
  | _ => none

/-- The token after a term: an operator, or one that ends the expression. -/
def operator? (a : Assignment) (sum : Option Pending) (term : Tree) (line : Nat) (t : Token) : Option Reading :=
  match t.operator? with
  | some op =>
    match op with
    | .plus | .minus => some (.operand a ⟨some ⟨Pending.complete sum term, op, line⟩, none, []⟩)
    | .times | .intDiv | .div => some (.operand a ⟨sum, some ⟨term, op, line⟩, []⟩)
  | none =>
    let value := Pending.complete sum term
    match a.outer with
    | [] => (a.close value).accept? t
    | level :: outer => if t = .symbol .closeParen then some ({ a with outer }.supply level value) else none

end Assignment

namespace Reading

/-- The reading after a token on the line, if the grammar has room for it. -/
def accept? : Reading → Token → Nat → Option Reading
  | .opening, .keyword .program, _ => some .title
  | .title, .name s, _ => some (.titleEnd s)
  | .titleEnd s, .symbol .semicolon, _ => some (.sections ⟨s, #[]⟩)
  | .sections h, .keyword .var, _ => some (.declaring h #[])
  | .sections h, .keyword .beginBody, _ => some (.statement (.ofHeading h))
  | .declaring h group, .name s, n => some (.declared h (group.push ⟨s, n⟩))
  | .declared h group, .symbol .comma, _ => some (.declaring h group)
  | .declared h group, .symbol .colon, _ => some (.typing h group)
  | .typing h group, .keyword .integer, _ => some (.groupEnd (h.declare group .integer))
  | .typing h group, .keyword .real, _ => some (.groupEnd (h.declare group .real))
  | .groupEnd h, .symbol .semicolon, _ => some (.nextGroup h)
  | .nextGroup h, .name s, n => some (.declared h #[⟨s, n⟩])
  | .nextGroup h, .keyword .beginBody, _ => some (.statement (.ofHeading h))
  | .statement b, .keyword .beginBody, _ => some (.statement b.nest)
  | .statement b, .name s, n => some (.assigning b ⟨s, n⟩)
  | .statement b, t, _ => (b.add .empty).accept? t
  | .assigning b target, .symbol .assign, _ => some (.operand ⟨b, target, []⟩ .start)
  | .operand a level, t, n => a.operand? level n t
  | .operator a sum term, t, n => a.operator? sum term n t
  | .separator b, t, _ => b.accept? t
  | .closing h body, .symbol .dot, _ => some (.complete (.program h.program (.block h.declared.toList body)))
  | _, _, _ => none

/-- What messages name as due; nothing is after a complete program. -/
def due? : Reading → Option Expectation
  | .opening => some (.keyword .program)
  | .title | .declaring .. => some .name
  | .titleEnd _ | .groupEnd _ => some (.symbol .semicolon)
  | .sections _ | .nextGroup _ => some (.keyword .beginBody)
  | .declared .. => some (.symbol .colon)
  | .typing .. => some .typeName
  | .statement _ | .separator _ => some (.keyword .endBody)
  | .assigning .. => some (.symbol .assign)
  | .operand .. => some .operand
  | .operator a _ _ => some (if a.outer.isEmpty then .keyword .endBody else .symbol .closeParen)
  | .closing .. => some (.symbol .dot)
  | .complete _ => none

/-- Could a semicolon and another statement follow? -/
def endsStatement : Reading → Bool
  | .separator _ => true
  | .operator a _ _ => a.outer.isEmpty
  | _ => false

/-- Why a token on the line is out of place. -/
def reject (r : Reading) (t : Token) (line : Nat) : GrammarError :=
  match r.due?, t with
  | none, _ => .trailing t line
  | some e, .name _ => if r.endsStatement then .missingSeparator t line else .unexpected e t line
  | some e, _ => .unexpected e t line

/-- The program, if the input may end here. -/
def finish : Reading → Nat → Except GrammarError Tree
  | .complete program, _ => .ok program
  | r, line => .error (r.reject .endOfInput line)

/-! ## Laws -/

theorem accept?_endOfInput (r : Reading) (line : Nat) : r.accept? .endOfInput line = none := by
  cases r <;> try rfl
  rename_i a sum term
  rcases a with ⟨b, x, _ | ⟨l, ls⟩⟩ <;> rfl

theorem reject_found (r : Reading) (t : Token) (line : Nat) : (r.reject t line).found = t := by
  unfold reject; split
  · rfl
  · split <;> rfl
  · rfl

theorem reject_line (r : Reading) (t : Token) (line : Nat) : (r.reject t line).line = line := by
  unfold reject; split
  · rfl
  · split <;> rfl
  · rfl

theorem due?_eq_none_iff {r : Reading} : r.due? = none ↔ ∃ program, r = .complete program := by
  cases r <;> simp [due?]

end Reading

end Pascaline
