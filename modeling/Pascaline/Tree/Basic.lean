/-
  Pascaline.Tree.Basic — programs as trees.

  A tree is a program, one of its parts, or any other nesting of the same nodes: any node
  may stand below any other, and the name of a program or a variable may be any text. Only
  the nodes at which a run can fail, operations and variables, carry a line.

  `kind`, `label` and `children` are what a reader of trees sees of a node; `outline` lists
  the nodes with their depths, a node before its children (`outline_eq`). `==` compares
  trees with their lines, and numbers as doubles.
-/

import Pascaline.Operator
import Pascaline.Decimal.Plain

namespace Pascaline

/-- The types a variable can be declared with. They say nothing about its values. -/
inductive DataType where
  | integer
  | real
  deriving DecidableEq, Repr

def DataType.spelling : DataType → String
  | .integer => "INTEGER"
  | .real => "REAL"

inductive Tree where
  | program (name : String) (block : Tree)
  | block (declarations : List Tree) (body : Tree)
  | declaration (subject type : Tree)
  | typeName (type : DataType)
  | compound (statements : List Tree)
  | assign (target value : Tree)
  | binary (left : Tree) (op : Operator) (right : Tree) (line : Nat)
  | unary (op : Operator) (operand : Tree) (line : Nat)
  | number (value : Float)
  | var (name : String) (line : Nat)
  | empty

namespace Tree

inductive Kind where
  | program
  | block
  | declaration
  | typeName
  | compound
  | assign
  | binary
  | unary
  | number
  | var
  | empty
  deriving DecidableEq, Repr

def Kind.all : List Kind :=
  [.program, .block, .declaration, .typeName, .compound, .assign, .binary, .unary, .number, .var, .empty]

theorem Kind.mem_all (k : Kind) : k ∈ Kind.all := by cases k <;> decide

def kind : Tree → Kind
  | .program .. => .program
  | .block .. => .block
  | .declaration .. => .declaration
  | .typeName _ => .typeName
  | .compound _ => .compound
  | .assign .. => .assign
  | .binary .. => .binary
  | .unary .. => .unary
  | .number _ => .number
  | .var .. => .var
  | .empty => .empty

/-- The operator, number or name of a node, or else the name of its kind. -/
def label : Tree → String
  | .program name _ => "Program\n" ++ name
  | .block .. => "Block"
  | .declaration .. => "VarDecl"
  | .typeName t => t.spelling
  | .compound _ => "Compound"
  | .assign .. => ":="
  | .binary _ op _ _ => op.symbol
  | .unary op _ _ => op.symbol
  | .number v => plain v
  | .var name _ => name
  | .empty => "NoOp"

/-- The nodes right below a node, in source order. -/
def children : Tree → List Tree
  | .program _ b => [b]
  | .block declarations body => declarations ++ [body]
  | .declaration subject type => [subject, type]
  | .compound statements => statements
  | .assign target value => [target, value]
  | .binary left _ right _ => [left, right]
  | .unary _ operand _ => [operand]
  | .typeName _ | .number _ | .var .. | .empty => []

def line? : Tree → Option Nat
  | .binary _ _ _ n | .unary _ _ n | .var _ n => some n
  | _ => none

mutual
/-- The nodes of a tree with their depths, counted from `depth`, a node before those below it. -/
def outline (depth : Nat) : Tree → List (Nat × Tree)
  | .program name b => (depth, .program name b) :: outline (depth + 1) b
  | .block declarations body =>
    (depth, .block declarations body) :: (outlineAll (depth + 1) declarations ++ outline (depth + 1) body)
  | .declaration subject type =>
    (depth, .declaration subject type) :: (outline (depth + 1) subject ++ outline (depth + 1) type)
  | .typeName t => [(depth, .typeName t)]
  | .compound statements => (depth, .compound statements) :: outlineAll (depth + 1) statements
  | .assign target value => (depth, .assign target value) :: (outline (depth + 1) target ++ outline (depth + 1) value)
  | .binary left op right n =>
    (depth, .binary left op right n) :: (outline (depth + 1) left ++ outline (depth + 1) right)
  | .unary op operand n => (depth, .unary op operand n) :: outline (depth + 1) operand
  | .number v => [(depth, .number v)]
  | .var name n => [(depth, .var name n)]
  | .empty => [(depth, .empty)]

def outlineAll (depth : Nat) : List Tree → List (Nat × Tree)
  | [] => []
  | t :: ts => outline depth t ++ outlineAll depth ts
end

mutual
def same : Tree → Tree → Bool
  | .program name b, .program name' b' => name == name' && same b b'
  | .block declarations body, .block declarations' body' => sameAll declarations declarations' && same body body'
  | .declaration subject type, .declaration subject' type' => same subject subject' && same type type'
  | .typeName t, .typeName t' => t == t'
  | .compound statements, .compound statements' => sameAll statements statements'
  | .assign target value, .assign target' value' => same target target' && same value value'
  | .binary left op right n, .binary left' op' right' n' =>
    same left left' && op == op' && same right right' && n == n'
  | .unary op operand n, .unary op' operand' n' => op == op' && same operand operand' && n == n'
  | .number v, .number v' => v == v'
  | .var name n, .var name' n' => name == name' && n == n'
  | .empty, .empty => true
  | _, _ => false

def sameAll : List Tree → List Tree → Bool
  | [], [] => true
  | t :: ts, t' :: ts' => same t t' && sameAll ts ts'
  | _, _ => false
end

instance : BEq Tree := ⟨same⟩

/-! ## Laws -/

theorem outlineAll_eq (depth : Nat) (ts : List Tree) : outlineAll depth ts = ts.flatMap (outline depth) := by
  induction ts with
  | nil => rfl
  | cons t ts ih => simp only [outlineAll, ih, List.flatMap_cons]

/-- The outline of a node is the node and then the outlines of its children. -/
theorem outline_eq (depth : Nat) (t : Tree) :
    outline depth t = (depth, t) :: t.children.flatMap (outline (depth + 1)) := by
  cases t <;> simp [outline, children, outlineAll_eq]

end Tree

end Pascaline
