/-
  Pascaline.Tree.Eval — running a tree.

  A run walks the tree once, left operand before right, and changes the table at each
  assignment. The first error ends it; the table then keeps what was assigned before.
  A node that is no expression has the value 0, which nothing reads.

  Declarations are not looked at: a variable has no value until it is assigned one.
-/

import Pascaline.Tree.Basic
import Pascaline.Table
import Pascaline.Error

namespace Pascaline

/-- A computation on the table that may end in an error and keeps the table then too. -/
abbrev Eval := ExceptT EvalError (StateM Table)

namespace Eval

/-- The value of a variable that is read on the line. -/
def lookup (name : String) (line : Nat) : Eval Float := do
  match (← get)[name]? with
  | some v => return v
  | none => throw (.undefinedVariable name line)

def assign (name : String) (v : Float) : Eval Unit := modify fun table => table.insert name v

/-- The operator of the line before one operand. -/
def unary (op : Operator) (v : Float) (line : Nat) : Eval Float :=
  match op.unary? v with
  | some w => return w
  | none => throw (.unknownOperator op line)

/-- The outcome of a computation and the table it leaves. -/
def on {α : Type} (e : Eval α) (table : Table) : Except EvalError α × Table := (ExceptT.run e).run table

variable {α β : Type} (table : Table)

@[simp] theorem on_pure (a : α) : (pure a : Eval α).on table = (.ok a, table) := rfl

/-- The second computation starts from the table that the first one leaves, unless the
    first one ends in an error. -/
theorem on_bind (x : Eval α) (f : α → Eval β) :
    (x >>= f).on table =
      match x.on table with
      | (.ok a, table) => (f a).on table
      | (.error e, table) => (.error e, table) := by
  show (ExceptT.bindCont f (x.on table).1).run (x.on table).2 = _
  rcases x.on table with ⟨_ | _, _⟩ <;> rfl

theorem on_lookup (name : String) (line : Nat) :
    (lookup name line).on table =
      match table[name]? with
      | some v => (.ok v, table)
      | none => (.error (.undefinedVariable name line), table) := by
  show (match table[name]? with | some v => pure v | none => throw _ : Eval Float).on table = _
  cases table[name]? <;> rfl

@[simp] theorem on_assign (name : String) (v : Float) :
    (assign name v).on table = (.ok (), table.insert name v) := rfl

theorem on_unary (op : Operator) (v : Float) (line : Nat) :
    (unary op v line).on table =
      match op.unary? v with
      | some w => (.ok w, table)
      | none => (.error (.unknownOperator op line), table) := by
  unfold unary
  cases op.unary? v <;> rfl

end Eval

namespace Tree

mutual
def eval : Tree → Eval Float
  | .program _ b => do
    let _ ← eval b
    return 0
  | .block declarations body => do
    evalAll declarations
    let _ ← eval body
    return 0
  | .declaration .. | .typeName _ | .empty => return 0
  | .compound statements => do
    evalAll statements
    return 0
  | .assign (.var name _) value => do
    let v ← eval value
    Eval.assign name v
    return 0
  | .assign target _ => throw (.notAssignable target.label)
  | .binary left op right _ => do
    let a ← eval left
    let b ← eval right
    return op.binary a b
  | .unary op operand n => do
    let a ← eval operand
    Eval.unary op a n
  | .number v => return v
  | .var name n => Eval.lookup name n

def evalAll : List Tree → Eval Unit
  | [] => return ()
  | t :: ts => do
    let _ ← eval t
    evalAll ts
end

end Tree

end Pascaline
