/-
  Pascaline.Proofs.Tree.Lines — trees on other lines.

  A tree can be moved to other lines (`Tree.mapLines`), and two trees are the same up to
  their lines if they are the same on one line (`Tree.EqUpToLines`). A run looks at no line:
  the tree on other lines has the same outcome and leaves the same table, and an error names
  the line to which the node that failed has been moved (`eval_moves`).
-/

import Pascaline.Tree.Eval

namespace Pascaline

namespace Tree

mutual
/-- The tree with each of its lines replaced by its image. -/
def mapLines (f : Nat → Nat) : Tree → Tree
  | .program name b => .program name (mapLines f b)
  | .block declarations body => .block (mapLinesAll f declarations) (mapLines f body)
  | .declaration subject type => .declaration (mapLines f subject) (mapLines f type)
  | .typeName t => .typeName t
  | .compound statements => .compound (mapLinesAll f statements)
  | .assign target value => .assign (mapLines f target) (mapLines f value)
  | .binary left op right n => .binary (mapLines f left) op (mapLines f right) (f n)
  | .unary op operand n => .unary op (mapLines f operand) (f n)
  | .number v => .number v
  | .var name n => .var name (f n)
  | .empty => .empty

def mapLinesAll (f : Nat → Nat) : List Tree → List Tree
  | [] => []
  | t :: ts => mapLines f t :: mapLinesAll f ts
end

/-- The trees differ at most in their lines. -/
def EqUpToLines (t u : Tree) : Prop := t.mapLines (fun _ => 0) = u.mapLines (fun _ => 0)

mutual
theorem mapLines_mapLines (f g : Nat → Nat) (t : Tree) : (t.mapLines f).mapLines g = t.mapLines (g ∘ f) := by
  cases t with
  | program name b => simp only [mapLines, mapLines_mapLines f g b]
  | block declarations body =>
    simp only [mapLines, mapLinesAll_mapLinesAll f g declarations, mapLines_mapLines f g body]
  | declaration subject type =>
    simp only [mapLines, mapLines_mapLines f g subject, mapLines_mapLines f g type]
  | compound statements => simp only [mapLines, mapLinesAll_mapLinesAll f g statements]
  | assign target value => simp only [mapLines, mapLines_mapLines f g target, mapLines_mapLines f g value]
  | binary left op right n =>
    simp only [mapLines, mapLines_mapLines f g left, mapLines_mapLines f g right, Function.comp]
  | unary op operand n => simp only [mapLines, mapLines_mapLines f g operand, Function.comp]
  | _ => rfl

theorem mapLinesAll_mapLinesAll (f g : Nat → Nat) (ts : List Tree) :
    mapLinesAll g (mapLinesAll f ts) = mapLinesAll (g ∘ f) ts := by
  cases ts with
  | nil => rfl
  | cons t ts => simp only [mapLinesAll, mapLines_mapLines f g t, mapLinesAll_mapLinesAll f g ts]
end

/-- However a tree is moved, it stays the same up to its lines. -/
theorem eqUpToLines_mapLines (f g : Nat → Nat) (t : Tree) : (t.mapLines f).EqUpToLines (t.mapLines g) := by
  simp only [EqUpToLines, mapLines_mapLines]
  rfl

end Tree

/-! ## Runs -/

def EvalError.mapLines (f : Nat → Nat) : EvalError → EvalError
  | .undefinedVariable x n => .undefinedVariable x (f n)
  | .unknownOperator op n => .unknownOperator op (f n)
  | .notAssignable label => .notAssignable label

/-- From every table the second computation does what the first one does, on other lines. -/
def Moves {α : Type} (f : Nat → Nat) (x y : Eval α) : Prop :=
  ∀ table, y.on table = ((x.on table).1.mapError (.mapLines f), (x.on table).2)

namespace Moves

variable {α β : Type} {f : Nat → Nat}

theorem pure (a : α) : Moves f (Pure.pure a : Eval α) (Pure.pure a) := fun _ => rfl

theorem bind {x y : Eval α} {k l : α → Eval β} (hx : Moves f x y) (hk : ∀ a, Moves f (k a) (l a)) :
    Moves f (x >>= k) (y >>= l) := by
  intro table
  rw [Eval.on_bind, Eval.on_bind, hx table]
  rcases x.on table with ⟨err | a, table'⟩
  · rfl
  · exact hk a table'

theorem throw (err : EvalError) : Moves f (throw err : Eval α) (throw (err.mapLines f)) := fun _ => rfl

theorem lookup (name : String) (n : Nat) : Moves f (Eval.lookup name n) (Eval.lookup name (f n)) := by
  intro table
  rw [Eval.on_lookup, Eval.on_lookup]
  cases table[name]? <;> rfl

theorem assign (name : String) (v : Float) : Moves f (Eval.assign name v) (Eval.assign name v) := fun _ => rfl

theorem unary (op : Operator) (v : Float) (n : Nat) : Moves f (Eval.unary op v n) (Eval.unary op v (f n)) := by
  intro table
  rw [Eval.on_unary, Eval.on_unary]
  cases op.unary? v <;> rfl

end Moves

namespace Tree

mutual
theorem eval_moves (f : Nat → Nat) (t : Tree) : Moves f t.eval (t.mapLines f).eval := by
  cases t with
  | program name b => exact (eval_moves f b).bind fun _ => .pure 0
  | block declarations body =>
    exact (evalAll_moves f declarations).bind fun _ => (eval_moves f body).bind fun _ => .pure 0
  | declaration subject type => exact .pure 0
  | typeName type => exact .pure 0
  | compound statements => exact (evalAll_moves f statements).bind fun _ => .pure 0
  | assign target value =>
    cases target with
    | var name n => exact (eval_moves f value).bind fun v => (Moves.assign name v).bind fun _ => .pure 0
    | _ => exact .throw (.notAssignable _)
  | binary left op right n => exact (eval_moves f left).bind fun _ => (eval_moves f right).bind fun _ => .pure _
  | unary op operand n => exact (eval_moves f operand).bind fun v => .unary op v n
  | number v => exact .pure v
  | var name n => exact .lookup name n
  | empty => exact .pure 0

theorem evalAll_moves (f : Nat → Nat) (ts : List Tree) : Moves f (evalAll ts) (evalAll (mapLinesAll f ts)) := by
  cases ts with
  | nil => exact .pure ()
  | cons t ts => exact (eval_moves f t).bind fun _ => evalAll_moves f ts
end

end Tree

end Pascaline
