/-
  Pascaline.Tree.Labelled — trees of labels.

  What a drawing shows of a tree: the label of each node over those of its children, in
  order (`labelled_eq`).
-/

import Pascaline.Tree.Basic

namespace Pascaline

inductive Labelled where
  | node (label : String) (children : List Labelled)

namespace Tree

mutual
def labelled : Tree → Labelled
  | .program name b => .node (label (.program name b)) [labelled b]
  | .block declarations body =>
    .node (label (.block declarations body)) (labelledAll declarations ++ [labelled body])
  | .declaration subject type => .node (label (.declaration subject type)) [labelled subject, labelled type]
  | .typeName t => .node (label (.typeName t)) []
  | .compound statements => .node (label (.compound statements)) (labelledAll statements)
  | .assign target value => .node (label (.assign target value)) [labelled target, labelled value]
  | .binary left op right n => .node (label (.binary left op right n)) [labelled left, labelled right]
  | .unary op operand n => .node (label (.unary op operand n)) [labelled operand]
  | .number v => .node (label (.number v)) []
  | .var name n => .node (label (.var name n)) []
  | .empty => .node (label .empty) []

def labelledAll : List Tree → List Labelled
  | [] => []
  | t :: ts => labelled t :: labelledAll ts
end

theorem labelledAll_eq (ts : List Tree) : labelledAll ts = ts.map labelled := by
  induction ts with
  | nil => rfl
  | cons t ts ih => simp only [labelledAll, ih, List.map_cons]

theorem labelled_eq (t : Tree) : t.labelled = .node t.label (t.children.map labelled) := by
  cases t <;> simp [labelled, children, labelledAll_eq]

end Tree

end Pascaline
