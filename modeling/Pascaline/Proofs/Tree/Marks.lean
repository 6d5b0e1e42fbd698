/-
  Pascaline.Proofs.Tree.Marks — what of a program text is left in its tree.

  Every name, number and operator of a text, every `:=`, every BEGIN and every semicolon
  between statements leaves a mark in the tree (`Lexeme.mark?`). Read with operators between
  their operands, a tree gives back its marks in the order of the text (`Tree.marks`).

  The nodes of a tree, each before those below it, have the same marks in another order
  (`perm_marks`); the order of names and of numbers is the same, because they have nothing
  below them (`filter_isLeaf_marks`).
-/

import Mathlib.Algebra.GroupWithZero.Nat
import Mathlib.Data.List.Perm.Basic
import Pascaline.Proofs.Grammar.Phrase

namespace Pascaline

inductive Mark where
  | name (x : Name)
  | number (value : Float)
  | operator (op : Operator) (line : Nat)
  | assign
  | list
  | separator
  deriving DecidableEq

/-- The mark that a token leaves in the tree. -/
def Lexeme.mark? (l : Lexeme) : Option Mark :=
  match l.token with
  | .name s => some (.name ⟨s, l.line⟩)
  | .integer v | .real v => some (.number v)
  | .symbol .assign => some .assign
  | .symbol .semicolon => some .separator
  | .keyword .beginBody => some .list
  | t => t.operator?.map fun op => .operator op l.line

namespace Mark

def name? : Mark → Option Name
  | .name x => some x
  | _ => none

def value? : Mark → Option Float
  | .number v => some v
  | _ => none

def operator? : Mark → Option (Operator × Nat)
  | .operator op n => some (op, n)
  | _ => none

/-- Names and numbers are left by nodes with nothing below them. -/
def isLeaf : Mark → Bool
  | .name _ | .number _ => true
  | _ => false

end Mark

namespace Tree

/-! ## Nodes -/

theorem sizeOf_lt_of_mem_children {c t : Tree} (h : c ∈ t.children) : sizeOf c < sizeOf t := by
  cases t with
  | block declarations body =>
    rcases List.mem_append.1 h with h | h
    · have := List.sizeOf_lt_of_mem h
      simp only [block.sizeOf_spec]
      omega
    · obtain rfl := List.mem_singleton.1 h
      simp only [block.sizeOf_spec]
      omega
  | compound statements =>
    have := List.sizeOf_lt_of_mem (show c ∈ statements from h)
    simp only [compound.sizeOf_spec]
    omega
  | program name b =>
    obtain rfl := List.mem_singleton.1 h
    simp only [program.sizeOf_spec]
    omega
  | unary op operand n =>
    obtain rfl := List.mem_singleton.1 h
    simp only [unary.sizeOf_spec]
    omega
  | declaration subject type =>
    simp only [declaration.sizeOf_spec]
    rcases List.mem_pair.1 h with rfl | rfl <;> omega
  | assign target value =>
    simp only [assign.sizeOf_spec]
    rcases List.mem_pair.1 h with rfl | rfl <;> omega
  | binary left op right n =>
    simp only [binary.sizeOf_spec]
    rcases List.mem_pair.1 h with rfl | rfl <;> omega
  | _ => cases h

/-- What holds of a tree if it holds of its children holds of every tree. -/
theorem children_induction {P : Tree → Prop} (step : ∀ t, (∀ c ∈ t.children, P c) → P t) (t : Tree) : P t :=
  step t fun c hc =>
    have := sizeOf_lt_of_mem_children hc
    children_induction step c
termination_by sizeOf t

/-- The nodes of a tree, each before those below it. -/
def nodes (t : Tree) : List Tree := (t.outline 0).map Prod.snd

theorem map_outline (t : Tree) (depth depth' : Nat) :
    (t.outline depth).map Prod.snd = (t.outline depth').map Prod.snd := by
  induction t using children_induction generalizing depth depth' with
  | step t ih =>
    rw [outline_eq, outline_eq depth', List.map_cons, List.map_cons, List.map_flatMap, List.map_flatMap]
    exact congrArg _ (List.flatMap_congr fun c hc => ih c hc _ _)

theorem nodes_eq (t : Tree) : t.nodes = t :: t.children.flatMap nodes := by
  rw [nodes, outline_eq, List.map_cons, List.map_flatMap]
  exact congrArg _ (List.flatMap_congr fun c _ => map_outline c 1 0)

theorem mem_nodes_of_mem_children {c t n : Tree} (hc : c ∈ t.children) (hn : n ∈ c.nodes) : n ∈ t.nodes := by
  rw [nodes_eq]
  exact List.mem_cons_of_mem _ (List.mem_flatMap.2 ⟨c, hc, hn⟩)

theorem mem_nodes_self (t : Tree) : t ∈ t.nodes := by
  rw [nodes_eq]
  exact List.mem_cons_self

/-- Below a node there are only nodes of the tree. -/
theorem nodes_subset {c t : Tree} (h : c ∈ t.nodes) : c.nodes ⊆ t.nodes := by
  induction t using children_induction with
  | step t ih =>
    rw [nodes_eq] at h
    rcases List.mem_cons.1 h with rfl | h
    · exact List.Subset.refl _
    · obtain ⟨d, hd, hc⟩ := List.mem_flatMap.1 h
      exact fun n hn => mem_nodes_of_mem_children hd (ih d hd hc hn)

/-! ## Marks -/

mutual
/-- The marks of the tokens that a tree is read from, in their order. -/
def marks : Tree → List Mark
  | .program _ b => marks b
  | .block declarations body => marksAll declarations ++ marks body
  | .declaration subject type => marks subject ++ marks type
  | .typeName _ | .empty => []
  | .compound [] => [.list]
  | .compound (s :: ss) => .list :: (marks s ++ marksMore ss)
  | .assign target value => marks target ++ .assign :: marks value
  | .binary left op right n => marks left ++ .operator op n :: marks right
  | .unary op operand n => .operator op n :: marks operand
  | .number v => [.number v]
  | .var x n => [.name ⟨x, n⟩]

def marksAll : List Tree → List Mark
  | [] => []
  | t :: ts => marks t ++ marksAll ts

/-- Statements, each behind a semicolon. -/
def marksMore : List Tree → List Mark
  | [] => []
  | t :: ts => .separator :: (marks t ++ marksMore ts)
end

theorem marksAll_eq (ts : List Tree) : marksAll ts = ts.flatMap marks := by
  induction ts with
  | nil => rfl
  | cons t ts ih => rw [marksAll, ih, List.flatMap_cons]

theorem marksMore_eq (ts : List Tree) : marksMore ts = ts.flatMap fun t => .separator :: marks t := by
  induction ts with
  | nil => rfl
  | cons t ts ih => rw [marksMore, ih, List.flatMap_cons, List.cons_append]

/-- The marks of a node without those below it. -/
def ownMarks : Tree → List Mark
  | .compound ss => .list :: List.replicate (ss.length - 1) .separator
  | .assign .. => [.assign]
  | .binary _ op _ n | .unary op _ n => [.operator op n]
  | .number v => [.number v]
  | .var x n => [.name ⟨x, n⟩]
  | _ => []

theorem perm_marksMore (ts : List Tree) :
    (marksMore ts).Perm (List.replicate ts.length .separator ++ ts.flatMap marks) := by
  induction ts with
  | nil => exact .refl _
  | cons t ts ih =>
    rw [marksMore, List.length_cons, List.replicate_succ, List.flatMap_cons, List.cons_append]
    refine .cons _ ((ih.append_left t.marks).trans ?_)
    rw [← List.append_assoc, ← List.append_assoc]
    exact List.perm_append_comm.append_right _

/-- A tree has its own marks and those of its children. -/
theorem perm_children (t : Tree) : t.marks.Perm (t.ownMarks ++ t.children.flatMap marks) := by
  cases t with
  | compound ss =>
    cases ss with
    | nil => exact .refl _
    | cons s ss =>
      rw [marks, ownMarks, List.length_cons, Nat.add_sub_cancel, children, List.flatMap_cons, List.cons_append]
      refine .cons _ (((perm_marksMore ss).append_left s.marks).trans ?_)
      rw [← List.append_assoc, ← List.append_assoc]
      exact List.perm_append_comm.append_right _
  | assign target value =>
    simp only [marks, ownMarks, children, List.flatMap_cons, List.flatMap_nil, List.append_nil]
    exact List.perm_middle
  | binary left op right n =>
    simp only [marks, ownMarks, children, List.flatMap_cons, List.flatMap_nil, List.append_nil]
    exact List.perm_middle
  | _ => simp [marks, ownMarks, children, marksAll_eq]

theorem perm_marks (t : Tree) : t.marks.Perm (t.nodes.flatMap ownMarks) := by
  induction t using children_induction with
  | step t ih =>
    rw [nodes_eq, List.flatMap_cons, List.flatMap_assoc]
    exact t.perm_children.trans ((List.Perm.flatMap_left _ ih).append_left _)

/-- A tree with leaf marks of its own has no children, so these can stand in front. -/
theorem filter_isLeaf_children (t : Tree) :
    t.marks.filter Mark.isLeaf = t.ownMarks.filter Mark.isLeaf ++ (t.children.flatMap marks).filter Mark.isLeaf := by
  have hmore : ∀ ts, (marksMore ts).filter Mark.isLeaf = (ts.flatMap marks).filter Mark.isLeaf := by
    intro ts
    induction ts with
    | nil => rfl
    | cons t ts ih =>
      rw [marksMore, List.filter_cons_of_neg (by decide), List.flatMap_cons, List.filter_append, List.filter_append, ih]
  cases t with
  | compound ss => cases ss <;> simp [marks, ownMarks, children, hmore, Mark.isLeaf]
  | assign target value => simp [marks, ownMarks, children, Mark.isLeaf]
  | binary left op right n => simp [marks, ownMarks, children, Mark.isLeaf]
  | unary op operand n => simp [marks, ownMarks, children, Mark.isLeaf]
  | _ => simp [marks, ownMarks, children, marksAll_eq]

/-- Names and numbers stand in the order of the nodes. -/
theorem filter_isLeaf_marks (t : Tree) :
    t.marks.filter Mark.isLeaf = (t.nodes.flatMap ownMarks).filter Mark.isLeaf := by
  induction t using children_induction with
  | step t ih =>
    rw [nodes_eq, List.flatMap_cons, List.flatMap_assoc, List.filter_append, filter_isLeaf_children,
      List.filter_flatMap, List.filter_flatMap]
    exact congrArg _ (List.flatMap_congr ih)

/-- What of names and numbers is kept stands in the order of the nodes that have them. -/
theorem filterMap_marks {α : Type} {f : Mark → Option α} {g : Tree → Option α} (hf : ∀ m, ¬m.isLeaf → f m = none)
    (hg : ∀ t, t.ownMarks.filterMap f = (g t).toList) (t : Tree) : t.marks.filterMap f = t.nodes.filterMap g := by
  have hleaf : ∀ ms : List Mark, (ms.filter Mark.isLeaf).filterMap f = ms.filterMap f := by
    intro ms
    rw [List.filterMap_filter]
    refine List.filterMap_congr fun m _ => ?_
    split
    · rfl
    · rename_i hm
      exact (hf m hm).symm
  calc t.marks.filterMap f
      = (t.nodes.flatMap ownMarks).filterMap f := by rw [← hleaf, filter_isLeaf_marks, hleaf]
    _ = t.nodes.flatMap fun n => (g n).toList := by
      rw [List.filterMap_flatMap]
      exact List.flatMap_congr fun n _ => hg n
    _ = t.nodes.filterMap g := (List.filterMap_eq_flatMap_toList g t.nodes).symm

/-- How often a mark stands in a tree is told by the nodes of the kind that leaves it. -/
theorem count_marks {m : Mark} {kind : Kind} (hm : ∀ t : Tree, t.kind ≠ kind → t.ownMarks.count m = 0) (t : Tree) :
    t.marks.count m = ((t.nodes.filter (·.kind = kind)).map fun n => n.ownMarks.count m).sum := by
  rw [t.perm_marks.count_eq, List.count_flatMap]
  induction t.nodes with
  | nil => rfl
  | cons n ns ih =>
    by_cases h : n.kind = kind
    · rw [List.filter_cons_of_pos (by simpa using h), List.map_cons, List.map_cons, List.sum_cons, List.sum_cons, ih]
      rfl
    · rw [List.filter_cons_of_neg (by simpa using h), List.map_cons, List.sum_cons, ih]
      exact (congrArg (· + _) (hm n h)).trans (Nat.zero_add _)

/-- A mark that each node of a kind leaves once counts these nodes. -/
theorem count_marks_eq_countP {m : Mark} {kind : Kind} (hm : ∀ t : Tree, t.kind ≠ kind → t.ownMarks.count m = 0)
    (hone : ∀ t : Tree, t.kind = kind → t.ownMarks.count m = 1) (t : Tree) :
    t.marks.count m = t.nodes.countP (·.kind = kind) := by
  have hmap : (t.nodes.filter (·.kind = kind)).map (fun n => n.ownMarks.count m) =
      (t.nodes.filter (·.kind = kind)).map fun _ => 1 :=
    List.map_congr_left fun n hn => hone n (by simpa using (List.mem_filter.1 hn).2)
  rw [count_marks hm, hmap, List.map_const', List.sum_replicate_nat, Nat.mul_one, List.countP_eq_length_filter]

theorem count_assign_marks (t : Tree) : t.marks.count .assign = t.nodes.countP (·.kind = .assign) := by
  refine count_marks_eq_countP (fun t ht => ?_) (fun t ht => ?_) t
  · cases t <;> simp_all [ownMarks, kind, List.count_replicate]
  · cases t <;> simp_all [ownMarks, kind]

theorem count_list_marks (t : Tree) : t.marks.count .list = t.nodes.countP (·.kind = .compound) := by
  refine count_marks_eq_countP (fun t ht => ?_) (fun t ht => ?_) t
  · cases t <;> simp_all [ownMarks, kind]
  · cases t <;> simp_all [ownMarks, kind, List.count_replicate]

/-- There is one separator less in a list than there are statements. -/
theorem count_separator_marks (t : Tree) :
    t.marks.count .separator = ((t.nodes.filter (·.kind = .compound)).map fun n => n.children.length - 1).sum := by
  have hm : ∀ t : Tree, t.kind ≠ .compound → t.ownMarks.count .separator = 0 := by
    intro t ht
    cases t <;> simp_all [ownMarks, kind]
  rw [count_marks hm]
  refine congrArg List.sum (List.map_congr_left fun n hn => ?_)
  have hkind : n.kind = .compound := by simpa using (List.mem_filter.1 hn).2
  cases n <;> simp_all [ownMarks, kind, children]

/-! ## Operators -/

mutual
/-- The operators of a tree with their lines: one between two operands stands between them,
    one before an operand stands before it. -/
def operators : Tree → List (Operator × Nat)
  | .program _ b => operators b
  | .block declarations body => operatorsAll declarations ++ operators body
  | .declaration subject type => operators subject ++ operators type
  | .compound statements => operatorsAll statements
  | .assign target value => operators target ++ operators value
  | .binary left op right n => operators left ++ (op, n) :: operators right
  | .unary op operand n => (op, n) :: operators operand
  | .typeName _ | .number _ | .var .. | .empty => []

def operatorsAll : List Tree → List (Operator × Nat)
  | [] => []
  | t :: ts => operators t ++ operatorsAll ts
end

theorem operatorsAll_eq (ts : List Tree) : operatorsAll ts = ts.flatMap operators := by
  induction ts with
  | nil => rfl
  | cons t ts ih => rw [operatorsAll, ih, List.flatMap_cons]

theorem filterMap_operator?_marks (t : Tree) : t.marks.filterMap Mark.operator? = t.operators := by
  induction t using children_induction with
  | step t ih =>
    have hall : ∀ ts : List Tree, (∀ c ∈ ts, c.marks.filterMap Mark.operator? = c.operators) →
        (ts.flatMap marks).filterMap Mark.operator? = ts.flatMap operators := by
      intro ts hts
      rw [List.filterMap_flatMap]
      exact List.flatMap_congr hts
    cases t with
    | compound ss =>
      have hss := hall ss ih
      cases ss with
      | nil => rfl
      | cons s ss =>
        simpa [marks, operators, operatorsAll_eq, marksMore_eq, List.filterMap_flatMap, List.filterMap_cons,
          Mark.operator?] using hss
    | block declarations body =>
      have hd := hall declarations fun c hc => ih c (List.mem_append_left _ hc)
      have hb := ih body (by simp [children])
      rw [marks, operators, List.filterMap_append, marksAll_eq, hd, hb, operatorsAll_eq]
    | _ => simp_all [marks, operators, children, List.filterMap_cons, Mark.operator?]

end Tree

end Pascaline
