/-
  Pascaline.Proofs.Tree.Essence — what of a tree a run does not look at.

  `Tree.essence` is a tree without what its runs do not depend on: the name of a program, the
  declarations of a block if there is nothing else among them, which of the two signs of
  division stands in an operation, and the lines of operations between two operands and of
  variables that are assigned to. The essence does what the tree does (`eval_essence`), so
  trees of one essence cannot be told apart by running them.

  The essence of an essence is the essence itself (`essence_essence`).
-/

import Pascaline.Tree.Eval

namespace Pascaline

/-- The operator with `/` for `DIV`. -/
def Operator.asDiv : Operator → Operator
  | .intDiv => .div
  | op => op

@[simp] theorem Operator.asDiv_asDiv (op : Operator) : op.asDiv.asDiv = op.asDiv := by cases op <;> rfl

theorem Operator.binary_asDiv (op : Operator) : op.asDiv.binary = op.binary := by cases op <;> rfl

namespace Tree

/-- There is nothing but declarations among the trees. -/
def Declared (ts : List Tree) : Prop := ∀ t ∈ ts, t.kind = .declaration

instance (ts : List Tree) : Decidable (Declared ts) := inferInstanceAs (Decidable (∀ t ∈ ts, t.kind = .declaration))

mutual
/-- The tree without what no run depends on. -/
def essence : Tree → Tree
  | .program _ b => .program "" (essence b)
  | .block declarations body =>
    .block (if Declared declarations then [] else essenceAll declarations) (essence body)
  | .declaration subject type => .declaration (essence subject) (essence type)
  | .compound statements => .compound (essenceAll statements)
  | .assign (.var name _) value => .assign (.var name 0) (essence value)
  | .assign target value => .assign target (essence value)
  | .binary left op right _ => .binary (essence left) op.asDiv (essence right) 0
  | .unary op operand n => .unary op (essence operand) n
  | t => t

def essenceAll : List Tree → List Tree
  | [] => []
  | t :: ts => essence t :: essenceAll ts
end

theorem essenceAll_eq (ts : List Tree) : essenceAll ts = ts.map essence := by
  induction ts with
  | nil => rfl
  | cons t ts ih => rw [essenceAll, ih, List.map_cons]

theorem kind_essence (t : Tree) : t.essence.kind = t.kind := by
  cases t with
  | assign target value => cases target <;> rfl
  | _ => rfl

theorem declared_essenceAll (ts : List Tree) : Declared (essenceAll ts) ↔ Declared ts := by
  simp [Declared, essenceAll_eq, kind_essence]

mutual
@[simp] theorem essence_essence (t : Tree) : t.essence.essence = t.essence := by
  cases t with
  | program name b => rw [essence, essence, essence_essence b]
  | block declarations body =>
    by_cases h : Declared declarations
    · simp [essence, essenceAll, h, essence_essence body]
    · have h' : ¬Declared (essenceAll declarations) := mt (declared_essenceAll declarations).1 h
      rw [essence, if_neg h, essence, if_neg h', essenceAll_essenceAll declarations, essence_essence body]
  | declaration subject type => rw [essence, essence, essence_essence subject, essence_essence type]
  | compound statements => rw [essence, essence, essenceAll_essenceAll statements]
  | assign target value => cases target <;> simp [essence, essence_essence value]
  | binary left op right n => simp [essence, essence_essence left, essence_essence right]
  | unary op operand n => rw [essence, essence, essence_essence operand]
  | _ => rfl

theorem essenceAll_essenceAll (ts : List Tree) : essenceAll (essenceAll ts) = essenceAll ts := by
  cases ts with
  | nil => rfl
  | cons t ts => rw [essenceAll, essenceAll, essence_essence t, essenceAll_essenceAll ts]
end

/-- What is left of the declarations of a block. -/
def essenceDeclared (ds : List Tree) : List Tree := if Declared ds then [] else essenceAll ds

@[simp] theorem essence_program_block (x : String) (ds : List Tree) (body : Tree) :
    essence (.program x (.block ds body)) = .program "" (.block (essenceDeclared ds) body.essence) := by
  rw [essence, essence, essenceDeclared]

theorem essenceDeclared_append (ds : List Tree) {us : List Tree} (h : Declared us) :
    essenceDeclared (essenceDeclared ds ++ us) = essenceDeclared (ds ++ us) := by
  have happend : ∀ ts, Declared (ts ++ us) ↔ Declared ts := by
    intro ts
    unfold Declared at h ⊢
    rw [List.forall_mem_append]
    exact and_iff_left h
  by_cases hd : Declared ds
  · have hus := (happend ds).2 hd
    simp [essenceDeclared, hd, hus, h]
  · have hds := mt (happend ds).1 hd
    have hes := mt ((happend _).trans (declared_essenceAll ds)).1 hd
    simp only [essenceDeclared, if_neg hd, if_neg hds, if_neg hes]
    simp [essenceAll_eq, Function.comp_def]

@[simp] theorem essenceDeclared_essenceDeclared (ds : List Tree) :
    essenceDeclared (essenceDeclared ds) = essenceDeclared ds := by
  have h := essenceDeclared_append ds (show Declared [] from nofun)
  rwa [List.append_nil, List.append_nil] at h

/-! ## Runs -/

/-- Declarations do nothing, whatever they declare. -/
theorem Declared.evalAll_eq {ts : List Tree} (h : Declared ts) : evalAll ts = return () := by
  induction ts with
  | nil => rfl
  | cons t ts ih =>
    obtain ⟨ht, hts⟩ := List.forall_mem_cons.1 h
    cases t with
    | declaration subject type =>
      rw [evalAll, ih hts]
      rfl
    | _ => cases ht

mutual
theorem eval_essence (t : Tree) : t.essence.eval = t.eval := by
  cases t with
  | program name b => rw [essence, eval, eval, eval_essence b]
  | block declarations body =>
    have hd : evalAll (if Declared declarations then [] else essenceAll declarations) = evalAll declarations := by
      by_cases h : Declared declarations
      · rw [if_pos h, h.evalAll_eq]
        rfl
      · rw [if_neg h, evalAll_essenceAll declarations]
    rw [essence, eval, eval, hd, eval_essence body]
  | compound statements => rw [essence, eval, eval, evalAll_essenceAll statements]
  | assign target value =>
    cases target with
    | var name n => rw [essence, eval, eval, eval_essence value]
    | _ => rfl
  | binary left op right n => rw [essence, eval, eval, eval_essence left, eval_essence right, op.binary_asDiv]
  | unary op operand n => rw [essence, eval, eval, eval_essence operand]
  | _ => rfl

theorem evalAll_essenceAll (ts : List Tree) : evalAll (essenceAll ts) = evalAll ts := by
  cases ts with
  | nil => rfl
  | cons t ts => rw [essenceAll, evalAll, evalAll, eval_essence t, evalAll_essenceAll ts]
end

/-- Trees of one essence do the same. -/
theorem eval_eq_of_essence {t u : Tree} (h : t.essence = u.essence) : t.eval = u.eval := by
  rw [← t.eval_essence, h, u.eval_essence]

end Tree

end Pascaline
