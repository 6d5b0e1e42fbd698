/-
  Pascaline.Proofs.Tree.Nest — lists within lists, and empty statements.

  A list of statements runs them one after the other, so it makes no difference whether some
  of them stand in a list of their own, and an empty statement does nothing. `Unnests` takes
  one such list apart, or leaves one empty statement out, at any depth; the tree keeps its
  kind and its label, which messages show, and what it does (`Unnests.eval_eq`).

  So a program does what the list of its assignments does, from the first to the last
  (`IsProgram.eval_eq_assignments`).
-/

import Pascaline.Proofs.Tree.Independent

namespace Pascaline

namespace Tree

/-- Somewhere in the tree the statements of a list within a list have taken its place, or an
    empty tree has been left out of a list. -/
inductive Unnests : Tree → Tree → Prop
  | splice (us ss vs : List Tree) : Unnests (.compound (us ++ .compound ss :: vs)) (.compound (us ++ ss ++ vs))
  | drop (us vs : List Tree) : Unnests (.compound (us ++ .empty :: vs)) (.compound (us ++ vs))
  | dropDeclaration (us vs : List Tree) (body : Tree) :
      Unnests (.block (us ++ .empty :: vs) body) (.block (us ++ vs) body)
  | program {b b' : Tree} (h : Unnests b b') (name : String) : Unnests (.program name b) (.program name b')
  | blockDeclaration {t t' : Tree} (h : Unnests t t') (us vs : List Tree) (body : Tree) :
      Unnests (.block (us ++ t :: vs) body) (.block (us ++ t' :: vs) body)
  | blockBody {body body' : Tree} (h : Unnests body body') (declarations : List Tree) :
      Unnests (.block declarations body) (.block declarations body')
  | subject {x x' : Tree} (h : Unnests x x') (type : Tree) : Unnests (.declaration x type) (.declaration x' type)
  | type {t t' : Tree} (h : Unnests t t') (subject : Tree) : Unnests (.declaration subject t) (.declaration subject t')
  | statement {t t' : Tree} (h : Unnests t t') (us vs : List Tree) :
      Unnests (.compound (us ++ t :: vs)) (.compound (us ++ t' :: vs))
  | target {x x' : Tree} (h : Unnests x x') (value : Tree) : Unnests (.assign x value) (.assign x' value)
  | value {v v' : Tree} (h : Unnests v v') (target : Tree) : Unnests (.assign target v) (.assign target v')
  | left {a a' : Tree} (h : Unnests a a') (op : Operator) (b : Tree) (n : Nat) :
      Unnests (.binary a op b n) (.binary a' op b n)
  | right {b b' : Tree} (h : Unnests b b') (a : Tree) (op : Operator) (n : Nat) :
      Unnests (.binary a op b n) (.binary a op b' n)
  | operand {a a' : Tree} (h : Unnests a a') (op : Operator) (n : Nat) : Unnests (.unary op a n) (.unary op a' n)

namespace Unnests

variable {t u : Tree}

theorem label_eq (h : Unnests t u) : t.label = u.label := by cases h <;> rfl

theorem kind_ne_var (h : Unnests t u) : t.kind ≠ .var ∧ u.kind ≠ .var := by cases h <;> exact ⟨nofun, nofun⟩

end Unnests

/-- What is no variable is not assigned to. -/
theorem eval_assign_of_ne_var {target : Tree} (h : target.kind ≠ .var) (value : Tree) :
    (assign target value).eval = throw (.notAssignable target.label) := by
  cases target with
  | var name n => exact absurd rfl h
  | _ => rw [eval]; exact nofun

theorem eval_assign_congr {v v' : Tree} (h : v.eval = v'.eval) (target : Tree) :
    (assign target v).eval = (assign target v').eval := by
  by_cases hvar : target.kind = .var
  · cases target with
    | var name n => rw [eval, eval, h]
    | _ => cases hvar
  · rw [eval_assign_of_ne_var hvar, eval_assign_of_ne_var hvar]

theorem evalAll_congr {t t' : Tree} (h : t.eval = t'.eval) (us vs : List Tree) :
    evalAll (us ++ t :: vs) = evalAll (us ++ t' :: vs) := by
  rw [evalAll_append, evalAll_append, evalAll, evalAll, h]

/-- An empty tree in a list does nothing. -/
theorem evalAll_drop (us vs : List Tree) : evalAll (us ++ .empty :: vs) = evalAll (us ++ vs) := by
  rw [evalAll_append, evalAll_append, evalAll, eval]
  simp

/-- The trees of a list within a list run one after the other. -/
theorem evalAll_splice (us ss vs : List Tree) : evalAll (us ++ .compound ss :: vs) = evalAll (us ++ ss ++ vs) := by
  rw [List.append_assoc, evalAll_append, evalAll_append, evalAll_append, evalAll, eval]
  simp

theorem Unnests.eval_eq {t u : Tree} (h : Unnests t u) : t.eval = u.eval := by
  induction h with
  | splice us ss vs => rw [eval, eval, evalAll_splice]
  | drop us vs => rw [eval, eval, evalAll_drop]
  | dropDeclaration us vs body => rw [eval, eval, evalAll_drop]
  | program h name ih => rw [eval, eval, ih]
  | blockDeclaration h us vs body ih => rw [eval, eval, evalAll_congr ih]
  | blockBody h declarations ih => rw [eval, eval, ih]
  | subject h type ih => rfl
  | type h subject ih => rfl
  | statement h us vs ih => rw [eval, eval, evalAll_congr ih]
  | target h value ih =>
    rw [eval_assign_of_ne_var h.kind_ne_var.1, eval_assign_of_ne_var h.kind_ne_var.2, h.label_eq]
  | value h target ih => exact eval_assign_congr ih target
  | left h op b n ih => rw [eval, eval, ih]
  | right h a op n ih => rw [eval, eval, ih]
  | operand h op n ih => rw [eval, eval, ih]

/-- However many lists are taken apart, the tree does the same. -/
theorem eval_eq_of_unnests {t u : Tree} (h : Relation.ReflTransGen Unnests t u) : t.eval = u.eval := by
  induction h with
  | refl => rfl
  | tail _ hstep ih => exact ih.trans hstep.eval_eq

/-! ## The assignments of a program -/

/-- The assignments in source order, however deep they stand. -/
def assignments (t : Tree) : List Tree := t.nodes.filter (·.kind = .assign)

theorem assignments_eq (t : Tree) :
    t.assignments = (if t.kind = .assign then [t] else []) ++ t.children.flatMap assignments := by
  rw [assignments, nodes_eq, List.filter_cons, List.filter_flatMap]
  by_cases h : t.kind = .assign
  · simp only [h, decide_true, if_true]
    rfl
  · simp only [h, decide_false, if_false]
    rfl

theorem IsExpression.assignments_eq_nil {t : Tree} (h : t.IsExpression) : t.assignments = [] := by
  induction h with
  | number v => rfl
  | var h => cases h; rfl
  | binary op n hl hr ihl ihr => simp [assignments_eq (.binary _ _ _ _), kind, children, ihl, ihr]
  | unary n hop h ih => simp [assignments_eq (.unary _ _ _), kind, children, ih]

theorem IsDeclaration.assignments_eq_nil {t : Tree} (h : t.IsDeclaration) : t.assignments = [] := by
  obtain ⟨⟨-, n⟩, type⟩ := h
  rfl

theorem evalAll_flatMap_assignments {ss : List Tree}
    (h : ∀ s ∈ ss, evalAll s.assignments = do let _ ← s.eval; return ()) :
    evalAll (ss.flatMap assignments) = evalAll ss := by
  induction ss with
  | nil => rfl
  | cons s ss ih =>
    obtain ⟨hs, hss⟩ := List.forall_mem_cons.1 h
    rw [List.flatMap_cons, evalAll_append, hs, ih hss, evalAll]
    simp

theorem IsStatement.evalAll_assignments {t : Tree} (h : t.IsStatement) :
    evalAll t.assignments = do let _ ← t.eval; return () := by
  induction h with
  | @compound ss hne h ih =>
    have hlist : (Tree.compound ss).assignments = ss.flatMap assignments := assignments_eq (.compound ss)
    rw [hlist, evalAll_flatMap_assignments ih, eval]
    simp
  | @assign target value ht hv =>
    have hself : (Tree.assign target value).assignments = [Tree.assign target value] := by
      obtain ⟨-, n⟩ := ht
      simp [assignments_eq (.assign _ _), kind, children, hv.assignments_eq_nil, assignments_eq (.var _ n)]
    rw [hself, evalAll, evalAll]
  | empty => rfl

/-- A program does what the list of its assignments does. -/
theorem IsProgram.eval_eq_assignments {t : Tree} (h : t.IsProgram) : t.eval = (compound t.assignments).eval := by
  obtain ⟨-, hd, hb⟩ := h
  rename_i name ds ss
  have hnil : ds.flatMap assignments = [] := List.flatMap_eq_nil_iff.2 fun d hd' => (hd d hd').assignments_eq_nil
  have hassignments : (program name (.block ds (.compound ss))).assignments = (compound ss).assignments := by
    rw [assignments_eq, children, List.flatMap_singleton, assignments_eq (.block _ _), children, List.flatMap_append,
      hnil]
    simp [kind]
  have hbody : (compound (compound ss).assignments).eval = (compound ss).eval := by
    rw [eval, hb.evalAll_assignments, eval]
    simp
  rw [hassignments, hbody, eval, eval, IsDeclaration.evalAll_eq hd, eval]
  simp

/-- If the first tree succeeds, the list of the two does from its table what the second one
    does from the table that the first one leaves. -/
theorem eval_pair {t u : Tree} {table between : Table} {v : Float} (h : t.eval.on table = (.ok v, between)) :
    (compound [t, u]).eval.on table = ((u.eval.on between).1.map fun _ => 0, (u.eval.on between).2) := by
  simp only [eval, evalAll, Eval.on_bind, h]
  rcases u.eval.on between with ⟨e | w, final⟩ <;> rfl

end Tree

end Pascaline
