/-
  Pascaline.Proofs.Tree.Bindings — a program is its assignments, one after the other.

  The bindings of a tree are its assignments to variables in source order, however deep
  they stand (`Tree.bindings`). Of the tree of a program nothing else is left in a run: it
  performs the bindings from the first to the last, whatever lists they stand in and
  whatever is declared before them (`IsProgram.eval_eq`).

  A binding evaluates an expression, which leaves the table as it is
  (`IsExpression.eval_keeps`), and then writes one name. Of any tree, a run writes only names
  that a binding has (`mem_targets`).
-/

import Pascaline.Proofs.Tree.Marks
import Pascaline.Proofs.Tree.WellFormed

namespace Pascaline

/-! ## Computations that succeed, and those that write nothing -/

/-- If one computation after the other succeeds, each does. -/
theorem Eval.exists_of_bind {α β : Type} {x : Eval α} {f : α → Eval β} {table final : Table} {b : β}
    (h : (x >>= f).on table = (.ok b, final)) :
    ∃ a between, x.on table = (.ok a, between) ∧ (f a).on between = (.ok b, final) := by
  rw [on_bind] at h
  rcases hout : x.on table with ⟨e | a, between⟩ <;> rw [hout] at h
  · cases h
  · exact ⟨a, between, rfl, h⟩

/-- The computation leaves every table as it is. -/
def Eval.Keeps {α : Type} (x : Eval α) : Prop := ∀ table, (x.on table).2 = table

namespace Eval.Keeps

variable {α β : Type}

theorem pure (a : α) : (Pure.pure a : Eval α).Keeps := fun _ => rfl

theorem bind {x : Eval α} {f : α → Eval β} (hx : x.Keeps) (hf : ∀ a, (f a).Keeps) : (x >>= f).Keeps := by
  intro table
  have hx := hx table
  rw [Eval.on_bind]
  rcases hout : x.on table with ⟨e | a, table'⟩ <;> rw [hout] at hx
  · exact hx
  · exact (hf a table').trans hx

theorem lookup (name : String) (line : Nat) : (Eval.lookup name line).Keeps := by
  intro table
  rw [Eval.on_lookup]
  split <;> rfl

theorem unary (op : Operator) (v : Float) (line : Nat) : (Eval.unary op v line).Keeps := by
  intro table
  rw [Eval.on_unary]
  split <;> rfl

theorem on_bind {x : Eval α} (hx : x.Keeps) (f : α → Eval β) (table : Table) :
    (x >>= f).on table =
      match (x.on table).1 with
      | .ok a => (f a).on table
      | .error e => (.error e, table) := by
  have hx := hx table
  rw [Eval.on_bind]
  rcases hout : x.on table with ⟨e | a, table'⟩ <;> rw [hout] at hx <;> obtain rfl : table' = table := hx <;> rfl

/-- Both computations have values if one after the other they have one. -/
theorem ok_of_bind {x : Eval α} (hx : x.Keeps) {f : α → Eval β} {table : Table} {b : β}
    (h : ((x >>= f).on table).1 = .ok b) : ∃ a, (x.on table).1 = .ok a ∧ ((f a).on table).1 = .ok b := by
  rw [hx.on_bind] at h
  cases hout : (x.on table).1 with
  | error e =>
    rw [hout] at h
    cases h
  | ok a =>
    rw [hout] at h
    exact ⟨a, rfl, h⟩

end Eval.Keeps

/-! ## Bindings -/

/-- An assignment to a variable. -/
structure Binding where
  name : String
  value : Tree

/-- Evaluates the right side, then writes the name. -/
def Binding.perform (b : Binding) : Eval Unit := do
  let v ← b.value.eval
  Eval.assign b.name v

/-- Performs bindings from the first to the last. -/
def performAll (bs : List Binding) : Eval Unit := bs.forM Binding.perform

theorem performAll_append (bs cs : List Binding) :
    performAll (bs ++ cs) = (do performAll bs; performAll cs) := by
  induction bs with
  | nil => simp [performAll]
  | cons b bs ih => simp_all [performAll]

namespace Tree

def binding? : Tree → Option Binding
  | .assign (.var x _) value => some ⟨x, value⟩
  | _ => none

/-- The assignments to variables in source order, however deep they stand. -/
def bindings (t : Tree) : List Binding := t.nodes.filterMap binding?

theorem bindings_eq (t : Tree) : t.bindings = t.binding?.toList ++ t.children.flatMap bindings := by
  rw [bindings, nodes_eq, List.filterMap_cons, List.filterMap_flatMap]
  cases t.binding? <;> rfl

theorem mem_bindings {b : Binding} {t : Tree} (h : b ∈ t.bindings) :
    ∃ n, .assign (.var b.name n) b.value ∈ t.nodes := by
  obtain ⟨node, hnode, hb⟩ := List.mem_filterMap.1 h
  unfold binding? at hb
  split at hb
  · rename_i x n value
    obtain rfl := Option.some.inj hb
    exact ⟨n, hnode⟩
  · cases hb

/-- The names that the tree assigns to. -/
def targets (t : Tree) : List String := t.bindings.map Binding.name

/-- What a run writes, the tree assigns to. -/
theorem mem_targets {x : String} {t : Tree} (h : .write x ∈ t.events) : x ∈ t.targets := by
  induction t using children_induction with
  | step t ih =>
    rw [targets, bindings_eq, List.map_append]
    rcases mem_events h with hown | ⟨c, hc, he⟩
    · obtain ⟨n, value, rfl⟩ := write_mem_ownEvents hown
      exact List.mem_append_left _ (List.mem_singleton_self x)
    · rw [List.map_flatMap]
      exact List.mem_append_right _ (List.mem_flatMap.2 ⟨c, hc, ih c hc he⟩)

/-! ## Expressions -/

@[simp] theorem var_mem_nodes_var {x y : String} {n m : Nat} : .var x n ∈ (var y m).nodes ↔ x = y ∧ n = m := by
  simp [nodes_eq, children]

@[simp] theorem var_mem_nodes_number {x : String} {n : Nat} {v : Float} : ¬.var x n ∈ (number v).nodes := by
  simp [nodes_eq, children]

@[simp] theorem var_mem_nodes_binary {x : String} {n m : Nat} {left right : Tree} {op : Operator} :
    .var x n ∈ (binary left op right m).nodes ↔ .var x n ∈ left.nodes ∨ .var x n ∈ right.nodes := by
  rw [nodes_eq]
  simp [children]

@[simp] theorem var_mem_nodes_unary {x : String} {n m : Nat} {operand : Tree} {op : Operator} :
    .var x n ∈ (unary op operand m).nodes ↔ .var x n ∈ operand.nodes := by
  rw [nodes_eq]
  simp [children]

theorem IsExpression.bindings_eq_nil {t : Tree} (h : t.IsExpression) : t.bindings = [] := by
  induction h with
  | number v => rfl
  | var h => cases h; rfl
  | binary op n hl hr ihl ihr => simp [bindings_eq (.binary _ _ _ _), binding?, children, ihl, ihr]
  | unary n hop h ih => simp [bindings_eq (.unary _ _ _), binding?, children, ih]

/-- An expression leaves the table as it is. -/
theorem IsExpression.eval_keeps {t : Tree} (h : t.IsExpression) : t.eval.Keeps := by
  induction h with
  | number v => exact .pure v
  | var h =>
    obtain ⟨-, n⟩ := h
    exact .lookup _ n
  | binary op n hl hr ihl ihr => exact ihl.bind fun a => ihr.bind fun b => .pure _
  | unary n hop h ih => exact ih.bind fun a => .unary _ a n

/-! ## Statements and programs -/

theorem IsStatement.evalAll_eq {ss : List Tree} (h : ∀ s ∈ ss, s.eval = do performAll s.bindings; return 0) :
    evalAll ss = performAll (ss.flatMap bindings) := by
  induction ss with
  | nil => rfl
  | cons s ss ih =>
    obtain ⟨hs, hss⟩ := List.forall_mem_cons.1 h
    rw [evalAll, hs, ih hss, List.flatMap_cons, performAll_append]
    simp

/-- A statement performs its bindings. -/
theorem IsStatement.eval_eq {t : Tree} (h : t.IsStatement) : t.eval = do performAll t.bindings; return 0 := by
  induction h with
  | @compound ss hne h ih => rw [eval, evalAll_eq ih, bindings_eq]; rfl
  | @assign target value ht hv =>
    obtain ⟨-, n⟩ := ht
    rw [eval, bindings_eq]
    simp [children, binding?, hv.bindings_eq_nil, bindings_eq (.var _ n), performAll, Binding.perform]
  | empty => rfl

/-- What is assigned is an expression. -/
theorem IsStatement.isExpression_of_mem_bindings {t : Tree} (h : t.IsStatement) :
    ∀ b ∈ t.bindings, b.value.IsExpression := by
  induction h with
  | compound hne h ih =>
    intro b hb
    rw [bindings_eq] at hb
    obtain ⟨s, hs, hb⟩ := List.mem_flatMap.1 (show b ∈ List.flatMap bindings _ from hb)
    exact ih s hs b hb
  | assign ht hv =>
    obtain ⟨-, n⟩ := ht
    intro b hb
    rw [bindings_eq] at hb
    obtain rfl : b = ⟨_, _⟩ := by simpa [binding?, children, hv.bindings_eq_nil, bindings_eq (.var _ n)] using hb
    exact hv
  | empty =>
    intro b hb
    cases hb

/-- Declarations do nothing. -/
theorem IsDeclaration.evalAll_eq {ds : List Tree} (h : ∀ d ∈ ds, d.IsDeclaration) : evalAll ds = return () := by
  induction ds with
  | nil => rfl
  | cons d ds ih =>
    obtain ⟨hd, hds⟩ := List.forall_mem_cons.1 h
    obtain ⟨-, type⟩ := hd
    rw [evalAll, ih hds]
    rfl

theorem IsDeclaration.bindings_eq_nil {t : Tree} (h : t.IsDeclaration) : t.bindings = [] := by
  obtain ⟨⟨-, n⟩, type⟩ := h
  rfl

theorem bindings_program {x : String} {ds : List Tree} (h : ∀ d ∈ ds, d.IsDeclaration) (body : Tree) :
    (program x (.block ds body)).bindings = body.bindings := by
  have hnil : ds.flatMap bindings = [] := List.flatMap_eq_nil_iff.2 fun d hd => (h d hd).bindings_eq_nil
  rw [bindings_eq, children, List.flatMap_singleton, bindings_eq (.block _ _), children, List.flatMap_append, hnil]
  simp [binding?]

namespace IsProgram

variable {t : Tree}

/-- A program performs its bindings. -/
theorem eval_eq (h : t.IsProgram) : t.eval = do performAll t.bindings; return 0 := by
  obtain ⟨-, hd, hb⟩ := h
  rw [bindings_program hd, eval, eval, IsDeclaration.evalAll_eq hd, hb.eval_eq]
  simp

theorem isExpression_of_mem_bindings (h : t.IsProgram) : ∀ b ∈ t.bindings, b.value.IsExpression := by
  obtain ⟨-, hd, hb⟩ := h
  rw [bindings_program hd]
  exact hb.isExpression_of_mem_bindings

/-- A run of a program that succeeds has performed all bindings. -/
theorem performAll_of_eval (h : t.IsProgram) {v : Float} {table final : Table}
    (hv : t.eval.on table = (.ok v, final)) : (performAll t.bindings).on table = (.ok (), final) := by
  rw [h.eval_eq] at hv
  obtain ⟨⟨⟩, between, hall, hrest⟩ := Eval.exists_of_bind hv
  obtain rfl : between = final := congrArg Prod.snd hrest
  exact hall

end IsProgram

end Tree

end Pascaline
