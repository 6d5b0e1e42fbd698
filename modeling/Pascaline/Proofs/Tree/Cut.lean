/-
  Pascaline.Proofs.Tree.Cut — what a run has done when it fails.

  A program can be cut off in front of one of its bindings, at whatever depth that stands:
  what comes before it stays, an empty statement takes its place, and what comes behind it is
  gone (`Tree.upTo`). That is a program again, with the bindings before that one
  (`IsProgram.upTo`).

  A program performs its bindings one after the other, so where it fails, one of them fails,
  and those before it have been performed (`exists_failing`). An expression writes nothing,
  so the table is the one that the program cut off there leaves (`eval_error_cut`).
-/

import Pascaline.Proofs.Tree.Bindings
import Pascaline.Proofs.Tree.Overlay

namespace Pascaline

/-! ## Programs cut off -/

namespace Tree

mutual
/-- The tree with its first `k` bindings. In place of the next one stands an empty statement,
    and nothing behind that. -/
def upTo (k : Nat) : Tree → Tree
  | .program name b => .program name (upTo k b)
  | .block declarations body => .block declarations (upTo k body)
  | .compound statements => .compound (upToAll k statements)
  | .assign target value => if k = 0 then .empty else .assign target value
  | t => t

def upToAll (k : Nat) : List Tree → List Tree
  | [] => []
  | s :: ss => if k < s.bindings.length then [upTo k s] else s :: upToAll (k - s.bindings.length) ss
end

theorem upToAll_ne_nil {ss : List Tree} (h : ss ≠ []) (k : Nat) : upToAll k ss ≠ [] := by
  cases ss with
  | nil => exact absurd rfl h
  | cons s ss =>
    rw [upToAll]
    split <;> exact List.cons_ne_nil _ _

theorem flatMap_bindings_upToAll {ss : List Tree} (h : ∀ s ∈ ss, ∀ k, (s.upTo k).bindings = s.bindings.take k)
    (k : Nat) : (upToAll k ss).flatMap bindings = (ss.flatMap bindings).take k := by
  induction ss generalizing k with
  | nil => simp [upToAll]
  | cons s ss ih =>
    obtain ⟨hs, hss⟩ := List.forall_mem_cons.1 h
    rw [upToAll, List.flatMap_cons, List.take_append]
    split
    · rename_i hk
      rw [List.flatMap_singleton, hs, Nat.sub_eq_zero_of_le hk.le, List.take_zero, List.append_nil]
    · rename_i hk
      rw [List.flatMap_cons, ih hss, List.take_of_length_le (Nat.le_of_not_lt hk)]

theorem mem_upToAll {ss : List Tree} {k : Nat} {t : Tree} (h : t ∈ upToAll k ss) :
    t ∈ ss ∨ ∃ s ∈ ss, ∃ j, t = s.upTo j := by
  induction ss generalizing k with
  | nil => cases h
  | cons s ss ih =>
    rw [upToAll] at h
    split at h
    · exact Or.inr ⟨s, List.mem_cons_self, k, List.mem_singleton.1 h⟩
    · rcases List.mem_cons.1 h with rfl | h
      · exact Or.inl List.mem_cons_self
      · rcases ih h with h | ⟨u, hu, j, hj⟩
        · exact Or.inl (List.mem_cons_of_mem s h)
        · exact Or.inr ⟨u, List.mem_cons_of_mem s hu, j, hj⟩

theorem bindings_compound (ss : List Tree) : (compound ss).bindings = ss.flatMap bindings := by
  rw [bindings_eq]
  rfl

/-- A statement cut off is a statement with the first of its bindings. -/
theorem IsStatement.upTo {t : Tree} (h : t.IsStatement) (k : Nat) :
    (t.upTo k).IsStatement ∧ (t.upTo k).bindings = t.bindings.take k := by
  induction h generalizing k with
  | @compound ss hne h ih =>
    refine ⟨.compound (upToAll_ne_nil hne k) fun s hs => ?_, ?_⟩
    · rcases mem_upToAll hs with hs | ⟨u, hu, j, rfl⟩
      · exact h s hs
      · exact (ih u hu j).1
    · rw [Tree.upTo, bindings_compound, bindings_compound, flatMap_bindings_upToAll fun s hs k => (ih s hs k).2]
  | @assign target value ht hv =>
    cases k with
    | zero => exact ⟨.empty, rfl⟩
    | succ k =>
      refine ⟨.assign ht hv, ?_⟩
      obtain ⟨-, n⟩ := ht
      rw [Tree.upTo, if_neg (Nat.succ_ne_zero k), bindings_eq]
      simp [binding?, children, hv.bindings_eq_nil, bindings_eq (.var _ n)]
  | empty => exact ⟨.empty, (List.take_nil).symm⟩

theorem IsProgram.upTo {t : Tree} (h : t.IsProgram) (k : Nat) :
    (t.upTo k).IsProgram ∧ (t.upTo k).bindings = t.bindings.take k := by
  obtain ⟨hname, hd, hb⟩ := h
  obtain ⟨hstatement, hbindings⟩ := hb.upTo k
  refine ⟨.mk hname hd hstatement, ?_⟩
  rw [bindings_program hd, ← hbindings]
  exact bindings_program hd _

end Tree

/-! ## Where a run fails -/

section

variable {table final : Table} {err : EvalError}

/-- A binding that fails leaves the table as it is. -/
theorem Binding.error_of_perform {b : Binding} (he : b.value.IsExpression)
    (h : b.perform.on table = (.error err, final)) : final = table ∧ b.value.eval.on table = (.error err, table) := by
  rw [perform, he.eval_keeps.on_bind] at h
  cases hv : (b.value.eval.on table).1 with
  | error e =>
    rw [hv] at h
    obtain ⟨herr, rfl⟩ := Prod.mk.inj h
    obtain rfl := Except.error.inj herr
    exact ⟨rfl, Prod.ext hv (he.eval_keeps table)⟩
  | ok v =>
    rw [hv] at h
    cases h

/-- If bindings fail, one of them does, and those before it have been performed. -/
theorem exists_failing {bs : List Binding} (he : ∀ b ∈ bs, b.value.IsExpression)
    (h : (performAll bs).on table = (.error err, final)) :
    ∃ k b, bs[k]? = some b ∧ (performAll (bs.take k)).on table = (.ok (), final) ∧
      b.value.eval.on final = (.error err, final) := by
  induction bs generalizing table with
  | nil => cases h
  | cons b bs ih =>
    obtain ⟨heb, hebs⟩ := List.forall_mem_cons.1 he
    have hcons : ∀ cs, performAll (b :: cs) = (do b.perform; performAll cs) := fun cs => rfl
    rw [hcons, Eval.on_bind] at h
    -- the first binding fails, or it is performed and the one that fails is behind it
    rcases hb : b.perform.on table with ⟨e | u, between⟩
    · rw [hb] at h
      obtain ⟨herr, rfl⟩ := Prod.mk.inj h
      obtain rfl := Except.error.inj herr
      obtain ⟨rfl, hvalue⟩ := Binding.error_of_perform heb hb
      exact ⟨0, b, rfl, rfl, hvalue⟩
    · rw [hb] at h
      obtain ⟨k, c, hk, htake, hvalue⟩ := ih hebs h
      refine ⟨k + 1, c, hk, ?_, hvalue⟩
      rw [List.take_succ_cons, hcons, Eval.on_bind, hb]
      exact htake

end

/-- A run that fails has done what the program does that is cut off in front of the assignment
    that fails, and nothing else.

    Of the assignments of a program in source order there is one whose right side fails, with
    the error of the run and in the table that the run leaves. Cut off in front of it the
    program runs to its end, and leaves that table. And whatever the tree and however it runs,
    no name is taken out of the table, and a name that the tree does not assign to keeps its
    value, or still has none. -/
theorem eval_error_cut (t : Tree) (table : Table) :
    (∀ source err final, parse source = .ok t → t.eval.on table = (.error err, final) →
      ∃ k b, t.bindings[k]? = some b ∧ b.value.eval.on final = (.error err, final) ∧
        (t.upTo k).IsProgram ∧ (t.upTo k).bindings = t.bindings.take k ∧
        ∃ v, (t.upTo k).eval.on table = (.ok v, final)) ∧
    (∀ x ∈ table, x ∈ (t.eval.on table).2) ∧
    ∀ x ∉ t.targets, (t.eval.on table).2[x]? = table[x]? := by
  obtain ⟨written, hfinal, hwritten⟩ := t.exists_written table
  refine ⟨fun source err final hparse h => ?_, fun x hx => ?_, fun x hx => ?_⟩
  · have hprogram := isProgram_of_parse hparse
    have hall : (performAll t.bindings).on table = (.error err, final) := by
      rw [hprogram.eval_eq, Eval.on_bind] at h
      rcases hout : (performAll t.bindings).on table with ⟨e | u, between⟩
      · rw [hout] at h
        obtain ⟨herr, rfl⟩ := Prod.mk.inj h
        rw [Except.error.inj herr]
      · rw [hout] at h
        cases h
    obtain ⟨k, b, hb, htake, hvalue⟩ := exists_failing hprogram.isExpression_of_mem_bindings hall
    obtain ⟨hcut, hbindings⟩ := hprogram.upTo k
    refine ⟨k, b, hb, hvalue, hcut, hbindings, 0, ?_⟩
    rw [hcut.eval_eq, hbindings, Eval.on_bind, htake]
    rfl
  · rw [hfinal]
    exact Std.ExtTreeMap.mem_union_of_left hx
  · rw [hfinal, Std.ExtTreeMap.getElem?_union_of_not_mem_right]
    exact fun hmem => hx (Tree.mem_targets (hwritten x hmem))

/-- The assignment that fails stands in an inner statement list. -/
theorem eval_error_cut_nested :
    let t : Tree := .program "p" (.block [] (.compound
      [.assign (.var "x" 1) (.var "y" 1), .compound [.assign (.var "z" 1) (.var "w" 1)]]))
    let table : Table := (∅ : Table).insert "y" 1
    let final : Table := table.insert "x" 1
    t.eval.on table = (.error (.undefinedVariable "w" 1), final) ∧
      (∃ k b, t.bindings[k]? = some b ∧ b.value.eval.on final = (.error (.undefinedVariable "w" 1), final) ∧
        ∃ v, (t.upTo k).eval.on table = (.ok v, final)) ∧
      (t.eval.on table).2["v"]? = table["v"]? := by
  intro t table final
  have hitems : (Cursor.ofString "PROGRAM p; BEGIN x := y; BEGIN z := w END END.").items =
      [⟨.keyword .program, 1⟩, ⟨.name "p", 1⟩, ⟨.symbol .semicolon, 1⟩, ⟨.keyword .beginBody, 1⟩, ⟨.name "x", 1⟩,
        ⟨.symbol .assign, 1⟩, ⟨.name "y", 1⟩, ⟨.symbol .semicolon, 1⟩, ⟨.keyword .beginBody, 1⟩, ⟨.name "z", 1⟩,
        ⟨.symbol .assign, 1⟩, ⟨.name "w", 1⟩, ⟨.keyword .endBody, 1⟩, ⟨.keyword .endBody, 1⟩, ⟨.symbol .dot, 1⟩].map
        Lexeme.item ++ [.token .endOfInput 1] := by
    decide +kernel
  have hparse : parse "PROGRAM p; BEGIN x := y; BEGIN z := w END END." = .ok t :=
    (Reading.run_eq_ok_iff hitems rfl).2 ⟨rfl, 1, rfl⟩
  have hw : final["w"]? = none := by simp [final, table]
  have heval : t.eval.on table = (.error (.undefinedVariable "w" 1), final) := by
    simp only [t, table, Tree.eval, Tree.evalAll, Eval.on_bind, Eval.on_pure, Eval.on_assign, Eval.on_lookup,
      Std.ExtTreeMap.getElem?_insert_self]
    simp only [final, table] at hw
    rw [hw]
  obtain ⟨hcut, -, hkeep⟩ := eval_error_cut t table
  obtain ⟨k, b, hb, hvalue, -, -, hrun⟩ := hcut _ _ _ hparse heval
  exact ⟨heval, ⟨k, b, hb, hvalue, hrun⟩, hkeep "v" (by decide)⟩

end Pascaline
