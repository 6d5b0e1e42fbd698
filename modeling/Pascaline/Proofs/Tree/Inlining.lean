/-
  Pascaline.Proofs.Tree.Inlining — what a variable holds is the value of an expression
  without variables.

  The right side of a binding reads variables, each of which was last written by an earlier
  binding (`lastBefore`). With these put in for the variables, their own variables replaced
  in the same way before, an expression is left in which no variable stands (`inlined`).

  After the first bindings of a run the table holds, for each name, the value of the inlined
  expression of its last binding (`Reflects`). One more binding keeps that
  (`Reflects.perform`), so it holds of the table that a run leaves (`run_inlined`).
-/

import Pascaline.Proofs.Tree.Bindings

namespace Pascaline

namespace Tree

/-- No variable stands in the tree. -/
def IsClosed (t : Tree) : Prop := ∀ x n, .var x n ∉ t.nodes

/-- The expression with trees put in for the variables that have one. -/
def substitute (σ : String → Option Tree) : Tree → Tree
  | .binary left op right n => .binary (left.substitute σ) op (right.substitute σ) n
  | .unary op operand n => .unary op (operand.substitute σ) n
  | .var x n => (σ x).getD (.var x n)
  | t => t

end Tree

/-! ## Inlining -/

/-- The last of the first `k` bindings that writes the name. -/
def lastBefore (bs : List Binding) (x : String) : Nat → Option Nat
  | 0 => none
  | k + 1 => if bs[k]?.any (·.name = x) then some k else lastBefore bs x k

theorem lastBefore_eq_some_iff {bs : List Binding} {x : String} {k j : Nat} :
    lastBefore bs x k = some j ↔
      j < k ∧ bs[j]?.any (·.name = x) ∧ ∀ i, j < i → i < k → ¬bs[i]?.any (·.name = x) := by
  induction k with
  | zero => simp [lastBefore]
  | succ k ih =>
    rw [lastBefore]
    split
    · rename_i hk
      constructor
      · intro h
        obtain rfl := Option.some.inj h
        exact ⟨Nat.lt_succ_self k, hk, fun i hi hik => by omega⟩
      · rintro ⟨hj, -, hlast⟩
        by_cases h : j = k
        · rw [h]
        · exact absurd hk (hlast k (by omega) (by omega))
    · rename_i hk
      rw [ih]
      constructor
      · rintro ⟨hj, hx, hlast⟩
        refine ⟨by omega, hx, fun i hi hik => ?_⟩
        by_cases h : i = k
        · rwa [h]
        · exact hlast i hi (by omega)
      · rintro ⟨hj, hx, hlast⟩
        have h : j ≠ k := by
          rintro rfl
          exact hk hx
        exact ⟨by omega, hx, fun i hi hik => hlast i hi (by omega)⟩

theorem lastBefore_lt {bs : List Binding} {x : String} {k j : Nat} (h : lastBefore bs x k = some j) : j < k :=
  (lastBefore_eq_some_iff.1 h).1

/-- The right side of the binding at `k`, with the inlined right side of the last binding
    before it for each variable. -/
def inlined (bs : List Binding) (k : Nat) : Tree :=
  match bs[k]? with
  | none => .empty
  | some b => b.value.substitute fun x =>
    match _ : lastBefore bs x k with
    | none => none
    | some j => some (inlined bs j)
termination_by k
decreasing_by exact lastBefore_lt ‹_›

/-- What is inlined for each name behind the first `k` bindings. -/
def inlinedBefore (bs : List Binding) (k : Nat) (x : String) : Option Tree := (lastBefore bs x k).map (inlined bs)

theorem inlined_eq {bs : List Binding} {k : Nat} {b : Binding} (h : bs[k]? = some b) :
    inlined bs k = b.value.substitute (inlinedBefore bs k) := by
  rw [inlined, h]
  refine congrArg (b.value.substitute ·) (funext fun x => ?_)
  rw [inlinedBefore]
  split <;> rename_i hlast <;> rw [hlast] <;> rfl

/-! ## Values -/

/-- The table holds a value for the names that have an expression and for no others, and it
    is the value of the expression, which has no variables, in any table. -/
structure Reflects (σ : String → Option Tree) (table : Table) : Prop where
  mem_iff : ∀ x, x ∈ table ↔ (σ x).isSome
  closed : ∀ x e, σ x = some e → e.IsClosed
  value : ∀ x e v, σ x = some e → table[x]? = some v → ∀ other, e.eval.on other = (.ok v, other)

theorem reflects_empty (bs : List Binding) : Reflects (inlinedBefore bs 0) ∅ where
  mem_iff x := by simp [inlinedBefore, lastBefore]
  closed x e h := by cases h
  value x e v h := by cases h

namespace Tree.IsExpression

variable {t : Tree} {σ : String → Option Tree} {table : Table}

/-- The variables of an expression that has a value are in the table. -/
theorem mem_of_eval (h : t.IsExpression) {v : Float} (hv : (t.eval.on table).1 = .ok v) {x : String} {n : Nat}
    (hx : .var x n ∈ t.nodes) : x ∈ table := by
  induction h generalizing v with
  | number w => simp at hx
  | var h =>
    obtain ⟨hname, m⟩ := h
    obtain ⟨rfl, -⟩ := var_mem_nodes_var.1 hx
    rw [eval, Eval.on_lookup] at hv
    split at hv
    · rename_i w hw
      simp [Std.ExtTreeMap.mem_iff_isSome_getElem?, hw]
    · cases hv
  | binary op m hl hr ihl ihr =>
    obtain ⟨a, ha, hrest⟩ := hl.eval_keeps.ok_of_bind hv
    obtain ⟨b, hb, -⟩ := hr.eval_keeps.ok_of_bind hrest
    exact (var_mem_nodes_binary.1 hx).elim (ihl ha) (ihr hb)
  | unary m hop h ih =>
    obtain ⟨a, ha, -⟩ := h.eval_keeps.ok_of_bind hv
    exact ih ha (var_mem_nodes_unary.1 hx)

theorem substitute_isClosed (h : t.IsExpression) (hσ : Reflects σ table)
    (hv : ∀ x n, .var x n ∈ t.nodes → x ∈ table) : (t.substitute σ).IsClosed := by
  induction h with
  | number w => exact fun x n => var_mem_nodes_number
  | var h =>
    obtain ⟨hname, m⟩ := h
    obtain ⟨e, he⟩ := Option.isSome_iff_exists.1 ((hσ.mem_iff _).1 (hv _ m (var_mem_nodes_var.2 ⟨rfl, rfl⟩)))
    rw [substitute, he]
    exact hσ.closed _ e he
  | binary op m hl hr ihl ihr =>
    intro x n hx
    rcases var_mem_nodes_binary.1 hx with hx | hx
    · exact ihl (fun y k hy => hv y k (var_mem_nodes_binary.2 (Or.inl hy))) x n hx
    · exact ihr (fun y k hy => hv y k (var_mem_nodes_binary.2 (Or.inr hy))) x n hx
  | unary m hop h ih =>
    intro x n hx
    exact ih (fun y k hy => hv y k (var_mem_nodes_unary.2 hy)) x n (var_mem_nodes_unary.1 hx)

/-- What an expression evaluates to in the table, it evaluates to anywhere with the
    expressions that the table reflects put in for its variables. -/
theorem eval_substitute (h : t.IsExpression) (hσ : Reflects σ table) (hv : ∀ x n, .var x n ∈ t.nodes → x ∈ table)
    (other : Table) : (t.substitute σ).eval.on other = ((t.eval.on table).1, other) := by
  induction h with
  | number w => rfl
  | var h =>
    obtain ⟨hname, m⟩ := h
    have hmem := hv _ m (var_mem_nodes_var.2 ⟨rfl, rfl⟩)
    obtain ⟨e, he⟩ := Option.isSome_iff_exists.1 ((hσ.mem_iff _).1 hmem)
    obtain ⟨v, hget⟩ := Option.isSome_iff_exists.1 (Std.ExtTreeMap.mem_iff_isSome_getElem?.1 hmem)
    rw [substitute, he, eval, Eval.on_lookup, hget]
    exact hσ.value _ e v he hget other
  | @binary left right op m hl hr ihl ihr =>
    have ihl := ihl fun y k hy => hv y k (var_mem_nodes_binary.2 (Or.inl hy))
    have ihr := ihr fun y k hy => hv y k (var_mem_nodes_binary.2 (Or.inr hy))
    rw [substitute, eval, eval, Eval.on_bind, ihl, hl.eval_keeps.on_bind]
    cases (left.eval.on table).1 with
    | error e => rfl
    | ok a =>
      simp only [Eval.on_bind, ihr, hr.eval_keeps.on_bind]
      cases (right.eval.on table).1 <;> rfl
  | @unary op operand m hop h ih =>
    have ih := ih fun y k hy => hv y k (var_mem_nodes_unary.2 hy)
    rw [substitute, eval, eval, Eval.on_bind, ih, h.eval_keeps.on_bind]
    cases (operand.eval.on table).1 with
    | error e => rfl
    | ok a => rcases hop with rfl | rfl <;> rfl

end Tree.IsExpression

/-! ## Runs -/

section

variable {bs : List Binding} {k : Nat} {b : Binding} {table final : Table}

theorem inlinedBefore_succ (h : bs[k]? = some b) (x : String) :
    inlinedBefore bs (k + 1) x = if b.name = x then some (inlined bs k) else inlinedBefore bs k x := by
  rw [inlinedBefore, lastBefore, h]
  simp only [Option.any_some, decide_eq_true_eq]
  split <;> rfl

/-- A binding that is performed writes the value of its right side. -/
theorem Binding.exists_of_perform (he : b.value.IsExpression) (h : b.perform.on table = (.ok (), final)) :
    ∃ v, (b.value.eval.on table).1 = .ok v ∧ final = table.insert b.name v := by
  rw [perform, he.eval_keeps.on_bind] at h
  cases hv : (b.value.eval.on table).1 with
  | error e =>
    rw [hv] at h
    cases h
  | ok v =>
    rw [hv] at h
    exact ⟨v, rfl, (congrArg Prod.snd h).symm⟩

/-- One binding more: each variable that it reads has been written before, no variable is
    left in its inlined right side, and the table reflects that one too. -/
theorem Reflects.perform (hr : Reflects (inlinedBefore bs k) table) (hb : bs[k]? = some b)
    (he : b.value.IsExpression) (h : b.perform.on table = (.ok (), final)) :
    (∀ x n, .var x n ∈ b.value.nodes → ∃ j, lastBefore bs x k = some j) ∧ (inlined bs k).IsClosed ∧
      Reflects (inlinedBefore bs (k + 1)) final := by
  obtain ⟨v, hv, rfl⟩ := Binding.exists_of_perform he h
  have hmem : ∀ x n, .var x n ∈ b.value.nodes → x ∈ table := fun x n hx => he.mem_of_eval hv hx
  have hclosed : (inlined bs k).IsClosed := by
    rw [inlined_eq hb]
    exact he.substitute_isClosed hr hmem
  have hvalue : ∀ other, (inlined bs k).eval.on other = (.ok v, other) := by
    intro other
    rw [inlined_eq hb, he.eval_substitute hr hmem, hv]
  refine ⟨fun x n hx => ?_, hclosed, ?_, ?_, ?_⟩
  · simpa [inlinedBefore, Option.isSome_iff_exists] using (hr.mem_iff x).1 (hmem x n hx)
  · intro x
    rw [inlinedBefore_succ hb, Std.ExtTreeMap.mem_insert, hr.mem_iff]
    split <;> simp_all
  · intro x e hx
    rw [inlinedBefore_succ hb] at hx
    split at hx
    · exact Option.some.inj hx ▸ hclosed
    · exact hr.closed x e hx
  · intro x e w hx hw
    rw [inlinedBefore_succ hb] at hx
    rw [Std.ExtTreeMap.getElem?_insert] at hw
    split at hx
    · rename_i hname
      rw [if_pos (by simp [hname])] at hw
      rw [← Option.some.inj hx, ← Option.some.inj hw]
      exact hvalue
    · rename_i hname
      rw [if_neg (by simpa using hname)] at hw
      exact hr.value x e w hx hw

/-- So it goes on to the last binding. -/
theorem Reflects.performAll (he : ∀ b ∈ bs, b.value.IsExpression) (hr : Reflects (inlinedBefore bs k) table)
    (hk : k ≤ bs.length) (h : (performAll (bs.drop k)).on table = (.ok (), final)) :
    (∀ i b, k ≤ i → bs[i]? = some b →
      (∀ x n, .var x n ∈ b.value.nodes → ∃ j, lastBefore bs x i = some j) ∧ (inlined bs i).IsClosed) ∧
    Reflects (inlinedBefore bs bs.length) final := by
  generalize hrest : bs.drop k = rest at h
  induction rest generalizing k table with
  | nil =>
    obtain rfl : k = bs.length := Nat.le_antisymm hk (List.drop_eq_nil_iff.1 hrest)
    refine ⟨fun i b hi hb => ?_, ?_⟩
    · rw [List.getElem?_eq_none hi] at hb
      cases hb
    · obtain rfl : table = final := congrArg Prod.snd h
      exact hr
  | cons b rest ih =>
    have hb : bs[k]? = some b := by rw [← List.head?_drop, hrest]; rfl
    have hdrop : bs.drop (k + 1) = rest := by rw [← List.tail_drop, hrest]; rfl
    obtain ⟨⟨⟩, between, hperform, h⟩ := Eval.exists_of_bind h
    obtain ⟨hreads, hclosed, hr⟩ := hr.perform hb (he b (List.mem_of_getElem? hb)) hperform
    obtain ⟨hlater, hfinal⟩ := ih hr (List.getElem?_eq_some_iff.1 hb).1 hdrop h
    refine ⟨fun i c hi hc => ?_, hfinal⟩
    rcases Nat.eq_or_lt_of_le hi with rfl | hi
    · obtain rfl := Option.some.inj (hb.symm.trans hc)
      exact ⟨hreads, hclosed⟩
    · exact hlater i c hi hc

end

/-- What a variable holds after a run is the value of its last assignment, with everything
    that this reads put in.

    Of the assignments of the program in source order, each reads only variables that an
    earlier one writes. With the last one before it put in for each of them, and so on, no
    variable is left. The names in the table are those that are assigned to, and each has the
    value that its last assignment, so written out, evaluates to by itself. -/
theorem run_inlined {source : String} {table : Table} (h : run source = .ok table) :
    ∃ tree, parse source = .ok tree ∧
      (∀ k b, tree.bindings[k]? = some b → ∀ x n, .var x n ∈ b.value.nodes →
        ∃ j, lastBefore tree.bindings x k = some j) ∧
      (∀ k, k < tree.bindings.length → (inlined tree.bindings k).IsClosed) ∧
      ∀ x v, table[x]? = some v ↔ ∃ j, lastBefore tree.bindings x tree.bindings.length = some j ∧
        ((inlined tree.bindings j).eval.on ∅).1 = .ok v := by
  obtain ⟨tree, v, hparse, heval⟩ := exists_of_run h
  have hprogram := isProgram_of_parse hparse
  obtain ⟨hreads, hr⟩ := (reflects_empty tree.bindings).performAll hprogram.isExpression_of_mem_bindings
    (Nat.zero_le _) (hprogram.performAll_of_eval heval)
  refine ⟨tree, hparse, fun k b hb => (hreads k b (Nat.zero_le k) hb).1, fun k hk => ?_, fun x v => ?_⟩
  · exact (hreads k _ (Nat.zero_le k) (List.getElem?_eq_getElem hk)).2
  · constructor
    · intro hv
      have hmem := (hr.mem_iff x).1 (by simp [Std.ExtTreeMap.mem_iff_isSome_getElem?, hv])
      obtain ⟨j, hj⟩ : ∃ j, lastBefore tree.bindings x tree.bindings.length = some j := by
        simpa [inlinedBefore, Option.isSome_iff_exists] using hmem
      refine ⟨j, hj, ?_⟩
      rw [hr.value x _ v (by rw [inlinedBefore, hj]; rfl) hv ∅]
    · rintro ⟨j, hj, hv⟩
      have hlast : inlinedBefore tree.bindings tree.bindings.length x = some (inlined tree.bindings j) := by
        rw [inlinedBefore, hj]
        rfl
      have hmem := (hr.mem_iff x).2 (by rw [hlast]; rfl)
      obtain ⟨w, hw⟩ := Option.isSome_iff_exists.1 (Std.ExtTreeMap.mem_iff_isSome_getElem?.1 hmem)
      rw [hr.value x _ w hlast hw ∅] at hv
      rw [hw, Except.ok.inj hv]

/-- The variable is assigned a number and then its own square. -/
theorem run_inlined_square :
    ∃ table v, run "PROGRAM p; BEGIN x := 2; x := x * x END." = .ok table ∧ table["x"]? = some v ∧
      ((Tree.binary (.number 2) .times (.number 2) 1).eval.on ∅).1 = .ok v := by
  let bs : List Binding := [⟨"x", .number 2⟩, ⟨"x", .binary (.var "x" 1) .times (.var "x" 1) 1⟩]
  let tree : Tree := .program "p" (.block [] (.compound
    [.assign (.var "x" 1) (.number 2), .assign (.var "x" 1) (.binary (.var "x" 1) .times (.var "x" 1) 1)]))
  have hitems : (Cursor.ofString "PROGRAM p; BEGIN x := 2; x := x * x END.").items =
      [⟨.keyword .program, 1⟩, ⟨.name "p", 1⟩, ⟨.symbol .semicolon, 1⟩, ⟨.keyword .beginBody, 1⟩, ⟨.name "x", 1⟩,
        ⟨.symbol .assign, 1⟩, ⟨.integer 2, 1⟩, ⟨.symbol .semicolon, 1⟩, ⟨.name "x", 1⟩, ⟨.symbol .assign, 1⟩,
        ⟨.name "x", 1⟩, ⟨.symbol .star, 1⟩, ⟨.name "x", 1⟩, ⟨.keyword .endBody, 1⟩, ⟨.symbol .dot, 1⟩].map
        Lexeme.item ++ [.token .endOfInput 1] := by
    decide +kernel
  have hparse : parse "PROGRAM p; BEGIN x := 2; x := x * x END." = .ok tree :=
    (Reading.run_eq_ok_iff hitems rfl).2 ⟨rfl, 1, rfl⟩
  have hrun : ∃ table, run "PROGRAM p; BEGIN x := 2; x := x * x END." = .ok table := by
    rw [run_of_parse hparse]
    simp only [tree, Tree.eval, Tree.evalAll, Eval.on_bind, Eval.on_pure, Eval.on_assign, Eval.on_lookup,
      Std.ExtTreeMap.getElem?_insert_self]
    exact ⟨_, rfl⟩
  have htwo : inlined bs 0 = .number 2 := inlined_eq (b := ⟨"x", .number 2⟩) rfl
  have hsquare : inlined bs 1 = .binary (.number 2) .times (.number 2) 1 := by
    rw [inlined_eq (b := ⟨"x", .binary (.var "x" 1) .times (.var "x" 1) 1⟩) rfl, ← htwo]
    rfl
  obtain ⟨table, hrun⟩ := hrun
  obtain ⟨_, hparse', -, -, hvalue⟩ := run_inlined hrun
  obtain rfl := Except.ok.inj (hparse.symm.trans hparse')
  have hv : ((inlined bs 1).eval.on ∅).1 = .ok ((2 : Float) * 2) := by
    rw [hsquare]
    rfl
  exact ⟨table, _, hrun, (hvalue "x" _).2 ⟨1, rfl, hv⟩, hsquare ▸ hv⟩

end Pascaline
