/-
  Pascaline.Proofs.Tree.Overlay — what a run takes from a table and what it leaves over it.

  A run of a tree takes from the table the values of the names that it reads before it has
  written them, and writes values over the table: from two tables that agree on these names
  (`AgreeOn`) it comes to the same outcome and writes the same values (`Effect`). It is so
  for each step, and if it is so for two computations it is so for the one after the other
  (`Confined.bind`): what the first one has written, the second one finds in either table.

  So a run that succeeds reads nothing but what it finds in its table or has written itself,
  and it does the same over any other table below that one (`eval_overlay`). However a run
  ends, what it leaves over its table has only names that its events write (`exists_written`).
-/

import Pascaline.Proofs.Tree.Events

namespace Pascaline

/-! ## Tables one over the other -/

namespace Table

variable (a b c : Table)

theorem union_assoc : a ∪ b ∪ c = a ∪ (b ∪ c) :=
  Std.ExtTreeMap.ext_getElem? fun x => by simp [Std.ExtTreeMap.getElem?_union, Option.or_assoc]

theorem union_self : a ∪ a = a :=
  Std.ExtTreeMap.ext_getElem? fun x => by simp [Std.ExtTreeMap.getElem?_union]

@[simp] theorem union_empty : a ∪ ∅ = a :=
  Std.ExtTreeMap.ext_getElem? fun x => by simp [Std.ExtTreeMap.getElem?_union]

theorem insert_eq_union (x : String) (v : Float) : a.insert x v = a ∪ (∅ : Table).insert x v := by
  refine Std.ExtTreeMap.ext_getElem? fun y => ?_
  rw [Std.ExtTreeMap.getElem?_union, Std.ExtTreeMap.getElem?_insert, Std.ExtTreeMap.getElem?_insert]
  split <;> simp

variable {a b}

/-- Tables without a common name can lie over a table in either order. -/
theorem union_comm_of_disjoint (h : ∀ x ∈ a, x ∉ b) : c ∪ a ∪ b = c ∪ b ∪ a := by
  refine Std.ExtTreeMap.ext_getElem? fun x => ?_
  simp only [Std.ExtTreeMap.getElem?_union]
  by_cases hx : x ∈ a
  · simp [h x hx]
  · simp [hx]

end Table

/-! ## Effects -/

/-- The tables hold the same under every name that the events read before they write it. -/
def AgreeOn (es : List Event) (table table' : Table) : Prop :=
  ∀ before x n, before ++ [.read x n] <+: es → .write x ∉ before → table[x]? = table'[x]?

/-- From the table, and from every other one that agrees with it on what the events read, the
    computation comes to the outcome and writes the values over the table. The names are those
    that the events write, and all of them if the computation succeeds. -/
structure Effect {α : Type} (es : List Event) (table : Table) (x : Eval α) (out : Except EvalError α)
    (written : Table) : Prop where
  write_mem : ∀ y ∈ written, .write y ∈ es
  mem_written : ∀ a, out = .ok a → ∀ y, .write y ∈ es → y ∈ written
  on_eq : ∀ table', AgreeOn es table table' → x.on table' = (out, table' ∪ written)

/-- The computation takes from a table only what the events read. -/
def Confined {α : Type} (es : List Event) (x : Eval α) : Prop :=
  ∀ table, ∃ out written, Effect es table x out written

section

variable {es fs : List Event} {table table' : Table} {α β : Type}

theorem AgreeOn.refl (es : List Event) (table : Table) : AgreeOn es table table := fun _ _ _ _ _ => rfl

theorem AgreeOn.left (h : AgreeOn (es ++ fs) table table') : AgreeOn es table table' :=
  fun before x n hp => h before x n (hp.trans (List.prefix_append es fs))

/-- What has been written is the same in both tables. -/
theorem AgreeOn.right {written : Table} (h : AgreeOn (es ++ fs) table table')
    (hw : ∀ y, .write y ∈ es → y ∈ written) : AgreeOn fs (table ∪ written) (table' ∪ written) := by
  intro before x n hp hx
  by_cases hmem : x ∈ written
  · obtain ⟨v, hv⟩ := Option.isSome_iff_exists.1 (Std.ExtTreeMap.mem_iff_isSome_getElem?.1 hmem)
    simp [Std.ExtTreeMap.getElem?_union, hv]
  · rw [Std.ExtTreeMap.getElem?_union_of_not_mem_right hmem, Std.ExtTreeMap.getElem?_union_of_not_mem_right hmem]
    refine h (es ++ before) x n ?_ fun hmem' => ?_
    · rw [List.append_assoc]
      exact (List.prefix_append_right_inj es).2 hp
    · exact (List.mem_append.1 hmem').elim (fun he => hmem (hw x he)) hx

/-- A computation that only looks at the table writes nothing. -/
theorem Effect.of_keeps {x : Eval α} {out : Except EvalError α} (hw : (∃ a, out = .ok a) → ∀ y, .write y ∉ es)
    (h : ∀ table', AgreeOn es table table' → x.on table' = (out, table')) : Effect es table x out ∅ where
  write_mem y hy := by simp at hy
  mem_written a ha y hy := absurd hy (hw ⟨a, ha⟩ y)
  on_eq table' ht := by rw [h table' ht, Table.union_empty]

namespace Confined

theorem pure (a : α) : Confined [] (Pure.pure a : Eval α) :=
  fun _ => ⟨.ok a, ∅, .of_keeps (fun _ _ => List.not_mem_nil) fun _ _ => rfl⟩

theorem bind {x : Eval α} {f : α → Eval β} (hx : Confined es x) (hf : ∀ a, Confined fs (f a)) :
    Confined (es ++ fs) (x >>= f) := by
  intro table
  obtain ⟨out, written, hx⟩ := hx table
  cases out with
  | error e =>
    refine ⟨.error e, written, fun y hy => List.mem_append_left _ (hx.write_mem y hy), nofun, fun table' h => ?_⟩
    rw [Eval.on_bind, hx.on_eq table' h.left]
  | ok a =>
    obtain ⟨out', written', hf⟩ := hf a (table ∪ written)
    refine ⟨out', written ∪ written', fun y hy => ?_, fun b hb y hy => ?_, fun table' h => ?_⟩
    · rcases Std.ExtTreeMap.mem_union_iff.1 hy with hy | hy
      · exact List.mem_append_left _ (hx.write_mem y hy)
      · exact List.mem_append_right _ (hf.write_mem y hy)
    · rcases List.mem_append.1 hy with hy | hy
      · exact Std.ExtTreeMap.mem_union_of_left (hx.mem_written a rfl y hy)
      · exact Std.ExtTreeMap.mem_union_of_right (hf.mem_written b hb y hy)
    · rw [Eval.on_bind, hx.on_eq table' h.left, ← Table.union_assoc]
      exact hf.on_eq _ (h.right (hx.mem_written a rfl))

theorem map {x : Eval α} (hx : Confined es x) (f : α → β) : Confined es (x >>= fun a => Pure.pure (f a)) := by
  have h := hx.bind fun a => Confined.pure (f a)
  rwa [List.append_nil] at h

theorem throw (err : EvalError) (es : List Event) : Confined es (throw err : Eval α) :=
  fun _ => ⟨.error err, ∅, .of_keeps (by rintro ⟨_, ⟨⟩⟩) fun _ _ => rfl⟩

theorem lookup (name : String) (n : Nat) : Confined [.read name n] (Eval.lookup name n) := by
  intro table
  have hagree : ∀ table', AgreeOn [.read name n] table table' → table'[name]? = table[name]? :=
    fun table' h => (h [] name n List.prefix_rfl List.not_mem_nil).symm
  cases hv : table[name]? with
  | none =>
    refine ⟨.error (.undefinedVariable name n), ∅, .of_keeps (by rintro ⟨_, ⟨⟩⟩) fun table' h => ?_⟩
    rw [Eval.on_lookup, hagree table' h, hv]
  | some v =>
    refine ⟨.ok v, ∅, .of_keeps (by simp) fun table' h => ?_⟩
    rw [Eval.on_lookup, hagree table' h, hv]

theorem assign (name : String) (v : Float) : Confined [.write name] (Eval.assign name v) := by
  intro table
  refine ⟨.ok (), (∅ : Table).insert name v, fun y hy => ?_, fun _ _ y hy => ?_, fun table' _ => ?_⟩
  · obtain rfl : name = y := by simpa [Std.ExtTreeMap.mem_insert] using hy
    exact List.mem_singleton_self _
  · obtain rfl : y = name := by simpa using hy
    exact Std.ExtTreeMap.mem_insert_self
  · rw [Eval.on_assign, Table.insert_eq_union]

/-- An operator before an operand does not look at the table. -/
theorem unary {op : Operator} (v : Float) (n : Nat) (hw : ∀ y, .write y ∉ es) : Confined es (Eval.unary op v n) := by
  intro table
  cases h : op.unary? v with
  | none => exact ⟨_, ∅, .of_keeps (fun _ => hw) fun table' _ => by rw [Eval.on_unary, h]⟩
  | some w => exact ⟨_, ∅, .of_keeps (fun _ => hw) fun table' _ => by rw [Eval.on_unary, h]⟩

end Confined

end

namespace Tree

mutual
theorem eval_confined (t : Tree) : Confined t.events t.eval := by
  cases t with
  | program name b => exact (eval_confined b).map _
  | block declarations body => exact (evalAll_confined declarations).bind fun _ => (eval_confined body).map _
  | declaration subject type => exact .pure 0
  | typeName type => exact .pure 0
  | compound statements => exact (evalAll_confined statements).map _
  | assign target value =>
    cases target with
    | var name n => exact (eval_confined value).bind fun v => (Confined.assign name v).map _
    | _ => exact .throw _ _
  | binary left op right n => exact (eval_confined left).bind fun a => (eval_confined right).map _
  | unary op operand n =>
    have ih := eval_confined operand
    have hsign : ∀ op a, Confined [] (Eval.unary op a n) := fun op a => .unary a n (by simp)
    cases op with
    | plus => simpa [events, eval] using ih.bind (hsign .plus)
    | minus => simpa [events, eval] using ih.bind (hsign .minus)
    | _ => exact ih.bind fun a => .unary a n (by simp)
  | number v => exact .pure v
  | var name n => exact .lookup name n
  | empty => exact .pure 0

theorem evalAll_confined (ts : List Tree) : Confined (eventsAll ts) (evalAll ts) := by
  cases ts with
  | nil => exact .pure ()
  | cons t ts => exact (eval_confined t).bind fun _ => evalAll_confined ts
end

/-- A run writes over the table, and only under names that its events write. -/
theorem exists_written (t : Tree) (table : Table) :
    ∃ written, (t.eval.on table).2 = table ∪ written ∧ ∀ y ∈ written, .write y ∈ t.events := by
  obtain ⟨out, written, heffect⟩ := t.eval_confined table
  exact ⟨written, by rw [heffect.on_eq table (.refl _ table)], heffect.write_mem⟩

end Tree

/-! ## Tables below a table -/

/-- If no event ends a run from the table, the run reads no name that it does not find there
    or has not written, so the names of a table below are none that it reads. -/
theorem Clear.agreeOn {es : List Event} {g : Table} (h : Clear g es) (b : Table) : AgreeOn es g (b ∪ g) := by
  intro before x n hp hx
  have hread := h before (.read x n) hp
  simp only [Event.error?, hx, or_false] at hread
  split at hread
  · rename_i hmem
    obtain ⟨v, hv⟩ := Option.isSome_iff_exists.1 (Std.ExtTreeMap.mem_iff_isSome_getElem?.1 hmem)
    simp [Std.ExtTreeMap.getElem?_union, hv]
  · cases hread

theorem Tree.eval_over {t : Tree} {g g' : Table} {v : Float} (h : t.eval.on g = (.ok v, g')) (b : Table) :
    t.eval.on (b ∪ g) = (.ok v, b ∪ g') := by
  obtain ⟨out, written, heffect⟩ := t.eval_confined g
  have hclear : Clear g t.events := (t.eval_follows g).ok_iff.1 ⟨v, by rw [h]⟩
  have hself := heffect.on_eq g (.refl _ g)
  rw [h] at hself
  obtain ⟨rfl, rfl⟩ := Prod.mk.inj hself
  rw [heffect.on_eq _ (hclear.agreeOn b), Table.union_assoc]

/-- A run that succeeds does not look at what lies below its table.

    Over any other table it comes to the same value, and leaves over it what it leaves by
    itself. So a tree that runs by itself runs over every table and puts its own variables
    over that, and a second run of it changes nothing. -/
theorem eval_overlay (t : Tree) :
    (∀ (g b : Table) v g', t.eval.on g = (.ok v, g') → t.eval.on (b ∪ g) = (.ok v, b ∪ g')) ∧
    ∀ (b h : Table) v, t.eval.on ∅ = (.ok v, h) →
      t.eval.on b = (.ok v, b ∪ h) ∧ t.eval.on (b ∪ h) = (.ok v, b ∪ h) := by
  have hover : ∀ (b h : Table) v, t.eval.on ∅ = (.ok v, h) → t.eval.on b = (.ok v, b ∪ h) := by
    intro b h v heval
    have hb := Tree.eval_over heval b
    rwa [Table.union_empty] at hb
  refine ⟨fun g b v g' heval => Tree.eval_over heval b, fun b h v heval => ⟨hover b h v heval, ?_⟩⟩
  rw [hover (b ∪ h) h v heval, Table.union_assoc, Table.union_self]

/-- The table has another value for the variable, and one for a variable that the program
    does not know. -/
theorem eval_overlay_assignments :
    let t : Tree := .compound [.assign (.var "x" 1) (.number 2), .assign (.var "y" 1) (.var "x" 1)]
    let h : Table := (∅ : Table).insert "x" 2 |>.insert "y" 2
    let b : Table := (∅ : Table).insert "x" 7 |>.insert "z" 1
    t.eval.on ∅ = (.ok 0, h) ∧ t.eval.on b = (.ok 0, b ∪ h) ∧ t.eval.on (b ∪ h) = (.ok 0, b ∪ h) := by
  intro t h b
  have heval : t.eval.on ∅ = (.ok 0, h) := by
    simp only [t, h, Tree.eval, Tree.evalAll, Eval.on_bind, Eval.on_pure, Eval.on_assign, Eval.on_lookup,
      Std.ExtTreeMap.getElem?_insert_self]
  exact ⟨heval, (eval_overlay t).2 b h 0 heval⟩

end Pascaline
