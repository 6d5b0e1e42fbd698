/-
  Pascaline.Proofs.Tree.Independent — trees that do not touch each other's variables.

  A tree reads the variables that stand in it, except where they are assigned to
  (`Tree.reads`); a run reads no others (`mem_reads`). Two trees are independent if neither
  assigns to a variable that the other one reads or assigns to (`Tree.Independent`).

  What one of two independent trees has written, the other one does not read, so a run of that
  comes to the same with it and without it (`Independent.agreeOn`). And the names that the two
  write are different ones, so it does not matter which lie over which: the two can run in
  either order (`Independent.eval_exchange`).
-/

import Mathlib.Data.List.Lattice
import Pascaline.Proofs.Tree.Bindings
import Pascaline.Proofs.Tree.Overlay

namespace Pascaline

namespace Tree

mutual
/-- The names of the variables of a tree that are no targets of assignments. -/
def reads : Tree → List String
  | .program _ b => reads b
  | .block declarations body => readsAll declarations ++ reads body
  | .declaration subject type => reads subject ++ reads type
  | .compound statements => readsAll statements
  | .assign (.var _ _) value => reads value
  | .assign target value => reads target ++ reads value
  | .binary left _ right _ => reads left ++ reads right
  | .unary _ operand _ => reads operand
  | .var name _ => [name]
  | .typeName _ | .number _ | .empty => []

def readsAll : List Tree → List String
  | [] => []
  | t :: ts => reads t ++ readsAll ts
end

mutual
/-- What a run reads is a variable of the tree. -/
theorem mem_reads {x : String} {n : Nat} {t : Tree} (h : .read x n ∈ t.events) : x ∈ t.reads := by
  cases t with
  | program name b => exact mem_reads (t := b) h
  | block declarations body =>
    exact List.mem_append.2 ((List.mem_append.1 h).imp mem_readsAll mem_reads)
  | compound statements =>
    show x ∈ readsAll statements
    exact mem_readsAll h
  | assign target value =>
    cases target with
    | var y m =>
      rcases List.mem_append.1 h with h | h
      · exact mem_reads (t := value) h
      · simp at h
    | _ => simp [events] at h
  | binary left op right m =>
    exact List.mem_append.2 ((List.mem_append.1 h).imp mem_reads mem_reads)
  | unary op operand m =>
    have hoperand : .read x n ∈ operand.events := by cases op <;> simpa [events] using h
    exact mem_reads (t := operand) hoperand
  | var y m =>
    obtain ⟨rfl, -⟩ := Event.read.inj (List.mem_singleton.1 h)
    exact List.mem_singleton_self x
  | _ => cases h

theorem mem_readsAll {x : String} {n : Nat} {ts : List Tree} (h : .read x n ∈ eventsAll ts) : x ∈ readsAll ts := by
  cases ts with
  | nil => cases h
  | cons t ts => exact List.mem_append.2 ((List.mem_append.1 h).imp mem_reads mem_readsAll)
end

/-- Neither tree assigns to a variable that the other one reads or assigns to. -/
structure Independent (t u : Tree) : Prop where
  targets_reads : t.targets.Disjoint u.reads
  reads_targets : t.reads.Disjoint u.targets
  targets_targets : t.targets.Disjoint u.targets

instance (t u : Tree) : Decidable (t.Independent u) :=
  decidable_of_iff ((∀ x ∈ t.targets, x ∉ u.reads) ∧ (∀ x ∈ t.reads, x ∉ u.targets) ∧ ∀ x ∈ t.targets, x ∉ u.targets)
    ⟨fun h => ⟨fun x => h.1 x, fun x => h.2.1 x, fun x => h.2.2 x⟩,
      fun h => ⟨fun _ hx => h.targets_reads hx, fun _ hx => h.reads_targets hx, fun _ hx => h.targets_targets hx⟩⟩

namespace Independent

variable {t u : Tree}

theorem symm (h : t.Independent u) : u.Independent t :=
  ⟨h.reads_targets.symm, h.targets_reads.symm, h.targets_targets.symm⟩

/-- What one of them has written, the other one does not read. -/
theorem agreeOn (h : t.Independent u) {table written : Table} (hw : ∀ y ∈ written, .write y ∈ t.events) :
    AgreeOn u.events table (table ∪ written) := by
  intro before x n hp _
  have hread : .read x n ∈ u.events := hp.subset (by simp)
  have hmem : x ∉ written := fun hx => h.targets_reads (mem_targets (hw x hx)) (mem_reads hread)
  rw [Std.ExtTreeMap.getElem?_union_of_not_mem_right hmem]

/-- Two runs that succeed one after the other do so in the other order, with the same values
    and the same table in the end. -/
theorem eval_exchange (h : t.Independent u) {table between final : Table} {v w : Float}
    (ht : t.eval.on table = (.ok v, between)) (hu : u.eval.on between = (.ok w, final)) :
    ∃ between', u.eval.on table = (.ok w, between') ∧ t.eval.on between' = (.ok v, final) := by
  obtain ⟨_, written, hefft⟩ := t.eval_confined table
  obtain ⟨rfl, rfl⟩ := Prod.mk.inj (ht.symm.trans (hefft.on_eq table (.refl _ table)))
  -- the second run does the same from the first table, which agrees with its own
  obtain ⟨_, written', heffu⟩ := u.eval_confined table
  have hu' := heffu.on_eq _ (h.agreeOn hefft.write_mem)
  obtain ⟨rfl, rfl⟩ := Prod.mk.inj (hu.symm.trans hu')
  refine ⟨table ∪ written', heffu.on_eq table (.refl _ table), ?_⟩
  have hdisjoint : ∀ x ∈ written', x ∉ written := fun x hx hx' =>
    h.targets_targets (mem_targets (hefft.write_mem x hx')) (mem_targets (heffu.write_mem x hx))
  rw [hefft.on_eq _ (h.symm.agreeOn heffu.write_mem), Table.union_comm_of_disjoint _ hdisjoint]

end Independent

end Tree

/-! ## Lists of statements -/

/-- Where the first computation succeeds, the second one does the same. -/
def Eval.Within {α : Type} (x y : Eval α) : Prop :=
  ∀ table a final, x.on table = (.ok a, final) → y.on table = (.ok a, final)

namespace Eval.Within

variable {α β : Type}

theorem refl (x : Eval α) : x.Within x := fun _ _ _ h => h

theorem trans {x y z : Eval α} (hxy : x.Within y) (hyz : y.Within z) : x.Within z :=
  fun table a final h => hyz table a final (hxy table a final h)

theorem bind {x y : Eval α} {f g : α → Eval β} (hx : x.Within y) (hf : ∀ a, (f a).Within (g a)) :
    (x >>= f).Within (y >>= g) := by
  intro table b final h
  obtain ⟨a, between, ha, hb⟩ := Eval.exists_of_bind h
  rw [Eval.on_bind, hx table a between ha]
  exact hf a between b final hb

end Eval.Within

namespace Tree

theorem evalAll_append (ss us : List Tree) : evalAll (ss ++ us) = (do evalAll ss; evalAll us) := by
  induction ss with
  | nil => simp [evalAll]
  | cons s ss ih => simp [evalAll, ih]

theorem Independent.evalAll_within {t u : Tree} (h : t.Independent u) (ss : List Tree) :
    (evalAll (ss ++ [t, u])).Within (evalAll (ss ++ [u, t])) := by
  rw [evalAll_append, evalAll_append]
  refine .bind (.refl _) fun _ table _ final hrun => ?_
  obtain ⟨v, between, ht, hrun⟩ := Eval.exists_of_bind hrun
  obtain ⟨w, last, hu, hrun⟩ := Eval.exists_of_bind hrun
  obtain rfl : last = final := congrArg Prod.snd hrun
  obtain ⟨between', hu', ht'⟩ := h.eval_exchange ht hu
  simp only [evalAll, Eval.on_bind, hu', ht']
  rfl

theorem eval_program_within {ss ss' : List Tree} (h : (evalAll ss).Within (evalAll ss')) (name : String)
    (declarations : List Tree) :
    (program name (.block declarations (.compound ss))).eval.Within
      (program name (.block declarations (.compound ss'))).eval := by
  simp only [eval]
  exact .bind (.bind (.refl _) fun _ => .bind (.bind h fun _ => .refl _) fun _ => .refl _) fun _ => .refl _

end Tree

end Pascaline
