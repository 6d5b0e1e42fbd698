/-
  Pascaline.Proofs.Tree.Rename — a run does not look at what a name is.

  Of a name a table knows only whether it is one that it holds. So if different names stay
  different, a renamed program does in a renamed table what the program does in the table
  (`Mirrors`): each step does (`Mirrors.lookup`, `Mirrors.assign`), and so does the program,
  which is its bindings one after the other (`IsProgram.eval_mirrors`).
-/

import Pascaline.Proofs.Reading.Relabel
import Pascaline.Proofs.Tree.Bindings

namespace Pascaline

/-! ## Tables -/

/-- The second table holds the values of the first one under the images of the names. -/
def Table.Renamed (r : String → String) (table table' : Table) : Prop :=
  ∀ y v, table'[y]? = some v ↔ ∃ x, table[x]? = some v ∧ r x = y

/-- No two of the names have the same image. -/
def Distinguishes (r : String → String) (names : List String) : Prop := ∀ x ∈ names, ∀ y ∈ names, r x = r y → x = y

/-- A table with some of the names in it, and the table renamed. -/
structure Table.RenamedIn (names : List String) (r : String → String) (table table' : Table) : Prop where
  renamed : table.Renamed r table'
  known : ∀ x v, table[x]? = some v → x ∈ names

namespace Table.RenamedIn

variable {names : List String} {r : String → String} {table table' : Table} {x : String}

theorem empty : RenamedIn names r ∅ ∅ where
  renamed y v := by simp
  known x v h := by simp at h

theorem getElem? (hr : Distinguishes r names) (h : RenamedIn names r table table') (hx : x ∈ names) :
    table'[r x]? = table[x]? := by
  refine Option.ext fun v => ?_
  rw [h.renamed]
  constructor
  · rintro ⟨y, hy, heq⟩
    rwa [← hr y (h.known y v hy) x hx heq]
  · intro hv
    exact ⟨x, hv, rfl⟩

theorem insert (hr : Distinguishes r names) (h : RenamedIn names r table table') (hx : x ∈ names) (v : Float) :
    RenamedIn names r (table.insert x v) (table'.insert (r x) v) where
  renamed y w := by
    simp only [Std.ExtTreeMap.getElem?_insert, Std.compare_eq_iff_eq]
    by_cases hy : r x = y
    · rw [if_pos hy]
      constructor
      · intro hw
        exact ⟨x, by rwa [if_pos rfl], hy⟩
      · rintro ⟨z, hz, rfl⟩
        by_cases hxz : x = z
        · rwa [if_pos hxz] at hz
        · -- the table has no other name with this image
          rw [if_neg hxz] at hz
          exact absurd (hr x hx z (h.known z w hz) hy) hxz
    · rw [if_neg hy, h.renamed]
      refine exists_congr fun z => and_congr_left ?_
      rintro rfl
      rw [if_neg fun hxz => hy (congrArg r hxz)]
  known y w hy := by
    simp only [Std.ExtTreeMap.getElem?_insert, Std.compare_eq_iff_eq] at hy
    split at hy
    · rename_i heq
      exact heq ▸ hx
    · exact h.known y w hy

end Table.RenamedIn

/-! ## Computations -/

def EvalError.rename (r : String → String) : EvalError → EvalError
  | .undefinedVariable x n => .undefinedVariable (r x) n
  | e => e

/-- From the renamed table the second computation comes to what the first one comes to, and
    leaves the renamed table. -/
def Mirrors (names : List String) (r : String → String) {α : Type} (x y : Eval α) : Prop :=
  ∀ table table', Table.RenamedIn names r table table' →
    (y.on table').1 = (x.on table).1.mapError (.rename r) ∧ Table.RenamedIn names r (x.on table).2 (y.on table').2

namespace Mirrors

variable {names : List String} {r : String → String} {α β : Type}

theorem pure (a : α) : Mirrors names r (Pure.pure a : Eval α) (Pure.pure a) := fun _ _ h => ⟨rfl, h⟩

/-- The two computations have the same value, or fail together. -/
theorem outcome {x y : Eval α} (h : Mirrors names r x y) {table table' : Table}
    (ht : Table.RenamedIn names r table table') : ∃ after after', Table.RenamedIn names r after after' ∧
      ((∃ a, x.on table = (.ok a, after) ∧ y.on table' = (.ok a, after')) ∨
        ∃ e, x.on table = (.error e, after) ∧ y.on table' = (.error (e.rename r), after')) := by
  obtain ⟨hout, htable⟩ := h table table' ht
  refine ⟨_, _, htable, ?_⟩
  cases hx : (x.on table).1 with
  | ok a =>
    rw [hx] at hout
    exact Or.inl ⟨a, Prod.ext hx rfl, Prod.ext hout rfl⟩
  | error e =>
    rw [hx] at hout
    exact Or.inr ⟨e, Prod.ext hx rfl, Prod.ext hout rfl⟩

theorem bind {x y : Eval α} {k l : α → Eval β} (hx : Mirrors names r x y) (hk : ∀ a, Mirrors names r (k a) (l a)) :
    Mirrors names r (x >>= k) (y >>= l) := by
  intro table table' h
  obtain ⟨after, after', hafter, ⟨a, hxa, hya⟩ | ⟨e, hxe, hye⟩⟩ := hx.outcome h
  · rw [Eval.on_bind, Eval.on_bind, hxa, hya]
    exact hk a after after' hafter
  · rw [Eval.on_bind, Eval.on_bind, hxe, hye]
    exact ⟨rfl, hafter⟩

theorem lookup (hr : Distinguishes r names) {x : String} (hx : x ∈ names) (n : Nat) :
    Mirrors names r (Eval.lookup x n) (Eval.lookup (r x) n) := by
  intro table table' h
  rw [Eval.on_lookup, Eval.on_lookup, h.getElem? hr hx]
  cases table[x]? <;> exact ⟨rfl, h⟩

theorem assign (hr : Distinguishes r names) {x : String} (hx : x ∈ names) (v : Float) :
    Mirrors names r (Eval.assign x v) (Eval.assign (r x) v) := fun _ _ h => ⟨rfl, h.insert hr hx v⟩

theorem unary (op : Operator) (v : Float) (n : Nat) : Mirrors names r (Eval.unary op v n) (Eval.unary op v n) := by
  intro table table' h
  rw [Eval.on_unary, Eval.on_unary]
  cases op.unary? v <;> exact ⟨rfl, h⟩

end Mirrors

/-! ## Programs -/

/-- The tree with its names replaced, on the same lines. -/
def Tree.rename (r : String → String) (t : Tree) : Tree := t.relabel r id

def Binding.rename (r : String → String) (b : Binding) : Binding := ⟨r b.name, b.value.rename r⟩

namespace Tree

/-- All variables of the tree are among the names. -/
def NamesIn (names : List String) (t : Tree) : Prop := ∀ x n, .var x n ∈ t.nodes → x ∈ names

theorem children_relabel (g : String → String) (f : Nat → Nat) (t : Tree) :
    (t.relabel g f).children = t.children.map (relabel g f) := by
  cases t <;> simp [relabel, children, relabelAll_eq]

theorem nodes_relabel (g : String → String) (f : Nat → Nat) (t : Tree) :
    (t.relabel g f).nodes = t.nodes.map (relabel g f) := by
  induction t using children_induction with
  | step t ih =>
    rw [nodes_eq, nodes_eq t, children_relabel, List.flatMap_map, List.map_cons, List.map_flatMap]
    exact congrArg _ (List.flatMap_congr ih)

theorem binding?_rename (r : String → String) (t : Tree) :
    (t.rename r).binding? = t.binding?.map (Binding.rename r) := by
  cases t with
  | assign target value => cases target <;> rfl
  | _ => rfl

theorem bindings_rename (r : String → String) (t : Tree) :
    (t.rename r).bindings = t.bindings.map (Binding.rename r) := by
  rw [bindings, rename, nodes_relabel, List.filterMap_map, bindings, List.map_filterMap]
  exact congrArg (List.filterMap · _) (funext (binding?_rename r))

variable {names : List String} {r : String → String} {t : Tree}

theorem IsExpression.eval_mirrors (hr : Distinguishes r names) (h : t.IsExpression) (hn : t.NamesIn names) :
    Mirrors names r t.eval (t.rename r).eval := by
  induction h with
  | number v => exact .pure v
  | var h =>
    obtain ⟨-, n⟩ := h
    exact .lookup hr (hn _ n (mem_nodes_self _)) n
  | binary op n hl hr ihl ihr =>
    have ihl := ihl fun x m hx => hn x m (var_mem_nodes_binary.2 (Or.inl hx))
    have ihr := ihr fun x m hx => hn x m (var_mem_nodes_binary.2 (Or.inr hx))
    exact ihl.bind fun a => ihr.bind fun b => .pure _
  | unary n hop h ih =>
    have ih := ih fun x m hx => hn x m (var_mem_nodes_unary.2 hx)
    exact ih.bind fun a => .unary _ a n

theorem performAll_mirrors (hr : Distinguishes r names) {bs : List Binding} (hx : ∀ b ∈ bs, b.name ∈ names)
    (hv : ∀ b ∈ bs, b.value.IsExpression ∧ b.value.NamesIn names) :
    Mirrors names r (performAll bs) (performAll (bs.map (Binding.rename r))) := by
  induction bs with
  | nil => exact .pure ()
  | cons b bs ih =>
    obtain ⟨hxb, hxs⟩ := List.forall_mem_cons.1 hx
    obtain ⟨⟨hvb, hnb⟩, hvs⟩ := List.forall_mem_cons.1 hv
    have hb : Mirrors names r b.perform (b.rename r).perform :=
      (hvb.eval_mirrors hr hnb).bind fun v => .assign hr hxb v
    simpa [performAll] using hb.bind fun _ => ih hxs hvs

/-- A renamed program does in a renamed table what the program does in the table. -/
theorem IsProgram.eval_mirrors (hr : Distinguishes r names) (h : t.IsProgram) (h' : (t.rename r).IsProgram)
    (hn : t.NamesIn names) : Mirrors names r t.eval (t.rename r).eval := by
  rw [h.eval_eq, h'.eval_eq, bindings_rename]
  refine Mirrors.bind (performAll_mirrors hr (fun b hb => ?_) fun b hb => ⟨?_, fun x n hx => ?_⟩) fun _ => .pure 0
  · obtain ⟨n, hnode⟩ := mem_bindings hb
    exact hn b.name n (nodes_subset hnode (mem_nodes_of_mem_children (by simp [children]) (mem_nodes_self _)))
  · exact h.isExpression_of_mem_bindings b hb
  · obtain ⟨m, hnode⟩ := mem_bindings hb
    exact hn x n (nodes_subset hnode (mem_nodes_of_mem_children (by simp [children]) hx))

end Tree

end Pascaline
