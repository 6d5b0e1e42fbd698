/-
  Pascaline.Proofs.Graph.Forest — a drawing is the forest of the trees that were drawn.

  `Tree.linesFrom` are the lines of a tree whose root has a given number, said with the label
  and the children of each node: the line of the node, then for each child the lines of the
  child, numbered on from what stands before, and the edge to it. `Tree.linesOf` are those of
  several trees, with an edge from a common parent to each root if there is one. Both
  recursions are the one that facts about them are proved by (`linesFrom.mutual_induct`).

  - `draw_eq`, `addAll_eq`: a drawing adds just these lines to those drawn before.
  - `filterMap_id?_lines`: the numbers go to the nodes in order, each to one.
  - `perm_targets`: each number is a root or the target of one edge.
  - `edge_mem_lines`: edges lead to higher numbers.
  - `existsUnique_root`: so each node is reached from one root.
  - `shows_linesOf`: what hangs below a root is its tree.
-/

import Pascaline.Proofs.Graph.Escape
import Pascaline.Proofs.Tree.Marks
import Mathlib.Data.List.Forall2
import Mathlib.Data.List.Nodup
import Mathlib.Data.List.Pairwise
import Mathlib.Logic.Relation

namespace Pascaline

open Pascaline.Graph

namespace Tree

/-- The number of nodes of a tree. -/
def size (t : Tree) : Nat := (t.children.attach.map fun c => c.1.size).sum + 1
termination_by t
decreasing_by exact sizeOf_lt_of_mem_children c.2

/-- The number of nodes of trees. -/
def sizes (ts : List Tree) : Nat := (ts.map size).sum

@[simp] theorem sizes_nil : sizes [] = 0 := rfl

@[simp] theorem sizes_cons (t : Tree) (ts : List Tree) : sizes (t :: ts) = t.size + sizes ts := by simp [sizes]

theorem size_eq (t : Tree) : t.size = sizes t.children + 1 := by
  rw [size, sizes, List.map_attach_eq_pmap, List.pmap_eq_map]

mutual
/-- The lines of a tree whose root has the number. -/
def linesFrom (id : Nat) (t : Tree) : List Line := .node id t.label :: linesOf (some id) (id + 1) t.children
termination_by 2 * t.size
decreasing_by
  rw [t.size_eq]
  omega

/-- The lines of trees that are numbered on from the number, each with the edge to its root. -/
def linesOf (parent : Option Nat) (id : Nat) (ts : List Tree) : List Line :=
  match ts with
  | [] => []
  | t :: ts => linesFrom id t ++ ((parent.map fun p => .edge p id).toList ++ linesOf parent (id + t.size) ts)
termination_by 2 * sizes ts + 1
decreasing_by
  all_goals
    have := t.size_eq
    simp only [sizes_cons]
    omega
end

/-- The numbers of the roots of trees that are numbered one after the other. -/
def rootIds (id : Nat) : List Tree → List Nat
  | [] => []
  | t :: ts => id :: rootIds (id + t.size) ts

theorem rootIds_eq (id : Nat) (ts : List Tree) :
    rootIds id ts = (List.range ts.length).map fun k => id + sizes (ts.take k) := by
  induction ts generalizing id with
  | nil => rfl
  | cons t ts ih =>
    rw [rootIds, ih, List.length_cons, List.range_succ_eq_map]
    simp [Function.comp_def, Nat.add_assoc]

theorem linesOf_none (id : Nat) (ts : List Tree) :
    linesOf none id ts = (List.zipWith linesFrom (rootIds id ts) ts).flatten := by
  induction ts generalizing id with
  | nil =>
    rw [linesOf]
    rfl
  | cons t ts ih =>
    rw [linesOf, ih]
    rfl

end Tree

/-! ## What is drawn -/

namespace Drawing

theorem draw_eq (t : Tree) (d : Drawing) :
    d.draw t.labelled = ⟨d.nextId + t.size, d.lines ++ (t.linesFrom d.nextId).toArray⟩ := by
  refine (Tree.linesFrom.mutual_induct
    (fun id t => ∀ d : Drawing, d.nextId = id →
      d.draw t.labelled = ⟨id + t.size, d.lines ++ (t.linesFrom id).toArray⟩)
    (fun parent id ts => ∀ (d : Drawing) p, parent = some p → d.nextId = id →
      d.drawBelow p (ts.map Tree.labelled) = ⟨id + Tree.sizes ts, d.lines ++ (Tree.linesOf parent id ts).toArray⟩)
    ?node ?nil ?cons).1 d.nextId t d rfl
  case node =>
    rintro _ t ih d rfl
    rw [Tree.labelled_eq, draw, ih (d.node t.label) d.nextId rfl rfl, Tree.linesFrom, t.size_eq]
    simp [Drawing.node]
    omega
  case nil =>
    rintro _ _ d p rfl rfl
    rw [List.map_nil, drawBelow, Tree.linesOf]
    simp
  case cons =>
    rintro _ _ t ts iht ihts d p rfl rfl
    rw [List.map_cons, drawBelow, iht d rfl, ihts _ p rfl rfl, Tree.linesOf]
    simp [Drawing.edge, Nat.add_assoc]

theorem addAll_eq (d : Drawing) (ts : List Tree) :
    d.addAll ts = (Tree.rootIds d.nextId ts,
      ⟨d.nextId + Tree.sizes ts, d.lines ++ (Tree.linesOf none d.nextId ts).toArray⟩) := by
  induction ts generalizing d with
  | nil => simp [addAll, Tree.rootIds, Tree.linesOf]
  | cons t ts ih =>
    simp only [addAll, add, draw_eq, ih, Tree.rootIds, Tree.linesOf]
    simp [Nat.add_assoc]

end Drawing

/-! ## Nodes and edges -/

namespace Graph.Line

def id? : Line → Option Nat
  | .node id _ => some id
  | .edge .. => none

def target? : Line → Option Nat
  | .node .. => none
  | .edge _ target => some target

def targetFrom? (source : Nat) : Line → Option Nat
  | .node .. => none
  | .edge s target => if s = source then some target else none

end Graph.Line

namespace Tree

/-- Each number is given to one node, in order. -/
theorem filterMap_id?_lines :
    (∀ id t, (linesFrom id t).filterMap Line.id? = List.range' id t.size) ∧
    ∀ parent id ts, (linesOf parent id ts).filterMap Line.id? = List.range' id (sizes ts) := by
  refine linesFrom.mutual_induct (fun id t => (t.linesFrom id).filterMap Line.id? = List.range' id t.size)
    (fun parent id ts => (linesOf parent id ts).filterMap Line.id? = List.range' id (sizes ts)) ?node ?nil ?cons
  case node =>
    intro id t ih
    rw [linesFrom, size_eq, List.range'_succ, ← ih]
    rfl
  case nil =>
    intro parent id
    rw [linesOf]
    rfl
  case cons =>
    intro parent id t ts iht ihts
    have hedge : (parent.map fun p => Line.edge p id).toList.filterMap Line.id? = [] := by
      cases parent <;> rfl
    rw [linesOf, List.filterMap_append, List.filterMap_append, iht, ihts, hedge, List.nil_append, sizes_cons]
    simp

/-- The roots of trees to which no edge leads. -/
def loose (parent : Option Nat) (id : Nat) (ts : List Tree) : List Nat :=
  if parent.isSome then [] else rootIds id ts

/-- Each number is that of a root, or the target of one edge. -/
theorem perm_targets (id : Nat) (ts : List Tree) :
    (rootIds id ts ++ (linesOf none id ts).filterMap Line.target?).Perm (List.range' id (sizes ts)) := by
  refine (linesFrom.mutual_induct
    (fun id t => (id :: (t.linesFrom id).filterMap Line.target?).Perm (List.range' id t.size))
    (fun parent id ts =>
      (loose parent id ts ++ (linesOf parent id ts).filterMap Line.target?).Perm (List.range' id (sizes ts)))
    ?node ?nil ?cons).2 none id ts
  case node =>
    intro id t ih
    rw [linesFrom, size_eq, List.range'_succ]
    exact .cons id ih
  case nil =>
    intro parent id
    rw [linesOf]
    cases parent <;> exact .nil
  case cons =>
    intro parent id t ts iht ihts
    rw [linesOf, List.filterMap_append, List.filterMap_append, sizes_cons, ← List.range'_append]
    simp only [Nat.one_mul]
    refine List.Perm.trans ?_ (iht.append ihts)
    -- the root is among the loose ones, or there is the edge to it
    cases parent with
    | none =>
      refine .cons id ?_
      simpa [loose] using List.perm_append_comm_assoc (rootIds (id + t.size) ts) _ _
    | some p => simp [loose, Line.target?]

/-- Edges lead to higher numbers, from the nodes that are numbered or from the parent. -/
theorem edge_mem_lines :
    (∀ id t s u, .edge s u ∈ linesFrom id t → id ≤ s ∧ s < u ∧ u < id + t.size) ∧
    ∀ parent id ts, (∀ p, parent = some p → p < id) → ∀ s u, .edge s u ∈ linesOf parent id ts →
      (parent = some s ∨ id ≤ s) ∧ s < u ∧ u < id + sizes ts := by
  refine linesFrom.mutual_induct
    (fun id t => ∀ s u, .edge s u ∈ linesFrom id t → id ≤ s ∧ s < u ∧ u < id + t.size)
    (fun parent id ts => (∀ p, parent = some p → p < id) → ∀ s u, .edge s u ∈ linesOf parent id ts →
      (parent = some s ∨ id ≤ s) ∧ s < u ∧ u < id + sizes ts)
    ?node ?nil ?cons
  case node =>
    intro id t ih s u hmem
    rw [linesFrom] at hmem
    obtain ⟨hs, hlt, hu⟩ := ih (by simp) s u (by simpa using hmem)
    rw [size_eq]
    simp only [Option.some.injEq] at hs
    omega
  case nil =>
    intro parent id hparent s u hmem
    rw [linesOf] at hmem
    cases hmem
  case cons =>
    intro parent id t ts iht ihts hparent s u hmem
    rw [linesOf] at hmem
    rw [sizes_cons]
    rcases List.mem_append.1 hmem with hmem | hmem
    · have := iht s u hmem
      omega
    · rcases List.mem_append.1 hmem with hmem | hmem
      · have := t.size_eq
        cases parent with
        | none => cases hmem
        | some p =>
          obtain ⟨rfl, rfl⟩ : s = p ∧ u = id := by simpa using hmem
          exact ⟨Or.inl rfl, hparent s rfl, by omega⟩
      · have hp : ∀ p, parent = some p → p < id + t.size := fun p hp => Nat.lt_add_right _ (hparent p hp)
        obtain ⟨hs, hlt, hu⟩ := ihts hp s u hmem
        exact ⟨hs.imp_right fun hs => by omega, hlt, by omega⟩

end Tree

/-! ## The tree below a node -/

/-- Where the edges from a node lead, in their order. -/
def targetsFrom (ls : List Line) (source : Nat) : List Nat := ls.filterMap (Line.targetFrom? source)

theorem edge_mem_of_mem_targetsFrom {ls : List Line} {source target : Nat} (h : target ∈ targetsFrom ls source) :
    .edge source target ∈ ls := by
  obtain ⟨l, hl, htarget⟩ := List.mem_filterMap.1 h
  cases l with
  | node id label => cases htarget
  | edge s u =>
    simp only [Line.targetFrom?] at htarget
    split at htarget
    · rename_i hs
      obtain rfl := Option.some.inj htarget
      rwa [← hs]
    · cases htarget

theorem targetsFrom_eq_nil {ls : List Line} {source : Nat} (h : ∀ u, .edge source u ∉ ls) :
    targetsFrom ls source = [] :=
  List.eq_nil_iff_forall_not_mem.2 fun u hu => h u (edge_mem_of_mem_targetsFrom hu)

theorem targetsFrom_append (ls ms : List Line) (source : Nat) :
    targetsFrom (ls ++ ms) source = targetsFrom ls source ++ targetsFrom ms source := List.filterMap_append ..

namespace Tree

theorem targetsFrom_linesFrom {id source : Nat} {t : Tree} (h : source < id ∨ id + t.size ≤ source) :
    targetsFrom (t.linesFrom id) source = [] := by
  refine targetsFrom_eq_nil fun u hu => ?_
  have := edge_mem_lines.1 id t source u hu
  omega

/-- The edges from the parent lead to the roots, in order. -/
theorem targetsFrom_linesOf {parent id : Nat} (h : parent < id) (ts : List Tree) :
    targetsFrom (linesOf (some parent) id ts) parent = rootIds id ts := by
  induction ts generalizing id with
  | nil =>
    rw [linesOf]
    rfl
  | cons t ts ih =>
    rw [linesOf, targetsFrom_append, targetsFrom_append, targetsFrom_linesFrom (Or.inl h), ih (by omega)]
    simp [targetsFrom, Line.targetFrom?, rootIds]

/-- The lines show the tree below the node: the node has the label of the root, and its edges
    lead to nodes below which they show the children, one by one. -/
inductive Shows (ls : List Line) : Nat → Tree → Prop
  | node {id : Nat} {t : Tree} (label : .node id t.label ∈ ls)
      (children : List.Forall₂ (Shows ls) (targetsFrom ls id) t.children) : Shows ls id t

/-- Below each root the lines show its tree. In the induction they stand among others, of
    which none is an edge from the same nodes. -/
theorem shows_linesOf (id : Nat) (ts : List Tree) :
    List.Forall₂ (Shows (linesOf none id ts)) (rootIds id ts) ts := by
  refine (linesFrom.mutual_induct
    (fun id t => ∀ ls, t.linesFrom id ⊆ ls →
      (∀ s, id ≤ s → s < id + t.size → targetsFrom ls s = targetsFrom (t.linesFrom id) s) → Shows ls id t)
    (fun parent id ts => (∀ p, parent = some p → p < id) → ∀ ls, linesOf parent id ts ⊆ ls →
      (∀ s, id ≤ s → s < id + sizes ts → targetsFrom ls s = targetsFrom (linesOf parent id ts) s) →
        List.Forall₂ (Shows ls) (rootIds id ts) ts)
    ?node ?nil ?cons).2 none id ts nofun _ (List.Subset.refl _) fun _ _ _ => rfl
  case node =>
    intro id t ih ls hsub htargets
    have hsize := t.size_eq
    have hself : targetsFrom ls id = rootIds (id + 1) t.children := by
      rw [htargets id (Nat.le_refl id) (by omega), linesFrom]
      exact targetsFrom_linesOf (Nat.lt_succ_self id) t.children
    rw [linesFrom] at hsub htargets
    refine .node (hsub List.mem_cons_self) ?_
    rw [hself]
    exact ih (by simp) ls (fun l hl => hsub (List.mem_cons_of_mem _ hl)) fun s hs hs' =>
      htargets s (by omega) (by omega)
  case nil =>
    intro parent id hparent ls hsub htargets
    exact .nil
  case cons =>
    intro parent id t ts iht ihts hparent ls hsub htargets
    have hp : ∀ p, parent = some p → p < id + t.size := fun p hp => Nat.lt_add_right _ (hparent p hp)
    rw [linesOf] at hsub htargets
    rw [sizes_cons] at htargets
    -- the edge to the root comes from none of the nodes
    have hedge : ∀ s, id ≤ s → targetsFrom (parent.map fun p => Line.edge p id).toList s = [] := by
      intro s hs
      refine targetsFrom_eq_nil fun u hu => ?_
      cases parent with
      | none => cases hu
      | some p =>
        obtain ⟨rfl, -⟩ : s = p ∧ u = id := by simpa using hu
        exact absurd (hparent s rfl) (Nat.not_lt.2 hs)
    refine .cons (iht ls (fun l hl => hsub (List.mem_append_left _ hl)) fun s hs hs' => ?_)
      (ihts hp ls (fun l hl => hsub (List.mem_append_right _ (List.mem_append_right _ hl))) fun s hs hs' => ?_)
    · have hrest : targetsFrom (linesOf parent (id + t.size) ts) s = [] := by
        refine targetsFrom_eq_nil fun u hu => ?_
        rcases (edge_mem_lines.2 parent _ ts hp s u hu).1 with hs'' | hs''
        · have := hparent s hs''
          omega
        · omega
      rw [htargets s hs (by omega), targetsFrom_append, targetsFrom_append, hedge s hs, hrest]
      simp
    · rw [htargets s (by omega) (by omega), targetsFrom_append, targetsFrom_append, hedge s (by omega),
        targetsFrom_linesFrom (Or.inr hs)]
      simp

/-! ## The roots -/

variable (ts : List Tree)

theorem nodup_rootIds_targets : (rootIds 0 ts ++ (linesOf none 0 ts).filterMap Line.target?).Nodup :=
  (perm_targets 0 ts).nodup_iff.2 List.nodup_range'

theorem nodup_targets : ((linesOf none 0 ts).filterMap Line.target?).Nodup :=
  (List.nodup_append'.1 (nodup_rootIds_targets ts)).2.1

theorem mem_targets_linesOf {i : Nat} :
    i ∈ (linesOf none 0 ts).filterMap Line.target? ↔ i < sizes ts ∧ i ∉ rootIds 0 ts := by
  have hmem := (perm_targets 0 ts).mem_iff (a := i)
  have hdisjoint := (List.nodup_append'.1 (nodup_rootIds_targets ts)).2.2
  rw [List.mem_append, List.mem_range'_1] at hmem
  constructor
  · intro hi
    exact ⟨by have := hmem.1 (Or.inr hi); omega, fun hroot => hdisjoint hroot hi⟩
  · intro ⟨hi, hroot⟩
    exact (hmem.2 (by omega)).resolve_left hroot

theorem count_targets_linesOf (i : Nat) : ((linesOf none 0 ts).filterMap Line.target?).count i =
    if i < sizes ts ∧ i ∉ rootIds 0 ts then 1 else 0 := by
  rw [(nodup_targets ts).count]
  exact if_congr (mem_targets_linesOf ts) rfl rfl

theorem mem_targets_iff {ls : List Line} {u : Nat} : u ∈ ls.filterMap Line.target? ↔ ∃ s, .edge s u ∈ ls := by
  rw [List.mem_filterMap]
  constructor
  · intro ⟨l, hl, h⟩
    cases l with
    | node id label => cases h
    | edge s v =>
      obtain rfl := Option.some.inj h
      exact ⟨s, hl⟩
  · intro ⟨s, h⟩
    exact ⟨_, h, rfl⟩

/-- There is one edge at most to a node. -/
theorem edge_unique {s s' u : Nat} (h : .edge s u ∈ linesOf none 0 ts) (h' : .edge s' u ∈ linesOf none 0 ts) :
    s = s' := by
  by_contra hne
  have hpairs := List.pairwise_filterMap.1 (nodup_targets ts)
  have hsymm : Std.Symm fun l l' : Line => ∀ v, l.target? = some v → ∀ v', l'.target? = some v' → v ≠ v' :=
    ⟨fun l l' hl v hv v' hv' => (hl v' hv' v hv).symm⟩
  have hlines : Line.edge s u ≠ .edge s' u := fun heq => hne (Line.edge.inj heq).1
  exact hpairs.forall h h' hlines u rfl u rfl rfl

/-- Every node is reached from one root. -/
theorem existsUnique_root {i : Nat} (hi : i < sizes ts) :
    ∃! r, r ∈ rootIds 0 ts ∧ Relation.ReflTransGen (fun s u => .edge s u ∈ linesOf none 0 ts) r i := by
  induction i using Nat.strongRecOn with
  | ind i ih =>
    by_cases hroot : i ∈ rootIds 0 ts
    · refine ⟨i, ⟨hroot, .refl⟩, fun r ⟨_, hreach⟩ => ?_⟩
      rcases hreach.cases_tail with rfl | ⟨s, -, hedge⟩
      · rfl
      · exact absurd hroot ((mem_targets_linesOf ts).1 (mem_targets_iff.2 ⟨s, hedge⟩)).2
    · obtain ⟨s, hedge⟩ := mem_targets_iff.1 ((mem_targets_linesOf ts).2 ⟨hi, hroot⟩)
      have hlt := (edge_mem_lines.2 none 0 ts nofun s i hedge).2.1
      obtain ⟨r, ⟨hr, hreach⟩, hunique⟩ := ih s hlt (by omega)
      refine ⟨r, ⟨hr, hreach.tail hedge⟩, fun r' ⟨hr', hreach'⟩ => ?_⟩
      rcases hreach'.cases_tail with rfl | ⟨s', hs', hedge'⟩
      · exact absurd hr' hroot
      · obtain rfl := edge_unique ts hedge hedge'
        exact hunique r' ⟨hr', hs'⟩

end Tree

namespace Drawing

/-- Drawing trees one after the other adds their lines, and draws the forest of them.

    The number given back for a tree is the number of nodes before it, and its lines are put
    behind those drawn before; so is the last tree in the text of a drawing, between the
    header and the footer. A node stands there with its number and its label, escaped, and an
    edge with the numbers at its ends. In a drawing that starts blank, every number below the next one is
    given to one node; it is the target of one edge if it is no root, and of none if it is;
    edges lead to higher numbers. So every node hangs below one root, and the tree that hangs
    below each root is the one that was drawn. -/
theorem addAll_forest :
    (∀ (d : Drawing) (ts : List Tree),
      (d.addAll ts).1 = (List.range ts.length).map (fun k => d.nextId + Tree.sizes (ts.take k)) ∧
      (d.addAll ts).2.nextId = d.nextId + Tree.sizes ts ∧
      (d.addAll ts).2.lines.toList = d.lines.toList ++ (List.zipWith Tree.linesFrom (d.addAll ts).1 ts).flatten) ∧
    (∀ (d : Drawing) (t : Tree), (d.add t).2.text =
      Graph.header ++ String.join (d.lines.toList.map Line.text) ++
        String.join ((t.linesFrom d.nextId).map Line.text) ++ Graph.footer) ∧
    (∀ id label, (Line.node id label).text =
      "Node" ++ id.repr ++ " [label=\"" ++ replaceInTurn label ++ "\"]\n") ∧
    (∀ s u : Nat, (Line.edge s u).text = "Node" ++ s.repr ++ " -> Node" ++ u.repr ++ "\n") ∧
    ∀ ts : List Tree,
      let roots := (blank.addAll ts).1
      let d := (blank.addAll ts).2
      d.lines.toList.filterMap Line.id? = List.range d.nextId ∧
      (∀ i, (d.lines.toList.filterMap Line.target?).count i = if i < d.nextId ∧ i ∉ roots then 1 else 0) ∧
      (∀ s u, .edge s u ∈ d.lines.toList → s < u ∧ u < d.nextId) ∧
      (∀ i < d.nextId, ∃! r, r ∈ roots ∧ Relation.ReflTransGen (fun s u => .edge s u ∈ d.lines.toList) r i) ∧
      List.Forall₂ (Tree.Shows d.lines.toList) roots ts := by
  refine ⟨fun d ts => ?_, fun d t => ?_, fun id label => ?_, fun s u => rfl, fun ts => ?_⟩
  · simp [addAll_eq, Tree.rootIds_eq, Tree.linesOf_none]
  · simp [add, draw_eq, text, String.join_append, String.append_assoc]
  · rw [replaceInTurn_eq]
    rfl
  · simp only [addAll_eq, blank, Nat.zero_add, List.append_toArray, List.nil_append]
    refine ⟨?_, Tree.count_targets_linesOf ts, fun s u h => ?_, fun i hi => Tree.existsUnique_root ts hi,
      Tree.shows_linesOf 0 ts⟩
    · rw [List.range_eq_range']
      exact Tree.filterMap_id?_lines.2 none 0 ts
    · have := (Tree.edge_mem_lines.2 none 0 ts nofun s u h).2
      omega

/-- The variable hangs below the sign, and the empty statement is a tree by itself. -/
theorem addAll_forest_two :
    let ts : List Tree := [.unary .minus (.var "x" 1) 1, .empty]
    let d := (blank.addAll ts).2
    (blank.addAll ts).1 = [0, 2] ∧ d.nextId = 3 ∧
      (∃! r, r ∈ [0, 2] ∧ Relation.ReflTransGen (fun s u => .edge s u ∈ d.lines.toList) r 1) := by
  intro ts d
  obtain ⟨hdraw, -, -, -, hforest⟩ := addAll_forest
  obtain ⟨hroots, hnext, -⟩ := hdraw blank ts
  have hsizes : Tree.size (.unary .minus (.var "x" 1) 1) = 2 ∧ Tree.size .empty = 1 := by
    simp [Tree.size_eq, Tree.children]
  have hroots : (blank.addAll ts).1 = [0, 2] := by
    rw [hroots]
    simp [ts, blank, hsizes, List.range_succ]
  have hnext : d.nextId = 3 := by
    rw [hnext]
    simp [ts, blank, hsizes]
  refine ⟨hroots, hnext, ?_⟩
  have hreach := (hforest ts).2.2.2.1 1 (by rw [hnext]; decide)
  rwa [hroots] at hreach

end Drawing

end Pascaline
