/-
  Pascaline.Proofs.Graph.Decode — the text of a drawing determines the tree that was drawn.

  `Graph.decode?` reads a text in three steps: what stands behind the header is split at its
  line feeds, each line is read by itself (`readLine?`), and the lines are followed from
  first to last with a stack of the nodes that are still open (`follow?`). A node opens with
  its line and closes with the edge to it, so the order of the edges is the order of the
  children.

  - `readLine?_written`: a line reads back as itself, whatever its label holds.
  - `lines?_text`: every drawing, of one tree or of several, reads back as its lines.
  - `opened?_draw`: drawing a tree opens that tree above all that was open before.
  - `dot_determines_labels`: the decoder gives back the labelled tree, so two trees have the
    same text iff they have the same labels in the same places (`SameLabels`).
-/

import Pascaline.Graph.Drawing
import Pascaline.Proofs.Tree.Marks
import Mathlib.Data.List.Forall2

namespace Pascaline

/-! ## Numbers -/

theorem Decimal.natural_toDigits (n : Nat) : natural (Nat.toDigits 10 n) = n :=
  (Nat.ofDigitChars_eq_foldl ..).symm.trans Nat.ofDigitChars_ten_toDigits

namespace Graph

/-- The number at the front of a text, and the text after it. -/
def readNumber (cs : List Char) : Nat × List Char :=
  (Decimal.natural (cs.takeWhile Char.isDigit), cs.dropWhile Char.isDigit)

theorem isDigit_of_mem_toDigits {n : Nat} {c : Char} (h : c ∈ Nat.toDigits 10 n) : c.isDigit :=
  Nat.isDigit_of_mem_toDigits (by decide) (by decide) h

theorem newline_not_mem_toDigits (n : Nat) : '\n' ∉ Nat.toDigits 10 n := fun h =>
  absurd (isDigit_of_mem_toDigits h) (by decide)

theorem readNumber_toDigits (n : Nat) {rest : List Char} (h : ∀ c ∈ rest.head?, ¬c.isDigit) :
    readNumber (Nat.toDigits 10 n ++ rest) = (n, rest) := by
  rw [readNumber, List.takeWhile_append_of_pos fun _ => isDigit_of_mem_toDigits,
    List.dropWhile_append_of_pos fun _ => isDigit_of_mem_toDigits]
  cases rest with
  | nil => simp [Decimal.natural_toDigits]
  | cons c rest => simp [h c rfl, Decimal.natural_toDigits]

/-! ## Lines -/

def readTarget? (cs : List Char) : Option Nat :=
  match readNumber cs with
  | (target, []) => some target
  | _ => none

def readLabel? (cs : List Char) : Option String :=
  match readEscaped cs with
  | some (label, [']']) => some (String.ofList label)
  | _ => none

/-- Reads what stands behind the first number of a line. -/
def readBehind? (id : Nat) (cs : List Char) : Option Line :=
  match cs.dropPrefix? " [label=\"".toList with
  | some label => (readLabel? label).map (.node id)
  | none => ((cs.dropPrefix? " -> Node".toList).bind readTarget?).map (.edge id)

/-- Reads a line, its line feed left out. -/
def readLine? (cs : List Char) : Option Line :=
  (cs.dropPrefix? "Node".toList).bind fun rest => readBehind? (readNumber rest).1 (readNumber rest).2

/-- A line as it is written, its line feed left out. -/
def Line.written : Line → List Char
  | .node id label =>
    "Node".toList ++ (Nat.toDigits 10 id ++ (" [label=\"".toList ++ (escape label.toList ++ "\"]".toList)))
  | .edge source target => "Node".toList ++ (Nat.toDigits 10 source ++ (" -> Node".toList ++ Nat.toDigits 10 target))

theorem Line.toList_text (l : Line) : l.text.toList = l.written ++ ['\n'] := by
  cases l <;> simp [text, written]

theorem readLabel?_escape (label : String) : readLabel? (escape label.toList ++ "\"]".toList) = some label := by
  have h : readEscaped (escape label.toList ++ "\"]".toList) = some (label.toList, [']']) := readEscaped_escape ..
  rw [readLabel?, h]
  exact congrArg some (String.ofList_toList ..)

theorem readTarget?_toDigits (n : Nat) : readTarget? (Nat.toDigits 10 n) = some n := by
  have h : readNumber (Nat.toDigits 10 n ++ []) = (n, []) := readNumber_toDigits n (by simp)
  rw [List.append_nil] at h
  rw [readTarget?, h]

theorem readBehind?_node (id : Nat) (label : String) :
    readBehind? id (" [label=\"".toList ++ (escape label.toList ++ "\"]".toList)) = some (.node id label) := by
  rw [readBehind?, List.dropPrefix?_append_of_beq _ (beq_self_eq_true _)]
  exact congrArg (Option.map (Line.node id)) (readLabel?_escape label)

theorem readBehind?_edge (source target : Nat) :
    readBehind? source (" -> Node".toList ++ Nat.toDigits 10 target) = some (.edge source target) := by
  -- The second character tells an edge from a node.
  have hnode : (" -> Node".toList ++ Nat.toDigits 10 target).dropPrefix? " [label=\"".toList = none := rfl
  rw [readBehind?, hnode, List.dropPrefix?_append_of_beq _ (beq_self_eq_true _)]
  exact congrArg (Option.map (Line.edge source)) (readTarget?_toDigits target)

theorem readLine?_written (l : Line) : readLine? l.written = some l := by
  cases l with
  | node id label =>
    rw [readLine?, Line.written, List.dropPrefix?_append_of_beq _ (beq_self_eq_true _), Option.bind_some,
      readNumber_toDigits id (by simp)]
    exact readBehind?_node id label
  | edge source target =>
    rw [readLine?, Line.written, List.dropPrefix?_append_of_beq _ (beq_self_eq_true _), Option.bind_some,
      readNumber_toDigits source (by simp)]
    exact readBehind?_edge source target

theorem Line.newline_not_mem_written (l : Line) : '\n' ∉ l.written := by
  cases l <;> simp [written, newline_not_mem_toDigits, newline_not_mem_escape]

/-! ## Drawings -/

/-- Reads the lines up to the footer, behind which nothing may stand. -/
def readLines? : List (List Char) → Option (List Line)
  | [] => none
  | l :: ls => if l :: ls = ["\x7d".toList, []] then some [] else do return (← readLine? l) :: (← readLines? ls)

/-- The lines of a drawing, read from its text. -/
def lines? (text : String) : Option (List Line) := do
  readLines? ((← text.toList.dropPrefix? header.toList).splitOn '\n')

theorem splitOn_text (ls : List Line) (rest : List Char) :
    (ls.flatMap (fun l => l.text.toList) ++ rest).splitOn '\n' = ls.map Line.written ++ rest.splitOn '\n' := by
  induction ls with
  | nil => rfl
  | cons l ls ih =>
    rw [List.flatMap_cons, Line.toList_text, List.append_assoc, List.append_assoc, List.singleton_append,
      List.splitOn_append_cons_self_of_not_mem l.newline_not_mem_written, ih, List.map_cons, List.cons_append]

theorem readLines?_written (ls : List Line) :
    readLines? (ls.map Line.written ++ ["\x7d".toList, []]) = some ls := by
  induction ls with
  | nil => rfl
  | cons l ls ih =>
    have hl : l.written ≠ "\x7d".toList := by cases l <;> simp [Line.written]
    rw [List.map_cons, List.cons_append, readLines?, if_neg fun h => hl (List.cons.inj h).1, readLine?_written, ih]
    rfl

/-- A drawing reads back as its lines. -/
theorem lines?_text (d : Drawing) : lines? d.text = some d.lines.toList := by
  have htext : d.text.toList = header.toList ++
      (d.lines.toList.flatMap (fun l => l.text.toList) ++ footer.toList) := by
    simp [Drawing.text, List.flatMap_map]
  have hfooter : footer.toList.splitOn '\n' = ["\x7d".toList, []] := by decide
  rw [lines?, htext, List.dropPrefix?_append_of_beq _ (beq_self_eq_true _), Option.bind_eq_bind, Option.bind_some,
    splitOn_text, hfooter, readLines?_written]

/-! ## Trees -/

/-- A node whose line has been read, with those of its children that are complete. -/
structure OpenNode where
  id : Nat
  label : String
  children : List Labelled

def OpenNode.tree (n : OpenNode) : Labelled := .node n.label n.children

/-- The root of a tree when all below it has been read. -/
def OpenNode.root (id : Nat) : Labelled → OpenNode
  | .node label children => ⟨id, label, children⟩

@[simp] theorem OpenNode.root_id (id : Nat) (t : Labelled) : (root id t).id = id := by cases t; rfl

@[simp] theorem OpenNode.tree_root (id : Nat) (t : Labelled) : (root id t).tree = t := by cases t; rfl

def OpenNode.addChild (n : OpenNode) (t : Labelled) : OpenNode := { n with children := n.children ++ [t] }

/-- What a line does to the open nodes, of which the innermost stands first. An edge must
    lead from the innermost but one to the innermost. -/
def follow? : List OpenNode → Line → Option (List OpenNode)
  | opened, .node id label => some (⟨id, label, []⟩ :: opened)
  | child :: parent :: opened, .edge source target =>
    if parent.id = source ∧ child.id = target then some (parent.addChild child.tree :: opened) else none
  | _, .edge .. => none

/-- The tree that lines draw, if they draw a single one. -/
def tree? (ls : List Line) : Option Labelled :=
  match ls.foldlM follow? [] with
  | some [n] => some n.tree
  | _ => none

/-- The tree that the text of a drawing shows. -/
def decode? (text : String) : Option Labelled := (lines? text).bind tree?

end Graph

namespace Drawing

open Pascaline.Graph

variable {d : Drawing} {opened : List OpenNode}

/-- The nodes that are open behind the lines drawn so far. -/
def opened? (d : Drawing) : Option (List OpenNode) := d.lines.toList.foldlM follow? []

theorem opened?_node (h : d.opened? = some opened) (label : String) :
    (d.node label).opened? = some (⟨d.nextId, label, []⟩ :: opened) := by
  unfold opened? at h ⊢
  simp [node, h, follow?]

theorem opened?_edge {child parent : OpenNode} (h : d.opened? = some (child :: parent :: opened)) :
    (d.edge parent.id child.id).opened? = some (parent.addChild child.tree :: opened) := by
  unfold opened? at h ⊢
  simp [edge, h, follow?]

-- Along the recursion of `draw` and `drawBelow`: what was open stays open below the tree.
mutual
theorem opened?_draw {d : Drawing} {opened : List OpenNode} (h : d.opened? = some opened) :
    ∀ t : Labelled, (d.draw t).opened? = some (.root d.nextId t :: opened)
  | .node label children => by
    rw [draw]
    exact opened?_drawBelow (opened?_node h label) children

theorem opened?_drawBelow {d : Drawing} {opened : List OpenNode} {parent : OpenNode}
    (h : d.opened? = some (parent :: opened)) :
    ∀ ts : List Labelled, (d.drawBelow parent.id ts).opened? =
      some ({ parent with children := parent.children ++ ts } :: opened)
  | [] => by rw [drawBelow, List.append_nil, h]
  | t :: ts => by
    have hedge : ((d.draw t).edge parent.id d.nextId).opened? = some (parent.addChild t :: opened) := by
      simpa using opened?_edge (opened?_draw h t)
    have hbelow := opened?_drawBelow hedge ts
    rw [drawBelow]
    simpa [OpenNode.addChild] using hbelow
end

/-- The drawing of a tree is read back as that tree. -/
theorem decode?_text_draw (t : Labelled) : decode? (blank.draw t).text = some t := by
  have h : (blank.draw t).opened? = some [.root 0 t] := opened?_draw rfl t
  rw [decode?, lines?_text, Option.bind_some, tree?, ← opened?, h]
  exact congrArg some (OpenNode.tree_root 0 t)

end Drawing

/-! ## Trees with the same labels -/

theorem forall₂_iff_map_eq {α β : Type} {R : α → α → Prop} {f : α → β} {xs : List α}
    (h : ∀ x ∈ xs, ∀ y, R x y ↔ f x = f y) (ys : List α) : List.Forall₂ R xs ys ↔ xs.map f = ys.map f := by
  induction xs generalizing ys with
  | nil => simp [eq_comm]
  | cons x xs ih =>
    cases ys with
    | nil => simp
    | cons y ys =>
      rw [List.forall₂_cons, h x List.mem_cons_self, ih fun x hx => h x (List.mem_cons_of_mem _ hx)]
      simp

namespace Tree

/-- Two trees show the same: their roots have the same label, and their children show the
    same one by one. -/
inductive SameLabels : Tree → Tree → Prop
  | node {a b : Tree} (label : a.label = b.label) (children : List.Forall₂ SameLabels a.children b.children) :
    SameLabels a b

theorem sameLabels_iff (a b : Tree) : a.SameLabels b ↔ a.labelled = b.labelled := by
  induction a using children_induction generalizing b with
  | step a ih =>
    have hchildren := forall₂_iff_map_eq ih b.children
    rw [a.labelled_eq, b.labelled_eq, Labelled.node.injEq, ← hchildren]
    exact ⟨fun ⟨hl, hc⟩ => ⟨hl, hc⟩, fun ⟨hl, hc⟩ => ⟨hl, hc⟩⟩

/-- The text of a drawing gives back the labels of the tree that was drawn, and nothing
    more: two trees have the same text iff they show the same labels in the same places. -/
theorem dot_determines_labels :
    (∀ t : Tree, Graph.decode? t.dot = some t.labelled) ∧ ∀ a b : Tree, a.dot = b.dot ↔ a.SameLabels b := by
  have hdecode (t : Tree) : Graph.decode? t.dot = some t.labelled := Drawing.decode?_text_draw t.labelled
  refine ⟨hdecode, fun a b => ?_⟩
  rw [sameLabels_iff]
  constructor
  · intro h
    have hb := hdecode b
    rw [← h, hdecode a] at hb
    exact Option.some.inj hb
  · intro h
    exact congrArg (fun t => (Drawing.blank.draw t).text) h

end Tree

end Pascaline
