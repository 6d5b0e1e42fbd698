/-
  Pascaline.Graph.Drawing — trees drawn as a graph, in the DOT language.

  Nodes are numbered as they are met, a node before those below it. The line of a node is
  drawn when it is met, and the edge to a child when all below that child is drawn.
  Several trees can go into one drawing; the numbers run on.
-/

import Pascaline.Tree.Labelled
import Pascaline.Graph.Label

namespace Pascaline

namespace Graph

/-- A line of a drawing: a node with its number and label, or an edge. -/
inductive Line where
  | node (id : Nat) (label : String)
  | edge (source target : Nat)
  deriving DecidableEq, Repr

def Line.text : Line → String
  | .node id label => "Node" ++ id.repr ++ " [label=\"" ++ String.ofList (escape label.toList) ++ "\"]\n"
  | .edge source target => "Node" ++ source.repr ++ " -> Node" ++ target.repr ++ "\n"

def header : String :=
  "digraph astgraph \x7b\n  node [shape=circle, fontsize=12, fontname=\"Courier\", height=.1];\n" ++
  "  ranksep=.3;\n  edge [arrowsize=.5]\n"

def footer : String := "\x7d\n"

end Graph

/-- The lines drawn so far, and the number of the next node. -/
structure Drawing where
  nextId : Nat
  lines : Array Graph.Line
  deriving DecidableEq, Repr

namespace Drawing

def blank : Drawing := ⟨0, #[]⟩

def node (d : Drawing) (label : String) : Drawing := ⟨d.nextId + 1, d.lines.push (.node d.nextId label)⟩

def edge (d : Drawing) (source target : Nat) : Drawing := { d with lines := d.lines.push (.edge source target) }

mutual
/-- Draws a tree; its root gets the number `d.nextId`. -/
def draw (d : Drawing) : Labelled → Drawing
  | .node label children => drawBelow (d.node label) d.nextId children

/-- Draws the children of a node and the edges to them. -/
def drawBelow (d : Drawing) (parent : Nat) : List Labelled → Drawing
  | [] => d
  | t :: ts => drawBelow ((draw d t).edge parent d.nextId) parent ts
end

/-- Draws a tree and gives the number of its root. -/
def add (d : Drawing) (t : Tree) : Nat × Drawing := (d.nextId, d.draw t.labelled)

/-- Draws trees one after the other and gives the numbers of their roots. -/
def addAll (d : Drawing) : List Tree → List Nat × Drawing
  | [] => ([], d)
  | t :: ts =>
    let (id, d) := d.add t
    let (ids, d) := d.addAll ts
    (id :: ids, d)

/-- The drawing in the DOT language. -/
def text (d : Drawing) : String := Graph.header ++ String.join (d.lines.toList.map Graph.Line.text) ++ Graph.footer

end Drawing

/-- The drawing of one tree. -/
def Tree.dot (t : Tree) : String := (Drawing.blank.add t).2.text

end Pascaline
