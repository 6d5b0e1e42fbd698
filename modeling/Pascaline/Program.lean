/-
  Pascaline.Program — from the text of a program to its tree and to its variables.

  A text is read to the end of the input or to its first error, one item at a time, each
  item once: `Reading.run` also returns the cursor behind the last item it took. A program
  runs only when the whole text has been read, and from an empty table.
-/

import Pascaline.Reading.Step
import Pascaline.Token.Cursor
import Pascaline.Tree.Eval

namespace Pascaline

/-- Reads on from a cursor: the tree of the program or the first error, and the cursor
    behind the item that decided it. -/
def Reading.run (r : Reading) (c : Cursor) : Except Error Tree × Cursor :=
  match _ : c.next.1 with
  | .stray e => (.error (.stray e), c.next.2)
  | .token t line =>
    if _ : t = .endOfInput then ((r.finish line).mapError .grammar, c.next.2)
    else
      match r.accept? t line with
      | some r => r.run c.next.2
      | none => (.error (.grammar (r.reject t line)), c.next.2)
termination_by c.rest.length
decreasing_by
  rename_i h ht
  exact Cursor.next_rest_length_lt (fun n e => ht (by rw [h] at e; injection e))

/-- The tree of a program text. -/
def parse (source : String) : Except Error Tree := (Reading.opening.run (.ofString source)).1

/-- The variables of a program text that has been run. -/
def run (source : String) : Except Error Table := do
  let tree ← parse source
  match tree.eval.on ∅ with
  | (.ok _, table) => return table
  | (.error e, _) => throw (.eval e)

end Pascaline
