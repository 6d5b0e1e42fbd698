/-
  Pascaline.Reading.Basic — a program that has been read up to some token.

      program    = PROGRAM name ";" block "."
      block      = [ VAR group ";" { group ";" } ] compound
      group      = name { "," name } ":" ( INTEGER | REAL )
      compound   = BEGIN statement { ";" statement } END
      statement  = compound | name ":=" expression | nothing
      expression = term { ( "+" | "-" ) term }
      term       = factor { ( "*" | DIV | "/" ) factor }
      factor     = ( "+" | "-" ) factor | number | "(" expression ")" | name

  A `Reading` is a place in this grammar, named for what is due there, with the trees of
  all that has been read: nested statement lists and parentheses are stacks in it, so one
  token is one step and no step looks back. Operators of one level gather to the left
  (`Pending`), signs before a factor to the right (`Level.signs`).
-/

import Pascaline.Tree.Basic

namespace Pascaline

/-- An identifier with the line it stands on. -/
structure Name where
  text : String
  line : Nat
  deriving DecidableEq, Repr

def Name.tree (x : Name) : Tree := .var x.text x.line

/-- What is known of the program before its body: its name and its declarations. -/
structure Heading where
  program : String
  declared : Array Tree

/-- Declares each name of a group by itself, with the type of the group. -/
def Heading.declare (h : Heading) (group : Array Name) (type : DataType) : Heading :=
  { h with declared := h.declared ++ group.map fun x => .declaration x.tree (.typeName type) }

/-- The statement lists that are open, each with the statements read so far, `inner` within
    the first of `outer`. -/
structure Body where
  heading : Heading
  inner : Array Tree
  outer : List (Array Tree)

namespace Body

def ofHeading (h : Heading) : Body := ⟨h, #[], []⟩

def add (b : Body) (statement : Tree) : Body := { b with inner := b.inner.push statement }

/-- Opens a statement list within the innermost one. -/
def nest (b : Body) : Body := { b with inner := #[], outer := b.inner :: b.outer }

end Body

/-- A left operand with its operator, waiting for the right operand. -/
structure Pending where
  left : Tree
  op : Operator
  line : Nat

/-- The operation that the right operand completes, if there is one. -/
def Pending.complete (p : Option Pending) (right : Tree) : Tree :=
  match p with
  | none => right
  | some p => .binary p.left p.op right p.line

/-- An expression before one of its factors: the pending sum, the pending product and the
    signs that stand before the factor, the last one first. -/
structure Level where
  sum : Option Pending
  product : Option Pending
  signs : List (Operator × Nat)

namespace Level

def start : Level := ⟨none, none, []⟩

/-- The term that ends with the factor. -/
def term (l : Level) (factor : Tree) : Tree :=
  Pending.complete l.product (l.signs.foldl (fun t s => .unary s.1 t s.2) factor)

end Level

/-- The assignment that an expression belongs to, and the expressions around its open
    parentheses, the innermost first. -/
structure Assignment where
  body : Body
  target : Name
  outer : List Level

/-- The statement list with the assignment at its end. -/
def Assignment.close (a : Assignment) (value : Tree) : Body := a.body.add (.assign a.target.tree value)

/-- A place in a program, named for what is due. -/
inductive Reading where
  /-- The word `PROGRAM`. -/
  | opening
  /-- The name of the program. -/
  | title
  /-- The semicolon after the name. -/
  | titleEnd (program : String)
  /-- The declarations or the body. -/
  | sections (heading : Heading)
  /-- A name of the group. -/
  | declaring (heading : Heading) (group : Array Name)
  /-- Another name of the group, or the colon. -/
  | declared (heading : Heading) (group : Array Name)
  /-- The type of the group. -/
  | typing (heading : Heading) (group : Array Name)
  /-- The semicolon after the group. -/
  | groupEnd (heading : Heading)
  /-- Another group or the body. -/
  | nextGroup (heading : Heading)
  /-- A statement, perhaps an empty one. -/
  | statement (body : Body)
  /-- The sign `:=`. -/
  | assigning (body : Body) (target : Name)
  /-- A factor. -/
  | operand (a : Assignment) (level : Level)
  /-- An operator, or the end of the expression. -/
  | operator (a : Assignment) (sum : Option Pending) (term : Tree)
  /-- A semicolon or the end of the statement list. -/
  | separator (body : Body)
  /-- The point at the end of the program. -/
  | closing (heading : Heading) (body : Tree)
  /-- Nothing more. -/
  | complete (program : Tree)

end Pascaline
