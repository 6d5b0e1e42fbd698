/-
  Pascaline.Command.Outcome — what the command does and what it prints.

  The program is read, then drawn if a path is given for the drawing, then run, and its
  variables are printed; the first failure ends the command with a message and status 1.
  So a drawing is written even when the run fails afterwards, and nothing is printed
  unless all of it succeeds.
-/

import Pascaline.Command.Request
import Pascaline.Command.Directory
import Pascaline.Graph.Drawing
import Pascaline.Program

namespace Pascaline.Command

structure Outcome where
  status : Nat
  stdout : String
  stderr : String
  deriving DecidableEq, Repr

def Outcome.success (text : String) : Outcome := ⟨0, text, ""⟩

def Outcome.failure (message : String) : Outcome := ⟨1, "", message ++ "\n"⟩

/-! ## Texts -/

def helpText : String :=
  "A tree-walking interpreter for a small Pascal-like language\n" ++
  "\n" ++
  "Usage: minipas [OPTIONS] <CONTENTS>\n" ++
  "\n" ++
  "Arguments:\n" ++
  "  <CONTENTS>  \n" ++
  "\n" ++
  "Options:\n" ++
  "  -f, --file        Tells minipas to read the program from a file instead of the argument\n" ++
  "  -d, --dot <PATH>  Writes a Graphviz DOT description of the syntax tree to this path\n" ++
  "  -v, --verbose     Logs parsing and evaluation progress to stderr\n" ++
  "  -h, --help        Print help\n" ++
  "  -V, --version     Print version\n"

def versionText : String := "minipas 0.1.0\n"

def unreadable (path : String) : String :=
  "Failed to read the input file '" ++ path ++ "'. Perhaps this file does not exist?"

def unwritable (path : String) (e : SystemError) : String :=
  "Failed to write the graph to '" ++ path ++ "': " ++ e.message

/-- The name of a variable, in ten columns at least, and its value. -/
def row (name : String) (v : Float) : String :=
  name ++ String.ofList (List.replicate (10 - name.length) ' ') ++ " | " ++ plain v ++ "\n"

/-- The variables in the order of their names. -/
def report (table : Table) : String :=
  "GLOBAL SCOPE\n------------\n" ++ String.join (table.toList.map fun (name, v) => row name v)

/-! ## Carrying out a request -/

variable {m : Type → Type} [Monad m] [FileAccess m]

/-- The text of the program, if it can be read. -/
def Options.source? (o : Options) : m (Option String) :=
  if o.file then return text? (← FileAccess.read o.contents) else return some o.contents

/-- Writes the drawing of the program where it is asked for. -/
def Options.draw (o : Options) (tree : Tree) : m (Except String Unit) := do
  match o.dot with
  | none => return .ok ()
  | some path => return (← FileAccess.write path tree.dot.toUTF8).mapError (unwritable path)

def Options.run (o : Options) : m Outcome := do
  let some source ← o.source? | return .failure (unreadable o.contents)
  match parse source with
  | .error e => return .failure e.message
  | .ok tree =>
    match ← o.draw tree with
    | .error message => return .failure message
    | .ok () =>
      match tree.eval.on ∅ with
      | (.ok _, table) => return .success (report table)
      | (.error e, _) => return .failure e.message

def Request.carryOut : Request → m Outcome
  | .help => return .success helpText
  | .version => return .success versionText
  | .run o => o.run

end Pascaline.Command
