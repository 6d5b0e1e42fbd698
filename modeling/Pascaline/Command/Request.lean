/-
  Pascaline.Command.Request — what the arguments of the command ask for.

  Arguments are read from left to right, one step each. Flags may be given once, by their
  letters, which may be joined, or by their full names; the path of `-d` may be joined to
  it, also with an equals sign, or be the next argument, and of `--dot` likewise. Help and
  version are granted as soon as they are met, so that only a mistake before them counts.
  Behind `--` every argument is a positional one; there must be one of these in all.

  An argument that begins with a hyphen is an option, but for the hyphen alone: it is no
  path and no positional argument.
-/

namespace Pascaline.Command

/-- What a run of the command is to do. -/
structure Options where
  /-- The contents are the path of the file that holds the program. -/
  file : Bool
  /-- Accepted for the log, which is no part of the output. -/
  verbose : Bool
  /-- Where to write the drawing of the program. -/
  dot : Option String
  /-- The program, or the path of its file. -/
  contents : String
  deriving DecidableEq, Repr

inductive Request where
  | help
  | version
  | run (options : Options)
  deriving DecidableEq, Repr

/-- The options read so far. -/
structure Draft where
  file : Bool
  verbose : Bool
  dot : Option String
  contents : Option String
  deriving DecidableEq, Repr

/-- How far the arguments have been read: an argument of any kind is next, or the path of
    the drawing, or a positional argument, or the request is settled. -/
inductive Stage where
  | anything (d : Draft)
  | path (d : Draft)
  | positional (d : Draft)
  | settled (r : Request)
  deriving DecidableEq, Repr

namespace Draft

def empty : Draft := ⟨false, false, none, none⟩

def setFile? (d : Draft) : Option Draft := if d.file then none else some { d with file := true }

def setVerbose? (d : Draft) : Option Draft := if d.verbose then none else some { d with verbose := true }

def setDot? (d : Draft) (path : String) : Option Draft :=
  if d.dot.isSome then none else some { d with dot := some path }

def setContents? (d : Draft) (text : String) : Option Draft :=
  if d.contents.isSome then none else some { d with contents := some text }

def request? (d : Draft) : Option Request := d.contents.map fun text => .run ⟨d.file, d.verbose, d.dot, text⟩

/-- Letters joined behind a hyphen; what follows a `d` is its path. -/
def letters? (d : Draft) : List Char → Option Stage
  | [] => some (.anything d)
  | 'f' :: cs => d.setFile?.bind (letters? · cs)
  | 'v' :: cs => d.setVerbose?.bind (letters? · cs)
  | 'h' :: _ => some (.settled .help)
  | 'V' :: _ => some (.settled .version)
  | ['d'] => some (.path d)
  | 'd' :: '=' :: path | 'd' :: path => (d.setDot? (String.ofList path)).map .anything
  | _ :: _ => none

/-- The full name of an option, as it stands behind two hyphens. -/
def name? (d : Draft) (name : String) : Option Stage :=
  match name with
  | "file" => d.setFile?.map .anything
  | "verbose" => d.setVerbose?.map .anything
  | "help" => some (.settled .help)
  | "version" => some (.settled .version)
  | "dot" => some (.path d)
  | _ =>
    match name.toList with
    | 'd' :: 'o' :: 't' :: '=' :: path => (d.setDot? (String.ofList path)).map .anything
    | _ => none

end Draft

/-- Does the argument begin with a hyphen, and is it more than that? -/
def isOption (arg : String) : Bool :=
  match arg.toList with
  | '-' :: _ :: _ => true
  | _ => false

namespace Stage

def start : Stage := .anything .empty

/-- The stage after one more argument; none if it is out of place. -/
def step? : Stage → String → Option Stage
  | .anything d, arg =>
    match arg.toList with
    | ['-', '-'] => some (.positional d)
    | '-' :: '-' :: name => d.name? (String.ofList name)
    | '-' :: c :: cs => d.letters? (c :: cs)
    | _ => (d.setContents? arg).map .anything
  | .path d, arg => if isOption arg then none else (d.setDot? arg).map .anything
  | .positional d, arg => (d.setContents? arg).map .positional
  | .settled r, _ => some (.settled r)

/-- The request, if no argument is missing. -/
def request? : Stage → Option Request
  | .anything d | .positional d => d.request?
  | .path _ => none
  | .settled r => some r

end Stage

/-- The request of a command line; none if it is misused. -/
def Request.ofArgs? (args : List String) : Option Request :=
  (args.foldlM Stage.step? .start).bind Stage.request?

end Pascaline.Command
