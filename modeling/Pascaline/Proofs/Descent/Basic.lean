/-
  Pascaline.Proofs.Descent.Basic — a program read by procedures that call each other.

  There is a procedure for every phrase of the grammar and one for every repetition in it,
  whose next round is a call of itself. A procedure looks at one token ahead, pulls the next
  item in its place, calls other procedures and goes on with what they return; its `body` is
  the tree of these `Steps`. Whatever has been pulled is recorded in the `Lookahead`.

  `enter` runs a procedure with so many calls inside each other as there is fuel, and is
  `exhausted` if there are more. `parse` pulls the first item, calls `program`, and wants the
  end of the input behind it.
-/

import Pascaline.Proofs.Grammar.Phrase
import Pascaline.Program

namespace Pascaline.Descent

/-! ## Procedures -/

/-- The procedures, those of the repetitions with what the rounds before have read. -/
inductive Procedure where
  | program
  | block
  | declarations
  | groups (before : List Tree)
  | group
  | names (before : List Name)
  | typeName
  | compound
  | statements
  | moreStatements (before : List Tree)
  | statement
  | assignment
  | var
  | expression
  | summands (left : Tree)
  | term
  | multipliers (left : Tree)
  | factor

/-- What a procedure returns. -/
abbrev Procedure.Result : Procedure → Type
  | .declarations | .groups _ | .group | .statements | .moreStatements _ => List Tree
  | .names _ => List Name
  | .typeName => DataType
  | .var => Name
  | _ => Tree

/-- What a procedure does, up to its result or to an error about the token ahead and its line. -/
inductive Steps (α : Type) where
  | done (result : α)
  | fail (why : Token → Nat → GrammarError)
  | look (next : Token → Nat → Steps α)
  | advance (next : Steps α)
  | call (p : Procedure) (next : p.Result → Steps α)

variable {α β : Type}

/-- Goes over the token ahead if it is one that is due. -/
def expect (e : Expectation) (next : Steps α) : Steps α :=
  .look fun t _ => if e.admits t then .advance next else .fail (.unexpected e)

def expectName (next : Name → Steps α) : Steps α :=
  .look fun t n => match t with
    | .name s => .advance (next ⟨s, n⟩)
    | _ => .fail (.unexpected .name)

namespace Procedure

def body : (p : Procedure) → Steps p.Result
  | .program =>
    expect (.keyword .program) <| expectName fun x => expect (.symbol .semicolon) <|
      .call .block fun block => expect (.symbol .dot) <| .done (.program x.text block)
  | .block => .call .declarations fun ds => .call .compound fun body => .done (.block ds body)
  | .declarations => .look fun t _ => match t with
    | .keyword .var => .advance <| .call (.groups []) .done
    | _ => .done []
  | .groups before => .call .group fun ds => expect (.symbol .semicolon) <| .look fun t _ => match t with
    | .name _ => .call (.groups (before ++ ds)) .done
    | _ => .done (before ++ ds)
  | .group => .call (.names []) fun xs => expect (.symbol .colon) <| .call .typeName fun type =>
    .done (xs.map fun x => .declaration x.tree (.typeName type))
  | .names before => expectName fun x => .look fun t _ => match t with
    | .symbol .comma => .advance <| .call (.names (before ++ [x])) .done
    | _ => .done (before ++ [x])
  | .typeName => .look fun t _ => match t with
    | .keyword .integer => .advance (.done DataType.integer)
    | .keyword .real => .advance (.done DataType.real)
    | _ => .fail (.unexpected .typeName)
  | .compound =>
    expect (.keyword .beginBody) <| .call .statements fun ts => expect (.keyword .endBody) <| .done (.compound ts)
  | .statements => .call .statement fun t => .call (.moreStatements [t]) .done
  | .moreStatements before => .look fun t _ => match t with
    | .symbol .semicolon => .advance <| .call .statement fun t => .call (.moreStatements (before ++ [t])) .done
    | .name _ => .fail .missingSeparator
    | _ => .done before
  | .statement => .look fun t _ => match t with
    | .keyword .beginBody => .call .compound .done
    | .name _ => .call .assignment .done
    | _ => .done Tree.empty
  | .assignment =>
    .call .var fun x => expect (.symbol .assign) <| .call .expression fun value => .done (.assign x.tree value)
  | .var => expectName .done
  | .expression => .call .term fun left => .call (.summands left) .done
  | .summands left => .look fun t n => match t.operator?.filter Operator.isAdditive with
    | some op => .advance <| .call .term fun right => .call (.summands (.binary left op right n)) .done
    | none => .done left
  | .term => .call .factor fun left => .call (.multipliers left) .done
  | .multipliers left => .look fun t n => match t.operator?.filter (!·.isAdditive) with
    | some op => .advance <| .call .factor fun right => .call (.multipliers (.binary left op right n)) .done
    | none => .done left
  | .factor => .look fun t n => match t with
    | .symbol .plus => .advance <| .call .factor fun operand => .done (.unary .plus operand n)
    | .symbol .minus => .advance <| .call .factor fun operand => .done (.unary .minus operand n)
    | .integer v | .real v => .advance (.done (.number v))
    | .symbol .openParen => .advance <| .call .expression fun value => expect (.symbol .closeParen) <| .done value
    | .name _ => .call .var fun x => .done x.tree
    | _ => .fail (.unexpected .operand)

end Procedure

/-! ## Runs -/

/-- The token ahead, the cursor behind it, and all items that have been pulled. -/
structure Lookahead where
  token : Token
  cursor : Cursor
  pulled : List Item

/-- The line of the token ahead: right behind a token the cursor is still on its line. -/
def Lookahead.line (s : Lookahead) : Nat := s.cursor.line

/-- What a run comes to; with an error the lookahead is lost, but not what has been pulled. -/
inductive Ending (α : Type) where
  | returns (result : α) (behind : Lookahead)
  | fails (error : Error) (pulled : List Item)
  | exhausted

def Ending.andThen : Ending α → (α → Lookahead → Ending β) → Ending β
  | .returns a s, next => next a s
  | .fails e pulled, _ => .fails e pulled
  | .exhausted, _ => .exhausted

/-- The next item of the cursor, behind those that have been pulled. -/
def pull (c : Cursor) (pulled : List Item) : Ending Unit :=
  match c.next.1 with
  | .token t _ => .returns () ⟨t, c.next.2, pulled ++ [c.next.1]⟩
  | .stray e => .fails (.stray e) (pulled ++ [c.next.1])

/-- Goes through the steps, with the calls as they end. -/
def Steps.exec (onCall : (p : Procedure) → Lookahead → Ending p.Result) : Steps α → Lookahead → Ending α
  | .done a, s => .returns a s
  | .fail why, s => .fails (.grammar (why s.token s.line)) s.pulled
  | .look next, s => (next s.token s.line).exec onCall s
  | .advance next, s => (pull s.cursor s.pulled).andThen fun _ s => next.exec onCall s
  | .call p next, s => (onCall p s).andThen fun a s => (next a).exec onCall s

/-- The call of a procedure, with so many calls inside each other at most. -/
def enter : Nat → (p : Procedure) → Lookahead → Ending p.Result
  | 0, _, _ => .exhausted
  | fuel + 1, p, s => p.body.exec (enter fuel) s

/-- A program, and the end of the input behind it. -/
def whole : Steps Tree :=
  .call .program fun tree => .look fun t _ => if t = .endOfInput then .done tree else .fail .trailing

/-- The tree of a text or its error, and the items that have been pulled; nothing if the fuel
    runs out. -/
def parse (fuel : Nat) (source : String) : Option (Except Error Tree × List Item) :=
  match (pull (.ofString source) []).andThen fun _ s => whole.exec (enter fuel) s with
  | .returns tree s => some (.ok tree, s.pulled)
  | .fails e pulled => some (.error e, pulled)
  | .exhausted => none

end Pascaline.Descent
