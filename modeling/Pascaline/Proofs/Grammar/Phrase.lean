/-
  Pascaline.Proofs.Grammar.Phrase — the phrases of the grammar.

      program         := "PROGRAM" identifier ";" block "."
      block           := declarations compound_stmt
      declarations    := ( "VAR" ( var_declaration ";" )+ )?
      var_declaration := identifier ( "," identifier )* ":" type_spec
      type_spec       := "INTEGER" | "REAL"
      compound_stmt   := "BEGIN" statement_list "END"
      statement_list  := statement ( ";" statement )*
      statement       := compound_stmt | assignment | nothing
      assignment      := identifier ":=" expr
      expr            := term ( ( "+" | "-" ) term )*
      term            := factor ( ( "*" | "DIV" | "/" ) factor )*
      factor          := ( "+" | "-" ) factor | number | "(" expr ")" | identifier

  A phrase is a derivation: there is a type for every nonterminal, with a constructor for
  every alternative and a field for every symbol of it. Of a terminal the field is the line
  it stands on, which no rule looks at, and the name or the number if it has one.
  `lexemes` is the text that a phrase derives, `tree` what it means: operators of one level
  gather to the left, signs to the right, parentheses vanish, every statement of a list and
  every name of a declaration has a tree of its own.

  Where a phrase may go on, the token behind it tells (`Next`): an operator continues an
  expression, and behind a statement there is a semicolon or the end of the list.
-/

import Pascaline.Reading.Basic
import Pascaline.Token.Cursor

namespace Pascaline

/-- A token with the line it stands on. -/
structure Lexeme where
  token : Token
  line : Nat
  deriving DecidableEq

def Lexeme.item (l : Lexeme) : Item := .token l.token l.line

def Name.lexeme (x : Name) : Lexeme := ⟨.name x.text, x.line⟩

/-- Does the operator stand between terms? The others stand between factors. -/
def Operator.isAdditive : Operator → Bool
  | .plus | .minus => true
  | _ => false

namespace Phrase

/-! ## Derivations -/

/-- `"+" | "-"` -/
inductive Sign where
  | plus
  | minus
  deriving DecidableEq, Repr

/-- `"*" | "DIV" | "/"` -/
inductive Scaling where
  | times
  | intDiv
  | div
  deriving DecidableEq, Repr

def Sign.operator : Sign → Operator
  | .plus => .plus
  | .minus => .minus

def Scaling.operator : Scaling → Operator
  | .times => .times
  | .intDiv => .intDiv
  | .div => .div

mutual
/-- `term ( ( "+" | "-" ) term )*` -/
inductive Expression where
  | mk (first : Term) (rest : Summands)

/-- `( ( "+" | "-" ) term )*` -/
inductive Summands where
  | nil
  | cons (sign : Sign) (line : Nat) (term : Term) (rest : Summands)

/-- `factor ( ( "*" | "DIV" | "/" ) factor )*` -/
inductive Term where
  | mk (first : Factor) (rest : Multipliers)

/-- `( ( "*" | "DIV" | "/" ) factor )*` -/
inductive Multipliers where
  | nil
  | cons (op : Scaling) (line : Nat) (factor : Factor) (rest : Multipliers)

/-- `( "+" | "-" ) factor | number | "(" expr ")" | identifier` -/
inductive Factor where
  | signed (sign : Sign) (line : Nat) (operand : Factor)
  | integer (value : Float) (line : Nat)
  | real (value : Float) (line : Nat)
  | group (opened : Nat) (inner : Expression) (closed : Nat)
  | name (x : Name)
end

/-- `identifier ":=" expr` -/
structure Assignment where
  target : Name
  assign : Nat
  value : Expression

mutual
/-- `"BEGIN" statement_list "END"` -/
inductive Compound where
  | mk (opened : Nat) (body : Statements) (closed : Nat)

/-- `statement ( ";" statement )*` -/
inductive Statements where
  | mk (first : Statement) (rest : MoreStatements)

/-- `( ";" statement )*` -/
inductive MoreStatements where
  | nil
  | cons (semicolon : Nat) (statement : Statement) (rest : MoreStatements)

/-- `compound_stmt | assignment | nothing` -/
inductive Statement where
  | compound (c : Compound)
  | assignment (a : Assignment)
  | empty
end

/-- `"INTEGER" | "REAL"` -/
structure TypeSpec where
  type : DataType
  line : Nat

/-- `identifier ( "," identifier )* ":" type_spec`, each comma with the name behind it. -/
structure VarDeclaration where
  first : Name
  rest : List (Nat × Name)
  colon : Nat
  type : TypeSpec

/-- `( "VAR" ( var_declaration ";" )+ )?`, each declaration with the semicolon behind it. -/
inductive Declarations where
  | none
  | some (opened : Nat) (first : VarDeclaration × Nat) (rest : List (VarDeclaration × Nat))

/-- `declarations compound_stmt` -/
structure Block where
  declarations : Declarations
  body : Compound

/-- `"PROGRAM" identifier ";" block "."` -/
structure Program where
  opened : Nat
  name : Name
  semicolon : Nat
  block : Block
  point : Nat

/-! ## What a phrase derives -/

def Sign.lexeme (s : Sign) (line : Nat) : Lexeme := ⟨.ofOperator s.operator, line⟩

def Scaling.lexeme (s : Scaling) (line : Nat) : Lexeme := ⟨.ofOperator s.operator, line⟩

mutual
def Expression.lexemes : Expression → List Lexeme
  | .mk first rest => first.lexemes ++ rest.lexemes

def Summands.lexemes : Summands → List Lexeme
  | .nil => []
  | .cons sign n term rest => sign.lexeme n :: (term.lexemes ++ rest.lexemes)

def Term.lexemes : Term → List Lexeme
  | .mk first rest => first.lexemes ++ rest.lexemes

def Multipliers.lexemes : Multipliers → List Lexeme
  | .nil => []
  | .cons op n factor rest => op.lexeme n :: (factor.lexemes ++ rest.lexemes)

def Factor.lexemes : Factor → List Lexeme
  | .signed sign n operand => sign.lexeme n :: operand.lexemes
  | .integer v n => [⟨.integer v, n⟩]
  | .real v n => [⟨.real v, n⟩]
  | .group m inner n => ⟨.symbol .openParen, m⟩ :: (inner.lexemes ++ [⟨.symbol .closeParen, n⟩])
  | .name x => [x.lexeme]
end

def Assignment.lexemes (a : Assignment) : List Lexeme :=
  a.target.lexeme :: ⟨.symbol .assign, a.assign⟩ :: a.value.lexemes

mutual
def Compound.lexemes : Compound → List Lexeme
  | .mk m body n => ⟨.keyword .beginBody, m⟩ :: (body.lexemes ++ [⟨.keyword .endBody, n⟩])

def Statements.lexemes : Statements → List Lexeme
  | .mk first rest => first.lexemes ++ rest.lexemes

def MoreStatements.lexemes : MoreStatements → List Lexeme
  | .nil => []
  | .cons n statement rest => ⟨.symbol .semicolon, n⟩ :: (statement.lexemes ++ rest.lexemes)

def Statement.lexemes : Statement → List Lexeme
  | .compound c => c.lexemes
  | .assignment a => a.lexemes
  | .empty => []
end

def TypeSpec.lexeme (t : TypeSpec) : Lexeme :=
  match t.type with
  | .integer => ⟨.keyword .integer, t.line⟩
  | .real => ⟨.keyword .real, t.line⟩

/-- A comma and the name behind it. -/
def commaName (x : Nat × Name) : List Lexeme := [⟨.symbol .comma, x.1⟩, x.2.lexeme]

def VarDeclaration.lexemes (d : VarDeclaration) : List Lexeme :=
  d.first.lexeme :: (d.rest.flatMap commaName ++ [⟨.symbol .colon, d.colon⟩, d.type.lexeme])

/-- A declaration and the semicolon behind it. -/
def declarationLine (d : VarDeclaration × Nat) : List Lexeme := d.1.lexemes ++ [⟨.symbol .semicolon, d.2⟩]

def Declarations.lexemes : Declarations → List Lexeme
  | .none => []
  | .some n first rest => ⟨.keyword .var, n⟩ :: (first :: rest).flatMap declarationLine

def Block.lexemes (b : Block) : List Lexeme := b.declarations.lexemes ++ b.body.lexemes

def Program.lexemes (p : Program) : List Lexeme :=
  ⟨.keyword .program, p.opened⟩ :: p.name.lexeme :: ⟨.symbol .semicolon, p.semicolon⟩ ::
    (p.block.lexemes ++ [⟨.symbol .dot, p.point⟩])

/-- The tokens that a program derives. -/
def Program.tokens (p : Program) : List Token := p.lexemes.map Lexeme.token

/-! ## What a phrase means -/

mutual
def Expression.tree : Expression → Tree
  | .mk first rest => rest.tree first.tree

/-- The sum that goes on from its left part. -/
def Summands.tree (left : Tree) : Summands → Tree
  | .nil => left
  | .cons sign n term rest => rest.tree (.binary left sign.operator term.tree n)

def Term.tree : Term → Tree
  | .mk first rest => rest.tree first.tree

/-- The product that goes on from its left part. -/
def Multipliers.tree (left : Tree) : Multipliers → Tree
  | .nil => left
  | .cons op n factor rest => rest.tree (.binary left op.operator factor.tree n)

def Factor.tree : Factor → Tree
  | .signed sign n operand => .unary sign.operator operand.tree n
  | .integer v _ => .number v
  | .real v _ => .number v
  | .group _ inner _ => inner.tree
  | .name x => x.tree
end

def Assignment.tree (a : Assignment) : Tree := .assign a.target.tree a.value.tree

mutual
def Compound.tree : Compound → Tree
  | .mk _ body _ => .compound body.trees

/-- One tree for each statement. -/
def Statements.trees : Statements → List Tree
  | .mk first rest => first.tree :: rest.trees

def MoreStatements.trees : MoreStatements → List Tree
  | .nil => []
  | .cons _ statement rest => statement.tree :: rest.trees

def Statement.tree : Statement → Tree
  | .compound c => c.tree
  | .assignment a => a.tree
  | .empty => .empty
end

def VarDeclaration.names (d : VarDeclaration) : List Name := d.first :: d.rest.map Prod.snd

/-- One tree for each name, all with the type of the declaration. -/
def VarDeclaration.trees (d : VarDeclaration) : List Tree :=
  d.names.map fun x => .declaration x.tree (.typeName d.type.type)

def Declarations.trees : Declarations → List Tree
  | .none => []
  | .some _ first rest => (first :: rest).flatMap fun d => d.1.trees

def Program.tree (p : Program) : Tree :=
  .program p.name.text (.block p.block.declarations.trees p.block.body.tree)

end Phrase

/-! ## The token behind a phrase -/

/-- There is a next lexeme, and its token is such a one. -/
def Next (P : Token → Prop) : List Lexeme → Prop
  | [] => False
  | l :: _ => P l.token

@[simp] theorem next_cons (P : Token → Prop) (l : Lexeme) (ls : List Lexeme) : Next P (l :: ls) ↔ P l.token := Iff.rfl

theorem Next.imp {P Q : Token → Prop} {ls : List Lexeme} (hl : Next P ls) (h : ∀ {t}, P t → Q t) : Next Q ls := by
  cases ls with
  | nil => exact hl
  | cons l ls => exact h hl

/-- No factor of the same term can follow. -/
def EndsTerm (t : Token) : Prop := ∀ op : Phrase.Scaling, t ≠ .ofOperator op.operator

/-- No operand of the same expression can follow. -/
def EndsExpression (t : Token) : Prop := t.operator? = none

/-- The statement is over: another one follows, or the end of the list. -/
def EndsStatement (t : Token) : Prop := t = .symbol .semicolon ∨ t = .keyword .endBody

theorem EndsExpression.endsTerm {t : Token} (h : EndsExpression t) : EndsTerm t := by
  intro op e
  rw [EndsExpression, Token.operator?_eq_some_iff.2 e] at h
  cases h

theorem EndsStatement.endsExpression {t : Token} (h : EndsStatement t) : EndsExpression t := by
  rcases h with rfl | rfl <;> rfl

theorem endsTerm_sign (s : Phrase.Sign) : EndsTerm (.ofOperator s.operator) := by
  intro op; cases s <;> cases op <;> decide

namespace Phrase

theorem Summands.next (rest : Summands) {r : List Lexeme} (hr : Next EndsExpression r) :
    Next EndsTerm (rest.lexemes ++ r) := by
  cases rest with
  | nil =>
    cases r with
    | nil => cases hr
    | cons l r => exact EndsExpression.endsTerm hr
  | cons sign n term rest => exact endsTerm_sign sign

theorem MoreStatements.next (rest : MoreStatements) {r : List Lexeme} (hr : Next EndsStatement r) :
    Next EndsStatement (rest.lexemes ++ r) := by
  cases rest with
  | nil => exact hr
  | cons n statement rest => exact Or.inl rfl

theorem Compound.next (c : Compound) (r : List Lexeme) : Next (· = .keyword .beginBody) (c.lexemes ++ r) := by
  cases c; exact rfl

end Phrase

end Pascaline
