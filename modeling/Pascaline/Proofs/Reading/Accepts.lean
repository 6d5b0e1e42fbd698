/-
  Pascaline.Proofs.Reading.Accepts — the reader takes exactly the programs of the grammar.

  `readAll?` reads lexemes one after the other. Every phrase is taken where it is due and
  leaves its tree behind: a factor supplies the operand (`readAll?_factor`), an expression
  stands as one term (`readAll?_expression`), a statement is added to its list
  (`readAll?_statement`), so a program is read to its end (`readAll?_program`).
-/

import Pascaline.Proofs.Grammar.Phrase
import Pascaline.Reading.Step

namespace Pascaline

namespace Body

def addAll (b : Body) (ts : List Tree) : Body := { b with inner := b.inner ++ ts.toArray }

theorem addAll_nil (b : Body) : b.addAll [] = b := by simp [addAll]

theorem add_addAll (b : Body) (t : Tree) (ts : List Tree) : (b.add t).addAll ts = b.addAll (t :: ts) := by
  simp [addAll, add]

/-- The end of a nested list adds it to the list around it. -/
theorem nest_addAll_close (b : Body) (ts : List Tree) :
    (b.nest.addAll ts).close = .separator (b.add (.compound ts)) := by
  simp [nest, addAll, close, add]

/-- The end of the outermost list is the end of the block. -/
theorem ofHeading_addAll_close (h : Heading) (ts : List Tree) :
    ((ofHeading h).addAll ts).close = .closing h (.compound ts) := by
  simp [ofHeading, addAll, close]

end Body

namespace Heading

/-- The heading with more declared variables. -/
def declareAll (h : Heading) (ts : List Tree) : Heading := { h with declared := h.declared ++ ts.toArray }

theorem declareAll_append (h : Heading) (ts us : List Tree) :
    (h.declareAll ts).declareAll us = h.declareAll (ts ++ us) := by
  simp [declareAll]

theorem declareAll_trees (h : Heading) (d : Phrase.VarDeclaration) :
    h.declareAll d.trees = h.declare (#[d.first] ++ d.rest.map Prod.snd) d.type.type := by
  simp [declareAll, declare, Phrase.VarDeclaration.trees, Phrase.VarDeclaration.names]

end Heading

namespace Reading

/-- The reading after the lexemes, if the grammar has room for each of them. -/
def readAll? (r : Reading) (ls : List Lexeme) : Option Reading := ls.foldlM (fun r l => r.accept? l.token l.line) r

@[simp] theorem readAll?_nil (r : Reading) : r.readAll? [] = some r := rfl

@[simp] theorem readAll?_cons (r : Reading) (l : Lexeme) (ls : List Lexeme) :
    r.readAll? (l :: ls) = (r.accept? l.token l.line).bind fun r => r.readAll? ls := rfl

theorem readAll?_append (r : Reading) (ls ms : List Lexeme) :
    r.readAll? (ls ++ ms) = (r.readAll? ls).bind fun r => r.readAll? ms := by
  simp [readAll?, List.foldlM_append]

theorem readAll?_from {r s : Reading} {ls : List Lexeme} (h : r.readAll? ls = some s) (ms : List Lexeme) :
    r.readAll? (ls ++ ms) = s.readAll? ms := by
  rw [readAll?_append, h]
  rfl

/-! ## Expressions -/

open Phrase

/-- A sum and its last term say no more than the whole of it, if no operand follows. -/
theorem accept?_operator {t : Token} (ht : EndsExpression t) (a : Assignment) (sum : Option Pending) (term : Tree)
    (n : Nat) :
    (Reading.operator a sum term).accept? t n = (Reading.operator a none (Pending.complete sum term)).accept? t n := by
  rw [EndsExpression] at ht
  simp only [accept?, Assignment.operator?, ht]
  rfl

theorem readAll?_operator (a : Assignment) (sum : Option Pending) (term : Tree) {us : List Lexeme}
    (hu : Next EndsExpression us) :
    (Reading.operator a sum term).readAll? us = (Reading.operator a none (Pending.complete sum term)).readAll? us := by
  cases us with
  | nil => cases hu
  | cons l us => rw [readAll?_cons, readAll?_cons, accept?_operator hu]

mutual
theorem readAll?_factor (a : Assignment) (level : Level) (f : Factor) (us : List Lexeme) :
    (Reading.operand a level).readAll? (f.lexemes ++ us) = (a.supply level f.tree).readAll? us := by
  cases f with
  | signed sign n operand =>
    have ih := readAll?_factor a { level with signs := (sign.operator, n) :: level.signs } operand us
    cases sign <;> exact ih
  | integer v n => rfl
  | real v n => rfl
  | group m inner n =>
    have ih := readAll?_expression { a with outer := level :: a.outer } inner (⟨.symbol .closeParen, n⟩ :: us) rfl
    simp only [Factor.lexemes, List.cons_append, List.append_assoc, List.nil_append]
    exact ih
  | name x => rfl

theorem readAll?_multipliers (a : Assignment) (sum : Option Pending) (left : Tree) (rest : Multipliers)
    (us : List Lexeme) :
    (Reading.operator a sum left).readAll? (rest.lexemes ++ us) =
      (Reading.operator a sum (rest.tree left)).readAll? us := by
  cases rest with
  | nil => rfl
  | cons op n factor rest =>
    have hf := readAll?_factor a ⟨sum, some ⟨left, op.operator, n⟩, []⟩ factor (rest.lexemes ++ us)
    have hr := readAll?_multipliers a sum (.binary left op.operator factor.tree n) rest us
    simp only [Multipliers.lexemes, List.cons_append, List.append_assoc]
    cases op <;> exact hf.trans hr

theorem readAll?_term (a : Assignment) (sum : Option Pending) (t : Term) (us : List Lexeme) :
    (Reading.operand a ⟨sum, none, []⟩).readAll? (t.lexemes ++ us) = (Reading.operator a sum t.tree).readAll? us := by
  cases t with | mk first rest =>
  simp only [Term.lexemes, List.append_assoc]
  exact (readAll?_factor a ⟨sum, none, []⟩ first _).trans (readAll?_multipliers a sum first.tree rest us)

theorem readAll?_summands (a : Assignment) (sum : Option Pending) (term : Tree) (rest : Summands)
    {us : List Lexeme} (hu : Next EndsExpression us) :
    (Reading.operator a sum term).readAll? (rest.lexemes ++ us) =
      (Reading.operator a none (rest.tree (Pending.complete sum term))).readAll? us := by
  cases rest with
  | nil => exact readAll?_operator a sum term hu
  | cons sign n next rest =>
    have ht := readAll?_term a (some ⟨Pending.complete sum term, sign.operator, n⟩) next (rest.lexemes ++ us)
    have hr := readAll?_summands a (some ⟨Pending.complete sum term, sign.operator, n⟩) next.tree rest hu
    simp only [Summands.lexemes, List.cons_append, List.append_assoc]
    cases sign <;> exact ht.trans hr

theorem readAll?_expression (a : Assignment) (e : Expression) (us : List Lexeme)
    (hu : Next EndsExpression us) :
    (Reading.operand a .start).readAll? (e.lexemes ++ us) = (Reading.operator a none e.tree).readAll? us := by
  cases e with | mk first rest =>
  simp only [Expression.lexemes, List.append_assoc]
  exact (readAll?_term a none first _).trans (readAll?_summands a none first.tree rest hu)
end

/-! ## Statements -/

/-- Where a statement is due and none begins, the empty one is over. -/
theorem readAll?_empty (b : Body) {us : List Lexeme} (hu : Next EndsStatement us) :
    (Reading.statement b).readAll? us = (Reading.separator (b.add .empty)).readAll? us := by
  cases us with
  | nil => cases hu
  | cons l us =>
    obtain ⟨t, n⟩ := l
    rcases hu with rfl | rfl <;> rfl

theorem readAll?_assignment (b : Body) (s : Phrase.Assignment) {us : List Lexeme} (hu : Next EndsStatement us) :
    (Reading.statement b).readAll? (s.lexemes ++ us) = (Reading.separator (b.add s.tree)).readAll? us := by
  have he := readAll?_expression ⟨b, s.target, []⟩ s.value us (hu.imp EndsStatement.endsExpression)
  refine Eq.trans he ?_
  cases us with
  | nil => cases hu
  | cons l us =>
    obtain ⟨t, n⟩ := l
    rcases hu with rfl | rfl <;> rfl

mutual
theorem readAll?_compound (b : Body) (c : Compound) (us : List Lexeme) :
    (Reading.statement b).readAll? (c.lexemes ++ us) = (Reading.separator (b.add c.tree)).readAll? us := by
  cases c with | mk m body n =>
  have ih := readAll?_statements b.nest body (⟨.keyword .endBody, n⟩ :: us) (Or.inr rfl)
  simp only [Compound.lexemes, List.cons_append, List.append_assoc, List.nil_append]
  refine Eq.trans ih ?_
  show (b.nest.addAll body.trees).close.readAll? us = _
  rw [Body.nest_addAll_close]
  rfl

theorem readAll?_statements (b : Body) (ss : Statements) (us : List Lexeme) (hu : Next EndsStatement us) :
    (Reading.statement b).readAll? (ss.lexemes ++ us) = (Reading.separator (b.addAll ss.trees)).readAll? us := by
  cases ss with | mk first rest =>
  have hf := readAll?_statement b first (rest.next hu)
  have hr := readAll?_moreStatements (b.add first.tree) rest hu
  simp only [Statements.lexemes, List.append_assoc]
  rw [hf, hr, Body.add_addAll]
  rfl

theorem readAll?_moreStatements (b : Body) (rest : MoreStatements) {us : List Lexeme} (hu : Next EndsStatement us) :
    (Reading.separator b).readAll? (rest.lexemes ++ us) = (Reading.separator (b.addAll rest.trees)).readAll? us := by
  cases rest with
  | nil => rw [MoreStatements.trees, Body.addAll_nil]; rfl
  | cons n statement rest =>
    have hf := readAll?_statement b statement (rest.next hu)
    have hr := readAll?_moreStatements (b.add statement.tree) rest hu
    simp only [MoreStatements.lexemes, List.cons_append, List.append_assoc]
    show (Reading.statement b).readAll? _ = _
    rw [hf, hr, Body.add_addAll]
    rfl

theorem readAll?_statement (b : Body) (s : Statement) {us : List Lexeme} (hu : Next EndsStatement us) :
    (Reading.statement b).readAll? (s.lexemes ++ us) = (Reading.separator (b.add s.tree)).readAll? us := by
  cases s with
  | compound c => exact readAll?_compound b c us
  | assignment a => exact readAll?_assignment b a hu
  | empty => exact readAll?_empty b hu
end

/-! ## Declarations and programs -/

theorem readAll?_names (h : Heading) (group : Array Name) (rest : List (Nat × Name)) (us : List Lexeme) :
    (Reading.declared h group).readAll? (rest.flatMap commaName ++ us) =
      (Reading.declared h (group ++ rest.map Prod.snd)).readAll? us := by
  induction rest generalizing group with
  | nil => simp
  | cons x rest ih =>
    simp only [List.flatMap_cons, List.append_assoc]
    refine Eq.trans (ih (group.push x.2)) ?_
    simp

theorem readAll?_declaration (h : Heading) (d : VarDeclaration) (us : List Lexeme) :
    (Reading.nextGroup h).readAll? (d.lexemes ++ us) = (Reading.groupEnd (h.declareAll d.trees)).readAll? us := by
  obtain ⟨first, rest, n, type, k⟩ := d
  simp only [VarDeclaration.lexemes, List.cons_append, List.append_assoc]
  refine Eq.trans (readAll?_names h #[first] rest _) ?_
  rw [Heading.declareAll_trees]
  cases type <;> rfl

theorem readAll?_declarationLines (h : Heading) (ds : List (VarDeclaration × Nat)) (us : List Lexeme) :
    (Reading.nextGroup h).readAll? (ds.flatMap declarationLine ++ us) =
      (Reading.nextGroup (h.declareAll (ds.flatMap fun d => d.1.trees))).readAll? us := by
  induction ds generalizing h with
  | nil => simp [Heading.declareAll]
  | cons d ds ih =>
    simp only [List.flatMap_cons, declarationLine, List.append_assoc]
    rw [readAll?_declaration]
    refine Eq.trans (ih (h.declareAll d.1.trees)) ?_
    rw [Heading.declareAll_append]

/-- The body is the same whether declarations stand before it or not. -/
theorem readAll?_declarations (h : Heading) (d : Declarations) {us : List Lexeme}
    (hu : Next (· = .keyword .beginBody) us) :
    (Reading.sections h).readAll? (d.lexemes ++ us) = (Reading.nextGroup (h.declareAll d.trees)).readAll? us := by
  cases d with
  | none =>
    cases us with
    | nil => cases hu
    | cons l us =>
      obtain ⟨t, n⟩ := l
      obtain rfl : t = .keyword .beginBody := hu
      simp [Declarations.lexemes, Declarations.trees, Heading.declareAll, accept?]
  | some n first rest => exact readAll?_declarationLines h (first :: rest) us

theorem readAll?_body (h : Heading) (c : Compound) (us : List Lexeme) :
    (Reading.nextGroup h).readAll? (c.lexemes ++ us) = (Reading.closing h c.tree).readAll? us := by
  cases c with | mk m body n =>
  have hs := readAll?_statements (.ofHeading h) body (⟨.keyword .endBody, n⟩ :: us) (Or.inr rfl)
  simp only [Compound.lexemes, List.cons_append, List.append_assoc, List.nil_append]
  refine Eq.trans hs ?_
  show ((Body.ofHeading h).addAll body.trees).close.readAll? us = _
  rw [Body.ofHeading_addAll_close]
  rfl

/-- Every program of the grammar is read to its end, and its tree is what it means. -/
theorem readAll?_program (p : Program) : Reading.opening.readAll? p.lexemes = some (.complete p.tree) := by
  obtain ⟨m, x, n, ⟨d, c⟩, k⟩ := p
  have hd := readAll?_declarations ⟨x.text, #[]⟩ d (c.next [⟨.symbol .dot, k⟩])
  simp only [Program.lexemes, Block.lexemes, List.append_assoc]
  refine Eq.trans hd ?_
  rw [readAll?_body]
  simp [accept?, Program.tree, Heading.declareAll]

end Reading

end Pascaline
