/-
  Pascaline.Proofs.Grammar.Unparse — trees written as tokens.

  A tree is written with parentheses where the grammar has no room for it without: a sum
  behind a sign or as an operand of a product, and any operation behind a prefix or on the
  right of a product (`Tree.unparse`). The tree of a program is written as a program of the
  grammar, with this tree (`IsProgram.exists_phrase`).

  No program with the same tree has fewer parentheses (`Program.opens_le`), and how trees
  are written does not depend on their lines (`unparse_mapLines`).
-/

import Pascaline.Proofs.Tree.Lines
import Pascaline.Proofs.Tree.WellFormed

namespace Pascaline

/-! ## Writing trees -/

/-- The tokens, within parentheses where they must be. -/
def enclose (must : Bool) (ts : List Token) : List Token :=
  if must then .symbol .openParen :: (ts ++ [.symbol .closeParen]) else ts

namespace Tree

/-- The tree is a sum or a difference. -/
def isSum : Tree → Bool
  | .binary _ op _ _ => op.isAdditive
  | _ => false

/-- The tree has an operator between two operands. -/
def isOperation : Tree → Bool
  | .binary .. => true
  | _ => false

mutual
/-- The tree in tokens, with a group of its own for every declared name and no more
    parentheses than are needed. A number is written as an integer. -/
def unparse : Tree → List Token
  | .program name b => .keyword .program :: .name name :: .symbol .semicolon :: (unparse b ++ [.symbol .dot])
  | .block [] body => unparse body
  | .block (d :: ds) body => .keyword .var :: (unparse d ++ (unparseEach ds ++ unparse body))
  | .declaration subject type => unparse subject ++ .symbol .colon :: (unparse type ++ [.symbol .semicolon])
  | .typeName .integer => [.keyword .integer]
  | .typeName .real => [.keyword .real]
  | .compound [] => [.keyword .beginBody, .keyword .endBody]
  | .compound (s :: ss) => .keyword .beginBody :: (unparse s ++ (unparseMore ss ++ [.keyword .endBody]))
  | .assign target value => unparse target ++ .symbol .assign :: unparse value
  | .binary left op right _ =>
    enclose (!op.isAdditive && left.isSum) (unparse left) ++
      .ofOperator op :: enclose (if op.isAdditive then right.isSum else right.isOperation) (unparse right)
  | .unary op operand _ => .ofOperator op :: enclose operand.isOperation (unparse operand)
  | .number v => [.integer v]
  | .var x _ => [.name x]
  | .empty => []

def unparseEach : List Tree → List Token
  | [] => []
  | t :: ts => unparse t ++ unparseEach ts

/-- Statements, each behind a semicolon. -/
def unparseMore : List Tree → List Token
  | [] => []
  | t :: ts => .symbol .semicolon :: (unparse t ++ unparseMore ts)
end

/-! ## Lines do not matter -/

section

variable (f : Nat → Nat)

theorem isSum_mapLines (t : Tree) : (t.mapLines f).isSum = t.isSum := by cases t <;> rfl

theorem isOperation_mapLines (t : Tree) : (t.mapLines f).isOperation = t.isOperation := by cases t <;> rfl

mutual
theorem unparse_mapLines (t : Tree) : (t.mapLines f).unparse = t.unparse := by
  cases t with
  | program name b => simp only [mapLines, unparse, unparse_mapLines b]
  | block declarations body =>
    cases declarations with
    | nil => simp only [mapLines, mapLinesAll, unparse, unparse_mapLines body]
    | cons d ds =>
      simp only [mapLines, mapLinesAll, unparse, unparse_mapLines d, unparseEach_mapLines ds, unparse_mapLines body]
  | declaration subject type => simp only [mapLines, unparse, unparse_mapLines subject, unparse_mapLines type]
  | typeName type => rfl
  | compound statements =>
    cases statements with
    | nil => rfl
    | cons s ss => simp only [mapLines, mapLinesAll, unparse, unparse_mapLines s, unparseMore_mapLines ss]
  | assign target value => simp only [mapLines, unparse, unparse_mapLines target, unparse_mapLines value]
  | binary left op right n =>
    simp only [mapLines, unparse, unparse_mapLines left, unparse_mapLines right, isSum_mapLines, isOperation_mapLines]
  | unary op operand n => simp only [mapLines, unparse, unparse_mapLines operand, isOperation_mapLines]
  | _ => rfl

theorem unparseEach_mapLines (ts : List Tree) : unparseEach (mapLinesAll f ts) = unparseEach ts := by
  cases ts with
  | nil => rfl
  | cons t ts => simp only [mapLinesAll, unparseEach, unparse_mapLines t, unparseEach_mapLines ts]

theorem unparseMore_mapLines (ts : List Tree) : unparseMore (mapLinesAll f ts) = unparseMore ts := by
  cases ts with
  | nil => rfl
  | cons t ts => simp only [mapLinesAll, unparseMore, unparse_mapLines t, unparseMore_mapLines ts]
end

end

/-- Trees that are the same up to lines are written alike. -/
theorem EqUpToLines.unparse {t u : Tree} (h : t.EqUpToLines u) : t.unparse = u.unparse := by
  rw [← unparse_mapLines (fun _ => 0) t, ← unparse_mapLines (fun _ => 0) u, h]

theorem unparseEach_eq (ts : List Tree) : unparseEach ts = ts.flatMap Tree.unparse := by
  induction ts with
  | nil => rfl
  | cons t ts ih => rw [unparseEach, ih, List.flatMap_cons]

end Tree

/-! ## What is written is a program -/

/-- The tokens of lexemes, wherever they stand. -/
def tokensOf (ls : List Lexeme) : List Token := ls.map Lexeme.token

theorem tokensOf_append (ls ms : List Lexeme) : tokensOf (ls ++ ms) = tokensOf ls ++ tokensOf ms := List.map_append

theorem tokensOf_cons (l : Lexeme) (ls : List Lexeme) : tokensOf (l :: ls) = l.token :: tokensOf ls := rfl

namespace Phrase

/-- The sum with one more operand at its end. -/
def Summands.snoc (sign : Sign) (n : Nat) (term : Term) : Summands → Summands
  | .nil => .cons sign n term .nil
  | .cons s m t rest => .cons s m t (rest.snoc sign n term)

theorem Summands.tree_snoc (sign : Sign) (n : Nat) (term : Term) (rest : Summands) (left : Tree) :
    (rest.snoc sign n term).tree left = .binary (rest.tree left) sign.operator term.tree n := by
  cases rest with
  | nil => rfl
  | cons s m t rest => exact rest.tree_snoc sign n term _

theorem Summands.lexemes_snoc (sign : Sign) (n : Nat) (term : Term) (rest : Summands) :
    (rest.snoc sign n term).lexemes = rest.lexemes ++ sign.lexeme n :: term.lexemes := by
  cases rest with
  | nil => simp [Summands.snoc, Summands.lexemes]
  | cons s m t rest => simp [Summands.snoc, Summands.lexemes, rest.lexemes_snoc sign n term]

/-- The product with one more operand at its end. -/
def Multipliers.snoc (op : Scaling) (n : Nat) (factor : Factor) : Multipliers → Multipliers
  | .nil => .cons op n factor .nil
  | .cons s m f rest => .cons s m f (rest.snoc op n factor)

theorem Multipliers.tree_snoc (op : Scaling) (n : Nat) (factor : Factor) (rest : Multipliers) (left : Tree) :
    (rest.snoc op n factor).tree left = .binary (rest.tree left) op.operator factor.tree n := by
  cases rest with
  | nil => rfl
  | cons s m f rest => exact rest.tree_snoc op n factor _

theorem Multipliers.lexemes_snoc (op : Scaling) (n : Nat) (factor : Factor) (rest : Multipliers) :
    (rest.snoc op n factor).lexemes = rest.lexemes ++ op.lexeme n :: factor.lexemes := by
  cases rest with
  | nil => simp [Multipliers.snoc, Multipliers.lexemes]
  | cons s m f rest => simp [Multipliers.snoc, Multipliers.lexemes, rest.lexemes_snoc op n factor]

/-- At each level of the grammar there is a phrase with the tree, written with parentheses
    if the level has no room for it without. -/
structure Writes (t : Tree) : Prop where
  expression : ∃ e : Expression, e.tree = t ∧ tokensOf e.lexemes = t.unparse
  term : ∃ m : Term, m.tree = t ∧ tokensOf m.lexemes = enclose t.isSum t.unparse
  factor : ∃ f : Factor, f.tree = t ∧ tokensOf f.lexemes = enclose t.isOperation t.unparse

theorem exists_expression_of_term {t : Tree} (h : ∃ m : Term, m.tree = t ∧ tokensOf m.lexemes = t.unparse) :
    ∃ e : Expression, e.tree = t ∧ tokensOf e.lexemes = t.unparse := by
  obtain ⟨m, hm, hts⟩ := h
  exact ⟨.mk m .nil, hm, by rw [Expression.lexemes, Summands.lexemes, List.append_nil, hts]⟩

theorem exists_term_of_factor {t : Tree} {ts : List Token} (h : ∃ f : Factor, f.tree = t ∧ tokensOf f.lexemes = ts) :
    ∃ m : Term, m.tree = t ∧ tokensOf m.lexemes = ts := by
  obtain ⟨f, hf, hts⟩ := h
  exact ⟨.mk f .nil, hf, by rw [Term.lexemes, Multipliers.lexemes, List.append_nil, hts]⟩

/-- An expression in parentheses is a factor. -/
theorem exists_factor_of_expression {t : Tree} (h : ∃ e : Expression, e.tree = t ∧ tokensOf e.lexemes = t.unparse) :
    ∃ f : Factor, f.tree = t ∧ tokensOf f.lexemes = enclose true t.unparse := by
  obtain ⟨e, he, hts⟩ := h
  refine ⟨.group 0 e 0, he, ?_⟩
  rw [Factor.lexemes, tokensOf_cons, tokensOf_append, hts]
  rfl

namespace Writes

theorem of_factor {t : Tree} (hop : t.isOperation = false) (hsum : t.isSum = false)
    (h : ∃ f : Factor, f.tree = t ∧ tokensOf f.lexemes = t.unparse) : Writes t :=
  ⟨exists_expression_of_term (exists_term_of_factor h), by rw [hsum]; exact exists_term_of_factor h, by rwa [hop]⟩

theorem of_term {t : Tree} (hop : t.isOperation = true) (hsum : t.isSum = false)
    (h : ∃ m : Term, m.tree = t ∧ tokensOf m.lexemes = t.unparse) : Writes t :=
  ⟨exists_expression_of_term h, by rwa [hsum],
    by rw [hop]; exact exists_factor_of_expression (exists_expression_of_term h)⟩

theorem of_expression {t : Tree} (hop : t.isOperation = true) (hsum : t.isSum = true)
    (h : ∃ e : Expression, e.tree = t ∧ tokensOf e.lexemes = t.unparse) : Writes t :=
  ⟨h, by rw [hsum]; exact exists_term_of_factor (exists_factor_of_expression h),
    by rw [hop]; exact exists_factor_of_expression h⟩

theorem sum {left right : Tree} (hl : Writes left) (hr : Writes right) (sign : Sign) (n : Nat) :
    Writes (.binary left sign.operator right n) := by
  obtain ⟨⟨first, rest⟩, rfl, hfirst⟩ := hl.expression
  obtain ⟨m, rfl, hm⟩ := hr.term
  refine of_expression rfl (by cases sign <;> rfl) ⟨.mk first (rest.snoc sign n m), rest.tree_snoc sign n m _, ?_⟩
  rw [Expression.lexemes, tokensOf_append] at hfirst
  rw [Expression.lexemes, rest.lexemes_snoc, tokensOf_append, tokensOf_append, tokensOf_cons, hm,
    ← List.append_assoc, hfirst, Tree.unparse]
  cases sign <;> rfl

theorem product {left right : Tree} (hl : Writes left) (hr : Writes right) (op : Scaling) (n : Nat) :
    Writes (.binary left op.operator right n) := by
  obtain ⟨⟨first, rest⟩, rfl, hfirst⟩ := hl.term
  obtain ⟨f, rfl, hf⟩ := hr.factor
  refine of_term rfl (by cases op <;> rfl) ⟨.mk first (rest.snoc op n f), rest.tree_snoc op n f _, ?_⟩
  rw [Term.lexemes, tokensOf_append] at hfirst
  rw [Term.lexemes, rest.lexemes_snoc, tokensOf_append, tokensOf_append, tokensOf_cons, hf,
    ← List.append_assoc, hfirst, Tree.unparse]
  cases op <;> rfl

theorem signed {operand : Tree} (h : Writes operand) (sign : Sign) (n : Nat) :
    Writes (.unary sign.operator operand n) := by
  obtain ⟨f, rfl, hf⟩ := h.factor
  refine of_factor rfl rfl ⟨.signed sign n f, rfl, ?_⟩
  rw [Factor.lexemes, tokensOf_cons, hf, Tree.unparse]
  rfl

end Writes

end Phrase

open Phrase

theorem Tree.IsExpression.writes {t : Tree} (h : t.IsExpression) : Writes t := by
  induction h with
  | number v => exact .of_factor rfl rfl ⟨.integer v 0, rfl, rfl⟩
  | var h =>
    obtain ⟨-, n⟩ := h
    exact .of_factor rfl rfl ⟨.name ⟨_, n⟩, rfl, rfl⟩
  | binary op n hl hr ihl ihr =>
    cases op with
    | plus => exact ihl.sum ihr .plus n
    | minus => exact ihl.sum ihr .minus n
    | times => exact ihl.product ihr .times n
    | intDiv => exact ihl.product ihr .intDiv n
    | div => exact ihl.product ihr .div n
  | unary n hop h ih =>
    rcases hop with rfl | rfl
    · exact ih.signed .plus n
    · exact ih.signed .minus n

theorem Tree.IsStatement.exists_phrase {t : Tree} (h : t.IsStatement) :
    ∃ s : Statement, s.tree = t ∧ tokensOf s.lexemes = t.unparse := by
  induction h with
  | @compound ss hne h ih =>
    have hmore : ∀ ts : List Tree, (∀ t ∈ ts, t ∈ ss) →
        ∃ rest : MoreStatements, rest.trees = ts ∧ tokensOf rest.lexemes = unparseMore ts := by
      intro ts hts
      induction ts with
      | nil => exact ⟨.nil, rfl, rfl⟩
      | cons t ts iht =>
        obtain ⟨ht, hrests⟩ := List.forall_mem_cons.1 hts
        obtain ⟨rest, rfl, hrest⟩ := iht hrests
        obtain ⟨s, rfl, hs⟩ := ih t ht
        refine ⟨.cons 0 s rest, rfl, ?_⟩
        rw [MoreStatements.lexemes, tokensOf_cons, tokensOf_append, hs, hrest, unparseMore]
    cases ss with
    | nil => exact absurd rfl hne
    | cons t ts =>
      obtain ⟨s, rfl, hs⟩ := ih t List.mem_cons_self
      obtain ⟨rest, rfl, hrest⟩ := hmore ts fun t ht => List.mem_cons_of_mem _ ht
      refine ⟨.compound (.mk 0 (.mk s rest) 0), rfl, ?_⟩
      rw [Statement.lexemes, Compound.lexemes, Statements.lexemes, tokensOf_cons, tokensOf_append, tokensOf_append,
        hs, hrest, unparse, List.append_assoc]
      rfl
  | assign ht hv =>
    obtain ⟨-, n⟩ := ht
    obtain ⟨e, rfl, he⟩ := hv.writes.expression
    refine ⟨.assignment ⟨⟨_, n⟩, 0, e⟩, rfl, ?_⟩
    rw [Statement.lexemes, Assignment.lexemes, tokensOf_cons, tokensOf_cons, he]
    rfl
  | empty => exact ⟨.empty, rfl, rfl⟩

theorem Tree.IsDeclaration.exists_phrase {t : Tree} (h : t.IsDeclaration) :
    ∃ d : VarDeclaration × Nat, d.1.trees = [t] ∧ tokensOf (declarationLine d) = t.unparse := by
  obtain ⟨hx, type⟩ := h
  obtain ⟨-, n⟩ := hx
  refine ⟨(⟨⟨_, n⟩, [], 0, ⟨type, 0⟩⟩, 0), rfl, ?_⟩
  cases type <;> rfl

/-- Declarations in a row, each with its line. -/
theorem exists_declarationLines {ts : List Tree} (h : ∀ t ∈ ts, t.IsDeclaration) :
    ∃ ds : List (VarDeclaration × Nat), (ds.flatMap fun d => d.1.trees) = ts ∧
      tokensOf (ds.flatMap declarationLine) = Tree.unparseEach ts := by
  induction ts with
  | nil => exact ⟨[], rfl, rfl⟩
  | cons t ts ih =>
    obtain ⟨ht, hts⟩ := List.forall_mem_cons.1 h
    obtain ⟨d, hd, htokens⟩ := ht.exists_phrase
    obtain ⟨ds, rfl, hds⟩ := ih hts
    refine ⟨d :: ds, by rw [List.flatMap_cons, hd]; rfl, ?_⟩
    rw [List.flatMap_cons, tokensOf_append, htokens, hds, Tree.unparseEach]

theorem exists_declarations {ts : List Tree} (h : ∀ t ∈ ts, t.IsDeclaration) :
    ∃ d : Declarations, d.trees = ts ∧ ∀ body, tokensOf d.lexemes ++ body.unparse = (Tree.block ts body).unparse := by
  cases ts with
  | nil => exact ⟨.none, rfl, fun body => rfl⟩
  | cons t ts =>
    obtain ⟨ht, hts⟩ := List.forall_mem_cons.1 h
    obtain ⟨d, hd, htokens⟩ := ht.exists_phrase
    obtain ⟨ds, rfl, hds⟩ := exists_declarationLines hts
    refine ⟨.some 0 d ds, by rw [Declarations.trees, List.flatMap_cons, hd]; rfl, fun body => ?_⟩
    rw [Declarations.lexemes, tokensOf_cons, List.flatMap_cons, tokensOf_append, htokens, hds, Tree.unparse,
      List.cons_append, List.append_assoc]

/-- The tree of a program is written as a program of the grammar. -/
theorem Tree.IsProgram.exists_phrase {t : Tree} (h : t.IsProgram) :
    ∃ p : Program, p.tree = t ∧ p.tokens = t.unparse := by
  obtain ⟨hname, hd, hb⟩ := h
  obtain ⟨d, rfl, hblock⟩ := exists_declarations hd
  obtain ⟨s, hs, hbody⟩ := hb.exists_phrase
  cases s with
  | compound c =>
    rw [← hs] at hbody ⊢
    refine ⟨⟨0, ⟨_, 0⟩, 0, ⟨d, c⟩, 0⟩, rfl, ?_⟩
    have htokens : tokensOf (d.lexemes ++ c.lexemes) = (Tree.block d.trees c.tree).unparse := by
      rw [tokensOf_append, ← hblock]
      exact congrArg _ hbody
    show _ :: _ :: _ :: tokensOf (d.lexemes ++ c.lexemes ++ [_]) = _
    rw [tokensOf_append, htokens]
    rfl
  | _ => cases hs

/-! ## No pair of parentheses too many -/

/-- How many parentheses are opened. -/
def opens (ts : List Token) : Nat := ts.countP (· = .symbol .openParen)

theorem opens_append (ts us : List Token) : opens (ts ++ us) = opens ts + opens us := List.countP_append

theorem opens_cons_of_ne {t : Token} (h : t ≠ .symbol .openParen) (ts : List Token) : opens (t :: ts) = opens ts :=
  List.countP_cons_of_neg (by simpa using h)

theorem opens_openParen (ts : List Token) : opens (.symbol .openParen :: ts) = opens ts + 1 :=
  List.countP_cons_of_pos (by simp)

theorem opens_enclose (must : Bool) (ts : List Token) : opens (enclose must ts) = must.toNat + opens ts := by
  cases must with
  | false => exact (Nat.zero_add _).symm
  | true =>
    rw [enclose, if_pos rfl, opens_openParen, opens_append]
    show opens ts + 0 + 1 = 1 + opens ts
    omega

theorem ofOperator_ne_openParen (op : Operator) : Token.ofOperator op ≠ .symbol .openParen := by
  cases op <;> decide

theorem opens_operator (op : Operator) (ts : List Token) : opens (.ofOperator op :: ts) = opens ts :=
  opens_cons_of_ne (ofOperator_ne_openParen op) ts

theorem Tree.isSum_le (t : Tree) : t.isSum.toNat ≤ t.isOperation.toNat := by
  cases t with
  | binary left op right n => exact Bool.toNat_le _
  | _ => exact Nat.le_refl _

namespace Phrase

mutual
theorem Expression.opens_le (e : Expression) : opens e.tree.unparse ≤ opens (tokensOf e.lexemes) := by
  cases e with | mk first rest =>
  have hfirst := first.opens_le
  rw [Expression.lexemes, tokensOf_append, opens_append]
  exact rest.opens_le (by omega)

/-- What the left part of a sum needs, and what is written behind it, is enough. -/
theorem Summands.opens_le (rest : Summands) {left : Tree} {k : Nat} (h : opens left.unparse ≤ k) :
    opens (rest.tree left).unparse ≤ k + opens (tokensOf rest.lexemes) := by
  cases rest with
  | nil => exact h
  | cons sign n term rest =>
    have hterm := term.opens_le
    have hsum : opens (Tree.binary left sign.operator term.tree n).unparse ≤ k + opens (tokensOf term.lexemes) := by
      have hop : sign.operator.isAdditive = true := by cases sign <;> rfl
      rw [Tree.unparse, opens_append, opens_operator, opens_enclose, opens_enclose, hop]
      simp only [Bool.not_true, Bool.false_and, Bool.toNat_false, if_true]
      omega
    have hrest := rest.opens_le hsum
    rw [Summands.tree, Summands.lexemes, tokensOf_cons, tokensOf_append, Sign.lexeme, opens_operator, opens_append]
    omega

theorem Term.opens_le (t : Term) : t.tree.isSum.toNat + opens t.tree.unparse ≤ opens (tokensOf t.lexemes) := by
  cases t with | mk first rest =>
  have hfirst := first.opens_le
  have hsum := first.tree.isSum_le
  rw [Term.lexemes, tokensOf_append, opens_append]
  exact rest.opens_le (by omega)

theorem Multipliers.opens_le (rest : Multipliers) {left : Tree} {k : Nat}
    (h : left.isSum.toNat + opens left.unparse ≤ k) :
    (rest.tree left).isSum.toNat + opens (rest.tree left).unparse ≤ k + opens (tokensOf rest.lexemes) := by
  cases rest with
  | nil => exact h
  | cons op n factor rest =>
    have hfactor := factor.opens_le
    have hproduct : (Tree.binary left op.operator factor.tree n).isSum.toNat +
        opens (Tree.binary left op.operator factor.tree n).unparse ≤ k + opens (tokensOf factor.lexemes) := by
      have hop : op.operator.isAdditive = false := by cases op <;> rfl
      rw [Tree.unparse, opens_append, opens_operator, opens_enclose, opens_enclose, Tree.isSum, hop]
      simp only [Bool.not_false, Bool.true_and, Bool.toNat_false, Bool.false_eq_true, if_false]
      omega
    have hrest := rest.opens_le hproduct
    rw [Multipliers.tree, Multipliers.lexemes, tokensOf_cons, tokensOf_append, Scaling.lexeme, opens_operator,
      opens_append]
    omega

theorem Factor.opens_le (f : Factor) :
    f.tree.isOperation.toNat + opens f.tree.unparse ≤ opens (tokensOf f.lexemes) := by
  cases f with
  | signed sign n operand =>
    have hoperand := operand.opens_le
    rw [Factor.tree, Tree.unparse, Factor.lexemes, tokensOf_cons, Sign.lexeme, opens_operator, opens_operator,
      opens_enclose]
    show 0 + _ ≤ _
    omega
  | group m inner n =>
    have hinner := inner.opens_le
    have hone : inner.tree.isOperation.toNat ≤ 1 := Bool.toNat_le _
    have hgroup : tokensOf (Factor.group m inner n).lexemes = enclose true (tokensOf inner.lexemes) := by
      rw [Factor.lexemes, tokensOf_cons, tokensOf_append]
      rfl
    rw [hgroup, opens_enclose, Factor.tree]
    show _ ≤ 1 + _
    omega
  | _ => exact Nat.zero_le _
end

theorem Assignment.opens_le (a : Assignment) : opens a.tree.unparse ≤ opens (tokensOf a.lexemes) := by
  -- neither the target nor the `:=` opens a parenthesis
  show opens a.value.tree.unparse ≤ opens (tokensOf a.value.lexemes)
  exact a.value.opens_le

mutual
theorem Compound.opens_le (c : Compound) : opens c.tree.unparse ≤ opens (tokensOf c.lexemes) := by
  cases c with | mk m body n =>
  cases body with | mk first rest =>
  have hfirst := first.opens_le
  have hrest := rest.opens_le
  show opens (first.tree.unparse ++ (Tree.unparseMore rest.trees ++ [_])) ≤
    opens (tokensOf (first.lexemes ++ rest.lexemes ++ [_]))
  simp only [tokensOf_append, opens_append]
  show _ + (_ + 0) ≤ _ + _ + 0
  omega

theorem MoreStatements.opens_le (rest : MoreStatements) :
    opens (Tree.unparseMore rest.trees) ≤ opens (tokensOf rest.lexemes) := by
  cases rest with
  | nil => exact Nat.le_refl _
  | cons n statement rest =>
    have hstatement := statement.opens_le
    have hrest := rest.opens_le
    show opens (statement.tree.unparse ++ Tree.unparseMore rest.trees) ≤
      opens (tokensOf (statement.lexemes ++ rest.lexemes))
    rw [tokensOf_append, opens_append, opens_append]
    omega

theorem Statement.opens_le (s : Statement) : opens s.tree.unparse ≤ opens (tokensOf s.lexemes) := by
  cases s with
  | compound c => exact c.opens_le
  | assignment a => exact a.opens_le
  | empty => exact Nat.le_refl _
end

/-- Declarations have no parentheses. -/
theorem Declarations.opens_trees (d : Declarations) (body : Tree) :
    opens (Tree.block d.trees body).unparse = opens body.unparse := by
  have hdeclaration : ∀ t ∈ d.trees, opens t.unparse = 0 := by
    cases d with
    | none => exact nofun
    | some n first rest =>
      intro t ht
      obtain ⟨d, -, hd⟩ := List.mem_flatMap.1 ht
      obtain ⟨x, -, rfl⟩ := List.mem_map.1 hd
      cases htype : d.1.type.type <;> rfl
  have heach : ∀ ts : List Tree, (∀ t ∈ ts, opens t.unparse = 0) → opens (Tree.unparseEach ts) = 0 := by
    intro ts hts
    induction ts with
    | nil => rfl
    | cons t ts ih =>
      obtain ⟨ht, hrest⟩ := List.forall_mem_cons.1 hts
      rw [Tree.unparseEach, opens_append, ht, ih hrest]
  cases hts : d.trees with
  | nil => rfl
  | cons t ts =>
    rw [hts] at hdeclaration
    obtain ⟨ht, hrest⟩ := List.forall_mem_cons.1 hdeclaration
    rw [Tree.unparse, opens_cons_of_ne (by decide), opens_append, opens_append, ht, heach ts hrest, Nat.zero_add,
      Nat.zero_add]

/-- No program with the tree has fewer parentheses than the tree is written with. -/
theorem Program.opens_le (p : Program) : opens p.tree.unparse ≤ opens p.tokens := by
  have hbody := p.block.body.opens_le
  show opens ((Tree.block p.block.declarations.trees p.block.body.tree).unparse ++ [_]) ≤
    opens (tokensOf (p.block.declarations.lexemes ++ p.block.body.lexemes ++ [_]))
  simp only [tokensOf_append, opens_append, Declarations.opens_trees]
  show _ + 0 ≤ _ + _ + 0
  omega

end Phrase

/-! ## Matching parentheses -/

/-- Every parenthesis in the tokens is one of a pair. -/
inductive Balanced : List Token → Prop
  | nil : Balanced []
  | plain {t : Token} {ts : List Token} (hopen : t ≠ .symbol .openParen) (hclose : t ≠ .symbol .closeParen)
      (h : Balanced ts) : Balanced (t :: ts)
  | pair {ts us : List Token} (h : Balanced ts) (h' : Balanced us) :
      Balanced (.symbol .openParen :: (ts ++ .symbol .closeParen :: us))

namespace Balanced

theorem append {ts us : List Token} (h : Balanced ts) (h' : Balanced us) : Balanced (ts ++ us) := by
  induction h with
  | nil => exact h'
  | plain hopen hclose h ih => exact .plain hopen hclose ih
  | pair h hus ih ih' =>
    rw [List.cons_append, List.append_assoc, List.cons_append]
    exact .pair h ih'

/-- A parenthesis is closed in one place. -/
theorem cancel {ts us r s : List Token} (h : Balanced ts) (h' : Balanced us)
    (heq : ts ++ .symbol .closeParen :: r = us ++ .symbol .closeParen :: s) : ts = us ∧ r = s := by
  induction h generalizing us r s with
  | nil =>
    cases h' with
    | nil => exact ⟨rfl, (List.cons.inj heq).2⟩
    | plain hopen hclose h' => exact absurd (List.cons.inj heq).1.symm hclose
    | pair h' h'' => cases (List.cons.inj heq).1
  | plain hopen hclose h ih =>
    cases h' with
    | nil => exact absurd (List.cons.inj heq).1 hclose
    | plain hopen' hclose' h' =>
      obtain ⟨rfl, hrest⟩ := List.cons.inj heq
      obtain ⟨rfl, rfl⟩ := ih h' hrest
      exact ⟨rfl, rfl⟩
    | pair h' h'' => exact absurd (List.cons.inj heq).1 hopen
  | pair h hus ih ih' =>
    cases h' with
    | nil => cases (List.cons.inj heq).1
    | plain hopen' hclose' h' => exact absurd (List.cons.inj heq).1.symm hopen'
    | pair h' h'' =>
      rw [List.cons_append, List.cons_append, List.append_assoc, List.append_assoc] at heq
      have hinner := (List.cons.inj heq).2
      obtain ⟨rfl, hrest⟩ := ih h' hinner
      obtain ⟨rfl, rfl⟩ := ih' h'' hrest
      exact ⟨rfl, rfl⟩

theorem operator (op : Operator) {ts : List Token} (h : Balanced ts) : Balanced (.ofOperator op :: ts) :=
  .plain (ofOperator_ne_openParen op) (by cases op <;> decide) h

end Balanced

namespace Phrase

mutual
theorem Expression.balanced (e : Expression) : Balanced (tokensOf e.lexemes) := by
  cases e with | mk first rest =>
  rw [Expression.lexemes, tokensOf_append]
  exact first.balanced.append rest.balanced

theorem Summands.balanced (rest : Summands) : Balanced (tokensOf rest.lexemes) := by
  cases rest with
  | nil => exact .nil
  | cons sign n term rest =>
    rw [Summands.lexemes, tokensOf_cons, tokensOf_append]
    exact .operator _ (term.balanced.append rest.balanced)

theorem Term.balanced (t : Term) : Balanced (tokensOf t.lexemes) := by
  cases t with | mk first rest =>
  rw [Term.lexemes, tokensOf_append]
  exact first.balanced.append rest.balanced

theorem Multipliers.balanced (rest : Multipliers) : Balanced (tokensOf rest.lexemes) := by
  cases rest with
  | nil => exact .nil
  | cons op n factor rest =>
    rw [Multipliers.lexemes, tokensOf_cons, tokensOf_append]
    exact .operator _ (factor.balanced.append rest.balanced)

theorem Factor.balanced (f : Factor) : Balanced (tokensOf f.lexemes) := by
  cases f with
  | signed sign n operand =>
    rw [Factor.lexemes, tokensOf_cons]
    exact .operator _ operand.balanced
  | group m inner n =>
    rw [Factor.lexemes, tokensOf_cons, tokensOf_append]
    exact .pair inner.balanced .nil
  | _ => exact .plain nofun nofun .nil
end

end Phrase

end Pascaline
