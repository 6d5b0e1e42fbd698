/-
  Pascaline.Proofs.Grammar.Unambiguous — no text has two derivations
  (`Program.eq_of_lexemes_eq`).

  Each lemma cancels two phrases of one kind at the heads of two equal texts. A factor, an
  assignment's name or a compound statement is told by its first token and ends by itself;
  for a phrase that may go on, the tokens behind both must end it.
-/

import Pascaline.Proofs.Grammar.Phrase

namespace Pascaline.Phrase

/-! ## Expressions -/

theorem Sign.operator_injective {s t : Sign} (h : Token.ofOperator s.operator = .ofOperator t.operator) : s = t := by
  revert h; cases s <;> cases t <;> decide

theorem Scaling.operator_injective {a b : Scaling} (h : Token.ofOperator a.operator = .ofOperator b.operator) :
    a = b := by
  revert h; cases a <;> cases b <;> decide

/-- A factor with a sign starts with an operator, and no other factor does. -/
theorem Factor.signed_lexemes_ne (sign : Sign) (n : Nat) (operand : Factor) {l : Lexeme} {r s : List Lexeme}
    (hl : l.token.operator? = none) : (Factor.signed sign n operand).lexemes ++ r ≠ l :: s := by
  intro h
  obtain rfl := (List.cons.inj h).1
  cases sign <;> cases hl

mutual
theorem Factor.cancel (f g : Factor) {r s : List Lexeme} (h : f.lexemes ++ r = g.lexemes ++ s) : f = g ∧ r = s := by
  cases f with
  | signed sign n operand =>
    cases g with
    | signed sign' n' operand' =>
      simp only [Factor.lexemes, Sign.lexeme, List.cons_append, List.cons.injEq, Lexeme.mk.injEq] at h
      obtain ⟨⟨hsign, rfl⟩, h⟩ := h
      obtain ⟨rfl, rfl⟩ := Factor.cancel operand operand' h
      exact ⟨by rw [Sign.operator_injective hsign], rfl⟩
    | _ => exact absurd h (Factor.signed_lexemes_ne sign n operand rfl)
  | group m inner n =>
    cases g with
    | group m' inner' n' =>
      simp only [Factor.lexemes, List.cons_append, List.append_assoc, List.cons.injEq, Lexeme.mk.injEq] at h
      obtain ⟨⟨-, rfl⟩, h⟩ := h
      obtain ⟨rfl, hclose⟩ := Expression.cancel inner inner' h rfl rfl
      simp only [List.nil_append, List.cons.injEq, Lexeme.mk.injEq] at hclose
      obtain ⟨⟨-, rfl⟩, rfl⟩ := hclose
      exact ⟨rfl, rfl⟩
    | signed sign n operand => exact absurd h.symm (Factor.signed_lexemes_ne sign n operand rfl)
    | _ => simp [Factor.lexemes, Name.lexeme] at h
  | integer v n =>
    cases g with
    | signed sign n operand => exact absurd h.symm (Factor.signed_lexemes_ne sign n operand rfl)
    | _ => simp_all [Factor.lexemes, Name.lexeme]
  | real v n =>
    cases g with
    | signed sign n operand => exact absurd h.symm (Factor.signed_lexemes_ne sign n operand rfl)
    | _ => simp_all [Factor.lexemes, Name.lexeme]
  | name x =>
    cases g with
    | signed sign n operand => exact absurd h.symm (Factor.signed_lexemes_ne sign n operand rfl)
    | name y =>
      obtain ⟨x, m⟩ := x
      obtain ⟨y, n⟩ := y
      simp_all [Factor.lexemes, Name.lexeme]
    | _ => simp [Factor.lexemes, Name.lexeme] at h

theorem Multipliers.cancel (m m' : Multipliers) {r s : List Lexeme} (h : m.lexemes ++ r = m'.lexemes ++ s)
    (hr : Next EndsTerm r) (hs : Next EndsTerm s) : m = m' ∧ r = s := by
  cases m with
  | nil =>
    cases m' with
    | nil => exact ⟨rfl, h⟩
    | cons op n factor rest =>
      simp only [Multipliers.lexemes, List.nil_append, List.cons_append] at h
      subst h
      exact absurd rfl (hr op)
  | cons op n factor rest =>
    cases m' with
    | nil =>
      simp only [Multipliers.lexemes, List.nil_append, List.cons_append] at h
      subst h
      exact absurd rfl (hs op)
    | cons op' n' factor' rest' =>
      simp only [Multipliers.lexemes, Scaling.lexeme, List.cons_append, List.append_assoc, List.cons.injEq,
        Lexeme.mk.injEq] at h
      obtain ⟨⟨hop, rfl⟩, h⟩ := h
      obtain ⟨rfl, hrest⟩ := Factor.cancel factor factor' h
      obtain ⟨rfl, rfl⟩ := Multipliers.cancel rest rest' hrest hr hs
      exact ⟨by rw [Scaling.operator_injective hop], rfl⟩

theorem Term.cancel (t t' : Term) {r s : List Lexeme} (h : t.lexemes ++ r = t'.lexemes ++ s)
    (hr : Next EndsTerm r) (hs : Next EndsTerm s) : t = t' ∧ r = s := by
  cases t with | mk first rest =>
  cases t' with | mk first' rest' =>
  simp only [Term.lexemes, List.append_assoc] at h
  obtain ⟨rfl, hrest⟩ := Factor.cancel first first' h
  obtain ⟨rfl, rfl⟩ := Multipliers.cancel rest rest' hrest hr hs
  exact ⟨rfl, rfl⟩

theorem Summands.cancel (m m' : Summands) {r s : List Lexeme} (h : m.lexemes ++ r = m'.lexemes ++ s)
    (hr : Next EndsExpression r) (hs : Next EndsExpression s) : m = m' ∧ r = s := by
  cases m with
  | nil =>
    cases m' with
    | nil => exact ⟨rfl, h⟩
    | cons sign n term rest =>
      simp only [Summands.lexemes, List.nil_append, List.cons_append] at h
      subst h
      cases sign <;> cases hr
  | cons sign n term rest =>
    cases m' with
    | nil =>
      simp only [Summands.lexemes, List.nil_append, List.cons_append] at h
      subst h
      cases sign <;> cases hs
    | cons sign' n' term' rest' =>
      simp only [Summands.lexemes, Sign.lexeme, List.cons_append, List.append_assoc, List.cons.injEq,
        Lexeme.mk.injEq] at h
      obtain ⟨⟨hsign, rfl⟩, h⟩ := h
      obtain ⟨rfl, hrest⟩ := Term.cancel term term' h (rest.next hr) (rest'.next hs)
      obtain ⟨rfl, rfl⟩ := Summands.cancel rest rest' hrest hr hs
      exact ⟨by rw [Sign.operator_injective hsign], rfl⟩

theorem Expression.cancel (e e' : Expression) {r s : List Lexeme} (h : e.lexemes ++ r = e'.lexemes ++ s)
    (hr : Next EndsExpression r) (hs : Next EndsExpression s) : e = e' ∧ r = s := by
  cases e with | mk first rest =>
  cases e' with | mk first' rest' =>
  simp only [Expression.lexemes, List.append_assoc] at h
  obtain ⟨rfl, hrest⟩ := Term.cancel first first' h (rest.next hr) (rest'.next hs)
  obtain ⟨rfl, rfl⟩ := Summands.cancel rest rest' hrest hr hs
  exact ⟨rfl, rfl⟩
end

theorem Assignment.cancel {a a' : Assignment} {r s : List Lexeme} (h : a.lexemes ++ r = a'.lexemes ++ s)
    (hr : Next EndsExpression r) (hs : Next EndsExpression s) : a = a' ∧ r = s := by
  obtain ⟨⟨x, m⟩, n, e⟩ := a
  obtain ⟨⟨x', m'⟩, n', e'⟩ := a'
  simp only [Assignment.lexemes, Name.lexeme, List.cons_append, List.cons.injEq, Lexeme.mk.injEq, Token.name.injEq] at h
  obtain ⟨⟨rfl, rfl⟩, ⟨-, rfl⟩, h⟩ := h
  obtain ⟨rfl, rfl⟩ := Expression.cancel e e' h hr hs
  exact ⟨rfl, rfl⟩

mutual
theorem Compound.cancel (c c' : Compound) {r s : List Lexeme} (h : c.lexemes ++ r = c'.lexemes ++ s) :
    c = c' ∧ r = s := by
  cases c with | mk m body n =>
  cases c' with | mk m' body' n' =>
  simp only [Compound.lexemes, List.cons_append, List.append_assoc, List.cons.injEq, Lexeme.mk.injEq] at h
  obtain ⟨⟨-, rfl⟩, h⟩ := h
  obtain ⟨rfl, hend⟩ := Statements.cancel body body' h rfl rfl
  simp only [List.nil_append, List.cons.injEq, Lexeme.mk.injEq] at hend
  obtain ⟨⟨-, rfl⟩, rfl⟩ := hend
  exact ⟨rfl, rfl⟩

theorem Statements.cancel (ss ss' : Statements) {r s : List Lexeme} (h : ss.lexemes ++ r = ss'.lexemes ++ s)
    (hr : Next (· = .keyword .endBody) r) (hs : Next (· = .keyword .endBody) s) : ss = ss' ∧ r = s := by
  cases ss with | mk first rest =>
  cases ss' with | mk first' rest' =>
  simp only [Statements.lexemes, List.append_assoc] at h
  obtain ⟨rfl, hrest⟩ := Statement.cancel first first' h (rest.next (hr.imp Or.inr)) (rest'.next (hs.imp Or.inr))
  obtain ⟨rfl, rfl⟩ := MoreStatements.cancel rest rest' hrest hr hs
  exact ⟨rfl, rfl⟩

theorem MoreStatements.cancel (m m' : MoreStatements) {r s : List Lexeme} (h : m.lexemes ++ r = m'.lexemes ++ s)
    (hr : Next (· = .keyword .endBody) r) (hs : Next (· = .keyword .endBody) s) : m = m' ∧ r = s := by
  cases m with
  | nil =>
    cases m' with
    | nil => exact ⟨rfl, h⟩
    | cons n statement rest =>
      simp only [MoreStatements.lexemes, List.nil_append, List.cons_append] at h
      subst h
      cases hr
  | cons n statement rest =>
    cases m' with
    | nil =>
      simp only [MoreStatements.lexemes, List.nil_append, List.cons_append] at h
      subst h
      cases hs
    | cons n' statement' rest' =>
      simp only [MoreStatements.lexemes, List.cons_append, List.append_assoc, List.cons.injEq, Lexeme.mk.injEq] at h
      obtain ⟨⟨-, rfl⟩, h⟩ := h
      obtain ⟨rfl, hrest⟩ :=
        Statement.cancel statement statement' h (rest.next (hr.imp Or.inr)) (rest'.next (hs.imp Or.inr))
      obtain ⟨rfl, rfl⟩ := MoreStatements.cancel rest rest' hrest hr hs
      exact ⟨rfl, rfl⟩

theorem Statement.cancel (t t' : Statement) {r s : List Lexeme} (h : t.lexemes ++ r = t'.lexemes ++ s)
    (hr : Next EndsStatement r) (hs : Next EndsStatement s) : t = t' ∧ r = s := by
  cases t with
  | compound c =>
    cases t' with
    | compound c' =>
      obtain ⟨rfl, rfl⟩ := Compound.cancel c c' h
      exact ⟨rfl, rfl⟩
    | assignment a => cases c; cases h
    | empty => cases c; subst h; rcases hs with h | h <;> cases h
  | assignment a =>
    cases t' with
    | compound c => cases c; cases h
    | assignment a' =>
      have hr' := hr.imp EndsStatement.endsExpression
      have hs' := hs.imp EndsStatement.endsExpression
      obtain ⟨rfl, rfl⟩ := Assignment.cancel h hr' hs'
      exact ⟨rfl, rfl⟩
    | empty => subst h; rcases hs with h | h <;> cases h
  | empty =>
    cases t' with
    | compound c => cases c; subst h; rcases hr with h | h <;> cases h
    | assignment a => subst h; rcases hr with h | h <;> cases h
    | empty => exact ⟨rfl, h⟩
end

theorem TypeSpec.lexeme_injective {t t' : TypeSpec} (h : t.lexeme = t'.lexeme) : t = t' := by
  obtain ⟨type, n⟩ := t
  obtain ⟨type', n'⟩ := t'
  cases type <;> cases type' <;> simp_all [TypeSpec.lexeme]

/-- Repetitions are cancelled piece by piece, up to a token that no piece starts with. -/
theorem flatMap_cancel {α : Type} {f : α → List Lexeme} {P : Token → Prop}
    (hf : ∀ {a b r s}, f a ++ r = f b ++ s → a = b ∧ r = s) (hP : ∀ {a r}, ¬Next P (f a ++ r)) {as bs : List α}
    {r s : List Lexeme} (h : as.flatMap f ++ r = bs.flatMap f ++ s) (hr : Next P r) (hs : Next P s) :
    as = bs ∧ r = s := by
  induction as generalizing bs with
  | nil =>
    cases bs with
    | nil => exact ⟨rfl, h⟩
    | cons b bs =>
      simp only [List.flatMap_nil, List.nil_append, List.flatMap_cons, List.append_assoc] at h
      exact absurd (h ▸ hr) hP
  | cons a as ih =>
    cases bs with
    | nil =>
      simp only [List.flatMap_nil, List.nil_append, List.flatMap_cons, List.append_assoc] at h
      exact absurd (h ▸ hs) hP
    | cons b bs =>
      simp only [List.flatMap_cons, List.append_assoc] at h
      obtain ⟨rfl, hrest⟩ := hf h
      obtain ⟨rfl, rfl⟩ := ih hrest
      exact ⟨rfl, rfl⟩

theorem commaName_cancel {x y : Nat × Name} {r s : List Lexeme} (h : commaName x ++ r = commaName y ++ s) :
    x = y ∧ r = s := by
  obtain ⟨m, x, m'⟩ := x
  obtain ⟨n, y, n'⟩ := y
  simpa [commaName, Name.lexeme, and_assoc] using h

theorem VarDeclaration.cancel {d d' : VarDeclaration} {r s : List Lexeme} (h : d.lexemes ++ r = d'.lexemes ++ s) :
    d = d' ∧ r = s := by
  obtain ⟨⟨x, m⟩, xs, n, t⟩ := d
  obtain ⟨⟨x', m'⟩, xs', n', t'⟩ := d'
  simp only [VarDeclaration.lexemes, Name.lexeme, List.cons_append, List.append_assoc, List.cons.injEq,
    Lexeme.mk.injEq, Token.name.injEq] at h
  obtain ⟨⟨rfl, rfl⟩, h⟩ := h
  obtain ⟨rfl, hrest⟩ := flatMap_cancel (P := (· = .symbol .colon)) commaName_cancel (by simp [commaName]) h rfl rfl
  simp only [List.nil_append, List.cons.injEq, Lexeme.mk.injEq] at hrest
  obtain ⟨⟨-, rfl⟩, ht, rfl⟩ := hrest
  exact ⟨by rw [TypeSpec.lexeme_injective ht], rfl⟩

theorem declarationLine_cancel {d d' : VarDeclaration × Nat} {r s : List Lexeme}
    (h : declarationLine d ++ r = declarationLine d' ++ s) : d = d' ∧ r = s := by
  obtain ⟨d, n⟩ := d
  obtain ⟨d', n'⟩ := d'
  simp only [declarationLine, List.append_assoc] at h
  obtain ⟨rfl, hrest⟩ := VarDeclaration.cancel h
  simpa using hrest

theorem Declarations.cancel {d d' : Declarations} {r s : List Lexeme} (h : d.lexemes ++ r = d'.lexemes ++ s)
    (hr : Next (· = .keyword .beginBody) r) (hs : Next (· = .keyword .beginBody) s) : d = d' ∧ r = s := by
  cases d with
  | none =>
    cases d' with
    | none => exact ⟨rfl, h⟩
    | some n first rest => subst h; cases hr
  | some n first rest =>
    cases d' with
    | none => subst h; cases hs
    | some n' first' rest' =>
      simp only [Declarations.lexemes, List.cons_append, List.cons.injEq, Lexeme.mk.injEq] at h
      obtain ⟨⟨-, rfl⟩, h⟩ := h
      obtain ⟨hds, rfl⟩ := flatMap_cancel declarationLine_cancel
        (by simp [declarationLine, VarDeclaration.lexemes, Name.lexeme]) h hr hs
      obtain ⟨rfl, rfl⟩ := List.cons.inj hds
      exact ⟨rfl, rfl⟩

/-- A text has at most one derivation. -/
theorem Program.eq_of_lexemes_eq {p q : Program} (h : p.lexemes = q.lexemes) : p = q := by
  obtain ⟨m, ⟨x, i⟩, n, ⟨d, c⟩, k⟩ := p
  obtain ⟨m', ⟨x', i'⟩, n', ⟨d', c'⟩, k'⟩ := q
  simp only [Program.lexemes, Block.lexemes, Name.lexeme, List.cons.injEq, Lexeme.mk.injEq, Token.name.injEq,
    List.append_assoc] at h
  obtain ⟨⟨-, rfl⟩, ⟨rfl, rfl⟩, ⟨-, rfl⟩, h⟩ := h
  obtain ⟨rfl, hbody⟩ := Declarations.cancel h (c.next _) (c'.next _)
  obtain ⟨rfl, hpoint⟩ := Compound.cancel c c' hbody
  simp only [List.cons.injEq, Lexeme.mk.injEq] at hpoint
  obtain ⟨⟨-, rfl⟩, -⟩ := hpoint
  rfl

end Pascaline.Phrase
