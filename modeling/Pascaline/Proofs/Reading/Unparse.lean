/-
  Pascaline.Proofs.Reading.Unparse — reading a text gives back the tree that it was written
  from.

  A program is written from its tree, so the text is read and has that tree up to lines
  (`Cursor.Spells.parse`). A pair of parentheses that is taken away leaves a program: an
  expression can be read wherever a factor can, and what follows the one can follow the
  other (`exists_program_of_drop`). But it is not a program with the same tree, for it has
  too few parentheses (`parse_unparse`).
-/

import Pascaline.Proofs.Grammar.Unparse
import Pascaline.Proofs.Reading.Yield
import Pascaline.Proofs.Reading.Lines
import Pascaline.Proofs.Token.Spelling

namespace Pascaline

open Phrase

namespace Reading

/-! ## Numbers of either kind -/

/-- There is room for an integer where there is room for a real number of the same value. -/
theorem accept?_asInteger (r : Reading) (t : Token) (n : Nat) : r.accept? t.asInteger n = r.accept? t n := by
  cases t with
  | real v =>
    cases r with
    | operator a sum term =>
      obtain ⟨body, target, outer⟩ := a
      cases outer <;> rfl
    | _ => rfl
  | _ => rfl

theorem readAll?_asInteger (r : Reading) (ls : List Lexeme) : r.readAll? (ls.map Lexeme.asInteger) = r.readAll? ls := by
  induction ls generalizing r with
  | nil => rfl
  | cons l ls ih =>
    have hl := r.accept?_asInteger l.token l.line
    rw [List.map_cons, readAll?_cons, readAll?_cons, ← hl]
    exact congrArg _ (funext ih)

end Reading

/-- A text is read exactly if its tokens are those of a program, and its tree is that of
    such a program on other lines. -/
theorem Cursor.Spells.parse {source : String} {ts : List Token} (h : (Cursor.ofString source).Spells ts) :
    (∀ p : Program, p.tokens = ts → ∃ u, Pascaline.parse source = .ok u ∧ u.EqUpToLines p.tree) ∧
    ∀ u, Pascaline.parse source = .ok u → ∃ p : Program, p.tokens = ts ∧ p.tree = u := by
  obtain ⟨ls, n, hls, rfl⟩ := h
  have hok : ∀ u, Pascaline.parse source = .ok u ↔ Reading.opening.Ends (ls.map Lexeme.asInteger) u := by
    intro u
    rw [Reading.Ends, Reading.readAll?_asInteger]
    exact (Reading.run_eq_ok_iff hls rfl).trans (by simp [Reading.Ends])
  constructor
  · intro p hp
    obtain ⟨u, hu, hlines⟩ := (show Reading.opening.Ends p.lexemes p.tree from
      Reading.readAll?_program p).eqUpToLines hp.symm
    exact ⟨u, (hok u).2 hu, hlines⟩
  · intro u hu
    obtain ⟨p, hp, htree⟩ := Reading.exists_program ((hok u).1 hu)
    exact ⟨p, by rw [Program.tokens, hp], htree⟩

namespace Reading

/-! ## A pair of parentheses taken away -/

theorem Ends.congr {r s : Reading} {ls : List Lexeme} {p : Tree} (h : r.Ends ls p) (hb : r.blank = s.blank) :
    ∃ q, s.Ends ls q := by
  have hall := readAll?_congr hb (rfl : ls.map Lexeme.token = ls.map Lexeme.token)
  rw [h] at hall
  obtain ⟨s', hs, hs'⟩ := Option.map_eq_some_iff.1 hall.symm
  obtain ⟨q, rfl⟩ := eq_complete_of_blank hs'
  exact ⟨q, hs⟩

/-- Parentheses open where a factor is due, and nowhere else. -/
theorem operand_of_accept?_openParen {r s : Reading} {n : Nat} (h : r.accept? (.symbol .openParen) n = some s) :
    ∃ a level, r = .operand a level := by
  cases r with
  | operand a level => exact ⟨a, level, rfl⟩
  | operator a sum term =>
    obtain ⟨body, target, outer⟩ := a
    cases outer <;> cases h
  | _ => cases h

/-- Behind more operands of a sum there is room for what there was room for before. -/
theorem readAll?_summands_place (a : Assignment) (sum : Option Pending) (term : Tree) (rest : Summands) :
    ∃ sum' term', ∀ us, (Reading.operator a sum term).readAll? (rest.lexemes ++ us) =
      (Reading.operator a sum' term').readAll? us := by
  cases rest with
  | nil => exact ⟨sum, term, fun us => rfl⟩
  | cons sign n next rest =>
    obtain ⟨sum', term', hrest⟩ :=
      readAll?_summands_place a (some ⟨Pending.complete sum term, sign.operator, n⟩) next.tree rest
    refine ⟨sum', term', fun us => ?_⟩
    have ht := readAll?_term a (some ⟨Pending.complete sum term, sign.operator, n⟩) next (rest.lexemes ++ us)
    simp only [Summands.lexemes, List.cons_append, List.append_assoc]
    cases sign <;> exact ht.trans (hrest us)

/-- An expression can be read wherever a factor can, and an operator is due behind it. -/
theorem readAll?_expression_place (a : Assignment) (level : Level) (e : Expression) :
    ∃ sum term, ∀ us,
      (Reading.operand a level).readAll? (e.lexemes ++ us) = (Reading.operator a sum term).readAll? us := by
  cases e with | mk first rest =>
  cases first with | mk factor mults =>
  obtain ⟨sum, term, hrest⟩ := readAll?_summands_place a level.sum (mults.tree (level.term factor.tree)) rest
  refine ⟨sum, term, fun us => ?_⟩
  simp only [Expression.lexemes, Term.lexemes, List.append_assoc]
  rw [readAll?_factor, Assignment.supply, readAll?_multipliers, hrest]

/-- An expression in parentheses, and what stands behind them. -/
theorem exists_group {a : Assignment} {level : Level} {n : Nat} {ls : List Lexeme} {p : Tree}
    (h : (Reading.operand a level).Ends (⟨.symbol .openParen, n⟩ :: ls) p) :
    ∃ (inner : Expression) (m : Nat) (us : List Lexeme), ls = inner.lexemes ++ ⟨.symbol .closeParen, m⟩ :: us ∧
      (a.supply level inner.tree).Ends us p := by
  obtain ⟨f, us, hls, hus⟩ := exists_factor h
  cases f with
  | group k inner m =>
    refine ⟨inner, m, us, ?_, hus⟩
    simpa [Factor.lexemes] using (List.cons.inj hls).2
  | signed sign k operand =>
    have htoken := congrArg Lexeme.token (List.cons.inj hls).1
    exact absurd htoken.symm (ofOperator_ne_openParen sign.operator)
  | _ => cases (List.cons.inj hls).1

end Reading

/-- A program stays a program without one pair of its parentheses. -/
theorem exists_program_of_drop {p : Program} {a b c : List Token}
    (hp : p.tokens = a ++ .symbol .openParen :: (b ++ .symbol .closeParen :: c)) (hb : Balanced b) :
    ∃ q : Program, q.tokens = a ++ (b ++ c) := by
  obtain ⟨ls, rest, hlexemes, rfl, hrest⟩ := List.map_eq_append_iff.1 hp
  obtain ⟨⟨t, n⟩, ms, rfl, rfl, hms⟩ := List.map_eq_cons_iff.1 hrest
  have hread := Reading.readAll?_program p
  rw [hlexemes, Reading.readAll?_append] at hread
  obtain ⟨r, hr, hends⟩ := Option.bind_eq_some_iff.1 hread
  obtain ⟨_, _, s, heq, hs, -⟩ := Reading.Ends.next hends (by rintro q rfl; cases hends)
  obtain ⟨rfl, rfl⟩ := List.cons.inj heq
  obtain ⟨asg, level, rfl⟩ := Reading.operand_of_accept?_openParen hs
  obtain ⟨inner, m, us, rfl, hus⟩ := Reading.exists_group hends
  -- the parenthesis that is closed is the one that the reader sees closed
  rw [← tokensOf, tokensOf_append, tokensOf_cons] at hms
  obtain ⟨rfl, rfl⟩ := inner.balanced.cancel hb hms
  obtain ⟨sum, term, hplace⟩ := Reading.readAll?_expression_place asg level inner
  obtain ⟨q, hq⟩ := hus.congr (s := .operator asg sum term) rfl
  have hall : Reading.opening.Ends (ls ++ (inner.lexemes ++ us)) q := by
    rw [Reading.Ends, Reading.readAll?_append, hr]
    exact (hplace us).trans hq
  obtain ⟨q, hq, -⟩ := Reading.exists_program hall
  exact ⟨q, by rw [Program.tokens, hq, List.map_append, ← tokensOf, ← tokensOf, tokensOf_append]⟩

/-! ## Every tree can be written -/

theorem spelled_ofOperator (op : Operator) : (Token.ofOperator op).Spelled := by
  cases op with
  | intDiv => exact Keyword.spelled .div
  | plus => exact Symbol.spelled .plus
  | minus => exact Symbol.spelled .minus
  | times => exact Symbol.spelled .star
  | div => exact Symbol.spelled .slash

theorem spelled_enclose {ts : List Token} (h : ∀ t ∈ ts, t.Spelled) (must : Bool) :
    ∀ t ∈ enclose must ts, t.Spelled := by
  cases must with
  | false => exact h
  | true =>
    refine List.forall_mem_cons.2 ⟨Symbol.spelled .openParen, List.forall_mem_append.2 ⟨h, ?_⟩⟩
    exact List.forall_mem_singleton.2 (Symbol.spelled .closeParen)

namespace Tree

/-- Each of the numbers in the tree is the value of a literal. -/
def HasLiterals (t : Tree) : Prop := ∀ v, .number v ∈ t.nodes → (Token.integer v).Spelled

theorem HasLiterals.child {t c : Tree} (h : t.HasLiterals) (hc : c ∈ t.children) : c.HasLiterals := fun v hv =>
  h v (mem_nodes_of_mem_children hc hv)

theorem IsVariable.spelled {t : Tree} (h : t.IsVariable) : ∀ u ∈ t.unparse, u.Spelled := by
  obtain ⟨hx, n⟩ := h
  exact List.forall_mem_singleton.2 hx.spelled

theorem IsExpression.spelled {t : Tree} (h : t.IsExpression) (hn : t.HasLiterals) : ∀ u ∈ t.unparse, u.Spelled := by
  induction h with
  | number v => exact List.forall_mem_singleton.2 (hn v (mem_nodes_self _))
  | var h => exact h.spelled
  | binary op n hl hr ihl ihr =>
    have hleft := spelled_enclose (ihl (hn.child (by simp [children])))
    have hright := spelled_enclose (ihr (hn.child (by simp [children])))
    exact List.forall_mem_append.2 ⟨hleft _, List.forall_mem_cons.2 ⟨spelled_ofOperator op, hright _⟩⟩
  | unary n hop h ih =>
    have hoperand := spelled_enclose (ih (hn.child (by simp [children])))
    exact List.forall_mem_cons.2 ⟨spelled_ofOperator _, hoperand _⟩

theorem IsStatement.spelled {t : Tree} (h : t.IsStatement) (hn : t.HasLiterals) : ∀ u ∈ t.unparse, u.Spelled := by
  induction h with
  | @compound ss hne h ih =>
    have hss : ∀ s ∈ ss, ∀ u ∈ s.unparse, u.Spelled := fun s hs => ih s hs (hn.child hs)
    have hmore : ∀ ts : List Tree, (∀ s ∈ ts, ∀ u ∈ s.unparse, u.Spelled) → ∀ u ∈ unparseMore ts, u.Spelled := by
      intro ts hts
      induction ts with
      | nil => exact List.forall_mem_nil _
      | cons s ts iht =>
        obtain ⟨hs, hrest⟩ := List.forall_mem_cons.1 hts
        exact List.forall_mem_cons.2 ⟨Symbol.spelled .semicolon, List.forall_mem_append.2 ⟨hs, iht hrest⟩⟩
    have hend : ∀ u ∈ [Token.keyword .endBody], u.Spelled := List.forall_mem_singleton.2 (Keyword.spelled .endBody)
    cases ss with
    | nil => exact absurd rfl hne
    | cons s ss =>
      obtain ⟨hs, hrest⟩ := List.forall_mem_cons.1 hss
      refine List.forall_mem_cons.2 ⟨Keyword.spelled .beginBody, List.forall_mem_append.2 ⟨hs, ?_⟩⟩
      exact List.forall_mem_append.2 ⟨hmore ss hrest, hend⟩
  | assign ht hv =>
    have hvalue := hv.spelled (hn.child (by simp [children]))
    exact List.forall_mem_append.2 ⟨ht.spelled, List.forall_mem_cons.2 ⟨Symbol.spelled .assign, hvalue⟩⟩
  | empty => exact List.forall_mem_nil _

theorem IsDeclaration.spelled {t : Tree} (h : t.IsDeclaration) : ∀ u ∈ t.unparse, u.Spelled := by
  obtain ⟨hx, type⟩ := h
  have htype : ∀ u ∈ (typeName type).unparse, u.Spelled := by
    cases type with
    | integer => exact List.forall_mem_singleton.2 (Keyword.spelled .integer)
    | real => exact List.forall_mem_singleton.2 (Keyword.spelled .real)
  have hend : ∀ u ∈ [Token.symbol .semicolon], u.Spelled := List.forall_mem_singleton.2 (Symbol.spelled .semicolon)
  refine List.forall_mem_append.2 ⟨hx.spelled, List.forall_mem_cons.2 ⟨Symbol.spelled .colon, ?_⟩⟩
  exact List.forall_mem_append.2 ⟨htype, hend⟩

theorem IsProgram.spelled {t : Tree} (h : t.IsProgram) (hn : t.HasLiterals) : ∀ u ∈ t.unparse, u.Spelled := by
  obtain ⟨hname, hd, hb⟩ := h
  rename_i name declarations statements
  have hbody := hb.spelled ((hn.child (List.mem_singleton_self _)).child (by simp [children]))
  have hblock : ∀ u ∈ (block declarations (.compound statements)).unparse, u.Spelled := by
    cases declarations with
    | nil => exact hbody
    | cons d ds =>
      obtain ⟨hfirst, hrest⟩ := List.forall_mem_cons.1 hd
      have heach : ∀ u ∈ unparseEach ds, u.Spelled := by
        rw [unparseEach_eq]
        intro u hu
        obtain ⟨d, hd, hu⟩ := List.mem_flatMap.1 hu
        exact (hrest d hd).spelled u hu
      refine List.forall_mem_cons.2 ⟨Keyword.spelled .var, List.forall_mem_append.2 ⟨hfirst.spelled, ?_⟩⟩
      exact List.forall_mem_append.2 ⟨heach, hbody⟩
  refine List.forall_mem_cons.2 ⟨Keyword.spelled .program, List.forall_mem_cons.2 ⟨hname.spelled, ?_⟩⟩
  refine List.forall_mem_cons.2 ⟨Symbol.spelled .semicolon, List.forall_mem_append.2 ⟨hblock, ?_⟩⟩
  exact List.forall_mem_singleton.2 (Symbol.spelled .dot)

end Tree

/-- Reading undoes writing, and every pair of parentheses that is written is needed.

    The tree of a program can be written, if its numbers have literals, and every text with
    the tokens it is written in has the same tree up to lines. Without one pair of its
    parentheses that is a program again, but its tree is not the same. -/
theorem parse_unparse {t : Tree} (h : t.IsProgram) (hn : t.HasLiterals) :
    (∃ source, (Cursor.ofString source).Spells t.unparse) ∧
    (∀ source, (Cursor.ofString source).Spells t.unparse → ∃ u, parse source = .ok u ∧ u.EqUpToLines t) ∧
    ∀ a b c, t.unparse = a ++ .symbol .openParen :: (b ++ .symbol .closeParen :: c) → Balanced b →
      (∃ source, (Cursor.ofString source).Spells (a ++ (b ++ c))) ∧
      ∀ source, (Cursor.ofString source).Spells (a ++ (b ++ c)) →
        ∃ u, parse source = .ok u ∧ ¬u.EqUpToLines t := by
  obtain ⟨p, rfl, hp⟩ := h.exists_phrase
  have hspelled := h.spelled hn
  refine ⟨exists_spells hspelled, fun source hs => hs.parse.1 p hp, fun a b c hsplit hb => ⟨?_, fun source hs => ?_⟩⟩
  · refine exists_spells fun u hu => hspelled u ?_
    rw [hsplit]
    simp only [List.mem_append, List.mem_cons] at hu ⊢
    rcases hu with hu | hu | hu
    · exact Or.inl hu
    · exact Or.inr (Or.inr (Or.inl hu))
    · exact Or.inr (Or.inr (Or.inr (Or.inr hu)))
  · obtain ⟨q, hq⟩ := exists_program_of_drop (hp.trans hsplit) hb
    obtain ⟨u, hu, -⟩ := hs.parse.1 q hq
    refine ⟨u, hu, fun hlines => ?_⟩
    obtain ⟨r, hr, rfl⟩ := hs.parse.2 u hu
    have hle := r.opens_le
    rw [hr, hlines.unparse, hsplit, opens_append, opens_openParen, opens_append, opens_cons_of_ne (by decide),
      opens_append, opens_append] at hle
    omega

/-- Without its parentheses the product is a sum. -/
theorem parse_unparse_product :
    let t : Tree := .program "x" (.block [] (.compound [.assign (.var "x" 1)
      (.binary (.binary (.var "x" 1) .plus (.var "x" 1) 1) .times (.var "x" 1) 1)]))
    let a : List Token := [.keyword .program, .name "x", .symbol .semicolon, .keyword .beginBody, .name "x",
      .symbol .assign]
    let b : List Token := [.name "x", .symbol .plus, .name "x"]
    let c : List Token := [.symbol .star, .name "x", .keyword .endBody, .symbol .dot]
    t.unparse = a ++ .symbol .openParen :: (b ++ .symbol .closeParen :: c) ∧
    ∃ source, (Cursor.ofString source).Spells (a ++ (b ++ c)) ∧ ∃ u, parse source = .ok u ∧ ¬u.EqUpToLines t := by
  intro t a b c
  have hname : IsIdentifier "x" := ⟨⟨'x', [], rfl, rfl, List.forall_mem_nil _⟩, fun k => by cases k <;> decide⟩
  have hx : (Tree.var "x" 1).IsVariable := .mk hname 1
  have hvalue : (Tree.binary (.binary (.var "x" 1) .plus (.var "x" 1) 1) .times (.var "x" 1) 1).IsExpression :=
    .binary _ _ (.binary _ _ (.var hx) (.var hx)) (.var hx)
  have h : t.IsProgram :=
    .mk hname (List.forall_mem_nil _)
      (.compound (List.cons_ne_nil _ _) (List.forall_mem_singleton.2 (.assign hx hvalue)))
  have hn : t.HasLiterals := by
    intro v hv
    simp [t, Tree.nodes, Tree.outline, Tree.outlineAll] at hv
  have hb : Balanced b :=
    .plain (by decide) (by decide) (.plain (by decide) (by decide) (.plain (by decide) (by decide) .nil))
  obtain ⟨⟨source, hs⟩, hdrop⟩ := (parse_unparse h hn).2.2 a b c rfl hb
  exact ⟨rfl, source, hs, hdrop source hs⟩

end Pascaline
