/-
  Pascaline.Proofs.Reading.Derives — what is read to the end of a program is a program of
  the grammar.

  Of lexemes that lead to the end (`Ends`), the phrase that is due can be taken off the head:
  a factor where an operand is due (`exists_factor`), a statement where one is due
  (`exists_statement`), until the whole is a program (`exists_program`). What is left behind
  each phrase leads to the end too, from the reading that holds the phrase's tree. The
  lemmas on expressions, and those on statements, call each other on what is left; the number
  of lexemes falls, and where it does not, the next phrase is a smaller one of the grammar.
-/

import Pascaline.Proofs.Reading.Accepts

namespace Pascaline

namespace Reading

open Phrase

/-! ## Expressions -/

/-- The lexemes lead to the end of the program. -/
def Ends (r : Reading) (ls : List Lexeme) (p : Tree) : Prop := r.readAll? ls = some (.complete p)

variable {r : Reading} {ls : List Lexeme} {p : Tree}

/-- Until the program is complete there is a next lexeme, and it is accepted. -/
theorem Ends.next (h : r.Ends ls p) (hr : ∀ p, r ≠ .complete p) :
    ∃ l us r', ls = l :: us ∧ r.accept? l.token l.line = some r' ∧ r'.Ends us p := by
  cases ls with
  | nil => exact absurd (Option.some.inj h) (hr p)
  | cons l us =>
    obtain ⟨r', hl, hu⟩ := Option.bind_eq_some_iff.1 h
    exact ⟨l, us, r', rfl, hl, hu⟩

/-- Behind an expression in parentheses they are closed. -/
theorem Ends.close {a : Assignment} {level : Level} {value : Tree}
    (h : (Reading.operator { a with outer := level :: a.outer } none value).Ends ls p) (hl : Next EndsExpression ls) :
    ∃ n us, ls = ⟨.symbol .closeParen, n⟩ :: us ∧ (a.supply level value).Ends us p := by
  obtain ⟨⟨t, n⟩, us, r, rfl, ht, hr⟩ := h.next nofun
  simp only [next_cons, EndsExpression] at hl
  simp only [accept?, Assignment.operator?, hl] at ht
  split at ht
  · obtain rfl := Option.some.inj ht
    rename_i hclose
    exact ⟨n, us, by rw [hclose], hr⟩
  · cases ht

theorem EndsTerm.endsExpression {t : Token} (ht : EndsTerm t) (hs : ∀ s : Sign, t ≠ .ofOperator s.operator) :
    EndsExpression t := by
  cases h : t.operator? with
  | none => exact h
  | some op =>
    have e := Token.operator?_eq_some_iff.1 h
    cases op with
    | plus => exact absurd e (hs .plus)
    | minus => exact absurd e (hs .minus)
    | times => exact absurd e (ht .times)
    | intDiv => exact absurd e (ht .intDiv)
    | div => exact absurd e (ht .div)

mutual
theorem exists_factor {a : Assignment} {level : Level} {ls : List Lexeme} (h : (Reading.operand a level).Ends ls p) :
    ∃ (f : Factor) (us : List Lexeme), ls = f.lexemes ++ us ∧ (a.supply level f.tree).Ends us p := by
  obtain ⟨⟨t, n⟩, us, r, hls, ht, hr⟩ := h.next nofun
  have hlen : us.length < ls.length := by simp [hls]
  cases t with
  | integer v => obtain rfl := Option.some.inj ht; exact ⟨.integer v n, us, hls, hr⟩
  | real v => obtain rfl := Option.some.inj ht; exact ⟨.real v n, us, hls, hr⟩
  | name s => obtain rfl := Option.some.inj ht; exact ⟨.name ⟨s, n⟩, us, hls, hr⟩
  | symbol s =>
    cases s with
    | plus =>
      obtain rfl := Option.some.inj ht
      obtain ⟨f, vs, hus, hf⟩ := exists_factor hr
      exact ⟨.signed .plus n f, vs, by rw [hls, hus]; rfl, hf⟩
    | minus =>
      obtain rfl := Option.some.inj ht
      obtain ⟨f, vs, hus, hf⟩ := exists_factor hr
      exact ⟨.signed .minus n f, vs, by rw [hls, hus]; rfl, hf⟩
    | openParen =>
      obtain rfl := Option.some.inj ht
      obtain ⟨e, vs, hus, hvs, he⟩ := exists_expression hr
      obtain ⟨m, ws, hvs, hw⟩ := he.close hvs
      exact ⟨.group n e m, ws, by rw [hls, hus, hvs]; simp [Factor.lexemes], hw⟩
    | _ => cases ht
  | _ => cases ht
termination_by 5 * ls.length + 0

theorem exists_multipliers {a : Assignment} {sum : Option Pending} {left : Tree} {ls : List Lexeme}
    (h : (Reading.operator a sum left).Ends ls p) :
    ∃ (rest : Multipliers) (us : List Lexeme), ls = rest.lexemes ++ us ∧ Next EndsTerm us ∧
      (Reading.operator a sum (rest.tree left)).Ends us p := by
  obtain ⟨⟨t, n⟩, us, r, hls, ht, hr⟩ := h.next nofun
  by_cases hop : ∃ op : Scaling, t = .ofOperator op.operator
  · obtain ⟨op, rfl⟩ := hop
    have hr : (Reading.operand a ⟨sum, some ⟨left, op.operator, n⟩, []⟩).Ends us p := by
      cases op <;> (obtain rfl := Option.some.inj ht; exact hr)
    have hlen : us.length < ls.length := by simp [hls]
    obtain ⟨f, vs, hus, hf⟩ := exists_factor hr
    have hlen' : vs.length < ls.length := by simp only [hls, hus, List.length_cons, List.length_append]; omega
    obtain ⟨rest, ws, hvs, hw, hrest⟩ := exists_multipliers hf
    exact ⟨.cons op n f rest, ws, by rw [hls, hus, hvs]; simp [Multipliers.lexemes, Scaling.lexeme], hw, hrest⟩
  · exact ⟨.nil, ls, rfl, by rw [hls]; exact fun op e => hop ⟨op, e⟩, h⟩
termination_by 5 * ls.length + 1

theorem exists_term {a : Assignment} {sum : Option Pending} {ls : List Lexeme}
    (h : (Reading.operand a ⟨sum, none, []⟩).Ends ls p) :
    ∃ (t : Term) (us : List Lexeme), ls = t.lexemes ++ us ∧ Next EndsTerm us ∧
      (Reading.operator a sum t.tree).Ends us p := by
  obtain ⟨f, us, hls, hf⟩ := exists_factor h
  have hlen : us.length ≤ ls.length := by simp [hls]
  obtain ⟨rest, vs, hus, hvs, hrest⟩ := exists_multipliers hf
  exact ⟨.mk f rest, vs, by rw [hls, hus]; simp [Term.lexemes], hvs, hrest⟩
termination_by 5 * ls.length + 2

theorem exists_summands {a : Assignment} {sum : Option Pending} {term : Tree} {ls : List Lexeme}
    (h : (Reading.operator a sum term).Ends ls p) (hl : Next EndsTerm ls) :
    ∃ (rest : Summands) (us : List Lexeme), ls = rest.lexemes ++ us ∧ Next EndsExpression us ∧
      (Reading.operator a none (rest.tree (Pending.complete sum term))).Ends us p := by
  obtain ⟨⟨t, n⟩, us, r, hls, ht, hr⟩ := h.next nofun
  by_cases hsign : ∃ sign : Sign, t = .ofOperator sign.operator
  · obtain ⟨sign, rfl⟩ := hsign
    have hr : (Reading.operand a ⟨some ⟨Pending.complete sum term, sign.operator, n⟩, none, []⟩).Ends us p := by
      cases sign <;> (obtain rfl := Option.some.inj ht; exact hr)
    have hlen : us.length < ls.length := by simp [hls]
    obtain ⟨next, vs, hus, hvs, hnext⟩ := exists_term hr
    have hlen' : vs.length < ls.length := by simp only [hls, hus, List.length_cons, List.length_append]; omega
    obtain ⟨rest, ws, hvs, hw, hrest⟩ := exists_summands hnext hvs
    exact ⟨.cons sign n next rest, ws, by rw [hls, hus, hvs]; simp [Summands.lexemes, Sign.lexeme], hw, hrest⟩
  · have hnext : Next EndsExpression ls := by
      rw [hls] at hl ⊢
      exact EndsTerm.endsExpression hl fun sign e => hsign ⟨sign, e⟩
    exact ⟨.nil, ls, rfl, hnext, by rw [Ends, Summands.tree, ← readAll?_operator a sum term hnext]; exact h⟩
termination_by 5 * ls.length + 3

theorem exists_expression {a : Assignment} {ls : List Lexeme} (h : (Reading.operand a .start).Ends ls p) :
    ∃ (e : Expression) (us : List Lexeme), ls = e.lexemes ++ us ∧ Next EndsExpression us ∧
      (Reading.operator a none e.tree).Ends us p := by
  obtain ⟨t, us, hls, hus, ht⟩ := exists_term h
  have hlen : us.length ≤ ls.length := by simp [hls]
  obtain ⟨rest, vs, hus, hvs, hrest⟩ := exists_summands ht hus
  exact ⟨.mk t rest, vs, by rw [hls, hus]; simp [Expression.lexemes], hvs, hrest⟩
termination_by 5 * ls.length + 4
end

/-! ## Statements -/

/-- Behind a statement there is a semicolon or the end of its list. -/
theorem Ends.separator {b : Body} (h : (Reading.separator b).Ends ls p) : Next EndsStatement ls := by
  obtain ⟨⟨t, n⟩, us, r, rfl, ht, -⟩ := h.next nofun
  simp only [accept?, Body.accept?] at ht
  split at ht
  · exact Or.inl rfl
  · exact Or.inr rfl
  · cases ht

/-- The end of an assignment's value is the end of a statement. -/
theorem Ends.assigned {b : Body} {x : Name} {value : Tree}
    (h : (Reading.operator ⟨b, x, []⟩ none value).Ends ls p) (hl : Next EndsExpression ls) :
    (Reading.separator (b.add (.assign x.tree value))).Ends ls p := by
  cases ls with
  | nil => cases hl
  | cons l us =>
    simp only [next_cons, EndsExpression] at hl
    simpa only [Ends, readAll?_cons, accept?, Assignment.operator?, hl, Assignment.close, Pending.complete] using h

theorem exists_assignment {b : Body} {x : Name} (h : (Reading.assigning b x).Ends ls p) :
    ∃ (a : Phrase.Assignment) (us : List Lexeme), x.lexeme :: ls = a.lexemes ++ us ∧
      (Reading.separator (b.add a.tree)).Ends us p := by
  obtain ⟨⟨t, n⟩, us, r, hls, ht, hr⟩ := h.next nofun
  cases t with
  | symbol s =>
    cases s with
    | assign =>
      obtain rfl := Option.some.inj ht
      obtain ⟨e, vs, hus, hvs, he⟩ := exists_expression hr
      exact ⟨⟨x, n, e⟩, vs, by rw [hls, hus]; rfl, he.assigned hvs⟩
    | _ => cases ht
  | _ => cases ht

mutual
theorem exists_statement {b : Body} {ls : List Lexeme} (h : (Reading.statement b).Ends ls p) :
    ∃ (s : Statement) (us : List Lexeme), ls = s.lexemes ++ us ∧ (Reading.separator (b.add s.tree)).Ends us p := by
  obtain ⟨⟨t, n⟩, us, r, hls, ht, hr⟩ := h.next nofun
  have hlen : us.length < ls.length := by simp [hls]
  cases t with
  | name s =>
    obtain rfl := Option.some.inj ht
    obtain ⟨a, vs, hus, ha⟩ := exists_assignment hr
    exact ⟨.assignment a, vs, hls.trans hus, ha⟩
  | keyword k =>
    cases k with
    | beginBody =>
      obtain rfl := Option.some.inj ht
      obtain ⟨ss, m, vs, hus, hs⟩ := exists_statements hr
      rw [Body.nest_addAll_close] at hs
      exact ⟨.compound (.mk n ss m), vs, by rw [hls, hus]; simp [Statement.lexemes, Compound.lexemes], hs⟩
    | endBody => exact ⟨.empty, ls, rfl, by rw [hls] at h ⊢; exact h⟩
    | _ => cases ht
  | symbol s =>
    cases s with
    | semicolon => exact ⟨.empty, ls, rfl, by rw [hls] at h ⊢; exact h⟩
    | _ => cases ht
  | _ => cases ht
termination_by 3 * ls.length

theorem exists_statements {b : Body} {ls : List Lexeme} (h : (Reading.statement b).Ends ls p) :
    ∃ (ss : Statements) (n : Nat) (us : List Lexeme), ls = ss.lexemes ++ ⟨.keyword .endBody, n⟩ :: us ∧
      (b.addAll ss.trees).close.Ends us p := by
  obtain ⟨s, us, hls, hs⟩ := exists_statement h
  have hlen : us.length ≤ ls.length := by simp [hls]
  obtain ⟨rest, n, vs, hus, hrest⟩ := exists_moreStatements hs
  rw [Body.add_addAll] at hrest
  exact ⟨.mk s rest, n, vs, by rw [hls, hus]; simp [Statements.lexemes], hrest⟩
termination_by 3 * ls.length + 2

theorem exists_moreStatements {b : Body} {ls : List Lexeme} (h : (Reading.separator b).Ends ls p) :
    ∃ (rest : MoreStatements) (n : Nat) (us : List Lexeme), ls = rest.lexemes ++ ⟨.keyword .endBody, n⟩ :: us ∧
      (b.addAll rest.trees).close.Ends us p := by
  have hl := h.separator
  obtain ⟨⟨t, n⟩, us, r, hls, ht, hr⟩ := h.next nofun
  have hlen : us.length < ls.length := by simp [hls]
  rw [hls] at hl
  rcases hl with rfl | rfl
  · obtain rfl := Option.some.inj ht
    obtain ⟨s, vs, hus, hs⟩ := exists_statement hr
    have hlen' : vs.length < ls.length := by simp only [hls, hus, List.length_cons, List.length_append]; omega
    obtain ⟨rest, m, ws, hvs, hrest⟩ := exists_moreStatements hs
    rw [Body.add_addAll] at hrest
    exact ⟨.cons n s rest, m, ws, by rw [hls, hus, hvs]; simp [MoreStatements.lexemes], hrest⟩
  · obtain rfl := Option.some.inj ht
    exact ⟨.nil, n, us, hls, by rw [MoreStatements.trees, Body.addAll_nil]; exact hr⟩
termination_by 3 * ls.length + 1
end

/-! ## Declarations and programs -/

theorem exists_names {h : Heading} {group : Array Name} {ls : List Lexeme} (he : (Reading.declared h group).Ends ls p) :
    ∃ (rest : List (Nat × Name)) (n : Nat) (type : TypeSpec) (us : List Lexeme),
      ls = rest.flatMap commaName ++ ⟨.symbol .colon, n⟩ :: type.lexeme :: us ∧
        (Reading.groupEnd (h.declare (group ++ rest.map Prod.snd) type.type)).Ends us p := by
  obtain ⟨⟨t, n⟩, us, r, hls, ht, hr⟩ := he.next nofun
  cases t with
  | symbol s =>
    cases s with
    | comma =>
      obtain rfl := Option.some.inj ht
      obtain ⟨⟨t, m⟩, vs, r, hus, ht, hr⟩ := hr.next nofun
      cases t with
      | name x =>
        obtain rfl := Option.some.inj ht
        have hlen : vs.length < ls.length := by simp only [hls, hus, List.length_cons]; omega
        obtain ⟨rest, k, type, ws, hvs, hw⟩ := exists_names hr
        refine ⟨(n, ⟨x, m⟩) :: rest, k, type, ws, by rw [hls, hus, hvs]; rfl, ?_⟩
        simpa using hw
      | _ => cases ht
    | colon =>
      obtain rfl := Option.some.inj ht
      obtain ⟨⟨t, m⟩, vs, r, hus, ht, hr⟩ := hr.next nofun
      cases t with
      | keyword k =>
        cases k with
        | integer =>
          obtain rfl := Option.some.inj ht
          exact ⟨[], n, ⟨.integer, m⟩, vs, by rw [hls, hus]; rfl, by simpa using hr⟩
        | real =>
          obtain rfl := Option.some.inj ht
          exact ⟨[], n, ⟨.real, m⟩, vs, by rw [hls, hus]; rfl, by simpa using hr⟩
        | _ => cases ht
      | _ => cases ht
    | _ => cases ht
  | _ => cases ht
termination_by ls.length

theorem exists_declarationLine {h : Heading} {x : Name} (he : (Reading.declared h #[x]).Ends ls p) :
    ∃ (d : VarDeclaration × Nat) (us : List Lexeme), x.lexeme :: ls = declarationLine d ++ us ∧
      (Reading.nextGroup (h.declareAll d.1.trees)).Ends us p := by
  obtain ⟨rest, n, type, us, hls, hg⟩ := exists_names he
  obtain ⟨⟨t, m⟩, vs, r, hus, ht, hr⟩ := hg.next nofun
  cases t with
  | symbol s =>
    cases s with
    | semicolon =>
      obtain rfl := Option.some.inj ht
      refine ⟨(⟨x, rest, n, type⟩, m), vs, ?_, by rw [Heading.declareAll_trees]; exact hr⟩
      rw [hls, hus]; simp [declarationLine, VarDeclaration.lexemes]
    | _ => cases ht
  | _ => cases ht

theorem exists_body {h : Heading} (he : (Reading.statement (.ofHeading h)).Ends ls p) (n : Nat) :
    ∃ (c : Compound) (us : List Lexeme), ⟨.keyword .beginBody, n⟩ :: ls = c.lexemes ++ us ∧
      (Reading.closing h c.tree).Ends us p := by
  obtain ⟨ss, m, us, hls, hs⟩ := exists_statements he
  rw [Body.ofHeading_addAll_close] at hs
  exact ⟨.mk n ss m, us, by rw [hls]; simp [Compound.lexemes], hs⟩

theorem exists_nextGroups {h : Heading} {ls : List Lexeme} (he : (Reading.nextGroup h).Ends ls p) :
    ∃ (ds : List (VarDeclaration × Nat)) (c : Compound) (us : List Lexeme),
      ls = ds.flatMap declarationLine ++ (c.lexemes ++ us) ∧
        (Reading.closing (h.declareAll (ds.flatMap fun d => d.1.trees)) c.tree).Ends us p := by
  obtain ⟨⟨t, n⟩, us, r, hls, ht, hr⟩ := he.next nofun
  cases t with
  | name s =>
    obtain rfl := Option.some.inj ht
    obtain ⟨d, vs, hus, hd⟩ := exists_declarationLine hr
    have hlen : vs.length < ls.length := by
      have := congrArg List.length hus
      simp [declarationLine] at this
      simp only [hls, List.length_cons]; omega
    obtain ⟨ds, c, ws, hvs, hw⟩ := exists_nextGroups hd
    rw [Heading.declareAll_append] at hw
    exact ⟨d :: ds, c, ws, by rw [hls]; refine hus.trans ?_; rw [hvs]; simp, hw⟩
  | keyword k =>
    cases k with
    | beginBody =>
      obtain rfl := Option.some.inj ht
      obtain ⟨c, vs, hus, hc⟩ := exists_body hr n
      exact ⟨[], c, vs, hls.trans hus, by simpa [Heading.declareAll] using hc⟩
    | _ => cases ht
  | _ => cases ht
termination_by ls.length

theorem exists_block {h : Heading} (he : (Reading.sections h).Ends ls p) :
    ∃ (d : Declarations) (c : Compound) (us : List Lexeme), ls = d.lexemes ++ (c.lexemes ++ us) ∧
      (Reading.closing (h.declareAll d.trees) c.tree).Ends us p := by
  obtain ⟨⟨t, n⟩, us, r, hls, ht, hr⟩ := he.next (by rintro _ ⟨⟩)
  cases t with
  | keyword k =>
    cases k with
    | beginBody =>
      obtain rfl := Option.some.inj ht
      obtain ⟨c, vs, hus, hc⟩ := exists_body hr n
      exact ⟨.none, c, vs, hls.trans hus, by simpa [Heading.declareAll, Declarations.trees] using hc⟩
    | var =>
      obtain rfl := Option.some.inj ht
      obtain ⟨⟨t, m⟩, vs, r, hus, ht, hr⟩ := hr.next (by rintro _ ⟨⟩)
      cases t with
      | name s =>
        obtain rfl := Option.some.inj ht
        obtain ⟨d, ws, hvs, hd⟩ := exists_declarationLine hr
        obtain ⟨ds, c, xs, hws, hc⟩ := exists_nextGroups hd
        rw [Heading.declareAll_append] at hc
        refine ⟨.some n d ds, c, xs, ?_, hc⟩
        rw [hls, hus]
        refine congrArg (List.cons _) (hvs.trans ?_)
        rw [hws]; simp
      | _ => cases ht
    | _ => cases ht
  | _ => cases ht

/-- What is read to its end is a program of the grammar, and its tree is what it means. -/
theorem exists_program (h : Reading.opening.Ends ls p) : ∃ q : Program, q.lexemes = ls ∧ q.tree = p := by
  obtain ⟨⟨t, m⟩, us, r, hls, ht, hr⟩ := h.next nofun
  cases t with | keyword k => ?_ | _ => cases ht
  cases k with | program => ?_ | _ => cases ht
  obtain rfl := Option.some.inj ht
  obtain ⟨⟨t, i⟩, vs, r, hus, ht, hr⟩ := hr.next nofun
  cases t with | name s => ?_ | _ => cases ht
  obtain rfl := Option.some.inj ht
  obtain ⟨⟨t, n⟩, ws, r, hvs, ht, hr⟩ := hr.next nofun
  cases t with | symbol s' => ?_ | _ => cases ht
  cases s' with | semicolon => ?_ | _ => cases ht
  obtain rfl := Option.some.inj ht
  obtain ⟨d, c, xs, hws, hc⟩ := exists_block hr
  obtain ⟨⟨t, k⟩, ys, r, hxs, ht, hr⟩ := hc.next nofun
  cases t with | symbol s' => ?_ | _ => cases ht
  cases s' with | dot => ?_ | _ => cases ht
  obtain rfl := Option.some.inj ht
  cases ys with
  | nil =>
    refine ⟨⟨m, ⟨s, i⟩, n, ⟨d, c⟩, k⟩, ?_, ?_⟩
    · rw [hls, hus, hvs, hws, hxs]; simp [Program.lexemes, Block.lexemes, Name.lexeme]
    · obtain rfl := Reading.complete.inj (Option.some.inj hr)
      simp [Program.tree, Heading.declareAll]
  | cons l ys => cases hr

end Reading

end Pascaline
