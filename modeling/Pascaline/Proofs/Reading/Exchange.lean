/-
  Pascaline.Proofs.Reading.Exchange — neighbouring statements in the other order.

  Two statements that follow each other in a statement list can change their places
  (`Exchanged`). In a program a statement is due behind the token in front of the first one
  (`exists_statement_of_opener`), so the reader holds the same lists behind both of them, but
  for their order. Lists with two independent statements in the one order and in the other
  succeed alike, and so do the lists that are made of such (`lasting_within`). So the
  tokens with the two exchanged are again those of a program, and where the first program
  succeeds, that one does the same (`Exchanged.ends`, `independent_commute`).
-/

import Pascaline.Proofs.Reading.Alike
import Pascaline.Proofs.Reading.Lines
import Pascaline.Proofs.Reading.Parse
import Pascaline.Proofs.Tree.Independent

namespace Pascaline

/-- A statement can begin behind the token. -/
def OpensStatement (t : Token) : Prop := t = .symbol .semicolon ∨ t = .keyword .beginBody

/-- The first lexemes have the two statements one after the other in a statement list, and
    the second ones have the same tokens with the two in the other order. -/
inductive Exchanged (a b : Phrase.Statement) (ls ls' : List Lexeme) : Prop
  | mk (before after : List Lexeme) (opener separator closer : Lexeme) (hopener : OpensStatement opener.token)
      (hseparator : separator.token = .symbol .semicolon) (hcloser : EndsStatement closer.token)
      (h : ls = before ++ opener :: (a.lexemes ++ separator :: (b.lexemes ++ closer :: after)))
      (h' : ls'.map Lexeme.token =
        (before ++ opener :: (b.lexemes ++ separator :: (a.lexemes ++ closer :: after))).map Lexeme.token)

/-! ## Lists that succeed alike -/

theorem lasting_within : Lasting fun ss ss' => (Tree.evalAll ss).Within (Tree.evalAll ss') where
  refl ss := .refl _
  add h s := by
    rw [Tree.evalAll_append, Tree.evalAll_append]
    exact .bind h fun _ => .refl _
  nest hu hs := by
    rw [Tree.evalAll_append, Tree.evalAll_append]
    exact .bind hu fun _ => .bind (.bind hs fun _ => .refl _) fun _ => .refl _

/-- On other lines a tree succeeds alike. -/
theorem Tree.EqUpToLines.within {t u : Tree} (h : t.EqUpToLines u) : u.eval.Within t.eval := by
  intro table v final hu
  have ht := t.eval_moves (fun _ => 0) table
  rw [h, u.eval_moves (fun _ => 0) table, hu] at ht
  obtain ⟨hout, hfinal⟩ := Prod.mk.inj ht
  rcases heval : t.eval.on table with ⟨e | w, last⟩ <;> rw [heval] at hout hfinal
  · cases hout
  · exact Prod.ext hout.symm hfinal.symm

namespace Reading

open Phrase

/-! ## Where a statement is due -/

theorem accept?_opener {r s : Reading} {t : Token} {n : Nat} (ht : OpensStatement t) (h : r.accept? t n = some s) :
    (∃ b, s = .statement b) ∨ ∃ h, s = .sections h ∨ s = .nextGroup h := by
  rcases ht with rfl | rfl
  · cases r with
    | titleEnd x => exact Or.inr ⟨_, Or.inl (Option.some.inj h).symm⟩
    | groupEnd h' => exact Or.inr ⟨_, Or.inr (Option.some.inj h).symm⟩
    | statement b => exact Or.inl ⟨_, (Option.some.inj h).symm⟩
    | separator b => exact Or.inl ⟨_, (Option.some.inj h).symm⟩
    | operator a sum term =>
      obtain ⟨b, target, _ | ⟨level, outer⟩⟩ := a
      · exact Or.inl ⟨_, (Option.some.inj h).symm⟩
      · cases h
    | _ => cases h
  · cases r with
    | sections h' => exact Or.inl ⟨_, (Option.some.inj h).symm⟩
    | nextGroup h' => exact Or.inl ⟨_, (Option.some.inj h).symm⟩
    | statement b => exact Or.inl ⟨_, (Option.some.inj h).symm⟩
    | operator a sum term => obtain ⟨b, target, _ | ⟨level, outer⟩⟩ := a <;> cases h
    | _ => cases h

/-- Before the body there is no statement with a semicolon behind it. -/
theorem readAll?_nextGroup_statement (h : Heading) (s : Statement) (n : Nat) (us : List Lexeme) :
    (Reading.nextGroup h).readAll? (s.lexemes ++ ⟨.symbol .semicolon, n⟩ :: us) = none := by
  cases s with
  | compound c => exact readAll?_body h c _
  | assignment a => rfl
  | empty => rfl

theorem readAll?_sections_statement (h : Heading) (s : Statement) (n : Nat) (us : List Lexeme) :
    (Reading.sections h).readAll? (s.lexemes ++ ⟨.symbol .semicolon, n⟩ :: us) = none := by
  cases s with
  | compound c =>
    refine (readAll?_declarations h .none (c.next _)).trans ?_
    exact readAll?_nextGroup_statement _ (.compound c) n us
  | assignment a => rfl
  | empty => rfl

theorem exists_statement_of_opener {before us : List Lexeme} {opener separator : Lexeme} {s : Statement} {p : Tree}
    (hopener : OpensStatement opener.token) (hseparator : separator.token = .symbol .semicolon)
    (h : Reading.opening.Ends (before ++ opener :: (s.lexemes ++ separator :: us)) p) :
    ∃ b, Reading.opening.readAll? (before ++ [opener]) = some (.statement b) := by
  obtain ⟨_, n⟩ := separator
  obtain rfl := hseparator
  rw [Ends, List.append_cons, readAll?_append] at h
  obtain ⟨r, hr, hrest⟩ := Option.bind_eq_some_iff.1 h
  rw [readAll?_append] at hr
  obtain ⟨r', -, hopen⟩ := Option.bind_eq_some_iff.1 hr
  obtain ⟨_, haccept, hlast⟩ := Option.bind_eq_some_iff.1 hopen
  obtain rfl := Option.some.inj hlast
  -- before the body a semicolon has room too, but then no statement follows
  rcases accept?_opener hopener haccept with ⟨b, rfl⟩ | ⟨h, rfl | rfl⟩
  · exact ⟨b, (readAll?_append _ _ _).trans hr⟩
  · rw [readAll?_sections_statement] at hrest
    cases hrest
  · rw [readAll?_nextGroup_statement] at hrest
    cases hrest

/-! ## Both orders -/

theorem readAll?_two_statements (b : Body) (s u : Statement) {separator closer : Lexeme}
    (hseparator : separator.token = .symbol .semicolon) (hcloser : EndsStatement closer.token) (after : List Lexeme) :
    (Reading.statement b).readAll? (s.lexemes ++ separator :: (u.lexemes ++ closer :: after)) =
      (Reading.separator ((b.add s.tree).add u.tree)).readAll? (closer :: after) := by
  obtain ⟨_, n⟩ := separator
  obtain rfl := hseparator
  rw [readAll?_statement b s (show Next EndsStatement (_ :: _) from Or.inl rfl)]
  exact readAll?_statement (b.add s.tree) u hcloser

theorem alike_of_independent {t u : Tree} (h : t.Independent u) (b : Body) :
    (Reading.separator ((b.add t).add u)).Alike (fun ss ss' => (Tree.evalAll ss).Within (Tree.evalAll ss'))
      (.separator ((b.add u).add t)) :=
  .separator (.of_inner lasting_within b (by simpa [Body.add] using h.evalAll_within b.inner.toList))

end Reading

/-- With independent statements exchanged a program is a program, and where it succeeds, that
    one does the same. -/
theorem Exchanged.ends {a b : Phrase.Statement} {ls ls' : List Lexeme} (h : Exchanged a b ls ls')
    (hab : a.tree.Independent b.tree) {p : Tree} (hp : Reading.opening.Ends ls p) :
    ∃ q, Reading.opening.Ends ls' q ∧ p.eval.Within q.eval := by
  obtain ⟨before, after, opener, separator, closer, hopener, hseparator, hcloser, rfl, htokens⟩ := h
  obtain ⟨body, hbody⟩ := Reading.exists_statement_of_opener hopener hseparator hp
  have hread : ∀ us, Reading.opening.readAll? (before ++ opener :: us) = (Reading.statement body).readAll? us := by
    intro us
    rw [List.append_cons]
    exact Reading.readAll?_from hbody us
  rw [Reading.Ends, hread, Reading.readAll?_two_statements _ _ _ hseparator hcloser] at hp
  have halike := Reading.alike_of_independent hab body
  obtain ⟨name, declarations, ss, ss', rfl, hends, hwithin⟩ := halike.ends lasting_within hp
  rw [Reading.Ends, ← Reading.readAll?_two_statements _ _ _ hseparator hcloser, ← hread] at hends
  -- the second lexemes are these but for their lines
  obtain ⟨q, hq, hlines⟩ := Reading.Ends.eqUpToLines hends htokens
  exact ⟨q, hq, (Tree.eval_program_within hwithin name declarations).trans hlines.within⟩

/-- Independent trees can run in either order.

    From every table, two trees of which neither assigns to a variable that the other one
    reads or assigns to succeed one after the other exactly if they do in the other order.
    Each then has the same value in both orders, and the table is the same in the end. So a
    program that runs leaves the same table with two independent statements exchanged that
    follow each other in one of its lists, on whatever lines the tokens then stand. -/
theorem independent_commute :
    (∀ t u : Tree, t.Independent u → ∀ table v w final,
      (∃ between, t.eval.on table = (.ok v, between) ∧ u.eval.on between = (.ok w, final)) ↔
        ∃ between, u.eval.on table = (.ok w, between) ∧ t.eval.on between = (.ok v, final)) ∧
    ∀ a b : Phrase.Statement, a.tree.Independent b.tree → ∀ source source' ls ls' n n',
      (Cursor.ofString source).items = ls.map Lexeme.item ++ [.token .endOfInput n] →
      (Cursor.ofString source').items = ls'.map Lexeme.item ++ [.token .endOfInput n'] →
      Exchanged a b ls ls' → ∀ table, run source = .ok table → run source' = .ok table := by
  refine ⟨fun t u h table v w final => ⟨?_, ?_⟩, fun a b hab source source' ls ls' n n' hls hls' h table hrun => ?_⟩
  · rintro ⟨between, ht, hu⟩
    exact h.eval_exchange ht hu
  · rintro ⟨between, hu, ht⟩
    exact h.symm.eval_exchange hu ht
  · obtain ⟨p, v, hparse, heval⟩ := exists_of_run hrun
    obtain ⟨hends, -⟩ := (Reading.run_eq_ok_iff hls rfl).1 hparse
    obtain ⟨q, hq, hwithin⟩ := h.ends hab hends
    rw [run_of_parse ((Reading.run_eq_ok_iff hls' rfl).2 ⟨hq, n', rfl⟩), hwithin _ _ _ heval]

/-- The two read the same variable, and stand in an inner list. -/
theorem independent_commute_nested :
    let t : Tree := .assign (.var "x" 1) (.var "z" 1)
    let u : Tree := .assign (.var "y" 1) (.var "z" 1)
    let table : Table := (∅ : Table).insert "z" 1
    let final : Table := (table.insert "x" 1).insert "y" 1
    (∃ between, u.eval.on table = (.ok 0, between) ∧ t.eval.on between = (.ok 0, final)) ∧
      run "PROGRAM p; BEGIN z := 1; BEGIN x := z; y := z END END." = .ok final ∧
      run "PROGRAM p; BEGIN z := 1; BEGIN y := z;\nx := z END END." = .ok final := by
  intro t u table final
  let a : Phrase.Statement := .assignment ⟨⟨"x", 1⟩, 1, .mk (.mk (.name ⟨"z", 1⟩) .nil) .nil⟩
  let b : Phrase.Statement := .assignment ⟨⟨"y", 1⟩, 1, .mk (.mk (.name ⟨"z", 1⟩) .nil) .nil⟩
  have hab : t.Independent u := by decide
  have ht : t.eval.on table = (.ok 0, table.insert "x" 1) := by
    simp only [t, table, Tree.eval, Eval.on_bind, Eval.on_pure, Eval.on_assign, Eval.on_lookup,
      Std.ExtTreeMap.getElem?_insert_self]
  have hz : (table.insert "x" 1)["z"]? = some 1 := by
    rw [Std.ExtTreeMap.getElem?_insert, if_neg (by simp), Std.ExtTreeMap.getElem?_insert_self]
  have hu : u.eval.on (table.insert "x" 1) = (.ok 0, final) := by
    simp only [u, final, Tree.eval, Eval.on_bind, Eval.on_pure, Eval.on_assign, Eval.on_lookup, hz]
  have hitems : (Cursor.ofString "PROGRAM p; BEGIN z := 1; BEGIN x := z; y := z END END.").items =
      [⟨.keyword .program, 1⟩, ⟨.name "p", 1⟩, ⟨.symbol .semicolon, 1⟩, ⟨.keyword .beginBody, 1⟩, ⟨.name "z", 1⟩,
        ⟨.symbol .assign, 1⟩, ⟨.integer 1, 1⟩, ⟨.symbol .semicolon, 1⟩, ⟨.keyword .beginBody, 1⟩, ⟨.name "x", 1⟩,
        ⟨.symbol .assign, 1⟩, ⟨.name "z", 1⟩, ⟨.symbol .semicolon, 1⟩, ⟨.name "y", 1⟩, ⟨.symbol .assign, 1⟩,
        ⟨.name "z", 1⟩, ⟨.keyword .endBody, 1⟩, ⟨.keyword .endBody, 1⟩, ⟨.symbol .dot, 1⟩].map Lexeme.item ++
        [.token .endOfInput 1] := by
    decide +kernel
  have hitems' : (Cursor.ofString "PROGRAM p; BEGIN z := 1; BEGIN y := z;\nx := z END END.").items =
      [⟨.keyword .program, 1⟩, ⟨.name "p", 1⟩, ⟨.symbol .semicolon, 1⟩, ⟨.keyword .beginBody, 1⟩, ⟨.name "z", 1⟩,
        ⟨.symbol .assign, 1⟩, ⟨.integer 1, 1⟩, ⟨.symbol .semicolon, 1⟩, ⟨.keyword .beginBody, 1⟩, ⟨.name "y", 1⟩,
        ⟨.symbol .assign, 1⟩, ⟨.name "z", 1⟩, ⟨.symbol .semicolon, 1⟩, ⟨.name "x", 2⟩, ⟨.symbol .assign, 2⟩,
        ⟨.name "z", 2⟩, ⟨.keyword .endBody, 2⟩, ⟨.keyword .endBody, 2⟩, ⟨.symbol .dot, 2⟩].map Lexeme.item ++
        [.token .endOfInput 2] := by
    decide +kernel
  have hrun : run "PROGRAM p; BEGIN z := 1; BEGIN x := z; y := z END END." = .ok final := by
    have hparse : parse "PROGRAM p; BEGIN z := 1; BEGIN x := z; y := z END END." =
        .ok (.program "p" (.block [] (.compound [.assign (.var "z" 1) (.number 1), .compound [t, u]]))) :=
      (Reading.run_eq_ok_iff hitems rfl).2 ⟨rfl, 1, rfl⟩
    rw [run_of_parse hparse]
    simp only [Tree.eval, Tree.evalAll, Eval.on_bind, Eval.on_pure, Eval.on_assign]
    rw [ht]
    simp only [hu]
  obtain ⟨hcommute, hexchange⟩ := independent_commute
  refine ⟨(hcommute t u hab table 0 0 final).1 ⟨_, ht, hu⟩, hrun,
    hexchange a b hab _ _ _ _ _ _ hitems hitems' ?_ final hrun⟩
  exact .mk [⟨.keyword .program, 1⟩, ⟨.name "p", 1⟩, ⟨.symbol .semicolon, 1⟩, ⟨.keyword .beginBody, 1⟩, ⟨.name "z", 1⟩,
    ⟨.symbol .assign, 1⟩, ⟨.integer 1, 1⟩, ⟨.symbol .semicolon, 1⟩] [⟨.keyword .endBody, 1⟩, ⟨.symbol .dot, 1⟩]
    ⟨.keyword .beginBody, 1⟩ ⟨.symbol .semicolon, 1⟩ ⟨.keyword .endBody, 1⟩ (Or.inr rfl) rfl (Or.inr rfl) rfl rfl

end Pascaline
