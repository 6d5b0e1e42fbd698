/-
  Pascaline.Proofs.Reading.Nest — statements put between `BEGIN` and `END`, and semicolons
  put beside others.

  In the body a statement is due behind every semicolon and every `BEGIN`
  (`exists_statement_of_openList`). Behind statements that get a list of their own the reader holds that
  list where it held them, and behind one more semicolon it holds one more empty statement.
  Neither makes a difference to what the lists do, and that they do the same lasts
  (`lasting_evalAll`). So the tokens are again those of a program, and it does the same
  (`Ends.enclose`, `Ends.double_semicolon`).

  In the text the words are set off by blanks, and all tokens keep their lines, so the errors
  of a run keep theirs (`nesting_transparent`).
-/

import Pascaline.Proofs.Reading.Splice
import Pascaline.Proofs.Tree.Nest

namespace Pascaline

/-! ## Lists that do the same -/

theorem lasting_evalAll : Lasting fun ss ss' => Tree.evalAll ss = Tree.evalAll ss' where
  refl ss := rfl
  add h s := by rw [Tree.evalAll_append, Tree.evalAll_append, h]
  nest hu hs := by
    rw [Tree.evalAll_append, Tree.evalAll_append, hu]
    simp only [Tree.evalAll, Tree.eval, hs]

/-- The tokens are those of a program up to where a statement of its body is due. -/
structure OpenList (us : List Lexeme) : Prop where
  beginBody_mem : .keyword .beginBody ∈ us.map Lexeme.token
  opener : ∃ l ∈ us.getLast?, OpensStatement l.token

namespace Reading

open Phrase

variable {us vs : List Lexeme} {p : Tree} {r s : Reading}

theorem statement_of_opener {t : Token} {n : Nat} (ht : OpensStatement t) (h : r.accept? t n = some s)
    (hs : s.inBody) : ∃ b, s = .statement b := by
  rcases accept?_opener ht h with hstatement | ⟨h, rfl | rfl⟩
  · exact hstatement
  · cases hs
  · cases hs

/-- What is due there is a statement. -/
theorem exists_statement_of_openList (hus : OpenList us) (h : Reading.opening.Ends (us ++ vs) p) :
    ∃ b, Reading.opening.readAll? us = some (.statement b) := by
  obtain ⟨hbegin, l, hl, hopener⟩ := hus
  obtain ⟨us, rfl⟩ := List.getLast?_eq_some_iff.1 hl
  rw [Ends, readAll?_append] at h
  obtain ⟨r, hr, -⟩ := Option.bind_eq_some_iff.1 h
  have hbody : r.inBody := (inBody_readAll? hr).2 (Or.inr hbegin)
  rw [readAll?_append] at hr
  obtain ⟨r', hr', hlast⟩ := Option.bind_eq_some_iff.1 hr
  obtain ⟨_, haccept, hdone⟩ := Option.bind_eq_some_iff.1 hlast
  obtain rfl := Option.some.inj hdone
  obtain ⟨b, rfl⟩ := statement_of_opener hopener haccept hbody
  exact ⟨b, (readAll?_append _ _ _).trans hr⟩

/-- A program does not end there. -/
theorem ne_nil_of_openList (hus : OpenList us) (h : Reading.opening.Ends (us ++ vs) p) : vs ≠ [] := by
  rintro rfl
  obtain ⟨b, hb⟩ := exists_statement_of_openList hus h
  rw [Ends, List.append_nil, hb] at h
  cases h

/-- Readings with lists that do the same lead to the ends of programs that do. -/
theorem Ends.of_evalAll_eq (halike : r.Alike (fun ss ss' => Tree.evalAll ss = Tree.evalAll ss') s) (h : r.Ends vs p) :
    ∃ q, s.Ends vs q ∧ q.eval = p.eval := by
  obtain ⟨name, ds, ss, ss', rfl, hends, hsame⟩ := halike.ends lasting_evalAll h
  refine ⟨_, hends, ?_⟩
  simp only [Tree.eval, hsame]

/-- Consecutive statements of a list, and as a list of their own. -/
theorem Ends.enclose {ss : Statements} (hus : OpenList us) (hvs : Next EndsStatement vs)
    (h : Reading.opening.Ends (us ++ (ss.lexemes ++ vs)) p) (j k : Nat) :
    ∃ q, Reading.opening.Ends (us ++ ⟨.keyword .beginBody, j⟩ :: (ss.lexemes ++ ⟨.keyword .endBody, k⟩ :: vs)) q ∧
      q.eval = p.eval := by
  obtain ⟨b, hb⟩ := exists_statement_of_openList hus h
  have hsplice := Tree.evalAll_splice b.inner.toList ss.trees []
  have halike : (Reading.separator (b.addAll ss.trees)).Alike (fun ss ss' => Tree.evalAll ss = Tree.evalAll ss')
      (.separator (b.add (.compound ss.trees))) :=
    .separator (.of_inner lasting_evalAll b (by simpa using hsplice.symm))
  rw [Ends, readAll?_from hb, readAll?_statements b ss vs hvs] at h
  obtain ⟨q, hq, heval⟩ := Ends.of_evalAll_eq halike h
  refine ⟨q, ?_, heval⟩
  have hcompound := readAll?_compound b (.mk j ss k) vs
  simp only [Compound.lexemes, List.cons_append, List.append_assoc, List.nil_append] at hcompound
  rw [Ends, readAll?_from hb, hcompound]
  exact hq

theorem accept?_semicolon (r : Reading) (m n : Nat) :
    r.accept? (.symbol .semicolon) m = r.accept? (.symbol .semicolon) n := by
  cases r <;> rfl

/-- A semicolon between statements, and two. -/
theorem Ends.double_semicolon {i : Nat} (hus : .keyword .beginBody ∈ us.map Lexeme.token)
    (h : Reading.opening.Ends (us ++ ⟨.symbol .semicolon, i⟩ :: vs) p) (j k : Nat) :
    ∃ q, Reading.opening.Ends (us ++ ⟨.symbol .semicolon, j⟩ :: ⟨.symbol .semicolon, k⟩ :: vs) q ∧
      q.eval = p.eval := by
  rw [Ends, readAll?_append] at h
  obtain ⟨r, hr, hrest⟩ := Option.bind_eq_some_iff.1 h
  rw [readAll?_cons] at hrest
  obtain ⟨s, hs, hrest⟩ := Option.bind_eq_some_iff.1 hrest
  have hbody : s.inBody := (inBody_accept? hs).2 (Or.inl ((inBody_readAll? hr).2 (Or.inr hus)))
  obtain ⟨b, rfl⟩ := statement_of_opener (Or.inl rfl) hs hbody
  have hdrop := Tree.evalAll_drop b.inner.toList []
  have halike : (Reading.statement b).Alike (fun ss ss' => Tree.evalAll ss = Tree.evalAll ss')
      (.statement (b.add .empty)) :=
    .statement (.of_inner lasting_evalAll b (by simpa using hdrop.symm))
  obtain ⟨q, hq, heval⟩ := Ends.of_evalAll_eq halike hrest
  refine ⟨q, ?_, heval⟩
  rw [Ends, readAll?_from hr, readAll?_cons, accept?_semicolon r j i, hs]
  exact hq

/-- A semicolon beside another one. -/
theorem Ends.insert_semicolon (hus : .keyword .beginBody ∈ us.map Lexeme.token)
    (hbeside : (∃ l ∈ us.getLast?, l.token = .symbol .semicolon) ∨ Next (· = .symbol .semicolon) vs)
    (h : Reading.opening.Ends (us ++ vs) p) (k : Nat) :
    ∃ q, Reading.opening.Ends (us ++ ⟨.symbol .semicolon, k⟩ :: vs) q ∧ q.eval = p.eval := by
  rcases hbeside with ⟨⟨t, i⟩, hl, rfl⟩ | hnext
  · obtain ⟨us, rfl⟩ := List.getLast?_eq_some_iff.1 hl
    have hus' : .keyword .beginBody ∈ us.map Lexeme.token := by simpa using hus
    rw [List.append_assoc] at h ⊢
    exact h.double_semicolon hus' i k
  · cases vs with
    | nil => cases hnext
    | cons l vs =>
      obtain ⟨t, i⟩ := l
      obtain rfl : t = .symbol .semicolon := hnext
      exact h.double_semicolon hus k i

end Reading

/-! ## Texts -/

variable {u m v : String} {us : List Lexeme} {p : Tree}

theorem Parts.parse_enclose {ss : Phrase.Statements} (h : Parts u.toList m.toList v.toList us ss.lexemes)
    (hus : OpenList us) {t : Token} {n : Nat}
    (hnext : (Cursor.between (u.toList ++ m.toList) v.toList).next.1 = .token t n)
    (ht : EndsStatement t) (hp : parse (u ++ m ++ v) = .ok p) :
    ∃ q, parse (u ++ " BEGIN " ++ m ++ " END " ++ v) = .ok q ∧ q.eval = p.eval := by
  have hend : t ≠ .endOfInput := by rcases ht with rfl | rfl <;> exact nofun
  obtain ⟨vs, _, hvs, hends⟩ := h.exists_ends hp
  obtain ⟨vs, rfl⟩ := Cursor.exists_cons_of_next hvs hnext hend
  obtain ⟨j, k, n', hitems⟩ := h.items_enclose (Cursor.ne_nil_of_next hnext hend) hvs
    (.keyword .beginBody) nofun (by decide) (.keyword .endBody) nofun (by decide)
  have hcloses : Next EndsStatement (⟨t, n⟩ :: vs) := ht
  obtain ⟨q, hq, heval⟩ := hends.enclose hus hcloses j k
  refine ⟨q, (Reading.run_eq_ok_iff ?_ rfl).2 ⟨hq, n', rfl⟩, heval⟩
  have hbegin : " BEGIN ".toList = ' ' :: (Keyword.beginBody.spelling.toList ++ [' ']) := rfl
  have hend : " END ".toList = ' ' :: (Keyword.endBody.spelling.toList ++ [' ']) := rfl
  rw [Cursor.ofString_eq_between]
  simpa [hbegin, hend] using hitems

theorem Holds.parse_semicolon (h : Holds [] u.toList v.toList us) (hus : .keyword .beginBody ∈ us.map Lexeme.token)
    (hbeside : (∃ l ∈ us.getLast?, l.token = .symbol .semicolon) ∨
      ∃ n, (Cursor.between u.toList v.toList).next.1 = .token (.symbol .semicolon) n)
    (hp : parse (u ++ v) = .ok p) : ∃ q, parse (u ++ " ; " ++ v) = .ok q ∧ q.eval = p.eval := by
  have hparts : Parts u.toList "".toList v.toList us [] := ⟨h, .nil _ _⟩
  obtain ⟨vs, _, hvs, hends⟩ := hparts.exists_ends (show parse (u ++ "" ++ v) = .ok p by rwa [String.append_empty])
  have hbeside' : (∃ l ∈ us.getLast?, l.token = .symbol .semicolon) ∨ Next (· = .symbol .semicolon) vs := by
    rcases hbeside with hlast | ⟨n, hnext⟩
    · exact Or.inl hlast
    · rw [show "".toList = [] from rfl, List.append_nil] at hvs
      obtain ⟨vs, rfl⟩ := Cursor.exists_cons_of_next hvs hnext nofun
      exact Or.inr rfl
  have hvs_ne : vs ≠ [] := by
    rcases hbeside' with ⟨l, hl, hsemicolon⟩ | hnext
    · exact Reading.ne_nil_of_openList ⟨hus, l, hl, Or.inl hsemicolon⟩ hends
    · rintro rfl
      exact hnext
  have hne : "".toList ++ v.toList ≠ [] := fun hnil =>
    Cursor.ne_nil_of_items hvs hvs_ne (List.append_eq_nil_iff.1 hnil).2
  have hword : Holds [] ";".toList [' '] [⟨.symbol .semicolon, 1⟩] := (Rule.symbol .semicolon).holds nofun
  obtain ⟨ws', vs', n', hws, -, hsame, hitems⟩ := hparts.items_splice hne hvs hword
  obtain rfl := hsame rfl
  obtain ⟨⟨_, k⟩, _, rfl, rfl, hnil⟩ := List.map_eq_cons_iff.1 hws
  obtain rfl := List.map_eq_nil_iff.1 hnil
  obtain ⟨q, hq, heval⟩ := Reading.Ends.insert_semicolon hus hbeside' hends k
  refine ⟨q, (Reading.run_eq_ok_iff ?_ rfl).2 ⟨hq, n', rfl⟩, heval⟩
  rw [Cursor.ofString_eq_between]
  simpa using hitems

theorem run_congr {source source' : String} {p q : Tree} (h : parse source = .ok p) (h' : parse source' = .ok q)
    (heval : q.eval = p.eval) : run source' = run source := by
  rw [run_of_parse h, run_of_parse h', heval]

/-- It makes no difference where statements are nested, and empty ones make none.

    With lists within lists taken apart and empty trees left out, a tree does the same from
    every table. So a program does what the list of its assignments does. If a tree succeeds,
    another one does behind it what the list of the two does. A text that is parsed still is,
    and comes to the same, with `BEGIN` and `END` around statements that follow each other in a
    list, and with one more semicolon beside another one in the body. -/
theorem nesting_transparent :
    (∀ t u : Tree, Relation.ReflTransGen Tree.Unnests t u → ∀ table, t.eval.on table = u.eval.on table) ∧
    (∀ source tree, parse source = .ok tree → ∀ table,
      tree.eval.on table = (Tree.compound tree.assignments).eval.on table) ∧
    (∀ (t u : Tree) table between v, t.eval.on table = (.ok v, between) →
      (Tree.compound [t, u]).eval.on table = ((u.eval.on between).1.map fun _ => 0, (u.eval.on between).2)) ∧
    (∀ (u m v : String) (us : List Lexeme) (ss : Phrase.Statements) (t : Token) (n : Nat), OpenList us →
      Parts u.toList m.toList v.toList us ss.lexemes →
      (Cursor.between (u.toList ++ m.toList) v.toList).next.1 = .token t n → EndsStatement t →
      ∀ p, parse (u ++ m ++ v) = .ok p → (∃ q, parse (u ++ " BEGIN " ++ m ++ " END " ++ v) = .ok q) ∧
        run (u ++ " BEGIN " ++ m ++ " END " ++ v) = run (u ++ m ++ v)) ∧
    ∀ (u v : String) (us : List Lexeme), Holds [] u.toList v.toList us →
      .keyword .beginBody ∈ us.map Lexeme.token →
      ((∃ l ∈ us.getLast?, l.token = .symbol .semicolon) ∨
        ∃ n, (Cursor.between u.toList v.toList).next.1 = .token (.symbol .semicolon) n) →
      ∀ p, parse (u ++ v) = .ok p → (∃ q, parse (u ++ " ; " ++ v) = .ok q) ∧ run (u ++ " ; " ++ v) = run (u ++ v) := by
  refine ⟨fun t u h table => ?_, fun source tree h table => ?_, fun t u table between v h => Tree.eval_pair h,
    fun u m v us ss t n hus h hnext ht p hp => ?_, fun u v us h hus hbeside p hp => ?_⟩
  · rw [Tree.eval_eq_of_unnests h]
  · rw [(isProgram_of_parse h).eval_eq_assignments]
  · obtain ⟨q, hq, heval⟩ := h.parse_enclose hus hnext ht hp
    exact ⟨⟨q, hq⟩, run_congr hp hq heval⟩
  · obtain ⟨q, hq, heval⟩ := h.parse_semicolon hus hbeside hp
    exact ⟨⟨q, hq⟩, run_congr hp hq heval⟩

/-- The second of two assignments reads a variable that has no value, in a list of its own as
    well as behind an empty statement. -/
theorem nesting_transparent_undefined :
    let x : Tree := .assign (.var "x" 1) (.number 1)
    let y : Tree := .assign (.var "y" 1) (.var "z" 1)
    let e : EvalError := .undefinedVariable "z" 1
    (Tree.compound [.compound [x], .empty, y]).eval.on ∅ = (Tree.compound [x, y]).eval.on ∅ ∧
      (Tree.compound [x, y]).eval.on ∅ = (.error e, (∅ : Table).insert "x" 1) ∧
      run "PROGRAM p; BEGIN x := 1; y := z END." = .error (.eval e) ∧
      run "PROGRAM p; BEGIN x := 1; BEGIN  y := z END  END." = .error (.eval e) ∧
      run "PROGRAM p; BEGIN x := 1; ;  y := z END." = .error (.eval e) := by
  intro x y e
  let us : List Lexeme := [⟨.keyword .program, 1⟩, ⟨.name "p", 1⟩, ⟨.symbol .semicolon, 1⟩, ⟨.keyword .beginBody, 1⟩,
    ⟨.name "x", 1⟩, ⟨.symbol .assign, 1⟩, ⟨.integer 1, 1⟩, ⟨.symbol .semicolon, 1⟩]
  let ss : Phrase.Statements := .mk (.assignment ⟨⟨"y", 1⟩, 1, .mk (.mk (.name ⟨"z", 1⟩) .nil) .nil⟩) .nil
  obtain ⟨htrees, hflat, hpair, henclose, hsemicolon⟩ := nesting_transparent
  have hx : x.eval.on ∅ = (.ok 0, (∅ : Table).insert "x" 1) := by
    simp only [x, Tree.eval, Eval.on_bind, Eval.on_pure, Eval.on_assign]
  have hy : y.eval.on ((∅ : Table).insert "x" 1) = (.error e, (∅ : Table).insert "x" 1) := by
    have hz : ((∅ : Table).insert "x" 1)["z"]? = none := by
      rw [Std.ExtTreeMap.getElem?_insert, if_neg (by simp), Std.ExtTreeMap.getElem?_empty]
    simp only [y, e, Tree.eval, Eval.on_bind, Eval.on_lookup, hz]
  have hlist : (Tree.compound [x, y]).eval.on ∅ = (.error e, (∅ : Table).insert "x" 1) := by
    rw [hpair x y ∅ _ 0 hx, hy]
    rfl
  have hitems : (Cursor.ofString ("PROGRAM p; BEGIN x := 1;" ++ " y := z" ++ " END.")).items =
      (us ++ (ss.lexemes ++ ([⟨.keyword .endBody, 1⟩, ⟨.symbol .dot, 1⟩] : List Lexeme))).map Lexeme.item ++
        [.token .endOfInput 1] := by
    decide +kernel
  have hparse : parse ("PROGRAM p; BEGIN x := 1;" ++ " y := z" ++ " END.") =
      .ok (.program "p" (.block [] (.compound [x, y]))) :=
    (Reading.run_eq_ok_iff hitems rfl).2 ⟨rfl, 1, rfl⟩
  have hrun : run ("PROGRAM p; BEGIN x := 1;" ++ " y := z" ++ " END.") = .error (.eval e) := by
    have hprogram := hflat _ _ hparse ∅
    rw [show (Tree.program "p" (.block [] (.compound [x, y]))).assignments = [x, y] from rfl, hlist] at hprogram
    rw [run_of_parse hparse, hprogram]
  have hbegin : .keyword .beginBody ∈ us.map Lexeme.token := by simp [us]
  refine ⟨htrees _ _ ?_ ∅, hlist, hrun, ?_, ?_⟩
  · exact .head (.splice [] [x] [.empty, y]) (.single (.drop [x] [y]))
  · have hparts : Parts "PROGRAM p; BEGIN x := 1;".toList " y := z".toList " END.".toList us ss.lexemes :=
      ⟨holds_of_pieces 13 rfl (by decide +kernel) (by decide +kernel),
        holds_of_pieces 6 rfl (by decide +kernel) (by decide +kernel)⟩
    have hopen : OpenList us := ⟨hbegin, ⟨.symbol .semicolon, 1⟩, rfl, Or.inl rfl⟩
    have hnext : (Cursor.between ("PROGRAM p; BEGIN x := 1;".toList ++ " y := z".toList) " END.".toList).next.1 =
        .token (.keyword .endBody) 1 := by
      decide +kernel
    exact (henclose _ _ _ us ss _ 1 hopen hparts hnext (Or.inr rfl) _ hparse).2.trans hrun
  · have hholds : Holds [] "PROGRAM p; BEGIN x := 1;".toList " y := z END.".toList us :=
      holds_of_pieces 13 rfl (by decide +kernel) (by decide +kernel)
    have hbeside : (∃ l ∈ us.getLast?, l.token = .symbol .semicolon) ∨ ∃ n, (Cursor.between
        "PROGRAM p; BEGIN x := 1;".toList " y := z END.".toList).next.1 = .token (.symbol .semicolon) n :=
      Or.inl ⟨⟨.symbol .semicolon, 1⟩, rfl, rfl⟩
    exact (hsemicolon _ " y := z END." us hholds hbegin hbeside _ hparse).2.trans hrun

end Pascaline
