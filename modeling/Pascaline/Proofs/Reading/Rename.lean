/-
  Pascaline.Proofs.Reading.Rename — programs are invariant under renaming.

  Items that are renamed are read as the renamed tree, or refused at the same place and for
  the same reason (`run_renamed`). The renamed program then does in the renamed table what
  the program does in the table, as long as different names stay different. So if the
  identifiers of a text are replaced by other ones, each by its own, the text is parsed and
  run as before but for the names (`run_rename`).
-/

import Pascaline.Proofs.Reading.Insert
import Pascaline.Proofs.Token.Rename
import Pascaline.Proofs.Tree.Rename

namespace Pascaline

/-- The error on the same line, with its name replaced. A stray character may have more or
    fewer bytes before it. -/
inductive Error.Renamed (r : String → String) : Error → Error → Prop
  | stray (e : StrayCharacter) (position : Nat) : Error.Renamed r (.stray e) (.stray { e with position })
  | grammar (e : GrammarError) : Error.Renamed r (.grammar e) (.grammar (e.relabel r id))
  | eval (e : EvalError) : Error.Renamed r (.eval e) (.eval (e.rename r))

/-- Both succeed, with results that are related, or both fail, with renamed errors. -/
inductive Agree (r : String → String) {α : Type} (R : α → α → Prop) : Except Error α → Except Error α → Prop
  | ok {a b : α} (h : R a b) : Agree r R (.ok a) (.ok b)
  | error {e e' : Error} (h : e.Renamed r e') : Agree r R (.error e) (.error e')

theorem Item.Renamed.eq_token {r : String → String} {t : Token} {n : Nat} {item : Item}
    (h : (Item.token t n).Renamed r item) : item = .token (t.rename r) n := by
  cases h
  rfl

namespace Reading

variable {r : String → String} {x : Reading} {item item' : Item}

theorem accept?_rename (r : String → String) (x : Reading) (t : Token) (n : Nat) :
    (x.relabel r id).accept? (t.rename r) n = (x.accept? t n).map (relabel r id) := accept?_relabel r id x t n

theorem reject_rename (r : String → String) (x : Reading) (t : Token) (n : Nat) :
    (x.relabel r id).reject (t.rename r) n = (x.reject t n).relabel r id := reject_relabel r id x t n

theorem takes_renamed (h : item.Renamed r item') : (x.relabel r id).Takes item' ↔ x.Takes item := by
  cases h with
  | stray e position => exact Iff.rfl
  | token t n =>
    have hcomplete : (∃ p, x.relabel r id = .complete p) ↔ ∃ p, x = .complete p := by
      constructor
      · rintro ⟨p, hp⟩
        obtain ⟨q, hq, -⟩ := eq_complete_of_relabel hp
        exact ⟨q, hq⟩
      · rintro ⟨p, rfl⟩
        exact ⟨p.relabel r id, rfl⟩
    simp only [Takes, accept?_rename, Option.isSome_map, Token.rename_eq_endOfInput_iff, hcomplete]

theorem refuse_renamed (h : item.Renamed r item') : (x.refuse item).Renamed r ((x.relabel r id).refuse item') := by
  cases h with
  | stray e position => exact .stray e position
  | token t n =>
    rw [refuse, refuse, reject_rename]
    exact .grammar _

/-- The renamed item is refused where the item is. -/
theorem agree_refused {R : Tree → Tree → Prop} {c' : Cursor} (h : item.Renamed r c'.next.1) (ht : ¬x.Takes item) :
    Agree r R (.error (x.refuse item)) ((x.relabel r id).run c').1 := by
  rw [run_refused rfl ((takes_renamed h).not.2 ht)]
  exact .error (refuse_renamed h)

/-- Renamed items are read alike. -/
theorem run_renamed {c c' : Cursor} (hitems : ∀ k, (c.item k).Renamed r (c'.item k)) :
    Agree r (fun t t' => t' = t.rename r) (x.run c).1 ((x.relabel r id).run c').1 := by
  have hnext : c.next.1.Renamed r c'.next.1 := hitems 0
  fun_induction Reading.run x c generalizing c' with
  | case1 x c e hstray =>
    rw [hstray] at hnext
    exact agree_refused hnext id
  | case2 x c n hend =>
    rw [hend] at hnext
    by_cases hx : ∃ p, x = .complete p
    · obtain ⟨p, rfl⟩ := hx
      rw [relabel, run_complete hnext.eq_token]
      exact .ok rfl
    · have ht : ¬x.Takes (.token .endOfInput n) := by simp [Takes, accept?_endOfInput, hx]
      rw [finish_eq_error (not_exists.1 hx)]
      exact agree_refused hnext ht
  | case3 x c t n htoken ht s hs ih =>
    rw [htoken] at hnext
    have hstep := accept?_rename r x t n
    rw [hs] at hstep
    rw [run_accept hnext.eq_token hstep]
    exact ih (fun k => hitems (k + 1)) (hitems 1)
  | case4 x c t n htoken hend hs =>
    rw [htoken] at hnext
    exact agree_refused hnext (by simp [Takes, hs, hend])

end Reading

/-! ## Whole texts -/

theorem namesIn_identifiers {source : String} {tree : Tree} (h : parse source = .ok tree) :
    tree.NamesIn (identifiers source) := by
  intro x n hx
  obtain ⟨ls, last, hls, hlast, -⟩ := (Cursor.ofString source).exists_items
  obtain ⟨hends, -⟩ := (Reading.run_eq_ok_iff hls hlast).1 h
  obtain ⟨p, rfl, rfl⟩ := Reading.exists_program hends
  obtain ⟨k, hk⟩ := List.mem_iff_getElem?.1 (mem_lexemes_of_var hx)
  exact mem_identifiers (Cursor.item_of_items hls hk)

theorem parse_renamed {source : String} {r : String → String} (hr : ∀ x ∈ identifiers source, IsIdentifier (r x)) :
    Agree r (fun t t' => t' = t.rename r) (parse source) (parse (renamed r source)) :=
  Reading.run_renamed (x := .opening) (item_renamed hr)

/-- Programs are invariant under consistent renaming.

    Each identifier of a text is replaced by another one, the same one wherever it stands, and
    different ones by different ones. The items stay, each on its line, but for the names.
    The text is parsed and run as before, with the tree and the table renamed. If it fails, so
    it did before, in the same way and on the same line, and the token or the variable that is
    to blame is the renamed one. -/
theorem run_rename {source : String} {r : String → String} (hr : ∀ x ∈ identifiers source, IsIdentifier (r x))
    (hinj : ∀ x ∈ identifiers source, ∀ y ∈ identifiers source, r x = r y → x = y) :
    (∀ k, ((Cursor.ofString source).item k).Renamed r ((Cursor.ofString (renamed r source)).item k)) ∧
    Agree r (fun tree tree' => tree' = tree.rename r) (parse source) (parse (renamed r source)) ∧
    Agree r (Table.Renamed r) (run source) (run (renamed r source)) := by
  have hparse := parse_renamed hr
  refine ⟨item_renamed hr, hparse, ?_⟩
  generalize hs : parse source = out at hparse
  generalize hs' : parse (renamed r source) = out' at hparse
  cases hparse with
  | @error e e' h =>
    rw [run_of_parse_error hs, run_of_parse_error hs']
    exact .error h
  | @ok tree tree' h =>
    subst h
    have hmirrors := (isProgram_of_parse hs).eval_mirrors hinj (isProgram_of_parse hs') (namesIn_identifiers hs)
    rw [run_of_parse hs, run_of_parse hs']
    obtain ⟨table, table', htable, ⟨v, hv, hv'⟩ | ⟨e, he, he'⟩⟩ := hmirrors.outcome .empty
    · rw [hv, hv']
      exact .ok htable.renamed
    · rw [he, he']
      exact .error (.eval e)

/-- Reserved words with more behind them are names like others. -/
theorem run_rename_undefined :
    run "PROGRAM p; BEGIN x := y END." = .error (.eval (.undefinedVariable "y" 1)) ∧
    run "PROGRAM ENDp; BEGIN ENDx := ENDy END." = .error (.eval (.undefinedVariable "ENDy" 1)) := by
  have hnames : identifiers "PROGRAM p; BEGIN x := y END." = ["p", "x", "y"] := by decide +kernel
  have hrenamed : renamed ("END" ++ ·) "PROGRAM p; BEGIN x := y END." = "PROGRAM ENDp; BEGIN ENDx := ENDy END." := by
    decide +kernel
  have hr : ∀ x ∈ identifiers "PROGRAM p; BEGIN x := y END.", IsIdentifier ("END" ++ x) := by
    simp [hnames, isIdentifier_iff, Keyword.all, Keyword.spelling]
  have hinj : ∀ x ∈ identifiers "PROGRAM p; BEGIN x := y END.", ∀ y ∈ identifiers "PROGRAM p; BEGIN x := y END.",
      "END" ++ x = "END" ++ y → x = y := by
    rw [hnames]
    decide
  have hrun : run "PROGRAM p; BEGIN x := y END." = .error (.eval (.undefinedVariable "y" 1)) := by
    have hitems : (Cursor.ofString "PROGRAM p; BEGIN x := y END.").items =
        [⟨.keyword .program, 1⟩, ⟨.name "p", 1⟩, ⟨.symbol .semicolon, 1⟩, ⟨.keyword .beginBody, 1⟩, ⟨.name "x", 1⟩,
          ⟨.symbol .assign, 1⟩, ⟨.name "y", 1⟩, ⟨.keyword .endBody, 1⟩, ⟨.symbol .dot, 1⟩].map Lexeme.item ++
          [.token .endOfInput 1] := by
      decide +kernel
    rw [run_of_parse ((Reading.run_eq_ok_iff hitems rfl).2 ⟨rfl, 1, rfl⟩)]
    rfl
  refine ⟨hrun, ?_⟩
  obtain ⟨-, -, hagree⟩ := run_rename hr hinj
  rw [hrun, hrenamed] at hagree
  generalize run "PROGRAM ENDp; BEGIN ENDx := ENDy END." = out at hagree
  cases hagree with | error h =>
  cases h with | eval =>
  rfl

end Pascaline
