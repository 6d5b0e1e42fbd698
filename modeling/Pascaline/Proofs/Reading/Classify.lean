/-
  Pascaline.Proofs.Reading.Classify — why a token is out of place.

  A text that is no program is read up to the first item that is not taken
  (`exists_refused`), and why not is told by the place that has been reached: nothing follows
  a whole program, a semicolon is missing behind a statement in front of a name, and
  elsewhere another token is due (`reject_cases`). Whether it is such a place can be said of
  the tokens before it alone: they are a program (`complete_iff`), or the word `BEGIN` is
  among them and a program begins with them and a semicolon (`endsStatement_iff`).

  What is due is told in words. `Expectation.Names` are the tokens whose kind stands in the
  wording, and these are the ones that it admits (`names_iff_admits`); there is room for each
  of them (`isSome_accept?_of_admits`).
-/

import Mathlib.Data.List.Infix
import Mathlib.Tactic.ByContra
import Pascaline.Proofs.Reading.FirstError

namespace Pascaline

/-! ## Kinds of tokens -/

/-- What messages call a token, whatever literal or name it carries. -/
def Token.kindName : Token → String
  | .integer _ | .real _ => "number"
  | .name _ => "identifier"
  | t => t.describe

/-- The kind of the token is named in the wording. -/
def Expectation.Names (e : Expectation) (t : Token) : Prop := t.kindName.toList <:+: e.describe.toList

instance (e : Expectation) (t : Token) : Decidable (e.Names t) := List.decidableInfix _ _

def Symbol.all : List Symbol :=
  [.assign, .semicolon, .colon, .comma, .plus, .minus, .star, .slash, .openParen, .closeParen, .dot]

def Expectation.all : List Expectation :=
  .name :: .typeName :: .operand :: (Keyword.all.map .keyword ++ Symbol.all.map .symbol)

/-- One token of each kind. -/
def Token.kinds : List Token :=
  .integer 0 :: .real 0 :: .name "" :: .comment :: .blank :: .endOfInput ::
    (Keyword.all.map .keyword ++ Symbol.all.map .symbol)

theorem Symbol.mem_all (s : Symbol) : s ∈ Symbol.all := by cases s <;> decide

theorem Expectation.mem_all (e : Expectation) : e ∈ Expectation.all := by
  cases e with
  | keyword k => simp [Expectation.all, Keyword.mem_all]
  | symbol s => simp [Expectation.all, Symbol.mem_all]
  | _ => simp [Expectation.all]

theorem Token.exists_kind (t : Token) : ∃ u ∈ Token.kinds, u.sameKind t := by
  cases t with
  | integer v => exact ⟨.integer 0, by simp [Token.kinds], rfl⟩
  | real v => exact ⟨.real 0, by simp [Token.kinds], rfl⟩
  | name s => exact ⟨.name "", by simp [Token.kinds], rfl⟩
  | keyword k => exact ⟨.keyword k, by simp [Token.kinds, Keyword.mem_all], Token.sameKind_refl _⟩
  | symbol s => exact ⟨.symbol s, by simp [Token.kinds, Symbol.mem_all], Token.sameKind_refl _⟩
  | _ => exact ⟨_, by simp [Token.kinds], Token.sameKind_refl _⟩

theorem Token.kindName_eq_of_sameKind {t u : Token} (h : t.sameKind u) : t.kindName = u.kindName := by
  cases t <;> cases u <;> simp_all [sameKind, kindName]

namespace Expectation

variable {t u : Token}

theorem admits_eq_of_sameKind (h : t.sameKind u) (e : Expectation) : e.admits t = e.admits u := by
  cases t <;> cases u <;> simp_all [Token.sameKind] <;> cases e <;> rfl

/-- The tokens that the wording names are those that are admitted. -/
theorem names_iff_admits (e : Expectation) (t : Token) : e.Names t ↔ e.admits t := by
  have hall : ∀ e ∈ Expectation.all, ∀ u ∈ Token.kinds, e.Names u ↔ e.admits u := by decide +kernel
  obtain ⟨u, hu, hsame⟩ := t.exists_kind
  rw [← e.admits_eq_of_sameKind hsame, Names, ← Token.kindName_eq_of_sameKind hsame]
  exact hall e e.mem_all u hu

theorem admits_keyword {k : Keyword} : (keyword k).admits t ↔ t = .keyword k := by
  cases t <;> simp [admits, eq_comm]

theorem admits_symbol {s : Symbol} : (symbol s).admits t ↔ t = .symbol s := by
  cases t <;> simp [admits, eq_comm]

theorem admits_name : name.admits t ↔ ∃ x, t = .name x := by
  cases t <;> simp [admits]

end Expectation

/-! ## Room for what is due -/

namespace Reading

theorem isSome_accept?_of_admits {r : Reading} {e : Expectation} (he : r.due? = some e) {t : Token}
    (ht : e.admits t) (n : Nat) : (r.accept? t n).isSome := by
  cases r with
  | complete p => cases he
  | title | declaring h group =>
    obtain rfl := Option.some.inj he
    obtain ⟨x, rfl⟩ := Expectation.admits_name.1 ht
    rfl
  | typing h group =>
    obtain rfl := Option.some.inj he
    unfold Expectation.admits at ht
    split at ht <;> first | rfl | contradiction
  | operand a level =>
    obtain rfl := Option.some.inj he
    unfold Expectation.admits at ht
    split at ht <;> first | rfl | contradiction
  | operator a sum term =>
    obtain ⟨b, target, _ | ⟨level, outer⟩⟩ := a
    · obtain rfl := Option.some.inj he
      obtain rfl := Expectation.admits_keyword.1 ht
      rfl
    · obtain rfl := Option.some.inj he
      obtain rfl := Expectation.admits_symbol.1 ht
      rfl
  | opening | sections h | nextGroup h | statement b | separator b =>
    obtain rfl := Option.some.inj he
    obtain rfl := Expectation.admits_keyword.1 ht
    rfl
  | titleEnd x | declared h group | groupEnd h | assigning b x | closing h body =>
    obtain rfl := Option.some.inj he
    obtain rfl := Expectation.admits_symbol.1 ht
    rfl

/-- In the body, where a name has no room, a semicolon has room behind a statement and
    nowhere else. -/
theorem endsStatement_iff {r : Reading} {x : String} {n : Nat} (h : r.accept? (.name x) n = none) (m : Nat) :
    r.endsStatement ↔ r.inBody ∧ (r.accept? (.symbol .semicolon) m).isSome := by
  cases r with
  | statement b => cases h
  | operator a sum term =>
    obtain ⟨b, target, outer⟩ := a
    cases outer <;> simp [endsStatement, inBody, accept?, Assignment.operator?, Token.operator?, Body.accept?]
  | separator b => simp [endsStatement, inBody, accept?, Body.accept?]
  | _ => simp [endsStatement, inBody, accept?, Assignment.operand?]

/-! ## Reasons -/

variable {r : Reading} {t : Token} {n : Nat}

theorem reject_eq_trailing_iff : r.reject t n = .trailing t n ↔ ∃ p, r = .complete p := by
  rw [← due?_eq_none_iff]
  unfold reject
  split
  · rename_i hdue
    simp [hdue]
  · rename_i e x hdue
    rw [hdue]
    split <;> simp
  · rename_i e hdue hname
    simp [hdue]

theorem reject_eq_missingSeparator_iff :
    r.reject t n = .missingSeparator t n ↔ (∃ x, t = .name x) ∧ r.endsStatement := by
  unfold reject
  split
  · rename_i hdue
    obtain ⟨p, rfl⟩ := due?_eq_none_iff.1 hdue
    simp [endsStatement]
  · split <;> simp_all
  · rename_i e hdue hname
    simpa using fun x hx => absurd hx (hname x)

theorem reject_cases (r : Reading) (t : Token) (n : Nat) :
    r.reject t n = .trailing t n ∨ r.reject t n = .missingSeparator t n ∨
      ∃ e, r.due? = some e ∧ r.reject t n = .unexpected e t n := by
  unfold reject
  split
  · exact Or.inl rfl
  · rename_i e x hdue
    by_cases hends : r.endsStatement
    · exact Or.inr (Or.inl (if_pos hends))
    · exact Or.inr (Or.inr ⟨e, hdue, if_neg hends⟩)
  · rename_i e hdue hname
    exact Or.inr (Or.inr ⟨e, hdue, rfl⟩)

end Reading

/-! ## The tokens before -/

/-- A program begins with the tokens. -/
def BeginsProgram (ts : List Token) : Prop := ∃ p : Phrase.Program, ts <+: p.tokens

namespace Reading

variable {r : Reading} {ls : List Lexeme}

/-- A token has room exactly if a program begins with it behind the tokens before. -/
theorem beginsProgram_concat_iff (hr : Reading.opening.readAll? ls = some r) (t : Token) (n : Nat) :
    BeginsProgram (ls.map Lexeme.token ++ [t]) ↔ (r.accept? t n).isSome := by
  have h := isSome_readAll?_iff (ls ++ [⟨t, n⟩])
  rw [List.map_append, readAll?_append, hr] at h
  simpa [BeginsProgram] using h.symm

theorem complete_iff (hr : Reading.opening.readAll? ls = some r) :
    (∃ p : Phrase.Program, p.tokens = ls.map Lexeme.token) ↔ ∃ p, r = .complete p := by
  constructor
  · rintro ⟨p, hp⟩
    obtain ⟨q, hq⟩ := Ends.of_tokens_eq (readAll?_program p) hp.symm
    rw [Ends, hr] at hq
    exact ⟨q, Option.some.inj hq⟩
  · rintro ⟨q, rfl⟩
    obtain ⟨p, rfl, -⟩ := exists_program hr
    exact ⟨p, rfl⟩

/-- A text that fails is read up to an item that is not taken. -/
theorem exists_refused {c : Cursor} {e : Error} (h : (r.run c).1 = .error e) :
    ∃ ls item rest s, c.items = ls.map Lexeme.item ++ item :: rest ∧ r.readAll? ls = some s ∧
      ¬s.Takes item ∧ e = s.refuse item := by
  fun_induction Reading.run r c with
  | case1 r c x hstray =>
    obtain rfl := Except.error.inj h
    refine ⟨[], _, _, r, Cursor.items_eq_cons c, rfl, ?_, ?_⟩ <;> rw [hstray]
    · exact id
    · rfl
  | case2 r c n hend =>
    have hr : ∀ p, r ≠ .complete p := by
      rintro p rfl
      cases h
    rw [finish_eq_error hr] at h
    obtain rfl := Except.error.inj h
    refine ⟨[], _, _, r, Cursor.items_eq_cons c, rfl, ?_, ?_⟩ <;> rw [hend]
    · simpa [Takes, accept?_endOfInput] using hr
    · rfl
  | case3 r c t n htoken ht s hs ih =>
    obtain ⟨ls, item, rest, s', hitems, hread, htakes, rfl⟩ := ih h
    have hlast : ¬c.next.1.isLast := by simpa [htoken, Item.isLast] using ht
    refine ⟨⟨t, n⟩ :: ls, item, rest, s', ?_, ?_, htakes, rfl⟩
    · rw [Cursor.items_eq_cons, if_neg hlast, hitems, htoken]
      rfl
    · rw [readAll?_cons, hs]
      exact hread
  | case4 r c t n htoken ht hs =>
    obtain rfl := Except.error.inj h
    refine ⟨[], _, _, r, Cursor.items_eq_cons c, rfl, ?_, ?_⟩ <;> rw [htoken]
    · simp [Takes, hs, ht]
    · rfl

end Reading

/-- A token out of place is out of place for the reason that is given, and what is named as
    due has room there.

    The token is the first with which the items are not viable. It is called trailing exactly
    if the tokens before it are a program. A semicolon is called missing exactly if the token
    is a name, the body has begun, the tokens before are no program, and a program begins with
    them and a semicolon. Else something is due, and a program begins with the tokens before
    and any token that the wording names. -/
theorem parse_classify {source : String} {g : GrammarError} (h : parse source = .error (.grammar g)) :
    ∃ (ls : List Lexeme) (t : Token) (n : Nat) (rest : List Item),
      (Cursor.ofString source).items = ls.map Lexeme.item ++ .token t n :: rest ∧
      Viable (ls.map Lexeme.item) ∧ ¬Viable (ls.map Lexeme.item ++ [.token t n]) ∧
      let ts := ls.map Lexeme.token
      (g = .trailing t n ↔ ∃ p : Phrase.Program, p.tokens = ts) ∧
      (g = .missingSeparator t n ↔ (∃ x, t = .name x) ∧ .keyword .beginBody ∈ ts ∧
        (¬∃ p : Phrase.Program, p.tokens = ts) ∧ BeginsProgram (ts ++ [.symbol .semicolon])) ∧
      (g = .trailing t n ∨ g = .missingSeparator t n ∨
        ∃ e, g = .unexpected e t n ∧ ∀ u, e.Names u → BeginsProgram (ts ++ [u])) := by
  obtain ⟨ls, item, rest, r, hitems, hr, htakes, he⟩ := Reading.exists_refused h
  cases item with | stray x => cases he | token t n => ?_
  obtain rfl : g = r.reject t n := Error.grammar.inj he
  have hrefused : r.accept? t n = none := by
    by_contra hsome
    exact htakes (Or.inl (Option.isSome_iff_ne_none.2 hsome))
  have hviable : Viable (ls.map Lexeme.item) :=
    (viable_lexemes_iff (Reading.ne_endOfInput_of_readAll? hr)).2 (by rw [hr]; rfl)
  refine ⟨ls, t, n, rest, hitems, hviable, (viable_concat_iff hr _).not.2 htakes, ?_, ?_, ?_⟩
  · rw [Reading.reject_eq_trailing_iff, Reading.complete_iff hr]
  · rw [Reading.reject_eq_missingSeparator_iff, Reading.complete_iff hr, Reading.beginsProgram_concat_iff hr _ n]
    refine and_congr_right ?_
    rintro ⟨x, rfl⟩
    rw [Reading.endsStatement_iff hrefused n, Reading.inBody_readAll? hr]
    constructor
    · intro ⟨hbody, hsemicolon⟩
      refine ⟨hbody.resolve_left nofun, ?_, hsemicolon⟩
      rintro ⟨p, rfl⟩
      cases hsemicolon
    · intro ⟨hbegin, _, hsemicolon⟩
      exact ⟨Or.inr hbegin, hsemicolon⟩
  · rcases r.reject_cases t n with htrailing | hmissing | ⟨e, hdue, hunexpected⟩
    · exact Or.inl htrailing
    · exact Or.inr (Or.inl hmissing)
    · refine Or.inr (Or.inr ⟨e, hunexpected, fun u hu => ?_⟩)
      rw [Reading.beginsProgram_concat_iff hr u n]
      exact Reading.isSome_accept?_of_admits hdue ((e.names_iff_admits u).1 hu) n

/-- A program begins with what stands in front of the last name if a semicolon follows. -/
theorem parse_classify_missingSeparator :
    parse "PROGRAM p; BEGIN x := y z" = .error (.grammar (.missingSeparator (.name "z") 1)) ∧
      ∃ (ls : List Lexeme) (rest : List Item),
        (Cursor.ofString "PROGRAM p; BEGIN x := y z").items = ls.map Lexeme.item ++ .token (.name "z") 1 :: rest ∧
          BeginsProgram (ls.map Lexeme.token ++ [.symbol .semicolon]) := by
  have hitems : (Cursor.ofString "PROGRAM p; BEGIN x := y z").items =
      [⟨.keyword .program, 1⟩, ⟨.name "p", 1⟩, ⟨.symbol .semicolon, 1⟩, ⟨.keyword .beginBody, 1⟩, ⟨.name "x", 1⟩,
        ⟨.symbol .assign, 1⟩, ⟨.name "y", 1⟩].map Lexeme.item ++ [.token (.name "z") 1, .token .endOfInput 1] := by
    decide +kernel
  have hparse : parse "PROGRAM p; BEGIN x := y z" = .error (.grammar (.missingSeparator (.name "z") 1)) :=
    parse_refused hitems rfl (by rintro (h | ⟨h, -⟩) <;> cases h)
  refine ⟨hparse, ?_⟩
  obtain ⟨ls, t, n, rest, hls, -, -, -, hmissing, hcases⟩ := parse_classify hparse
  obtain ⟨rfl, rfl⟩ : Token.name "z" = t ∧ 1 = n := by
    rcases hcases with hcase | hcase | ⟨e, hcase, -⟩ <;> cases hcase
    exact ⟨rfl, rfl⟩
  exact ⟨ls, rest, hls, (hmissing.1 rfl).2.2.2⟩

end Pascaline
