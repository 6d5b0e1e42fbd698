/-
  Pascaline.Proofs.Reading.Taken — the items that a reading takes, up to the one that decides
  it.

  `taken` are the items of a text that are looked at, and they are the first ones of it
  (`taken_prefix`). A run stops behind them (`run_cursor`). Of a text that is parsed they are
  all items (`taken_of_run_ok`); otherwise they are viable up to the last one and not with it,
  and the error is about that one (`taken_of_parse_error`).
-/

import Pascaline.Proofs.Reading.Classify

namespace Pascaline

namespace Reading

/-- The items up to the first one that is not accepted, and that one. -/
def taken : Reading → List Item → List Item
  | _, [] => []
  | _, .stray e :: _ => [.stray e]
  | r, .token t n :: rest =>
    match r.accept? t n with
    | some s => .token t n :: s.taken rest
    | none => [.token t n]

theorem taken_prefix (r : Reading) (items : List Item) : r.taken items <+: items := by
  fun_induction taken r items with
  | case1 => exact List.prefix_rfl
  | case2 r e rest => exact ⟨rest, rfl⟩
  | case3 r t n rest s hs ih => exact (List.prefix_cons_inj _).2 ih
  | case4 r t n rest hs => exact ⟨rest, rfl⟩

/-- Behind the end of the input or a stray character nothing is taken. -/
theorem not_isLast_of_taken {r : Reading} {items : List Item} {item : Item} (h : item ∈ (r.taken items).dropLast) :
    ¬item.isLast := by
  fun_induction taken r items with
  | case1 => cases h
  | case2 r e rest => cases h
  | case3 r t n rest s hs ih =>
    cases htaken : s.taken rest with
    | nil =>
      rw [htaken] at h
      cases h
    | cons next more =>
      rw [htaken] at h ih
      rcases List.mem_cons.1 h with rfl | hmem
      · simpa [Item.isLast] using ne_endOfInput_of_accept? hs
      · exact ih hmem
  | case4 r t n rest hs => cases h

variable {r s : Reading} {c : Cursor} {ls : List Lexeme} {item : Item} {rest : List Item}

theorem taken_append (h : r.readAll? ls = some s) (rest : List Item) :
    r.taken (ls.map Lexeme.item ++ rest) = ls.map Lexeme.item ++ s.taken rest := by
  induction ls generalizing r with
  | nil => rw [Option.some.inj h]; rfl
  | cons l ls ih =>
    obtain ⟨r', hl, hr'⟩ := Option.bind_eq_some_iff.1 h
    simp only [List.map_cons, List.cons_append, Lexeme.item, taken, hl]
    exact congrArg _ (ih hr')

theorem taken_of_not_accept (h : ∀ t n, item = .token t n → r.accept? t n = none) (rest : List Item) :
    r.taken (item :: rest) = [item] := by
  cases item with
  | stray e => rfl
  | token t n => rw [taken, h t n rfl]

/-- Behind lexemes that are read, the next item is the last one taken if it is not accepted. -/
theorem taken_concat (hr : r.readAll? ls = some s) (h : ∀ t n, item = .token t n → s.accept? t n = none)
    (hc : c.items = ls.map Lexeme.item ++ item :: rest) : r.taken c.items = ls.map Lexeme.item ++ [item] := by
  rw [hc, taken_append hr, taken_of_not_accept h]

/-- The result where a token is not accepted. -/
def verdict (r : Reading) (t : Token) (n : Nat) : Except Error Tree :=
  if t = .endOfInput then (r.finish n).mapError .grammar else .error (.grammar (r.reject t n))

theorem verdict_eq_error (h : r.due?.isSome) (t : Token) (n : Nat) :
    r.verdict t n = .error (.grammar (r.reject t n)) := by
  unfold verdict
  split
  · rename_i hend
    have hcomplete : ∀ p, r ≠ .complete p := by
      rintro p rfl
      cases h
    rw [finish_eq_error hcomplete, hend]
    rfl
  · rfl

theorem run_refuse {t : Token} {n : Nat} (hc : c.next.1 = .token t n) (h : r.accept? t n = none) :
    (r.run c).1 = r.verdict t n := by
  rw [run]
  split
  · rename_i e hstray
    rw [hc] at hstray
    cases hstray
  · rename_i u m htoken
    obtain ⟨rfl, rfl⟩ := Item.token.inj (hc.symm.trans htoken)
    unfold verdict
    split
    · rfl
    · rw [h]

/-- The run stops right behind the items that it takes. -/
theorem run_cursor (r : Reading) (c : Cursor) : (r.run c).2 = c.after (r.taken c.items).length := by
  fun_induction run r c with
  | case1 r c e hstray =>
    rw [Cursor.items_eq_cons, taken_of_not_accept fun t n ht => by rw [hstray] at ht; cases ht]
    rfl
  | case2 r c n hend =>
    rw [Cursor.items_eq_cons, hend, taken_of_not_accept]
    · rfl
    · rintro t m ht
      obtain ⟨rfl, rfl⟩ := Item.token.inj ht
      exact r.accept?_endOfInput _
  | case3 r c t n htoken ht s hs ih =>
    have hlast : ¬c.next.1.isLast := by simpa [htoken, Item.isLast] using ht
    rw [ih, Cursor.items_eq_cons c, if_neg hlast, htoken, taken, hs]
    rfl
  | case4 r c t n htoken ht hs =>
    rw [Cursor.items_eq_cons, htoken, taken, hs]
    rfl

/-- What is parsed has been taken to the end of the input. -/
theorem taken_of_run_ok {tree : Tree} (h : (r.run c).1 = .ok tree) :
    r.taken c.items = c.items ∧ ∃ n, c.items.getLast? = some (.token .endOfInput n) := by
  obtain ⟨ls, last, hls, hlast, -⟩ := c.exists_items
  obtain ⟨hend, n, rfl⟩ := (run_eq_ok_iff hls hlast).1 h
  refine ⟨?_, n, by rw [hls]; simp⟩
  rw [taken_concat hend _ hls, hls]
  rintro t m ht
  obtain ⟨rfl, rfl⟩ := Item.token.inj ht
  exact accept?_endOfInput _ _

end Reading

/-- An error is about the last item taken, the first with which the items are not viable. -/
theorem taken_of_parse_error {source : String} {e : Error} (h : parse source = .error e) :
    ∃ before item, Reading.opening.taken (Cursor.ofString source).items = before ++ [item] ∧ Viable before ∧
      ¬Viable (before ++ [item]) ∧ e.Blames item ((Cursor.ofString source).after (before.length + 1)).line := by
  obtain ⟨ls, item, rest, r, hitems, hr, htakes, rfl⟩ := Reading.exists_refused h
  have hrefused : ∀ t n, item = .token t n → r.accept? t n = none := by
    rintro t n rfl
    by_contra hsome
    exact htakes (Or.inl (Option.isSome_iff_ne_none.2 hsome))
  refine ⟨ls.map Lexeme.item, item, Reading.taken_concat hr hrefused hitems, ?_,
    (viable_concat_iff hr item).not.2 htakes, ?_⟩
  · exact (viable_lexemes_iff (Reading.ne_endOfInput_of_readAll? hr)).2 (by rw [hr]; rfl)
  · have hitem : (Cursor.ofString source).items[ls.length]? = some item := by
      rw [hitems, List.getElem?_append_right (by simp)]
      simp
    have hblames := refuse_blames r ((Cursor.ofString source).after ls.length)
    rw [Cursor.next_after hitem, ← Cursor.after_succ] at hblames
    simpa using hblames

-- the word `BEGIN` is out of place, and what stands behind it is not looked at
example : Reading.opening.taken (Cursor.ofString "PROGRAM p BEGIN $").items =
    [.token (.keyword .program) 1, .token (.name "p") 1, .token (.keyword .beginBody) 1] := by
  decide +kernel

end Pascaline
