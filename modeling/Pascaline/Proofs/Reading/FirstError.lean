/-
  Pascaline.Proofs.Reading.FirstError — a text fails at the first item with which no program
  begins.

  Items are viable if a program begins with their tokens, or if they are a program and the
  end of the input (`Viable`). The reader takes an item exactly if the items stay viable
  with it (`viable_concat_iff`). So the first item with which they do not decides the error,
  and nothing behind it is looked at (`parse_first_unviable`).
-/

import Mathlib.Logic.Basic
import Pascaline.Proofs.Reading.Parse

namespace Pascaline

/-! ## Viable items -/

def Item.token? : Item → Option Token
  | .token t _ => some t
  | .stray _ => none

/-- A program and the end of the input, or what they begin with; a stray character is in
    neither. -/
def Viable (items : List Item) : Prop :=
  ∃ p : Phrase.Program, items.map Item.token? <+: p.tokens.map some ++ [some .endOfInput]

/-- What viable items begin with is viable. -/
theorem Viable.of_prefix {items before : List Item} (h : Viable items) (hb : before <+: items) : Viable before := by
  obtain ⟨p, hp⟩ := h
  exact ⟨p, (hb.map Item.token?).trans hp⟩

namespace Reading

/-- Nothing behind the end of the input is read. -/
theorem ne_endOfInput_of_readAll? {r s : Reading} {ls : List Lexeme} (h : r.readAll? ls = some s) :
    ∀ l ∈ ls, l.token ≠ .endOfInput := by
  induction ls generalizing r with
  | nil => exact nofun
  | cons l ls ih =>
    obtain ⟨r', hl, hr'⟩ := Option.bind_eq_some_iff.1 h
    rintro m (_ | ⟨_, hm⟩)
    · exact ne_endOfInput_of_accept? hl
    · exact ih hr' m hm

end Reading

theorem Phrase.Program.endOfInput_notMem (p : Program) : .endOfInput ∉ p.tokens := by
  intro h
  obtain ⟨l, hl, he⟩ := List.mem_map.1 h
  exact Reading.ne_endOfInput_of_readAll? (Reading.readAll?_program p) l hl he

theorem not_viable_of_stray {e : StrayCharacter} {items : List Item} (h : .stray e ∈ items) : ¬Viable items := by
  rintro ⟨p, hp⟩
  have hmem : none ∈ p.tokens.map some ++ [some .endOfInput] :=
    hp.subset (List.mem_map_of_mem (f := Item.token?) h)
  simp at hmem

variable {ls : List Lexeme}

theorem map_token?_item (ls : List Lexeme) :
    (ls.map Lexeme.item).map Item.token? = (ls.map Lexeme.token).map some := by
  simp [Lexeme.item, Item.token?, Function.comp_def]

/-- Tokens are viable exactly if all of them are accepted. -/
theorem viable_lexemes_iff (h : ∀ l ∈ ls, l.token ≠ .endOfInput) :
    Viable (ls.map Lexeme.item) ↔ (Reading.opening.readAll? ls).isSome := by
  rw [Reading.isSome_readAll?_iff]
  refine exists_congr fun p => ?_
  rw [map_token?_item, List.prefix_concat_iff, List.prefix_map_iff_of_injective fun _ _ => Option.some.inj]
  refine or_iff_right fun heq => ?_
  have hmem : some Token.endOfInput ∈ (ls.map Lexeme.token).map some := by simp [heq]
  obtain ⟨l, hl, he⟩ : ∃ l ∈ ls, l.token = .endOfInput := by simpa using hmem
  exact h l hl he

/-- The end of the input is viable behind a whole program. -/
theorem viable_end_iff (n : Nat) :
    Viable (ls.map Lexeme.item ++ [.token .endOfInput n]) ↔
      ∃ p, Reading.opening.readAll? ls = some (.complete p) := by
  constructor
  · rintro ⟨p, hp⟩
    rw [List.map_append, map_token?_item, List.prefix_concat_iff] at hp
    rcases hp with heq | hprefix
    · have htokens : ls.map Lexeme.token = p.tokens :=
        (List.map_inj_right fun _ _ => Option.some.inj).1 (List.append_cancel_right heq)
      exact Reading.Ends.of_tokens_eq (Reading.readAll?_program p) htokens
    · have hmem : some Token.endOfInput ∈ p.tokens.map some := hprefix.subset (by simp [Item.token?])
      exact absurd (by simpa using hmem) p.endOfInput_notMem
  · rintro ⟨p, hp⟩
    obtain ⟨q, rfl, -⟩ := Reading.exists_program hp
    exact ⟨q, by rw [List.map_append, map_token?_item]; exact List.prefix_rfl⟩

/-- Behind tokens that have been read an item is taken exactly if it leaves them viable. -/
theorem viable_concat_iff {r : Reading} (hr : Reading.opening.readAll? ls = some r) (item : Item) :
    Viable (ls.map Lexeme.item ++ [item]) ↔ r.Takes item := by
  have hne := Reading.ne_endOfInput_of_readAll? hr
  cases item with
  | stray e => exact iff_of_false (not_viable_of_stray List.mem_concat_self) id
  | token t n =>
    by_cases ht : t = .endOfInput
    · subst ht
      rw [viable_end_iff, hr]
      simp [Reading.Takes, Reading.accept?_endOfInput]
    · have hall : ∀ l ∈ ls ++ [⟨t, n⟩], l.token ≠ .endOfInput := by
        simpa [or_imp, forall_and, ht] using hne
      have hviable := viable_lexemes_iff hall
      rw [List.map_append, Reading.readAll?_append, hr] at hviable
      refine hviable.trans ?_
      simp [Reading.Takes, ht]

/-! ## The first item that is not viable -/

/-- With the item at the index, and no sooner, the items are not viable. -/
def FirstUnviable (items : List Item) (i : Nat) : Prop := Viable (items.take i) ∧ ¬Viable (items.take (i + 1))

theorem FirstUnviable.le {items : List Item} {i j : Nat} (hi : FirstUnviable items i) (hj : FirstUnviable items j) :
    j ≤ i :=
  Nat.le_of_not_lt fun hlt => hi.2 <| Viable.of_prefix hj.1 (List.take_prefix_take_left hlt)

/-- There is one first item. -/
theorem FirstUnviable.unique {items : List Item} {i j : Nat} (hi : FirstUnviable items i)
    (hj : FirstUnviable items j) : i = j := Nat.le_antisymm (hj.le hi) (hi.le hj)

theorem firstUnviable_of_refused {items rest : List Item} {item : Item} {r : Reading}
    (hc : items = ls.map Lexeme.item ++ item :: rest) (hr : Reading.opening.readAll? ls = some r)
    (ht : ¬r.Takes item) : FirstUnviable items ls.length := by
  have htake : items.take ls.length = ls.map Lexeme.item := by
    rw [hc]
    exact List.take_left' (List.length_map _)
  have htake' : items.take (ls.length + 1) = ls.map Lexeme.item ++ [item] := by
    rw [List.take_add_one, htake, hc, List.getElem?_append_right (by simp)]
    simp
  refine ⟨?_, ?_⟩
  · rw [htake]
    exact (viable_lexemes_iff (Reading.ne_endOfInput_of_readAll? hr)).2 (by rw [hr]; rfl)
  · rw [htake']
    exact (viable_concat_iff hr item).not.2 ht

theorem parse_refused {source : String} {item : Item} {rest : List Item} {r : Reading}
    (hc : (Cursor.ofString source).items = ls.map Lexeme.item ++ item :: rest)
    (hr : Reading.opening.readAll? ls = some r) (ht : ¬r.Takes item) : parse source = .error (r.refuse item) := by
  obtain ⟨hrun, hitems⟩ := Reading.run_after hr hc
  exact hrun.trans (Reading.run_refused (Cursor.next_of_items hitems) ht)

theorem parse_eq_ok_iff_viable (source : String) :
    (∃ tree, parse source = .ok tree) ↔ Viable (Cursor.ofString source).items := by
  obtain ⟨ls, last, hls, hlast, -⟩ := (Cursor.ofString source).exists_items
  have hok : ∀ tree, parse source = .ok tree ↔ Reading.opening.Ends ls tree ∧ ∃ n, last = .token .endOfInput n :=
    fun tree => Reading.run_eq_ok_iff hls hlast
  rw [exists_congr hok, hls]
  cases last with
  | stray e => exact iff_of_false (by simp) (not_viable_of_stray List.mem_concat_self)
  | token t n =>
    obtain rfl : t = .endOfInput := by simpa [Item.isLast] using hlast
    rw [viable_end_iff]
    simp [Reading.Ends]

/-- The error is about the item, whose line is the given one. -/
def Error.Blames (item : Item) (line : Nat) : Error → Prop
  | .stray e => item = .stray e
  | .grammar e => item.token? = some e.found ∧ e.line = line
  | .eval _ => False

theorem refuse_blames (r : Reading) (c : Cursor) : (r.refuse c.next.1).Blames c.next.1 c.next.2.line := by
  cases h : c.next.1 with
  | stray e => exact rfl
  | token t n =>
    refine ⟨?_, ?_⟩
    · exact congrArg some (r.reject_found t n).symm
    · rw [Cursor.next_line h]
      exact r.reject_line t n

/-- The first item with which no program begins decides the error.

    A text is parsed exactly if its items are viable. Otherwise let the items be viable up to
    the `k`-th, counted from 0, and not with it. Then the error is about that item, on the
    line of the cursor right behind it; and any text whose items are the same up to there
    ends in the same error. -/
theorem parse_first_unviable (source : String) :
    ((∃ tree, parse source = .ok tree) ↔ Viable (Cursor.ofString source).items) ∧
    ∀ k item, (Cursor.ofString source).items[k]? = some item →
      Viable ((Cursor.ofString source).items.take k) → ¬Viable ((Cursor.ofString source).items.take (k + 1)) →
      ∃ e, parse source = .error e ∧ e.Blames item ((Cursor.ofString source).after (k + 1)).line ∧
        ∀ other, (Cursor.ofString other).items.take (k + 1) = (Cursor.ofString source).items.take (k + 1) →
          parse other = .error e := by
  refine ⟨parse_eq_ok_iff_viable source, fun k item hitem hviable hunviable => ?_⟩
  obtain ⟨ls, last, hls, -, hne⟩ := (Cursor.ofString source).exists_items
  have hk : k ≤ ls.length := by
    have := (List.getElem?_eq_some_iff.1 hitem).1
    simp [hls] at this
    omega
  have htake : (Cursor.ofString source).items.take k = (ls.take k).map Lexeme.item := by
    rw [hls, List.take_append_of_le_length (by simpa using hk), List.map_take]
  have htake' : (Cursor.ofString source).items.take (k + 1) = (ls.take k).map Lexeme.item ++ [item] := by
    rw [List.take_add_one, hitem, htake]
    rfl
  rw [htake] at hviable
  rw [htake'] at hunviable
  obtain ⟨r, hr⟩ := Option.isSome_iff_exists.1
    ((viable_lexemes_iff fun l hl => hne l (List.mem_of_mem_take hl)).1 hviable)
  have ht : ¬r.Takes item := fun ht => hunviable ((viable_concat_iff hr item).2 ht)
  have hparse : ∀ other, (Cursor.ofString other).items.take (k + 1) = (Cursor.ofString source).items.take (k + 1) →
      parse other = .error (r.refuse item) := by
    intro other hother
    have hitems : (Cursor.ofString other).items =
        (ls.take k).map Lexeme.item ++ item :: (Cursor.ofString other).items.drop (k + 1) := by
      rw [List.append_cons, ← htake', ← hother, List.take_append_drop]
    exact parse_refused hitems hr ht
  have hblames := refuse_blames r ((Cursor.ofString source).after k)
  rw [Cursor.next_after hitem, ← Cursor.after_succ] at hblames
  exact ⟨r.refuse item, hparse source rfl, hblames, hparse⟩

/-- Where a semicolon is missing, a stray character behind the place changes nothing. -/
theorem parse_first_unviable_semicolon :
    ∃ e, parse "PROGRAM p BEGIN" = .error e ∧ e.Blames (.token (.keyword .beginBody) 1) 1 ∧
      parse "PROGRAM p BEGIN $" = .error e := by
  have hitems : (Cursor.ofString "PROGRAM p BEGIN").items =
      [.token (.keyword .program) 1, .token (.name "p") 1, .token (.keyword .beginBody) 1, .token .endOfInput 1] := by
    decide +kernel
  have hr : Reading.opening.readAll? [⟨.keyword .program, 1⟩, ⟨.name "p", 1⟩] = some (.titleEnd "p") := rfl
  have hviable : Viable [.token (.keyword .program) 1, .token (.name "p") 1] :=
    (viable_lexemes_iff (Reading.ne_endOfInput_of_readAll? hr)).2 (by rw [hr]; rfl)
  have hunviable : ¬Viable [.token (.keyword .program) 1, .token (.name "p") 1, .token (.keyword .beginBody) 1] := by
    refine fun h => absurd ((viable_concat_iff hr _).1 h) ?_
    simp [Reading.Takes, Reading.accept?]
  obtain ⟨e, he, hblames, hother⟩ := (parse_first_unviable "PROGRAM p BEGIN").2 2 (.token (.keyword .beginBody) 1)
    (by rw [hitems]; rfl) (by rw [hitems]; exact hviable) (by rw [hitems]; exact hunviable)
  have hline : ((Cursor.ofString "PROGRAM p BEGIN").after 3).line = 1 := by decide +kernel
  rw [hline] at hblames
  exact ⟨e, he, hblames, hother "PROGRAM p BEGIN $" (by decide +kernel)⟩

end Pascaline
