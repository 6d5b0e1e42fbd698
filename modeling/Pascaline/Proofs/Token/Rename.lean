/-
  Pascaline.Proofs.Token.Rename — a text with other identifiers in it.

  The identifiers of a text are the pieces that are read as names. A text is renamed by
  putting another identifier in the place of each of them, and leaving all else as it is
  (`renamed`). No piece runs into the next one by that: where a name stood a name stands,
  and what could go on with a letter would have gone on with the first letter of the old
  name (`not_goesOn_letter`). So the pieces stay the longest matches (`rename_isLongest`),
  and the items are the same but for the names, on the same lines (`item_renamed`).
-/

import Pascaline.Proofs.Reading.Relabel
import Pascaline.Proofs.Token.Trivia

namespace Pascaline

/-! ## The names in a text -/

theorem IsIdentifier.newline_notMem {x : String} (h : IsIdentifier x) : '\n' ∉ x.toList := by
  obtain ⟨c, cs, hx, hc, hcs⟩ := h.word
  rw [hx]
  intro hmem
  rcases List.mem_cons.1 hmem with rfl | hmem
  · cases hc
  · exact absurd (hcs _ hmem) (by decide)

namespace Piece

/-- The name that the piece is read as. -/
def name? (p : Piece) : Option String :=
  match p.reading with
  | some (.name x) => some x
  | _ => none

theorem name?_eq_some_iff {p : Piece} {x : String} : p.name? = some x ↔ p.reading = some (.name x) := by
  unfold name?
  split
  · simp_all
  · rename_i h
    exact iff_of_false nofun (h x)

/-- The text of the piece, or that of the name in its place. -/
def renamed (r : String → String) (p : Piece) : List Char :=
  match p.name? with
  | some x => (r x).toList
  | none => p.text

end Piece

/-- The identifiers of a text, one for each place at which one stands. -/
def identifiers (source : String) : List String := (pieces source.toList).filterMap Piece.name?

/-- The text with another name in the place of each identifier. -/
def renamed (r : String → String) (source : String) : String :=
  String.ofList ((pieces source.toList).flatMap (Piece.renamed r))

/-- The item with its name replaced. A stray character stays what it is, on its line, behind
    more or fewer bytes. -/
inductive Item.Renamed (r : String → String) : Item → Item → Prop
  | token (t : Token) (n : Nat) : Item.Renamed r (.token t n) (.token (t.rename r) n)
  | stray (e : StrayCharacter) (position : Nat) : Item.Renamed r (.stray e) (.stray { e with position })

/-! ## Pieces that are renamed -/

section

variable {r : String → String} {p : Piece}

theorem Piece.renamed_of_name {x : String} (h : p.name? = some x) : p.renamed r = (r x).toList := by
  rw [renamed, h]

theorem Piece.renamed_of_none (h : p.name? = none) : p.renamed r = p.text := by
  rw [renamed, h]

theorem Piece.forall_mem_names {P : String → Prop} {ps : List Piece} :
    (∀ x ∈ (p :: ps).filterMap name?, P x) ↔ (∀ x ∈ p.name?, P x) ∧ ∀ x ∈ ps.filterMap name?, P x := by
  cases hx : p.name? <;> simp [hx]

theorem Piece.map_rename_of_none (h : p.name? = none) : p.reading.map (Token.rename r) = p.reading := by
  cases hr : p.reading with
  | none => rfl
  | some t =>
    cases t with
    | name x => exact absurd (name?_eq_some_iff.2 hr) (by simp [h])
    | _ => rfl

namespace Rule

theorem eq_name {text : List Char} {x : String} (h : Rule text (.name x)) : text = x.toList ∧ IsIdentifier x := by
  cases h with
  | name h => exact ⟨rfl, h⟩

/-- Only a word goes on with a letter. -/
theorem Starts.of_letter_mem {c d : Char} {cs ds : List Char} {u : Token} (h : Starts c (cs ++ d :: ds) u)
    (hc : c ≠ '{') (hd : d.isAlpha) : c.isAlpha ∧ ∀ x ∈ cs, x.isAlphanum := by
  have hmem : d ∈ cs ++ d :: ds := by simp
  have hdigit : ¬d.isDigit := fun h => not_letter_of_digit h hd
  generalize hall : cs ++ d :: ds = all at h hmem
  cases h with
  | blank hb h => exact absurd hd (not_blank (h d hmem)).2.2.1
  | integer hc h => exact absurd (h d hmem) hdigit
  | real hc has hes =>
    rcases List.mem_append.1 hmem with hmem | hmem
    · exact absurd (has d hmem) hdigit
    · rcases List.mem_cons.1 hmem with rfl | hmem
      · cases hd
      · exact absurd (hes d hmem) hdigit
  | word ha h => exact ⟨ha, fun x hx => h x (hall ▸ List.mem_append_left _ hx)⟩
  | symbol hs => cases hmem
  | assign =>
    obtain rfl := List.mem_singleton.1 hmem
    cases hd
  | _ => exact absurd rfl hc

end Rule

namespace Piece.IsLongest

/-- What stands in front of a letter goes on with no letter. -/
theorem not_goesOn_letter (hp : p.IsLongest) (ht : ∀ t, p.reading = some t → ¬t.isTrivia) {d e : Char}
    (hd : d.isAlpha) (he : e.isAlpha) (hrest : e ∈ p.rest.head?) : ¬p.GoesOn d := by
  intro h
  obtain ⟨c, cs, ds, u, htext, -, hbrace, hstarts⟩ := hp.starts_of_goesOn ht h
  obtain ⟨hc, hcs⟩ := hstarts.of_letter_mem hbrace hd
  have hword : ∀ x ∈ cs ++ [e], x.isAlphanum := by
    intro x hx
    rcases List.mem_append.1 hx with hx | hx
    · exact hcs x hx
    · obtain rfl := List.mem_singleton.1 hx
      simp [Char.isAlphanum, he]
  refine hp.not_rule_head hrest (word (c :: (cs ++ [e]))) ?_
  rw [htext]
  exact word_rule hc hword

/-- Behind a name stands neither a letter nor a digit. -/
theorem not_alphanum_of_name (hp : p.IsLongest) {x : String} (hx : p.name? = some x) {d : Char}
    (hd : d ∈ p.rest.head?) : ¬d.isAlphanum := by
  intro halnum
  obtain ⟨htext, hid⟩ := (hp.reading_iff.1 (name?_eq_some_iff.1 hx)).eq_name
  obtain ⟨c, cs, hcs, hc, halnums⟩ := hid.word
  refine hp.not_rule_head hd (word (c :: (cs ++ [d]))) ?_
  rw [htext, hcs]
  refine word_rule hc fun y hy => ?_
  rcases List.mem_append.1 hy with hy | hy
  · exact halnums y hy
  · obtain rfl := List.mem_singleton.1 hy
    exact halnum

end Piece.IsLongest

/-- An identifier in front of neither a letter nor a digit is the longest match. -/
theorem IsIdentifier.isLongest {x : String} (h : IsIdentifier x) {rest : List Char}
    (hrest : ∀ d ∈ rest.head?, ¬d.isAlphanum) : (⟨x.toList, some (.name x), rest⟩ : Piece).IsLongest := by
  obtain ⟨c, cs, hx, hc, hcs⟩ := h.word
  have hlongest := Piece.word_isLongest (cs ++ rest) hc
  rwa [takeWhile_run hcs hrest, dropWhile_run hcs hrest, ← hx, Piece.word_identifier h] at hlongest

/-- The renamed piece is the longest match in front of a rest that starts as the old one, or
    with a letter where that starts with one. -/
theorem Piece.IsLongest.rename (hp : p.IsLongest) (ht : ∀ t, p.reading = some t → ¬t.isTrivia)
    (hr : ∀ x ∈ p.name?, IsIdentifier (r x)) {rest : List Char}
    (hrest : ∀ d ∈ rest.head?, d ∈ p.rest.head? ∨ d.isAlpha ∧ ∃ e ∈ p.rest.head?, e.isAlpha) :
    (⟨p.renamed r, p.reading.map (Token.rename r), rest⟩ : Piece).IsLongest := by
  cases hx : p.name? with
  | some x =>
    rw [Piece.renamed_of_name hx, name?_eq_some_iff.1 hx]
    refine (hr x hx).isLongest fun d hd => ?_
    rcases hrest d hd with hhead | ⟨-, e, he, halpha⟩
    · exact hp.not_alphanum_of_name hx hhead
    · exact absurd (by simp [Char.isAlphanum, halpha]) (hp.not_alphanum_of_name hx he)
  | none =>
    rw [Piece.renamed_of_none hx, map_rename_of_none hx]
    refine hp.of_not_goesOn fun d hd => ?_
    rcases hrest d hd with hhead | ⟨hletter, e, he, halpha⟩
    · exact hp.not_goesOn_head ht hhead
    · exact hp.not_goesOn_letter ht hletter halpha he

end

/-! ## The items of the renamed text -/

section

variable {r : String → String} {text : List Char} {ps : List Piece}

/-- The renamed text starts as the old one, or both start with a letter. -/
theorem Tiles.head_renamed (h : Tiles text ps []) (hr : ∀ x ∈ ps.filterMap Piece.name?, IsIdentifier (r x)) :
    ∀ d ∈ (ps.flatMap (Piece.renamed r)).head?, d ∈ text.head? ∨ d.isAlpha ∧ ∃ e ∈ text.head?, e.isAlpha := by
  intro d hd
  cases h with
  | nil => cases hd
  | @cons p ps _ hp h =>
    rw [List.flatMap_cons] at hd
    cases hx : p.name? with
    | some x =>
      obtain ⟨htext, hid⟩ := (hp.reading_iff.1 (Piece.name?_eq_some_iff.1 hx)).eq_name
      obtain ⟨c, cs, hcs, hc, -⟩ := hid.word
      obtain ⟨e, es, hes, he, -⟩ := ((Piece.forall_mem_names.1 hr).1 x hx).word
      rw [Piece.renamed_of_name hx, hes] at hd
      obtain rfl := Option.some.inj hd
      exact Or.inr ⟨he, c, by rw [htext, hcs]; rfl, hc⟩
    | none =>
      obtain ⟨c, cs, hcs⟩ := List.exists_cons_of_ne_nil hp.text_ne_nil
      rw [Piece.renamed_of_none hx, hcs] at hd
      exact Or.inl (by rw [hcs]; exact hd)

theorem Piece.lineBehind_renamed {p : Piece} (hp : p.IsLongest) (hr : ∀ x ∈ p.name?, IsIdentifier (r x))
    {before before' : List Char} (hline : lineBehind before' = lineBehind before) :
    lineBehind (before' ++ p.renamed r) = lineBehind (before ++ p.text) := by
  have hcount : (p.renamed r).count '\n' = p.text.count '\n' := by
    cases hx : p.name? with
    | some x =>
      obtain ⟨htext, hid⟩ := (hp.reading_iff.1 (name?_eq_some_iff.1 hx)).eq_name
      rw [renamed_of_name hx, htext, List.count_eq_zero.2 hid.newline_notMem,
        List.count_eq_zero.2 (hr x hx).newline_notMem]
    | none => rw [renamed_of_none hx]
  simp only [lineBehind, List.count_append] at hline ⊢
  omega

/-- The item of a piece behind other text on the same line. -/
theorem Piece.item?_renamed {p : Piece} (hp : p.IsLongest) (rest : List Char) {before before' : List Char}
    (hline : lineBehind before' = lineBehind before) {item : Item} (h : p.item? before = some item) :
    ∃ item', (⟨p.renamed r, p.reading.map (Token.rename r), rest⟩ : Piece).item? before' = some item' ∧
      item.Renamed r item' := by
  unfold item? at h ⊢
  cases hread : p.reading with
  | some t =>
    have htrivia : (t.rename r).isTrivia = t.isTrivia := by cases t <;> rfl
    simp only [hread, Option.map_some, htrivia, hline] at h ⊢
    split at h
    · cases h
    · rename_i ht
      obtain rfl := Option.some.inj h
      exact ⟨_, if_neg ht, .token t _⟩
  | none =>
    obtain ⟨c, cs, hcs⟩ := List.exists_cons_of_ne_nil hp.text_ne_nil
    have hx : p.name? = none := by simp [name?, hread]
    simp only [hread, hcs, Option.map_none, renamed_of_none hx, List.head?_cons, Option.map_some, hline] at h ⊢
    obtain rfl := Option.some.inj h
    exact ⟨_, rfl, .stray _ _⟩

/-- A call in the renamed text returns the renamed item of the piece. -/
theorem Tiles.next_renamed_of_item {p : Piece} (hp : p.IsLongest) (h : Tiles p.rest ps [])
    (hr : ∀ x ∈ (p :: ps).filterMap Piece.name?, IsIdentifier (r x)) {before before' : List Char}
    (hline : lineBehind before' = lineBehind before) {item : Item} (hitem : p.item? before = some item) :
    ∃ item', item.Renamed r item' ∧
      (Cursor.between before' (p.renamed r ++ ps.flatMap (Piece.renamed r))).next =
        (item', Cursor.between (before' ++ p.renamed r) (ps.flatMap (Piece.renamed r))) := by
  obtain ⟨hrp, hrps⟩ := Piece.forall_mem_names.1 hr
  obtain ⟨item', hitem', hrenamed⟩ := p.item?_renamed (r := r) hp (ps.flatMap (Piece.renamed r)) hline hitem
  have hlongest := hp.rename (Piece.IsLongest.not_isTrivia_of_item? hitem) hrp (h.head_renamed hrps)
  have hnext := Cursor.next_between hlongest before'
  rw [hitem'] at hnext
  exact ⟨item', hrenamed, hnext⟩

/-- A call in the renamed text goes over trivia as before. -/
theorem Tiles.skips_renamed {p : Piece} (hp : p.IsLongest) (h : Tiles p.rest ps []) {before : List Char}
    (hitem : p.item? before = none) : p.name? = none ∧ Skips p.text (ps.flatMap (Piece.renamed r)) := by
  obtain ⟨t, hread, ht⟩ := hp.isTrivia_of_item? hitem
  constructor
  · cases hx : p.name? with
    | none => rfl
    | some x =>
      obtain rfl := Option.some.inj (hread.symm.trans (Piece.name?_eq_some_iff.1 hx))
      cases ht
  · rcases hp.skips_or_open hread ht with hskips | ⟨hnil, body, htext, hbody⟩
    · exact hskips _
    · -- nothing stands behind an open comment
      obtain ⟨rfl, -⟩ := h.eq_nil hnil
      rw [htext]
      exact .openComment hbody

/-- All items of a text are renamed with it, on the lines on which they were. -/
theorem Tiles.item_renamed (h : Tiles text ps []) (hr : ∀ x ∈ ps.filterMap Piece.name?, IsIdentifier (r x))
    {before before' : List Char} (hline : lineBehind before' = lineBehind before) (k : Nat) :
    ((Cursor.between before text).item k).Renamed r
      ((Cursor.between before' (ps.flatMap (Piece.renamed r))).item k) := by
  generalize hend : ([] : List Char) = rest at h
  induction h generalizing before before' k with
  | nil rest =>
    subst hend
    rw [List.flatMap_nil, Cursor.item_nil, Cursor.item_nil, hline]
    exact .token .endOfInput _
  | @cons p ps rest hp h ih =>
    subst hend
    obtain ⟨hrp, hrps⟩ := Piece.forall_mem_names.1 hr
    have ih := ih hrps (p.lineBehind_renamed hp hrp hline)
    have hnext := Cursor.next_between hp before
    rw [List.flatMap_cons]
    cases hitem : p.item? before with
    | some item =>
      obtain ⟨item', hrenamed, hnext'⟩ := h.next_renamed_of_item hp hr hline hitem
      rw [hitem] at hnext
      cases k with
      | zero =>
        rw [Cursor.item, Cursor.item, Cursor.after, Cursor.after, hnext, hnext']
        exact hrenamed
      | succ k =>
        rw [Cursor.item, Cursor.item, Cursor.after, Cursor.after, hnext, hnext']
        exact ih k rfl
    | none =>
      obtain ⟨hx, hskips⟩ := h.skips_renamed (r := r) hp hitem
      rw [hitem] at hnext
      have ih := ih k rfl
      rw [Piece.renamed_of_none hx] at ih ⊢
      rw [Cursor.item, Cursor.after_congr hnext, Cursor.item, Cursor.after_congr (hskips before')]
      exact ih

/-- What the cursor finds as a name stands in the text as one. -/
theorem Tiles.name_mem (h : Tiles text ps []) {before : List Char} {k : Nat} {x : String} {n : Nat}
    (hk : (Cursor.between before text).item k = .token (.name x) n) : x ∈ ps.filterMap Piece.name? := by
  rw [Cursor.item, h.next_after before k] at hk
  cases hs : (stops before ps)[k]? with
  | none =>
    rw [hs] at hk
    cases hk
  | some s =>
    obtain ⟨p, hp, before', hitem⟩ := exists_of_mem_stops (List.mem_of_getElem? hs)
    rw [hs] at hk
    rw [show s.1 = .token (.name x) n from hk] at hitem
    exact List.mem_filterMap.2 ⟨p, hp, Piece.name?_eq_some_iff.2 (Piece.reading_of_item? hitem)⟩

end

/-! ## Whole texts -/

section

variable {r : String → String} {source : String}

/-- All items of a text are renamed with it, each on its line. -/
theorem item_renamed (hr : ∀ x ∈ identifiers source, IsIdentifier (r x)) (k : Nat) :
    ((Cursor.ofString source).item k).Renamed r ((Cursor.ofString (renamed r source)).item k) := by
  rw [Cursor.ofString_eq_between, Cursor.ofString_eq_between, renamed, String.toList_ofList]
  exact (tiles_pieces source.toList).item_renamed hr rfl k

theorem mem_identifiers {k : Nat} {x : String} {n : Nat} (h : (Cursor.ofString source).item k = .token (.name x) n) :
    x ∈ identifiers source := by
  rw [Cursor.ofString_eq_between] at h
  exact (tiles_pieces source.toList).name_mem h

end

end Pascaline
