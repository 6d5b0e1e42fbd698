/-
  Pascaline.Proofs.Token.Tiling — a text is cut into longest matches, and its items are read
  off them.

  Pieces tile a part of a text if they stand one behind the other and each is the longest
  match at its place (`Tiles`). A whole text has one tiling (`exists_tiles`,
  `Tiles.unique`). One call of the cursor goes over trivia to the next piece that is a token
  or a stray character, and stops right behind it (`next_between`).

  No token and no stray character has a line feed in it (`IsLongest.newline_notMem`), so a
  cursor that counts line feeds in trivia has counted all of them (`Cursor.between_skip`).

  So the calls return what stands in the pieces, in order (`stops`), and the end of the input
  from then on (`Tiles.next_after`, `next_maximal_munch`). Up to the first stray character
  these are the items of the text (`Tiles.map_stops`).
-/

import Pascaline.Proofs.Token.Items
import Pascaline.Proofs.Token.Rules

namespace Pascaline

/-! ## Tilings -/

/-- The pieces stand one behind the other, from the head of the text up to the rest, and each
    is the longest match at its place. -/
inductive Tiles : List Char → List Piece → List Char → Prop
  | nil (rest : List Char) : Tiles rest [] rest
  | cons {p : Piece} {ps : List Piece} {rest : List Char} (hp : p.IsLongest) (h : Tiles p.rest ps rest) :
      Tiles (p.text ++ p.rest) (p :: ps) rest

namespace Piece.IsLongest

variable {p : Piece}

theorem text_ne_nil (h : p.IsLongest) : p.text ≠ [] := by
  unfold IsLongest at h
  split at h
  · obtain ⟨c, cs, htext, -⟩ := h.1.starts
    simp [htext]
  · exact List.ne_nil_of_length_eq_add_one h.1

/-- The reading is the token of the rule that matches exactly the text of the piece. -/
theorem reading_iff (h : p.IsLongest) {t : Token} : p.reading = some t ↔ Rule p.text t := by
  unfold IsLongest at h
  cases hr : p.reading with
  | none =>
    rw [hr] at h
    exact iff_of_false nofun fun ht => h.2 _ t ht (List.prefix_append _ _)
  | some u =>
    rw [hr] at h
    constructor
    · intro e
      obtain rfl := Option.some.inj e
      exact h.1
    · intro ht
      rw [h.1.unique ht]

theorem exists_eq_cut (h : p.IsLongest) : ∃ c cs, p.text ++ p.rest = c :: cs ∧ p = cut c cs := by
  obtain ⟨c, cs, htext⟩ := List.exists_cons_of_ne_nil h.text_ne_nil
  have hcs : p.text ++ p.rest = c :: (cs ++ p.rest) := by rw [htext, List.cons_append]
  exact ⟨c, cs ++ p.rest, hcs, h.eq_cut hcs⟩

end Piece.IsLongest

namespace Tiles

variable {text rest : List Char} {ps qs : List Piece}

/-- The pieces are adjacent, and nothing between them is lost. -/
theorem flatMap_append (h : Tiles text ps rest) : text = ps.flatMap Piece.text ++ rest := by
  induction h with
  | nil rest => rfl
  | cons hp h ih => rw [List.flatMap_cons, List.append_assoc, ← ih]

theorem eq_nil (h : Tiles text ps rest) (htext : text = []) : ps = [] ∧ rest = [] := by
  cases h with
  | nil => exact ⟨rfl, htext⟩
  | cons hp h => exact absurd (List.append_eq_nil_iff.1 htext).1 hp.text_ne_nil

theorem isLongest (h : Tiles text ps rest) : ∀ p ∈ ps, p.IsLongest := by
  induction h with
  | nil rest => exact nofun
  | cons hp h ih => exact List.forall_mem_cons.2 ⟨hp, ih⟩

theorem unique (h : Tiles text ps []) (h' : Tiles text qs []) : ps = qs := by
  induction ps generalizing text qs with
  | nil =>
    cases h
    exact (h'.eq_nil rfl).1.symm
  | cons p ps ih =>
    cases h with | cons hp h =>
    generalize htext : p.text ++ p.rest = text at h'
    cases h' with
    | nil => exact absurd (List.append_eq_nil_iff.1 htext).1 hp.text_ne_nil
    | cons hq h' =>
      obtain rfl := hp.eq hq htext
      rw [ih h h']

end Tiles

/-- The pieces that are cut off a text one after the other. -/
def pieces : List Char → List Piece
  | [] => []
  | c :: cs => Piece.cut c cs :: pieces (Piece.cut c cs).rest
termination_by text => text.length
decreasing_by exact Piece.rest_length_lt c cs

theorem tiles_pieces (text : List Char) : Tiles text (pieces text) [] := by
  fun_induction pieces text with
  | case1 => exact .nil []
  | case2 c cs ih =>
    have h := Tiles.cons (Piece.cut_isLongest c cs) ih
    rwa [Piece.text_append_rest] at h

theorem exists_tiles (text : List Char) : ∃ ps, Tiles text ps [] := ⟨pieces text, tiles_pieces text⟩

/-! ## Line feeds -/

namespace Piece

theorem newline_notMem_number {c : Char} (hc : c.isDigit) (cs : List Char) : '\n' ∉ (number c cs).text := by
  have hdigits : ∀ ds : List Char, '\n' ∉ ds.takeWhile Char.isDigit := by
    intro ds h
    have := List.mem_takeWhile_imp h
    simp [Char.isDigit] at this
  have hne : '\n' ≠ c := by rintro rfl; simp [Char.isDigit] at hc
  unfold number
  split <;> simp [hne, hdigits]

theorem newline_notMem_sign {c : Char} (hc : ¬c.isWhitespace) (cs : List Char) : '\n' ∉ (sign c cs).text := by
  have hne : '\n' ≠ c := by rintro rfl; exact hc rfl
  unfold sign
  split <;> simp [hne]

theorem newline_notMem_cut {c : Char} {cs : List Char} {t : Token} (h : (cut c cs).reading = some t)
    (ht : ¬t.isTrivia) : '\n' ∉ (cut c cs).text := by
  unfold cut at h ⊢
  split at h
  · obtain rfl := Option.some.inj h
    exact absurd rfl ht
  rename_i hblank
  rw [if_neg hblank]
  split at h
  · have hcomment : (comment cs).reading = some .comment := by unfold comment; split <;> rfl
    rw [hcomment] at h
    obtain rfl := Option.some.inj h
    exact absurd rfl ht
  rename_i hbrace
  rw [if_neg hbrace]
  split at h
  · rename_i hdigit
    rw [if_pos hdigit]
    exact newline_notMem_number hdigit cs
  rename_i hdigit
  rw [if_neg hdigit]
  split at h
  · rename_i halpha
    rw [if_pos halpha]
    simp only [List.mem_cons, not_or]
    refine ⟨by rintro rfl; exact absurd halpha (by decide), fun hmem => ?_⟩
    exact absurd (List.mem_takeWhile_imp hmem) (by decide)
  · rename_i halpha
    rw [if_neg halpha]
    exact newline_notMem_sign hblank cs

/-- Only trivia has line feeds in it. -/
theorem IsLongest.newline_notMem {p : Piece} (hp : p.IsLongest) (ht : ∀ t, p.reading = some t → ¬t.isTrivia) :
    '\n' ∉ p.text := by
  obtain ⟨c, cs, hcs, hcut⟩ := hp.exists_eq_cut
  cases hr : p.reading with
  | some t =>
    rw [hcut] at hr ⊢
    exact newline_notMem_cut hr (ht t (hcut ▸ hr))
  | none =>
    unfold IsLongest at hp
    rw [hr] at hp
    obtain ⟨d, hd⟩ := List.length_eq_one_iff.1 hp.1
    intro hmem
    obtain rfl : '\n' = d := by simpa [hd] using hmem
    have hblank : Rule ['\n'] .blank := .blank (List.cons_ne_nil _ _) (by simp)
    exact hp.2 _ _ hblank (hd ▸ List.prefix_append _ _)

end Piece

/-! ## Places between pieces -/

/-- The line of what stands behind the text. -/
def lineBehind (before : List Char) : Nat := 1 + before.count '\n'

/-- The cursor between two parts of a text. -/
def Cursor.between (before rest : List Char) : Cursor :=
  ⟨rest, (String.ofList before).utf8ByteSize, lineBehind before⟩

theorem Cursor.ofString_eq_between (s : String) : Cursor.ofString s = .between [] s.toList := rfl

/-- Behind a piece the line is right, though line feeds are counted in trivia only. -/
theorem Cursor.between_skip {p : Piece} (hp : p.IsLongest) (before rest : List Char) :
    (between before rest).skip p = between (before ++ p.text) p.rest := by
  have hline : (if p.reading.any Token.isTrivia then lineBehind before + p.text.count '\n' else lineBehind before) =
      lineBehind (before ++ p.text) := by
    rw [lineBehind, lineBehind, List.count_append, ← Nat.add_assoc]
    split
    · rfl
    · rename_i ht
      have hmem := hp.newline_notMem fun t ht' => by simpa [ht'] using ht
      rw [List.count_eq_zero.2 hmem]
      rfl
  simp only [between, skip, hline, String.ofList_append, String.utf8ByteSize_append]

/-- The item that a piece is, standing behind a text; trivia is none. -/
def Piece.item? (before : List Char) (p : Piece) : Option Item :=
  match p.reading with
  | some t => if t.isTrivia then none else some (.token t (lineBehind before))
  | none => p.text.head?.map fun c => .stray ⟨c, (String.ofList before).utf8ByteSize, lineBehind before⟩

/-- The items of pieces that stand behind a text, each with the cursor behind its piece. -/
def stops (before : List Char) : List Piece → List (Item × Cursor)
  | [] => []
  | p :: ps =>
    match p.item? before with
    | some item => (item, .between (before ++ p.text) p.rest) :: stops (before ++ p.text) ps
    | none => stops (before ++ p.text) ps

namespace Cursor

theorem next_of_nil {c : Cursor} (h : c.rest = []) : c.next = (.token .endOfInput c.line, c) := by
  rw [next]
  split
  · rfl
  · rename_i hcons
    rw [h] at hcons
    cases hcons

theorem next_of_cons {c : Cursor} {x : Char} {xs : List Char} (h : c.rest = x :: xs) :
    c.next = match (Piece.cut x xs).reading with
      | none => (.stray ⟨x, c.position, c.line⟩, c.skip (Piece.cut x xs))
      | some t =>
        if t.isTrivia then (c.skip (Piece.cut x xs)).next else (.token t c.line, c.skip (Piece.cut x xs)) := by
  rw [next]
  split
  · rename_i hnil
    rw [h] at hnil
    cases hnil
  · rename_i y ys hcons
    obtain ⟨rfl, rfl⟩ := List.cons.inj (h.symm.trans hcons)
    split
    · rename_i hnone
      simp only [hnone]
    · rename_i t hsome
      simp only [hsome]

/-- A call returns the item of the piece at its place, or goes on behind trivia. -/
theorem next_between {p : Piece} (hp : p.IsLongest) (before : List Char) :
    (between before (p.text ++ p.rest)).next =
      match p.item? before with
      | some item => (item, between (before ++ p.text) p.rest)
      | none => (between (before ++ p.text) p.rest).next := by
  obtain ⟨c, cs, hcs, hcut⟩ := hp.exists_eq_cut
  rw [next_of_cons (show (between before (p.text ++ p.rest)).rest = c :: cs from hcs), ← hcut, between_skip hp,
    Piece.item?]
  cases hr : p.reading with
  | none =>
    obtain ⟨d, ds, htext⟩ := List.exists_cons_of_ne_nil hp.text_ne_nil
    rw [htext] at hcs ⊢
    obtain rfl := (List.cons.inj hcs).1
    rfl
  | some t => cases ht : t.isTrivia <;> simp [ht, between]

theorem after_congr {c d : Cursor} (h : c.next = d.next) (k : Nat) : (c.after k).next = (d.after k).next := by
  cases k with
  | zero => exact h
  | succ k => rw [after, after, h]

theorem after_of_nil {c : Cursor} (h : c.rest = []) (k : Nat) : c.after k = c := by
  induction k with
  | zero => rfl
  | succ k ih => rw [after, next_of_nil h, ih]

/-- Behind the text there is nothing but its end. -/
theorem item_nil (before : List Char) (k : Nat) :
    (between before []).item k = .token .endOfInput (lineBehind before) := by
  have hnil : (between before []).rest = [] := rfl
  rw [item, after_of_nil hnil, next_of_nil hnil]
  rfl

end Cursor

/-- The calls of a cursor return the items of the pieces in front of it one after the other,
    and then the end of the input. -/
theorem Tiles.next_after {text : List Char} {ps : List Piece} (h : Tiles text ps []) (before : List Char) (k : Nat) :
    ((Cursor.between before text).after k).next =
      (stops before ps)[k]?.getD
        (.token .endOfInput (lineBehind (before ++ text)), .between (before ++ text) []) := by
  generalize hend : ([] : List Char) = rest at h
  induction h generalizing before k with
  | nil rest =>
    subst hend
    have hnil : (Cursor.between before []).rest = [] := rfl
    simp only [Cursor.after_of_nil hnil, Cursor.next_of_nil hnil, stops, List.append_nil, List.getElem?_nil,
      Option.getD_none]
    rfl
  | @cons p ps rest hp h ih =>
    subst hend
    have hnext := Cursor.next_between hp before
    have ih := ih (before ++ p.text)
    rw [List.append_assoc] at ih
    simp only [stops]
    cases hitem : p.item? before with
    | none =>
      rw [hitem] at hnext
      rw [Cursor.after_congr hnext k]
      exact ih k rfl
    | some item =>
      rw [hitem] at hnext
      cases k with
      | zero => exact hnext
      | succ k =>
        rw [Cursor.after, hnext]
        exact ih k rfl

/-! ## The items of a text -/

theorem Piece.reading_of_item? {p : Piece} {before : List Char} {t : Token} {n : Nat}
    (h : p.item? before = some (.token t n)) : p.reading = some t := by
  unfold Piece.item? at h
  cases hr : p.reading with
  | none =>
    rw [hr] at h
    obtain ⟨c, -, hc⟩ := Option.map_eq_some_iff.1 h
    cases hc
  | some u =>
    rw [hr] at h
    simp only at h
    split at h
    · cases h
    · obtain ⟨rfl, -⟩ := Item.token.inj (Option.some.inj h)
      rfl

theorem ne_endOfInput_of_item? {p : Piece} (hp : p.IsLongest) {before : List Char} {t : Token} {n : Nat}
    (h : p.item? before = some (.token t n)) : t ≠ .endOfInput :=
  (hp.reading_iff.1 (Piece.reading_of_item? h)).ne_endOfInput

/-- What is found is the item of one of the pieces. -/
theorem exists_of_mem_stops {before : List Char} {ps : List Piece} {s : Item × Cursor} (hs : s ∈ stops before ps) :
    ∃ p ∈ ps, ∃ before', p.item? before' = some s.1 := by
  induction ps generalizing before with
  | nil => cases hs
  | cons p ps ih =>
    have hrest : s ∈ stops (before ++ p.text) ps → ∃ q ∈ p :: ps, ∃ before', q.item? before' = some s.1 := by
      intro hs
      obtain ⟨q, hq, hitem⟩ := ih hs
      exact ⟨q, List.mem_cons_of_mem p hq, hitem⟩
    simp only [stops] at hs
    split at hs
    · rename_i item hitem
      rcases List.mem_cons.1 hs with rfl | hs
      · exact ⟨p, List.mem_cons_self, before, hitem⟩
      · exact hrest hs
    · exact hrest hs

theorem ne_endOfInput_of_stops {before : List Char} {ps : List Piece} (hps : ∀ p ∈ ps, p.IsLongest)
    {s : Item × Cursor} (hs : s ∈ stops before ps) (n : Nat) : s.1 ≠ .token .endOfInput n := by
  obtain ⟨p, hp, before', hitem⟩ := exists_of_mem_stops hs
  intro he
  exact ne_endOfInput_of_item? (hps p hp) (hitem.trans (congrArg some he)) rfl

/-- The end of the input is returned behind all items, and never before. -/
theorem Tiles.next_after_eq_endOfInput_iff {text : List Char} {ps : List Piece} (h : Tiles text ps [])
    (before : List Char) (k : Nat) :
    (∃ n, ((Cursor.between before text).after k).next.1 = .token .endOfInput n) ↔ (stops before ps).length ≤ k := by
  rw [h.next_after before k]
  constructor
  · rintro ⟨n, hn⟩
    by_contra hk
    rw [List.getElem?_eq_getElem (Nat.lt_of_not_le hk)] at hn
    exact ne_endOfInput_of_stops h.isLongest (List.getElem_mem _) n hn
  · intro hk
    rw [List.getElem?_eq_none hk]
    exact ⟨_, rfl⟩

theorem Cursor.items_congr {c d : Cursor} (h : c.next = d.next) : c.items = d.items := by
  rw [items_eq_cons c, items_eq_cons d, h]

/-- The items of a text without stray characters are those of its pieces. -/
theorem Tiles.map_stops {text : List Char} {ps : List Piece} (h : Tiles text ps []) {before : List Char}
    {ls : List Lexeme} {n : Nat}
    (hls : (Cursor.between before text).items = ls.map Lexeme.item ++ [Item.token .endOfInput n]) :
    (stops before ps).map Prod.fst = ls.map Lexeme.item := by
  generalize hend : ([] : List Char) = rest at h
  induction h generalizing before ls with
  | nil rest =>
    subst hend
    have hnext := Cursor.next_of_nil (c := Cursor.between before []) rfl
    rw [Cursor.items_eq_cons, hnext] at hls
    cases ls with
    | nil => rfl
    | cons l ls => simp [Item.isLast] at hls
  | @cons p ps rest hp h ih =>
    subst hend
    have hnext := Cursor.next_between hp before
    simp only [stops]
    cases hitem : p.item? before with
    | none =>
      rw [hitem] at hnext
      exact ih (by rw [← Cursor.items_congr hnext, hls]) rfl
    | some item =>
      rw [hitem] at hnext
      cases ls with
      | nil =>
        have heq := Cursor.next_of_items hls
        rw [hnext] at heq
        exact absurd rfl (ne_endOfInput_of_item? hp (hitem.trans (congrArg some heq)))
      | cons l ls =>
        have heq := Cursor.next_of_items hls
        have hrest := Cursor.items_next hls (Cursor.not_isLast_of_items hls (by simp))
        rw [hnext] at heq hrest
        simp only at heq
        rw [List.map_cons, List.map_cons, ih hrest rfl, heq]

/-- A text is cut into longest matches, and its items are read off them.

    There is one way to tile the text with pieces each of which is the longest match at its
    place, and nothing of the text is left out; the token of a piece is that of the rule that
    matches exactly its text. The calls return, in order, the tokens and the characters at
    which no rule matches, each call stopping right behind the piece that it returns. Behind
    the last one they return the end of the input, with all of the text consumed, and never
    before. -/
theorem next_maximal_munch (source : String) :
    ∃ ps, (∀ qs, Tiles source.toList qs [] ↔ qs = ps) ∧ ps.flatMap Piece.text = source.toList ∧
      (∀ p ∈ ps, ∀ t, p.reading = some t ↔ Rule p.text t) ∧
      (∀ k, ((Cursor.ofString source).after k).next =
        (stops [] ps)[k]?.getD (.token .endOfInput (lineBehind source.toList), .between source.toList [])) ∧
      ∀ k, (∃ n, ((Cursor.ofString source).after k).next.1 = .token .endOfInput n) ↔ (stops [] ps).length ≤ k := by
  obtain ⟨ps, hps⟩ := exists_tiles source.toList
  refine ⟨ps, fun qs => ⟨fun hqs => hqs.unique hps, fun h => h ▸ hps⟩, ?_, ?_, ?_, ?_⟩
  · simpa using hps.flatMap_append.symm
  · exact fun p hp t => (hps.isLongest p hp).reading_iff
  · intro k
    exact hps.next_after [] k
  · exact hps.next_after_eq_endOfInput_iff []

end Pascaline
