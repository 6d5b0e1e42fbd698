/-
  Pascaline.Proofs.Token.Splice — a text put in place of another, set off by blanks.

  A part of a text holds some tokens if pieces tile it, but for blanks at its end, and these
  are their tokens (`Holds`). The items from there on are those tokens, and then what stands
  behind (`Holds.items`). It is so wherever the part stands, and in front of any rest that
  starts like the one it was in front of, or with trivia; only the lines depend on what
  stands before (`Holds.items_at`).

  A text can be cut wherever its tokens can (`Parts.exists_of_items`). With one of its parts
  cut out and another one put in, with a blank on each side, it has the tokens of the three,
  one after the other (`Parts.items_splice`), and words that are put around a part leave all
  tokens on their lines (`Parts.items_enclose`).
-/

import Pascaline.Proofs.Token.Spelling

namespace Pascaline

/-- Behind what stands before and in front of the rest, the text has these tokens: pieces tile
    it up to blanks, which the rest may go on with. -/
def Holds (before text rest : List Char) (ls : List Lexeme) : Prop :=
  ∃ ps blanks, Tiles (text ++ rest) ps (blanks ++ rest) ∧ (∀ c ∈ blanks, c.isWhitespace) ∧
    (stops before ps).map Prod.fst = ls.map Lexeme.item

theorem Holds.nil (before rest : List Char) : Holds before [] rest [] := ⟨[], [], .nil rest, nofun, rfl⟩

theorem lineBehind_append (before text : List Char) :
    lineBehind (before ++ text) = lineBehind before + text.count '\n' := by
  simp [lineBehind, Nat.add_assoc]

/-- A piece that is a token is that token at every place, on the line of the place. -/
theorem Piece.item?_at {p : Piece} {before : List Char} {l : Lexeme} (h : p.item? before = some l.item)
    (before' : List Char) :
    p.item? before' = some (.token l.token (lineBehind before')) ∧ l.line = lineBehind before := by
  have hr : p.reading = some l.token := reading_of_item? (n := l.line) h
  unfold item? at h ⊢
  rw [hr] at h ⊢
  simp only at h ⊢
  split at h
  · cases h
  · rename_i htrivia
    rw [if_neg htrivia]
    exact ⟨rfl, (Item.token.inj (Option.some.inj h)).2.symm⟩

/-- Pieces that are tokens at one place are tokens at another one, and on the same lines if
    the two places are. -/
theorem Tiles.items_at {text rest : List Char} {ps : List Piece} (h : Tiles text ps rest) {before : List Char}
    {ls : List Lexeme} (hls : (stops before ps).map Prod.fst = ls.map Lexeme.item) (before' : List Char)
    {rest' : List Char} (hrest : ∀ d ∈ rest'.head?, d ∈ rest.head? ∨ d.isWhitespace ∨ d = '{')
    (hnil : rest = [] → rest' = []) :
    ∃ ls' : List Lexeme, ls'.map Lexeme.token = ls.map Lexeme.token ∧
      (lineBehind before' = lineBehind before → ls' = ls) ∧
      (Cursor.between before' (ps.flatMap Piece.text ++ rest')).items =
        ls'.map Lexeme.item ++ (Cursor.between (before' ++ ps.flatMap Piece.text) rest').items := by
  induction h generalizing before before' ls with
  | nil rest =>
    obtain rfl : ls = [] := List.map_eq_nil_iff.1 hls.symm
    exact ⟨[], rfl, fun _ => rfl, by simp⟩
  | @cons p ps rest hp h ih =>
    have hhead : ∀ d ∈ (ps.flatMap Piece.text ++ rest').head?, d ∈ p.rest.head? ∨ d.isWhitespace ∨ d = '{' := by
      intro d hd
      rw [h.flatMap_append]
      cases htext : ps.flatMap Piece.text with
      | nil =>
        rw [htext] at hd
        exact hrest d hd
      | cons x xs =>
        rw [htext] at hd
        exact Or.inl hd
    have hline : lineBehind before' = lineBehind before →
        lineBehind (before' ++ p.text) = lineBehind (before ++ p.text) := by
      intro heq
      rw [lineBehind_append, lineBehind_append, heq]
    simp only [List.flatMap_cons, List.append_assoc, stops] at hls ⊢
    cases hitem : p.item? before with
    | none =>
      simp only [hitem] at hls
      obtain ⟨ls', htokens, hsame, hitems⟩ := ih hls (before' ++ p.text) hrest hnil
      rw [List.append_assoc] at hitems
      refine ⟨ls', htokens, fun heq => hsame (hline heq), ?_⟩
      rw [← hitems]
      refine Cursor.items_congr ?_
      obtain ⟨t, hr, ht⟩ := hp.isTrivia_of_item? hitem
      rcases hp.skips_or_open hr ht with hskips | ⟨hopen, -⟩
      · exact hskips _ before'
      · -- an open comment is the last piece, and there is nothing behind it
        obtain ⟨rfl, rfl⟩ := h.eq_nil hopen
        obtain rfl := hnil rfl
        have hskips := Skips.of_piece hp hr ht before'
        rwa [hopen] at hskips
    | some item =>
      simp only [hitem, List.map_cons] at hls
      cases ls with | nil => cases hls | cons l ls => ?_
      obtain ⟨rfl, htail⟩ := List.cons.inj hls
      obtain ⟨hitem', hl⟩ := Piece.item?_at hitem before'
      have hne := ne_endOfInput_of_item? hp hitem'
      obtain ⟨ls', htokens, hsame, hitems⟩ := ih htail (before' ++ p.text) hrest hnil
      refine ⟨⟨l.token, lineBehind before'⟩ :: ls', by simp [htokens], fun heq => ?_, ?_⟩
      · rw [hsame (hline heq), heq, ← hl]
      · have hnext := hp.next_replace hitem' hhead
        have hlast : ¬(Item.token l.token (lineBehind before')).isLast := by simpa [Item.isLast] using hne
        rw [Cursor.items_eq_cons, hnext, if_neg hlast, hitems, List.append_assoc]
        rfl

/-- A call goes over a blank. -/
theorem Cursor.items_blank (before rest : List Char) :
    (between before (' ' :: rest)).items = (between (before ++ [' ']) rest).items :=
  items_congr (Skips.blank (show ' '.isWhitespace by decide) rest before)

theorem Cursor.items_nil (before : List Char) :
    (between before []).items = [.token .endOfInput (lineBehind before)] := by
  have hnext := next_of_nil (c := between before []) rfl
  rw [items_eq_cons, hnext]
  rfl

namespace Holds

variable {before text rest : List Char} {ls : List Lexeme}

/-- The tokens are the same at another place, in front of a rest that starts alike. -/
theorem items_at (h : Holds before text rest ls) (before' : List Char) {rest' : List Char}
    (hrest : ∀ d ∈ rest'.head?, d ∈ rest.head? ∨ d.isWhitespace ∨ d = '{') (hnil : rest = [] → rest' = []) :
    ∃ ls' : List Lexeme, ls'.map Lexeme.token = ls.map Lexeme.token ∧
      (lineBehind before' = lineBehind before → ls' = ls) ∧
      (Cursor.between before' (text ++ rest')).items =
        ls'.map Lexeme.item ++ (Cursor.between (before' ++ text) rest').items := by
  obtain ⟨ps, blanks, htiles, hblanks, hls⟩ := h
  have htext : text = ps.flatMap Piece.text ++ blanks := by
    have hflat := htiles.flatMap_append
    rw [← List.append_assoc] at hflat
    exact List.append_cancel_right hflat
  have hrest' : ∀ d ∈ (blanks ++ rest').head?, d ∈ (blanks ++ rest).head? ∨ d.isWhitespace ∨ d = '{' := by
    intro d hd
    cases blanks with
    | nil => exact hrest d hd
    | cons c cs => exact Or.inl hd
  have hnil' : blanks ++ rest = [] → blanks ++ rest' = [] := by
    intro h
    obtain ⟨rfl, hempty⟩ := List.append_eq_nil_iff.1 h
    exact hnil hempty
  obtain ⟨ls', htokens, hsame, hitems⟩ := htiles.items_at hls before' hrest' hnil'
  refine ⟨ls', htokens, hsame, ?_⟩
  have hskips := Skips.blanks (fun c hc => isWhitespace_iff.1 (hblanks c hc)) rest' (before' ++ ps.flatMap Piece.text)
  rw [htext, List.append_assoc, hitems, Cursor.items_congr hskips, List.append_assoc]

/-- The items are the tokens, and then what stands behind. -/
theorem items (h : Holds before text rest ls) : (Cursor.between before (text ++ rest)).items =
    ls.map Lexeme.item ++ (Cursor.between (before ++ text) rest).items := by
  obtain ⟨ls', -, hsame, hitems⟩ := h.items_at before (fun d hd => Or.inl hd) id
  rwa [hsame rfl] at hitems

/-- A blank behind the text changes neither its tokens nor their lines. -/
theorem items_blank (h : Holds before text rest ls) (hne : rest ≠ []) (tail : List Char) :
    (Cursor.between before (text ++ ' ' :: tail)).items =
      ls.map Lexeme.item ++ (Cursor.between (before ++ text ++ [' ']) tail).items := by
  obtain ⟨ls', -, hsame, hitems⟩ := h.items_at before (blank_follows rest tail) fun hnil => absurd hnil hne
  rw [hsame rfl] at hitems
  rw [hitems, Cursor.items_blank]

end Holds

/-- What a text up to its end consists of, it holds. -/
theorem holds_of_items {before text : List Char} {ls : List Lexeme} {n : Nat}
    (h : (Cursor.between before text).items = ls.map Lexeme.item ++ [.token .endOfInput n]) :
    Holds before text [] ls := by
  refine ⟨pieces text, [], ?_, nofun, (tiles_pieces text).map_stops h⟩
  simpa using tiles_pieces text

theorem Holds.text_ne_nil {before text rest : List Char} {ls : List Lexeme} (h : Holds before text rest ls)
    (hls : ls ≠ []) : text ≠ [] := by
  rintro rfl
  obtain ⟨ps, blanks, htiles, -, hitems⟩ := h
  have hpieces : ps.flatMap Piece.text = [] := by
    have hflat := congrArg List.length htiles.flatMap_append
    simp only [List.nil_append, List.length_append] at hflat
    exact List.eq_nil_of_length_eq_zero (by omega)
  cases ps with
  | nil => exact hls (List.map_eq_nil_iff.1 hitems.symm)
  | cons p ps =>
    have hp := (htiles.isLongest p List.mem_cons_self).text_ne_nil
    exact hp (List.append_eq_nil_iff.1 hpieces).1

/-- Where pieces can be cut, their text can. -/
theorem Tiles.split {text rest : List Char} {ps qs : List Piece} (h : Tiles text (ps ++ qs) rest) :
    Tiles text ps (qs.flatMap Piece.text ++ rest) ∧ Tiles (qs.flatMap Piece.text ++ rest) qs rest := by
  induction ps generalizing text with
  | nil =>
    rw [List.nil_append] at h
    rw [← h.flatMap_append]
    exact ⟨.nil text, h⟩
  | cons p ps ih =>
    cases h with | cons hp h =>
    obtain ⟨hps, hqs⟩ := ih h
    exact ⟨.cons hp hps, hqs⟩

/-- The first pieces of a text are a part of it. -/
theorem holds_of_pieces {before text rest : List Char} {ls : List Lexeme} {ps : List Piece} (k : Nat)
    (hps : (pieces (text ++ rest)).take k = ps) (htext : ps.flatMap Piece.text = text)
    (hls : (stops before ps).map Prod.fst = ls.map Lexeme.item) : Holds before text rest ls := by
  have h := tiles_pieces (text ++ rest)
  rw [← List.take_append_drop k (pieces (text ++ rest)), hps] at h
  have htiles := h.split.1
  have hrest : (((pieces (text ++ rest)).drop k).flatMap Piece.text ++ []) = rest := by
    have hflat := htiles.flatMap_append
    rw [htext] at hflat
    exact (List.append_cancel_left hflat).symm
  rw [hrest] at htiles
  exact ⟨ps, [], htiles, nofun, hls⟩

/-- Where the tokens can be cut, the pieces can. -/
theorem exists_cut {ps : List Piece} {before : List Char} {us : List Lexeme} {items : List Item}
    (h : (stops before ps).map Prod.fst = us.map Lexeme.item ++ items) :
    ∃ qs rs, ps = qs ++ rs ∧ (stops before qs).map Prod.fst = us.map Lexeme.item ∧
      (stops (before ++ qs.flatMap Piece.text) rs).map Prod.fst = items := by
  induction ps generalizing before us with
  | nil =>
    obtain ⟨hus, rfl⟩ := List.append_eq_nil_iff.1 h.symm
    exact ⟨[], [], rfl, hus.symm, rfl⟩
  | cons p ps ih =>
    cases us with
    | nil => exact ⟨[], p :: ps, rfl, rfl, by simpa using h⟩
    | cons u us =>
      cases hitem : p.item? before with
      | none =>
        simp only [stops, hitem] at h
        obtain ⟨qs, rs, rfl, hqs, hrs⟩ := ih h
        refine ⟨p :: qs, rs, rfl, ?_, ?_⟩
        · simpa only [stops, hitem] using hqs
        · simpa using hrs
      | some item =>
        simp only [stops, hitem, List.map_cons, List.cons_append, List.cons.injEq] at h
        obtain ⟨qs, rs, rfl, hqs, hrs⟩ := ih h.2
        refine ⟨p :: qs, rs, rfl, ?_, ?_⟩
        · simp only [stops, hitem, List.map_cons, hqs, h.1]
        · simpa using hrs

/-- The next token is the first of those that are left. -/
theorem Cursor.exists_cons_of_next {c : Cursor} {ls : List Lexeme} {t : Token} {m n : Nat}
    (h : c.items = ls.map Lexeme.item ++ [.token .endOfInput n]) (hnext : c.next.1 = .token t m)
    (ht : t ≠ .endOfInput) : ∃ ms, ls = ⟨t, m⟩ :: ms := by
  cases ls with
  | nil =>
    have hlast := (next_of_items h).symm.trans hnext
    exact absurd (Item.token.inj hlast).1.symm ht
  | cons l ls =>
    have hl := (next_of_items h).symm.trans hnext
    obtain ⟨rfl, rfl⟩ := Item.token.inj hl
    exact ⟨ls, rfl⟩

theorem Cursor.ne_nil_of_next {before rest : List Char} {t : Token} {n : Nat}
    (h : (between before rest).next.1 = .token t n) (ht : t ≠ .endOfInput) : rest ≠ [] := by
  rintro rfl
  rw [next_of_nil rfl] at h
  exact ht (Item.token.inj h).1.symm

theorem Cursor.ne_nil_of_items {before rest : List Char} {ls : List Lexeme} {item : Item}
    (h : (between before rest).items = ls.map Lexeme.item ++ [item]) (hls : ls ≠ []) : rest ≠ [] := by
  rintro rfl
  rw [items_nil] at h
  cases ls with
  | nil => exact hls rfl
  | cons l ls => simp at h

/-- A word in front of a blank is its token. -/
theorem Rule.holds {text : List Char} {t : Token} (h : Rule text t) (ht : ¬t.isTrivia) :
    Holds [] text [' '] [⟨t, 1⟩] := by
  have hreading : ∀ u, (⟨text, some t, []⟩ : Piece).reading = some u → ¬u.isTrivia := by
    intro u hu
    rwa [← Option.some.inj hu]
  have hlongest := h.isLongest.replace_rest hreading (blank_follows [] [])
  refine ⟨[⟨text, some t, [' ']⟩], [], .cons hlongest (.nil _), nofun, ?_⟩
  simp [stops, Piece.item?, ht, lineBehind, Lexeme.item]

/-! ## Texts in three parts -/

/-- A text in three parts, the first two with these tokens. -/
structure Parts (u m v : List Char) (us ms : List Lexeme) : Prop where
  head : Holds [] u (m ++ v) us
  middle : Holds u m v ms

namespace Parts

variable {u m v w : List Char} {us ms vs ws : List Lexeme} {n : Nat}

theorem items (h : Parts u m v us ms) {last : Item}
    (hv : (Cursor.between (u ++ m) v).items = vs.map Lexeme.item ++ [last]) :
    (Cursor.between [] (u ++ (m ++ v))).items = (us ++ (ms ++ vs)).map Lexeme.item ++ [last] := by
  rw [h.head.items, List.nil_append, h.middle.items, hv]
  simp

/-- A text has parts with any of its tokens. -/
theorem exists_of_items {text : List Char}
    (h : (Cursor.between [] text).items = (us ++ (ms ++ vs)).map Lexeme.item ++ [.token .endOfInput n]) :
    ∃ u m v, text = u ++ (m ++ v) ∧ Parts u m v us ms ∧
      ∃ n', (Cursor.between (u ++ m) v).items = vs.map Lexeme.item ++ [.token .endOfInput n'] := by
  have htiles := tiles_pieces text
  have hstops := htiles.map_stops h
  rw [List.map_append, List.map_append] at hstops
  obtain ⟨us', rest, hpieces, hus, hrest⟩ := exists_cut hstops
  obtain ⟨ms', vs', rfl, hms, hvs⟩ := exists_cut hrest
  rw [hpieces] at htiles
  obtain ⟨hu, hrest⟩ := htiles.split
  obtain ⟨hm, hv⟩ := hrest.split
  have htext := hu.flatMap_append
  simp only [List.nil_append, List.append_nil, List.flatMap_append] at hu hm hv htext hvs
  have hbehind : Holds (us'.flatMap Piece.text ++ ms'.flatMap Piece.text) (vs'.flatMap Piece.text) [] vs :=
    ⟨vs', [], by simpa using hv, nofun, hvs⟩
  refine ⟨us'.flatMap Piece.text, ms'.flatMap Piece.text, vs'.flatMap Piece.text, htext, ⟨?_, ?_⟩, ?_⟩
  · exact ⟨us', [], by simpa [htext] using hu, nofun, hus⟩
  · exact ⟨ms', [], hm, nofun, hms⟩
  · refine ⟨lineBehind (us'.flatMap Piece.text ++ ms'.flatMap Piece.text ++ vs'.flatMap Piece.text), ?_⟩
    have hitems := hbehind.items
    rwa [List.append_nil, Cursor.items_nil] at hitems

/-- What is put in place of the middle part, with a blank on each side, is read there as it is
    elsewhere in front of a blank, and the parts around it are read as before. -/
theorem items_splice (h : Parts u m v us ms) (hne : m ++ v ≠ [])
    (hv : (Cursor.between (u ++ m) v).items = vs.map Lexeme.item ++ [.token .endOfInput n]) (hw : Holds [] w [' '] ws) :
    ∃ (ws' vs' : List Lexeme) (n' : Nat), ws'.map Lexeme.token = ws.map Lexeme.token ∧
      vs'.map Lexeme.token = vs.map Lexeme.token ∧ (w.count '\n' = m.count '\n' → vs' = vs) ∧
      (Cursor.between [] (u ++ ' ' :: (w ++ ' ' :: v))).items =
        (us ++ (ws' ++ vs')).map Lexeme.item ++ [.token .endOfInput n'] := by
  obtain ⟨ws', hws, -, hw'⟩ := hw.items_at (u ++ [' ']) (blank_follows [' '] v) nofun
  obtain ⟨vs', hvs, hsame, hv'⟩ := (holds_of_items hv).items_at (u ++ [' '] ++ w ++ [' ']) (fun d hd => Or.inl hd) id
  refine ⟨ws', vs', lineBehind (u ++ [' '] ++ w ++ [' '] ++ v), hws, hvs, fun hcount => hsame ?_, ?_⟩
  · simp [lineBehind, hcount]
  · rw [List.append_nil, Cursor.items_nil] at hv'
    rw [h.head.items_blank hne, List.nil_append, hw', Cursor.items_blank, hv']
    simp

/-- Words around the middle part, with a blank on each side of each, change no line of the
    text if they have no line end. -/
theorem items_enclose {left right : List Char} {t t' : Token} (h : Parts u m v us ms) (hne : v ≠ [])
    (hv : (Cursor.between (u ++ m) v).items = vs.map Lexeme.item ++ [.token .endOfInput n])
    (hleft : Rule left t) (ht : ¬t.isTrivia) (hl : left.count '\n' = 0)
    (hright : Rule right t') (ht' : ¬t'.isTrivia) (hr : right.count '\n' = 0) :
    ∃ j k n' : Nat, (Cursor.between [] (u ++ ' ' :: (left ++ ' ' :: (m ++ ' ' :: (right ++ ' ' :: v))))).items =
      (us ++ ⟨t, j⟩ :: (ms ++ ⟨t', k⟩ :: vs)).map Lexeme.item ++ [.token .endOfInput n'] := by
  let behindLeft := u ++ [' '] ++ left ++ [' ']
  let behindRight := behindLeft ++ m ++ [' '] ++ right ++ [' ']
  have hne' : m ++ v ≠ [] := fun hnil => hne (List.append_eq_nil_iff.1 hnil).2
  have hblank := blank_follows v (right ++ ' ' :: v)
  obtain ⟨ms', -, hms, hm⟩ := h.middle.items_at behindLeft hblank fun hnil => absurd hnil hne
  obtain rfl : ms' = ms := hms (by simp [behindLeft, lineBehind, hl])
  obtain ⟨vs', -, hvs, hv'⟩ := (holds_of_items hv).items_at behindRight (fun d hd => Or.inl hd) id
  obtain rfl : vs' = vs := hvs (by simp [behindRight, behindLeft, lineBehind, hl, hr])
  rw [List.append_nil, Cursor.items_nil] at hv'
  refine ⟨lineBehind (u ++ [' ']), lineBehind (behindLeft ++ m ++ [' ']), lineBehind (behindRight ++ v), ?_⟩
  rw [h.head.items_blank hne', List.nil_append, hleft.items_blank ht, hm, Cursor.items_blank,
    hright.items_blank ht', hv']
  simp [Lexeme.item]

end Parts

end Pascaline
