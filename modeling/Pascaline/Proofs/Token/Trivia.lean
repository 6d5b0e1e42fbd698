/-
  Pascaline.Proofs.Token.Trivia — blanks and comments between the items of a text.

  A call of the cursor goes over blanks and over a whole comment, whatever stands behind
  them (`IsTrivia.skips`). Whatever is neither ends where it did if trivia is put behind it,
  because no token goes on with a blank or a brace (`IsLongest.replace_rest`).

  So trivia put in between two pieces of a text changes nothing in front of it, and what
  stands behind it moves by the bytes and the lines of the trivia (`next_insert`).
-/

import Pascaline.Proofs.Token.Tiling

namespace Pascaline

/-- A run of blanks, perhaps none, or a comment up to its closing brace. -/
inductive IsTrivia : List Char → Prop
  | blanks {text : List Char} (h : ∀ c ∈ text, c ∈ [' ', '\t', '\r', '\n']) : IsTrivia text
  | comment {body : List Char} (h : '}' ∉ body) : IsTrivia ('{' :: (body ++ ['}']))

theorem IsTrivia.head {text : List Char} (h : IsTrivia text) : ∀ c ∈ text.head?, c.isWhitespace ∨ c = '{' := by
  intro c hc
  cases h with
  | blanks h => exact Or.inl (isWhitespace_iff.2 (h c (List.mem_of_mem_head? hc)))
  | comment h => exact Or.inr (Option.some.inj hc).symm

/-! ## Calls go over trivia -/

/-- A call in front of the text finds what a call behind it finds. -/
def Skips (text rest : List Char) : Prop :=
  ∀ before, (Cursor.between before (text ++ rest)).next = (Cursor.between (before ++ text) rest).next

namespace Skips

theorem nil (rest : List Char) : Skips [] rest := by
  intro before
  rw [List.append_nil, List.nil_append]

theorem append {a b rest : List Char} (ha : Skips a (b ++ rest)) (hb : Skips b rest) : Skips (a ++ b) rest := by
  intro before
  rw [List.append_assoc, ha before, hb (before ++ a), List.append_assoc]

/-- A call goes over a piece that is trivia. -/
theorem of_piece {p : Piece} (hp : p.IsLongest) {t : Token} (hr : p.reading = some t) (ht : t.isTrivia) :
    Skips p.text p.rest := by
  intro before
  rw [Cursor.next_between hp before, Piece.item?, hr]
  simp [ht]

theorem blank {c : Char} (hc : c.isWhitespace) (rest : List Char) : Skips [c] rest := by
  intro before
  have hrun := of_piece (Piece.blank_isLongest rest hc) rfl rfl before
  simp only [List.cons_append, List.takeWhile_append_dropWhile] at hrun
  rw [List.cons_append, List.nil_append, hrun]
  cases rest with
  | nil => rfl
  | cons d rest =>
    by_cases hd : d.isWhitespace
    · -- the call behind `c` goes over the rest of the same run
      have hrun' := of_piece (Piece.blank_isLongest rest hd) rfl rfl (before ++ [c])
      simp only [List.cons_append, List.takeWhile_append_dropWhile] at hrun'
      rw [hrun', List.takeWhile_cons_of_pos hd, List.dropWhile_cons_of_pos hd, List.append_assoc]
      rfl
    · rw [List.takeWhile_cons_of_neg hd, List.dropWhile_cons_of_neg hd]

theorem blanks {text : List Char} (h : ∀ c ∈ text, c ∈ [' ', '\t', '\r', '\n']) (rest : List Char) :
    Skips text rest := by
  induction text with
  | nil => exact .nil rest
  | cons c text ih =>
    obtain ⟨hc, htext⟩ := List.forall_mem_cons.1 h
    exact append (blank (isWhitespace_iff.2 hc) _) (ih htext)

theorem comment {body : List Char} (h : '}' ∉ body) (rest : List Char) : Skips ('{' :: (body ++ ['}'])) rest := by
  have hbody := forall_bne h
  have hbrace : ∀ x ∈ ('}' :: rest).head?, ¬(x != '}') := by simp
  have hclosed : Piece.comment (body ++ '}' :: rest) = ⟨'{' :: (body ++ ['}']), some .comment, rest⟩ := by
    simp only [Piece.comment, takeWhile_run hbody hbrace, dropWhile_run hbody hbrace]
    rfl
  have hlongest := Piece.comment_isLongest (body ++ '}' :: rest)
  rw [hclosed] at hlongest
  exact of_piece hlongest rfl rfl

/-- A comment that is not closed is all that is left of the text. -/
theorem openComment {body : List Char} (h : '}' ∉ body) : Skips ('{' :: body) [] := by
  have hbody := forall_bne h
  have hopen : Piece.comment body = ⟨'{' :: body, some .comment, []⟩ := by
    simp only [Piece.comment, List.takeWhile_eq_self_iff.2 hbody, List.dropWhile_eq_nil_iff.2 hbody]
  have hlongest := Piece.comment_isLongest body
  rw [hopen] at hlongest
  exact of_piece hlongest rfl rfl

end Skips

theorem IsTrivia.skips {text : List Char} (h : IsTrivia text) (rest : List Char) : Skips text rest := by
  cases h with
  | blanks h => exact .blanks h rest
  | comment h => exact .comment h rest

/-- A comment that is not closed takes in what is put behind it, as far as to the brace at
    the end of another comment. -/
theorem IsTrivia.skips_openComment {text body : List Char} (h : IsTrivia text) (hbody : '}' ∉ body) :
    Skips ('{' :: (body ++ text)) [] := by
  cases h with
  | blanks h =>
    refine .openComment fun hmem => ?_
    rcases List.mem_append.1 hmem with hmem | hmem
    · exact hbody hmem
    · simpa using h _ hmem
  | @comment inner h =>
    have hinner : '}' ∉ body ++ '{' :: inner := by simp [hbody, h]
    simpa using Skips.comment hinner []

/-! ## Tokens end in front of trivia -/

namespace Rule.Starts

variable {c d : Char} {cs ds : List Char} {u : Token}

/-- If a rule goes on with a character, a rule goes on up to it. -/
theorem shorten (h : Starts c (cs ++ d :: ds) u) (hc : c ≠ '{') : ∃ t, Rule (c :: (cs ++ [d])) t := by
  have hpre : cs ++ [d] <+: cs ++ d :: ds := ⟨ds, by simp⟩
  generalize hall : cs ++ d :: ds = all at h hpre
  cases h with
  | blank hb h =>
    refine ⟨_, .blank (List.cons_ne_nil _ _) (List.forall_mem_cons.2 ⟨isWhitespace_iff.1 hb, fun x hx => ?_⟩)⟩
    exact isWhitespace_iff.1 (h x (hpre.subset hx))
  | integer hd h =>
    exact ⟨_, Piece.integer_rule (List.cons_ne_nil _ _) (List.forall_mem_cons.2 ⟨hd, fun x hx => h x (hpre.subset hx)⟩)⟩
  | @real _ as es hd has hes =>
    rcases List.append_eq_append_iff.1 hall with ⟨more, rfl, hmore⟩ | ⟨more, rfl, hmore⟩
    · -- the character is among the digits in front of the point, or is the point
      cases more with
      | nil =>
        obtain ⟨rfl, -⟩ := List.cons.inj hmore
        rw [List.append_nil] at has
        exact ⟨_, Piece.real_rule (List.cons_ne_nil _ _) (List.forall_mem_cons.2 ⟨hd, has⟩) nofun⟩
      | cons e more =>
        obtain ⟨rfl, -⟩ := List.cons.inj hmore
        have hdigits : ∀ x ∈ cs ++ [d], x.isDigit := fun x hx => has x (by grind)
        exact ⟨_, Piece.integer_rule (List.cons_ne_nil _ _) (List.forall_mem_cons.2 ⟨hd, hdigits⟩)⟩
    · cases more with
      | nil =>
        obtain ⟨rfl, -⟩ := List.cons.inj hmore
        rw [List.append_nil]
        exact ⟨_, Piece.real_rule (List.cons_ne_nil _ _) (List.forall_mem_cons.2 ⟨hd, has⟩) nofun⟩
      | cons e more =>
        obtain ⟨rfl, rfl⟩ := List.cons.inj hmore
        have hdigits : ∀ x ∈ more ++ [d], x.isDigit := fun x hx => hes x (by grind)
        have hrule := Piece.real_rule (List.cons_ne_nil c as) (List.forall_mem_cons.2 ⟨hd, has⟩) hdigits
        exact ⟨_, by simpa using hrule⟩
  | word ha h => exact ⟨_, Piece.word_rule ha fun x hx => h x (hpre.subset hx)⟩
  | symbol hs => simp at hall
  | assign =>
    obtain ⟨rfl, hd⟩ : cs = [] ∧ d :: ds = ['='] := by
      cases cs with
      | nil => exact ⟨rfl, hall⟩
      | cons x cs => simp at hall
    obtain ⟨rfl, -⟩ := List.cons.inj hd
    exact ⟨_, .symbol .assign⟩
  | _ => exact absurd rfl hc

/-- No rule but those of trivia goes on with a blank or a brace. -/
theorem not_trivia (h : Starts c (cs ++ d :: ds) u) (hb : ¬c.isWhitespace) (hc : c ≠ '{') :
    ¬(d.isWhitespace ∨ d = '{') := by
  have hmem : d ∈ cs ++ d :: ds := by simp
  have hdigit : d.isDigit → ¬(d.isWhitespace ∨ d = '{') := by
    rintro hd (h | rfl)
    · exact (not_blank h).2.1 hd
    · cases hd
  generalize cs ++ d :: ds = all at h hmem
  cases h with
  | blank hb' h => exact absurd hb' hb
  | integer hd h => exact hdigit (h d hmem)
  | real hd has hes =>
    rcases List.mem_append.1 hmem with hmem | hmem
    · exact hdigit (has d hmem)
    · rcases List.mem_cons.1 hmem with rfl | hmem
      · decide
      · exact hdigit (hes d hmem)
  | word ha h =>
    have hd := h d hmem
    rintro (hw | rfl)
    · simp [Char.isAlphanum, (not_blank hw).2.1, (not_blank hw).2.2.1] at hd
    · cases hd
  | symbol hs => cases hmem
  | assign =>
    obtain rfl := List.mem_singleton.1 hmem
    decide
  | _ => exact absurd rfl hc

end Rule.Starts

/-- A rule goes on from the piece with the character, whatever else stands behind it. -/
def Piece.GoesOn (p : Piece) (d : Char) : Prop := ∃ ds u, Rule (p.text ++ d :: ds) u

namespace Piece.IsLongest

variable {p : Piece}

/-- No rule matches more than the piece. -/
theorem length_le (hp : p.IsLongest) {text : List Char} {u : Token} (hu : Rule text u)
    (h : text <+: p.text ++ p.rest) : text.length ≤ p.text.length := by
  unfold IsLongest at hp
  split at hp
  · exact hp.2 text u hu h
  · exact absurd h (hp.2 text u hu)

/-- What is no trivia starts neither with a blank nor with a brace. -/
theorem starts_of_not_trivia (hp : p.IsLongest) (ht : ∀ t, p.reading = some t → ¬t.isTrivia) :
    ∃ c cs, p.text = c :: cs ∧ ¬c.isWhitespace ∧ c ≠ '{' := by
  obtain ⟨c, cs, htext⟩ := List.exists_cons_of_ne_nil hp.text_ne_nil
  have hprefix : [c] <+: p.text ++ p.rest := ⟨cs ++ p.rest, by simp [htext]⟩
  have htrivia : ∀ u, Rule [c] u → u.isTrivia → ∃ t, p.reading = some t ∧ Rule.Starts c cs t := by
    intro u hu hut
    unfold IsLongest at hp
    cases hr : p.reading with
    | none =>
      rw [hr] at hp
      exact absurd hprefix (hp.2 _ u hu)
    | some t =>
      rw [hr] at hp
      obtain ⟨_, _, heq, hstarts⟩ := hp.1.starts
      obtain ⟨rfl, rfl⟩ := List.cons.inj (htext.symm.trans heq)
      exact ⟨t, rfl, hstarts⟩
  refine ⟨c, cs, htext, fun hc => ?_, ?_⟩
  · obtain ⟨t, hr, hstarts⟩ := htrivia .blank (.blank (List.cons_ne_nil _ _)
      (List.forall_mem_singleton.2 (isWhitespace_iff.1 hc))) rfl
    obtain ⟨rfl, -⟩ := hstarts.of_blank hc
    exact ht _ hr rfl
  · rintro rfl
    obtain ⟨t, hr, hstarts⟩ := htrivia .comment (.openComment List.not_mem_nil) rfl
    obtain ⟨rfl, -⟩ := hstarts.of_brace
    exact ht _ hr rfl

/-- What does not go on with the first character of another rest is the longest match in
    front of that rest too. -/
theorem of_not_goesOn (hp : p.IsLongest) {rest : List Char} (hrest : ∀ d ∈ rest.head?, ¬p.GoesOn d) :
    (⟨p.text, p.reading, rest⟩ : Piece).IsLongest := by
  have hle : ∀ text u, Rule text u → text <+: p.text ++ rest → text.length ≤ p.text.length := by
    intro text u hu hpre
    by_contra hlt
    obtain ⟨more, rfl⟩ := List.prefix_of_prefix_length_le (List.prefix_append p.text rest) hpre (by omega)
    obtain ⟨d, ds, rfl⟩ := List.exists_cons_of_ne_nil (l := more) (by rintro rfl; simp at hlt)
    obtain ⟨rest', rfl⟩ := (List.prefix_append_right_inj _).1 hpre
    exact hrest d rfl ⟨ds, u, hu⟩
  unfold IsLongest at hp ⊢
  cases hr : p.reading with
  | some t =>
    rw [hr] at hp
    exact ⟨hp.1, hle⟩
  | none =>
    rw [hr] at hp
    refine ⟨hp.1, fun text u hu hpre => ?_⟩
    have hshort : text <+: p.text := List.prefix_of_prefix_length_le hpre (List.prefix_append _ _) (hle text u hu hpre)
    exact hp.2 text u hu (hshort.trans (List.prefix_append _ _))

/-- How a rule goes on from a piece that is no trivia. -/
theorem starts_of_goesOn (hp : p.IsLongest) (ht : ∀ t, p.reading = some t → ¬t.isTrivia) {d : Char}
    (h : p.GoesOn d) : ∃ c cs ds u, p.text = c :: cs ∧ ¬c.isWhitespace ∧ c ≠ '{' ∧
      Rule.Starts c (cs ++ d :: ds) u := by
  obtain ⟨c, cs, htext, hblank, hbrace⟩ := hp.starts_of_not_trivia ht
  obtain ⟨ds, u, hu⟩ := h
  obtain ⟨_, _, heq, hstarts⟩ := hu.starts
  rw [htext, List.cons_append] at heq
  obtain ⟨rfl, rfl⟩ := List.cons.inj heq
  exact ⟨c, cs, ds, u, htext, hblank, hbrace, hstarts⟩

/-- No rule matches the piece together with the character behind it. -/
theorem not_rule_head (hp : p.IsLongest) {d : Char} (hd : d ∈ p.rest.head?) (t : Token) : ¬Rule (p.text ++ [d]) t := by
  intro hrule
  obtain ⟨old, hold⟩ : ∃ old, p.rest = d :: old := by
    cases hr : p.rest with
    | nil => simp [hr] at hd
    | cons e old => exact ⟨old, by rw [hr] at hd; rw [Option.some.inj hd]⟩
  have := hp.length_le hrule ⟨old, by simp [hold]⟩
  simp only [List.length_append, List.length_singleton] at this
  omega

theorem not_goesOn_head (hp : p.IsLongest) (ht : ∀ t, p.reading = some t → ¬t.isTrivia) {d : Char}
    (hd : d ∈ p.rest.head?) : ¬p.GoesOn d := by
  intro h
  obtain ⟨c, cs, ds, u, htext, -, hbrace, hstarts⟩ := hp.starts_of_goesOn ht h
  obtain ⟨t, hrule⟩ := hstarts.shorten hbrace
  exact hp.not_rule_head hd t (by rwa [htext])

theorem not_goesOn_trivia (hp : p.IsLongest) (ht : ∀ t, p.reading = some t → ¬t.isTrivia) {d : Char}
    (hd : d.isWhitespace ∨ d = '{') : ¬p.GoesOn d := by
  intro h
  obtain ⟨c, cs, ds, u, -, hblank, hbrace, hstarts⟩ := hp.starts_of_goesOn ht h
  exact hstarts.not_trivia hblank hbrace hd

/-- What is no trivia is the longest match in front of another rest too, if that starts as
    the old one or with trivia. -/
theorem replace_rest (hp : p.IsLongest) (ht : ∀ t, p.reading = some t → ¬t.isTrivia) {rest : List Char}
    (hrest : ∀ d ∈ rest.head?, d ∈ p.rest.head? ∨ d.isWhitespace ∨ d = '{') :
    (⟨p.text, p.reading, rest⟩ : Piece).IsLongest := by
  refine hp.of_not_goesOn fun d hd => ?_
  rcases hrest d hd with hhead | htrivia
  · exact hp.not_goesOn_head ht hhead
  · exact hp.not_goesOn_trivia ht htrivia

theorem not_isTrivia_of_item? {before : List Char} {item : Item} (h : p.item? before = some item) :
    ∀ t, p.reading = some t → ¬t.isTrivia := by
  intro t hr ht
  simp [item?, hr, ht] at h

/-- A call returns what is no trivia in front of such a rest as well. -/
theorem next_replace (hp : p.IsLongest) {before rest : List Char} {item : Item} (hitem : p.item? before = some item)
    (hrest : ∀ d ∈ rest.head?, d ∈ p.rest.head? ∨ d.isWhitespace ∨ d = '{') :
    (Cursor.between before (p.text ++ rest)).next = (item, Cursor.between (before ++ p.text) rest) := by
  have hitem' : (⟨p.text, p.reading, rest⟩ : Piece).item? before = some item := hitem
  have hnext := Cursor.next_between (hp.replace_rest (not_isTrivia_of_item? hitem) hrest) before
  rw [hitem'] at hnext
  exact hnext

theorem isTrivia_of_item? (hp : p.IsLongest) {before : List Char} (h : p.item? before = none) :
    ∃ t, p.reading = some t ∧ t.isTrivia := by
  cases hr : p.reading with
  | none =>
    obtain ⟨d, ds, htext⟩ := List.exists_cons_of_ne_nil hp.text_ne_nil
    simp [item?, hr, htext] at h
  | some t => exact ⟨t, rfl, by simpa [item?, hr] using h⟩

/-- A piece of trivia is gone over in front of any rest, but for a comment that is not
    closed, behind which there is nothing. -/
theorem skips_or_open (hp : p.IsLongest) {t : Token} (hr : p.reading = some t) (ht : t.isTrivia) :
    (∀ rest, Skips p.text rest) ∨ p.rest = [] ∧ ∃ body, p.text = '{' :: body ∧ '}' ∉ body := by
  have hrule := hp.reading_iff.1 hr
  have hlongest := @length_le p hp
  generalize p.text = text at hrule hlongest
  cases hrule with
  | blank hne h => exact Or.inl fun rest => .blanks h rest
  | comment h => exact Or.inl fun rest => .comment h rest
  | @openComment body h =>
    refine Or.inr ⟨?_, body, rfl, h⟩
    cases hrest : p.rest with
    | nil => rfl
    | cons d rest =>
      have hpre : '{' :: (body ++ [d]) <+: '{' :: body ++ p.rest := ⟨rest, by simp [hrest]⟩
      by_cases hd : d = '}'
      · have := hlongest (.comment h) (hd ▸ hpre)
        simp only [List.length_cons, List.length_append, List.length_nil] at this
        omega
      · have := hlongest (.openComment (by simpa [h] using Ne.symm hd)) hpre
        simp only [List.length_cons, List.length_append, List.length_nil] at this
        omega
  | _ => cases ht

end Piece.IsLongest

/-! ## Items behind an insertion -/

/-- Behind a piece the text starts as it did, or with the trivia put in. -/
theorem Tiles.head_insert {text rest c : List Char} {ps : List Piece} (h : Tiles text ps rest) (hc : IsTrivia c) :
    ∀ d ∈ (ps.flatMap Piece.text ++ (c ++ rest)).head?, d ∈ text.head? ∨ d.isWhitespace ∨ d = '{' := by
  intro d hd
  rw [h.flatMap_append]
  cases hps : ps.flatMap Piece.text with
  | cons x xs =>
    rw [hps] at hd
    exact Or.inl hd
  | nil =>
    rw [hps] at hd
    cases c with
    | nil => exact Or.inl hd
    | cons x c => exact Or.inr (hc.head d hd)

/-- The first calls return the pieces in front of the insertion, and the next ones what is
    found behind it. -/
theorem Tiles.next_insert {text rest : List Char} {ps : List Piece} (h : Tiles text ps rest) {c : List Char}
    (hc : IsTrivia c) (before : List Char) :
    (∀ i s, (stops before ps)[i]? = some s →
      ((Cursor.between before (ps.flatMap Piece.text ++ (c ++ rest))).after i).next.1 = s.1) ∧
    ∀ j, ((Cursor.between before (ps.flatMap Piece.text ++ (c ++ rest))).after ((stops before ps).length + j)).next =
      ((Cursor.between (before ++ (ps.flatMap Piece.text ++ c)) rest).after j).next := by
  induction h generalizing before with
  | nil rest =>
    refine ⟨by simp [stops], fun j => ?_⟩
    simpa [stops] using Cursor.after_congr (hc.skips rest before) j
  | @cons p ps rest hp h ih =>
    obtain ⟨ih, ih'⟩ := ih (before ++ p.text)
    simp only [List.flatMap_cons, List.append_assoc] at ih ih' ⊢
    cases hitem : p.item? before with
    | some item =>
      have hnext := hp.next_replace hitem (h.head_insert hc)
      simp only [stops, hitem]
      refine ⟨fun i s hs => ?_, fun j => ?_⟩
      · cases i with
        | zero =>
          obtain rfl := Option.some.inj hs
          rw [Cursor.after, hnext]
        | succ i =>
          rw [Cursor.after, hnext]
          exact ih i s hs
      · rw [List.length_cons, Nat.add_right_comm, Cursor.after, hnext]
        exact ih' j
    | none =>
      simp only [stops, hitem]
      obtain ⟨t, hr, ht⟩ := hp.isTrivia_of_item? hitem
      rcases hp.skips_or_open hr ht with hskips | ⟨hnil, body, htext, hbody⟩
      · have hnext := hskips (ps.flatMap Piece.text ++ (c ++ rest)) before
        refine ⟨fun i s hs => ?_, fun j => ?_⟩
        · rw [Cursor.after_congr hnext]
          exact ih i s hs
        · rw [Cursor.after_congr hnext]
          exact ih' j
      · -- nothing stands behind the open comment, and it takes in the insertion
        obtain ⟨rfl, rfl⟩ := h.eq_nil hnil
        refine ⟨by simp [stops], fun j => ?_⟩
        have hnext := hc.skips_openComment hbody before
        rw [← List.cons_append, ← htext, List.append_nil] at hnext
        simpa [stops] using Cursor.after_congr hnext j

/-! ## Moving behind -/

/-- The item with so many more bytes and lines before it. -/
def Item.shift (bytes lines : Nat) : Item → Item
  | .token t n => .token t (n + lines)
  | .stray e => .stray ⟨e.character, e.position + bytes, e.line + lines⟩

def Cursor.shift (bytes lines : Nat) (c : Cursor) : Cursor := ⟨c.rest, c.position + bytes, c.line + lines⟩

namespace Cursor

variable (bytes lines : Nat)

theorem between_append (before text rest : List Char) : between (before ++ text) rest =
    (between before rest).shift (String.ofList text).utf8ByteSize (text.count '\n') := by
  simp [between, shift, lineBehind, String.ofList_append, Nat.add_assoc]

theorem skip_shift (c : Cursor) (p : Piece) : (c.shift bytes lines).skip p = (c.skip p).shift bytes lines := by
  unfold skip shift
  split <;> simp [Nat.add_right_comm]

/-- Where a cursor stands does not matter to what it finds. -/
theorem next_shift (c : Cursor) :
    (c.shift bytes lines).next = (c.next.1.shift bytes lines, c.next.2.shift bytes lines) := by
  fun_induction next c with
  | case1 c h =>
    rw [next_of_nil (show (c.shift bytes lines).rest = [] from h)]
    rfl
  | case2 c x xs h piece hr =>
    rw [next_of_cons (show (c.shift bytes lines).rest = x :: xs from h), hr, skip_shift]
    rfl
  | case3 c x xs h piece t hr ht ih =>
    rw [next_of_cons (show (c.shift bytes lines).rest = x :: xs from h), hr, skip_shift]
    simp only [ht, if_true]
    exact ih
  | case4 c x xs h piece t hr ht =>
    rw [next_of_cons (show (c.shift bytes lines).rest = x :: xs from h), hr, skip_shift]
    simp only [ht]
    rfl

theorem after_shift (c : Cursor) (k : Nat) : (c.shift bytes lines).after k = (c.after k).shift bytes lines := by
  induction k generalizing c with
  | zero => rfl
  | succ k ih => rw [after, after, next_shift, ih]

end Cursor

/-- Something put into a text: the number of items in front of it, its bytes and its lines. -/
structure Insertion where
  behind : Nat
  bytes : Nat
  lines : Nat

/-- What becomes of the item at `i`. -/
def Insertion.item (g : Insertion) (i : Nat) (item : Item) : Item :=
  if i < g.behind then item else item.shift g.bytes g.lines

/-- Trivia put in behind a piece moves the items behind it, and does nothing else. -/
theorem next_insert {u c v : List Char} {ps : List Piece} (hu : Tiles (u ++ v) ps v) (hc : IsTrivia c) (i : Nat) :
    ((Cursor.between [] (u ++ (c ++ v))).after i).next.1 =
      Insertion.item ⟨(stops [] ps).length, (String.ofList c).utf8ByteSize, c.count '\n'⟩ i
        ((Cursor.between [] (u ++ v)).after i).next.1 := by
  have htext : u = ps.flatMap Piece.text := List.append_cancel_right hu.flatMap_append
  obtain ⟨hfront, hbehind⟩ := hu.next_insert hc []
  obtain ⟨hfront', hbehind'⟩ := hu.next_insert (show IsTrivia [] from .blanks nofun) []
  rw [← htext] at hfront hbehind hfront' hbehind'
  simp only [List.nil_append, List.append_nil] at hbehind hfront' hbehind'
  unfold Insertion.item
  split
  · rename_i hi
    have hs := List.getElem?_eq_getElem hi
    rw [hfront i _ hs, hfront' i _ hs]
  · rename_i hi
    obtain ⟨j, rfl⟩ := Nat.exists_eq_add_of_le (Nat.le_of_not_lt hi)
    rw [hbehind j, hbehind' j, Cursor.between_append, Cursor.after_shift, Cursor.next_shift]

end Pascaline
