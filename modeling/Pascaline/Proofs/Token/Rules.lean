/-
  Pascaline.Proofs.Token.Rules — the words of the language as rules, and the longest match.

      blank      := [ \t\r\n]+
      comment    := "{" [^}]* "}"?
      integer    := [0-9]+
      real       := [0-9]+ "." [0-9]*
      reserved   := one of the seven reserved words
      identifier := [a-zA-Z][a-zA-Z0-9]*, but for the reserved words
      symbol     := ":=" or one character of punctuation

  A rule says which texts it matches and which token such a text is (`Rule`); a number has
  the double nearest to what its digits say by their places. The character that a text
  starts with decides which rules can match it and how it goes on (`Rule.starts`), so no
  text is two tokens (`Rule.unique`).

  A piece is the longest one if no rule matches more of what stands there, and it is a single
  character if no rule matches at all (`Piece.IsLongest`). The piece that is cut off a text
  is the longest one (`cut_isLongest`), and there is only one (`IsLongest.eq_cut`).
-/

import Pascaline.Proofs.Decimal.Rounding
import Pascaline.Proofs.Token.Identifier

namespace Pascaline

/-! ## Rules -/

/-- The text is matched by a rule, and is the token. A comment is closed by the first brace;
    the open form goes further than the closed one only where there is no closing brace. The
    value of a number is the double nearest to what its digits say. -/
inductive Rule : List Char → Token → Prop
  | blank {text : List Char} (hne : text ≠ []) (h : ∀ c ∈ text, c ∈ [' ', '\t', '\r', '\n']) : Rule text .blank
  | openComment {body : List Char} (h : '}' ∉ body) : Rule ('{' :: body) .comment
  | comment {body : List Char} (h : '}' ∉ body) : Rule ('{' :: (body ++ ['}'])) .comment
  | integer {ds : List Char} {x : Float} (hne : ds ≠ []) (h : ∀ d ∈ ds, d.isDigit)
      (hx : Double.ReadsAs (Decimal.written ds []) x) : Rule ds (.integer x)
  | real {ds es : List Char} {x : Float} (hne : ds ≠ []) (hd : ∀ d ∈ ds, d.isDigit) (he : ∀ e ∈ es, e.isDigit)
      (hx : Double.ReadsAs (Decimal.written ds es) x) : Rule (ds ++ '.' :: es) (.real x)
  | keyword (k : Keyword) : Rule k.spelling.toList (.keyword k)
  | name {s : String} (h : IsIdentifier s) : Rule s.toList (.name s)
  | symbol (s : Symbol) : Rule s.spelling.toList (.symbol s)

theorem Rule.ne_endOfInput {text : List Char} {t : Token} (h : Rule text t) : t ≠ .endOfInput := by
  cases h <;> exact nofun

/-! ## What a text starts with -/

theorem isWhitespace_iff {c : Char} : c.isWhitespace ↔ c ∈ [' ', '\t', '\r', '\n'] := by
  simp [Char.isWhitespace, or_assoc]

theorem Keyword.spelling_cons (k : Keyword) :
    ∃ c cs, k.spelling.toList = c :: cs ∧ c.isAlpha ∧ ∀ d ∈ cs, d.isAlphanum := by
  cases k <;> exact ⟨_, _, rfl, rfl, List.all_eq_true.1 rfl⟩

theorem Piece.word_spelling (k : Keyword) : Piece.word k.spelling.toList = .keyword k := by
  simp only [Piece.word, String.ofList_toList, Keyword.ofSpelling?_eq_some_iff.2 rfl]

theorem Piece.word_identifier {s : String} (h : IsIdentifier s) : Piece.word s.toList = .name s := by
  have hk : Keyword.ofSpelling? s = none := by
    cases hk : Keyword.ofSpelling? s with
    | none => rfl
    | some k => exact absurd (Keyword.ofSpelling?_eq_some_iff.1 hk).symm (h.notReserved k)
  simp only [Piece.word, String.ofList_toList, hk]

namespace Rule

/-- How a text goes on behind its first character, for the token that it is. -/
inductive Starts : Char → List Char → Token → Prop
  | blank {c : Char} {cs : List Char} (hc : c.isWhitespace) (h : ∀ d ∈ cs, d.isWhitespace) : Starts c cs .blank
  | openComment {body : List Char} (h : '}' ∉ body) : Starts '{' body .comment
  | comment {body : List Char} (h : '}' ∉ body) : Starts '{' (body ++ ['}']) .comment
  | integer {c : Char} {cs : List Char} (hc : c.isDigit) (h : ∀ d ∈ cs, d.isDigit) :
      Starts c cs (Piece.integer (c :: cs))
  | real {c : Char} {ds es : List Char} (hc : c.isDigit) (hd : ∀ d ∈ ds, d.isDigit) (he : ∀ e ∈ es, e.isDigit) :
      Starts c (ds ++ '.' :: es) (Piece.real (c :: ds) es)
  | word {c : Char} {cs : List Char} (hc : c.isAlpha) (h : ∀ d ∈ cs, d.isAlphanum) :
      Starts c cs (Piece.word (c :: cs))
  | symbol {c : Char} {s : Symbol} (h : Symbol.ofChar? c = some s) : Starts c [] (.symbol s)
  | assign : Starts ':' ['='] (.symbol .assign)

theorem starts {text : List Char} {t : Token} (h : Rule text t) : ∃ c cs, text = c :: cs ∧ Starts c cs t := by
  cases h with
  | blank hne h =>
    obtain ⟨c, cs, rfl⟩ := List.exists_cons_of_ne_nil hne
    obtain ⟨hc, hcs⟩ := List.forall_mem_cons.1 h
    exact ⟨c, cs, rfl, .blank (isWhitespace_iff.2 hc) fun d hd => isWhitespace_iff.2 (hcs d hd)⟩
  | openComment h => exact ⟨_, _, rfl, .openComment h⟩
  | comment h => exact ⟨_, _, rfl, .comment h⟩
  | integer hne h hx =>
    obtain ⟨c, cs, rfl⟩ := List.exists_cons_of_ne_nil hne
    obtain ⟨hc, hcs⟩ := List.forall_mem_cons.1 h
    obtain rfl := hx.unique (Decimal.readsAs_ofDigits _ _)
    exact ⟨c, cs, rfl, .integer hc hcs⟩
  | real hne hd he hx =>
    obtain ⟨c, cs, rfl⟩ := List.exists_cons_of_ne_nil hne
    obtain ⟨hc, hcs⟩ := List.forall_mem_cons.1 hd
    obtain rfl := hx.unique (Decimal.readsAs_ofDigits _ _)
    exact ⟨c, _, rfl, .real hc hcs he⟩
  | keyword k =>
    obtain ⟨c, cs, hk, hc, hcs⟩ := k.spelling_cons
    refine ⟨c, cs, hk, ?_⟩
    rw [← Piece.word_spelling k, hk]
    exact .word hc hcs
  | name h =>
    obtain ⟨c, cs, hs, hc, hcs⟩ := h.word
    refine ⟨c, cs, hs, ?_⟩
    rw [← Piece.word_identifier h, hs]
    exact .word hc hcs
  | symbol s =>
    cases s with
    | assign => exact ⟨_, _, rfl, .assign⟩
    | _ => exact ⟨_, _, rfl, .symbol rfl⟩

end Rule

/-! ## The classes of characters exclude each other -/

theorem not_blank {c : Char} (h : c.isWhitespace) : c ≠ '{' ∧ ¬c.isDigit ∧ ¬c.isAlpha ∧ c ≠ ':' ∧
    Symbol.ofChar? c = none := by
  simp only [isWhitespace_iff, List.mem_cons, List.not_mem_nil, or_false] at h
  rcases h with rfl | rfl | rfl | rfl <;> decide

theorem not_letter_of_digit {c : Char} (h : c.isDigit) : ¬c.isAlpha := by
  have hdigit : c.toNat ≤ 57 := (Char.isDigit_iff_toNat.1 h).2
  intro halpha
  have hcase : c.isUpper = true ∨ c.isLower = true := Bool.or_eq_true_iff.1 halpha
  rcases hcase with hupper | hlower
  · have hrange : 'A'.val ≤ c.val ∧ c.val ≤ 'Z'.val := of_decide_eq_true hupper
    have hge : 65 ≤ c.toNat := hrange.1
    omega
  · have hlower : 'a'.val ≤ c.val := of_decide_eq_true (Bool.and_elim_left hlower)
    have hge : 97 ≤ c.toNat := hlower
    omega

theorem not_symbol {c : Char} {s : Symbol} (h : Symbol.ofChar? c = some s) :
    ¬c.isWhitespace ∧ c ≠ '{' ∧ ¬c.isDigit ∧ ¬c.isAlpha := by
  unfold Symbol.ofChar? at h
  split at h <;> first | decide | cases h

namespace Rule.Starts

variable {c : Char} {cs : List Char} {t : Token}

theorem of_blank (h : Starts c cs t) (hc : c.isWhitespace) : t = .blank ∧ ∀ d ∈ cs, d.isWhitespace := by
  have hnot := not_blank hc
  cases h with
  | blank hc h => exact ⟨rfl, h⟩
  | _ => simp_all

theorem of_brace (h : Starts '{' cs t) :
    t = .comment ∧ ∃ body, '}' ∉ body ∧ (cs = body ∨ cs = body ++ ['}']) := by
  cases h with
  | openComment h => exact ⟨rfl, _, h, Or.inl rfl⟩
  | comment h => exact ⟨rfl, _, h, Or.inr rfl⟩
  | symbol h => cases h
  | real hc => cases hc
  | _ => rename_i hc h; cases hc

theorem of_digit (h : Starts c cs t) (hc : c.isDigit) :
    (t = Piece.integer (c :: cs) ∧ ∀ d ∈ cs, d.isDigit) ∨
      ∃ ds es, cs = ds ++ '.' :: es ∧ t = Piece.real (c :: ds) es ∧ (∀ d ∈ ds, d.isDigit) ∧ ∀ e ∈ es, e.isDigit := by
  cases h with
  | integer _ h => exact Or.inl ⟨rfl, h⟩
  | real _ hd he => exact Or.inr ⟨_, _, rfl, rfl, hd, he⟩
  | blank hb => exact absurd hc (not_blank hb).2.1
  | word ha => exact absurd ha (not_letter_of_digit hc)
  | symbol hs => exact absurd hc (not_symbol hs).2.2.1
  | _ => cases hc

theorem of_letter (h : Starts c cs t) (hc : c.isAlpha) : t = Piece.word (c :: cs) ∧ ∀ d ∈ cs, d.isAlphanum := by
  cases h with
  | word _ h => exact ⟨rfl, h⟩
  | blank hb => exact absurd hc (not_blank hb).2.2.1
  | integer hd => exact absurd hc (not_letter_of_digit hd)
  | real hd => exact absurd hc (not_letter_of_digit hd)
  | symbol hs => exact absurd hc (not_symbol hs).2.2.2
  | _ => cases hc

theorem of_other (h : Starts c cs t) (hb : ¬c.isWhitespace) (hc : c ≠ '{') (hd : ¬c.isDigit) (ha : ¬c.isAlpha) :
    (cs = [] ∧ ∃ s, Symbol.ofChar? c = some s ∧ t = .symbol s) ∨ c = ':' ∧ cs = ['='] ∧ t = .symbol .assign := by
  cases h with
  | symbol h => exact Or.inl ⟨rfl, _, h, rfl⟩
  | assign => exact Or.inr ⟨rfl, rfl, rfl⟩
  | _ => contradiction

end Rule.Starts

/-! ## No text is two tokens -/

section

variable {p : Char → Bool} {run rest cs : List Char}

theorem forall_bne {c : Char} (h : c ∉ cs) : ∀ x ∈ cs, x != c := by
  intro x hx
  rw [bne_iff_ne]
  rintro rfl
  exact h hx

/-- A run goes as far as its characters do. -/
theorem takeWhile_run (hrun : ∀ x ∈ run, p x) (hrest : ∀ x ∈ rest.head?, ¬p x) : (run ++ rest).takeWhile p = run := by
  rw [List.takeWhile_append_of_pos hrun]
  cases rest with
  | nil => simp
  | cons x rest => simp [hrest x rfl]

theorem dropWhile_run (hrun : ∀ x ∈ run, p x) (hrest : ∀ x ∈ rest.head?, ¬p x) : (run ++ rest).dropWhile p = rest := by
  rw [List.dropWhile_append_of_pos hrun]
  cases rest with
  | nil => rfl
  | cons x rest => simp [hrest x rfl]

/-- No run of such characters at the head of a text is longer. -/
theorem length_le_takeWhile (hrun : ∀ x ∈ run, p x) (h : run <+: cs) : run.length ≤ (cs.takeWhile p).length := by
  obtain ⟨rest, rfl⟩ := h
  rw [List.takeWhile_append_of_pos hrun, List.length_append]
  exact Nat.le_add_right _ _

end

namespace Rule

theorem dot_notMem_digits {ds : List Char} (h : ∀ d ∈ ds, d.isDigit) : '.' ∉ ds := by
  intro hdot
  cases h '.' hdot

theorem Starts.unique {c : Char} {cs : List Char} {t u : Token} (ht : Starts c cs t) (hu : Starts c cs u) : t = u := by
  by_cases hb : c.isWhitespace
  · rw [(ht.of_blank hb).1, (hu.of_blank hb).1]
  by_cases hc : c = '{'
  · subst hc
    rw [ht.of_brace.1, hu.of_brace.1]
  by_cases hd : c.isDigit
  · rcases ht.of_digit hd with ⟨rfl, h⟩ | ⟨ds, es, rfl, rfl, hds, hes⟩
    · rcases hu.of_digit hd with ⟨rfl, -⟩ | ⟨ds, es, rfl, -⟩
      · rfl
      · exact absurd (by simp) (dot_notMem_digits h)
    · rcases hu.of_digit hd with ⟨-, h⟩ | ⟨ds', es', heq, rfl, hds', hes'⟩
      · exact absurd (by simp) (dot_notMem_digits h)
      · have hds_eq : ds = ds' := by
          have := congrArg (List.takeWhile Char.isDigit) heq
          rwa [takeWhile_run hds (by simp), takeWhile_run hds' (by simp)] at this
        subst hds_eq
        rw [(List.cons.inj (List.append_cancel_left heq)).2]
  by_cases ha : c.isAlpha
  · rw [(ht.of_letter ha).1, (hu.of_letter ha).1]
  rcases ht.of_other hb hc hd ha with ⟨rfl, s, hs, rfl⟩ | ⟨rfl, rfl, rfl⟩
  · rcases hu.of_other hb hc hd ha with ⟨-, r, hr, rfl⟩ | ⟨-, h, -⟩
    · rw [Option.some.inj (hs.symm.trans hr)]
    · cases h
  · rcases hu.of_other hb hc hd ha with ⟨h, -⟩ | ⟨-, -, rfl⟩
    · cases h
    · rfl

theorem unique {text : List Char} {t u : Token} (ht : Rule text t) (hu : Rule text u) : t = u := by
  obtain ⟨c, cs, rfl, hct⟩ := ht.starts
  obtain ⟨d, ds, h, hdu⟩ := hu.starts
  obtain ⟨rfl, rfl⟩ := List.cons.inj h
  exact hct.unique hdu

end Rule

/-! ## The longest match -/

namespace Piece

/-- No rule matches a longer text at the place of the piece. If none matches any, the piece
    is one character, and has no reading. -/
def IsLongest (p : Piece) : Prop :=
  match p.reading with
  | some t => Rule p.text t ∧ ∀ text u, Rule text u → text <+: p.text ++ p.rest → text.length ≤ p.text.length
  | none => p.text.length = 1 ∧ ∀ text u, Rule text u → ¬text <+: p.text ++ p.rest

theorem IsLongest.eq {p q : Piece} (hp : p.IsLongest) (hq : q.IsLongest)
    (h : p.text ++ p.rest = q.text ++ q.rest) : p = q := by
  obtain ⟨text, reading, rest⟩ := p
  obtain ⟨text', reading', rest'⟩ := q
  simp only [IsLongest] at hp hq h
  cases reading with
  | none =>
    cases reading' with
    | none =>
      obtain ⟨rfl, rfl⟩ := List.append_inj h (hp.1.trans hq.1.symm)
      rfl
    | some u => exact absurd (h ▸ List.prefix_append text' rest') (hp.2 text' u hq.1)
  | some t =>
    cases reading' with
    | none => exact absurd (h ▸ List.prefix_append text rest) (hq.2 text t hp.1)
    | some u =>
      have hle := hp.2 text' u hq.1 (h ▸ List.prefix_append text' rest')
      have hge := hq.2 text t hp.1 (h ▸ List.prefix_append text rest)
      obtain ⟨rfl, rfl⟩ := List.append_inj h (Nat.le_antisymm hge hle)
      rw [hp.1.unique hq.1]

/-! ## What is cut is the longest match -/

/-- What a rule matches at the head of a text is told by the first character. -/
theorem isLongest_of_starts {p : Piece} (c : Char) (cs : List Char) {t : Token} (hp : p.text ++ p.rest = c :: cs)
    (hr : p.reading = some t) (ht : Rule p.text t)
    (hlongest : ∀ ds u, Rule.Starts c ds u → ds <+: cs → ds.length < p.text.length) : p.IsLongest := by
  rw [IsLongest, hr]
  refine ⟨ht, fun text u hu htext => ?_⟩
  obtain ⟨d, ds, rfl, hstarts⟩ := hu.starts
  rw [hp] at htext
  obtain ⟨rfl, hds⟩ := List.cons_prefix_cons.1 htext
  exact hlongest ds u hstarts hds

theorem blank_isLongest {c : Char} (cs : List Char) (hc : c.isWhitespace) :
    (⟨c :: cs.takeWhile Char.isWhitespace, some .blank, cs.dropWhile Char.isWhitespace⟩ : Piece).IsLongest := by
  have hblank : ∀ d ∈ c :: cs.takeWhile Char.isWhitespace, d.isWhitespace := by
    rintro d (_ | ⟨_, hd⟩)
    · exact hc
    · exact List.mem_takeWhile_imp hd
  refine isLongest_of_starts c cs (by simp) rfl (.blank (by simp) fun d hd => isWhitespace_iff.1 (hblank d hd)) ?_
  intro ds u hstarts hds
  exact Nat.lt_succ_of_le (length_le_takeWhile (hstarts.of_blank hc).2 hds)

theorem comment_isLongest (cs : List Char) : (comment cs).IsLongest := by
  have hcs := comment_text_append_rest cs
  have hbody : '}' ∉ cs.takeWhile (· != '}') := fun h => by simpa using List.mem_takeWhile_imp h
  cases hrest : cs.dropWhile (· != '}') with
  | nil =>
    have hopen : comment cs = ⟨'{' :: cs.takeWhile (· != '}'), some .comment, []⟩ := by simp only [comment, hrest]
    rw [hopen] at hcs ⊢
    refine isLongest_of_starts _ _ hcs rfl (.openComment hbody) fun ds u hstarts hds => ?_
    have hall : cs.takeWhile (· != '}') = cs := by simpa using hcs
    rw [hall]
    exact Nat.lt_succ_of_le hds.length_le
  | cons close rest =>
    obtain rfl : close = '}' := by
      have := List.head?_dropWhile_not (· != '}') cs
      rw [hrest] at this
      simpa using this
    have hclosed : comment cs = ⟨'{' :: (cs.takeWhile (· != '}') ++ ['}']), some .comment, rest⟩ := by
      simp [comment, hrest]
    rw [hclosed] at hcs ⊢
    refine isLongest_of_starts _ _ hcs rfl (.comment hbody) fun ds u hstarts hds => ?_
    obtain ⟨-, body, hb, hcases⟩ := hstarts.of_brace
    have hpre : body <+: cs := by
      rcases hcases with rfl | rfl
      · exact hds
      · exact (List.prefix_append body _).trans hds
    have hle := length_le_takeWhile (forall_bne hb) hpre
    rcases hcases with rfl | rfl <;> simp <;> omega

theorem integer_rule {ds : List Char} (hne : ds ≠ []) (h : ∀ d ∈ ds, d.isDigit) : Rule ds (integer ds) :=
  .integer hne h (Decimal.readsAs_ofDigits ds [])

theorem real_rule {ds es : List Char} (hne : ds ≠ []) (hd : ∀ d ∈ ds, d.isDigit) (he : ∀ e ∈ es, e.isDigit) :
    Rule (ds ++ '.' :: es) (real ds es) :=
  .real hne hd he (Decimal.readsAs_ofDigits ds es)

theorem number_isLongest {c : Char} (cs : List Char) (hc : c.isDigit) : (number c cs).IsLongest := by
  have hcs := number_text_append_rest c cs
  have hwhole : ∀ d ∈ c :: cs.takeWhile Char.isDigit, d.isDigit := by
    rintro d (_ | ⟨_, hd⟩)
    · exact hc
    · exact List.mem_takeWhile_imp hd
  by_cases hdot : ∃ rest, cs.dropWhile Char.isDigit = '.' :: rest
  · obtain ⟨rest, hrest⟩ := hdot
    have hreal : number c cs = ⟨c :: cs.takeWhile Char.isDigit ++ '.' :: rest.takeWhile Char.isDigit,
        some (real (c :: cs.takeWhile Char.isDigit) (rest.takeWhile Char.isDigit)), rest.dropWhile Char.isDigit⟩ := by
      simp only [number, hrest]
    rw [hreal] at hcs ⊢
    refine isLongest_of_starts c cs hcs rfl (real_rule (by simp) hwhole fun e he => List.mem_takeWhile_imp he) ?_
    intro ds u hstarts hds
    rcases hstarts.of_digit hc with ⟨-, hdigits⟩ | ⟨ds, es, rfl, -, hdigits, hes⟩
    · have := length_le_takeWhile hdigits hds
      simp
      omega
    · -- both points are the one behind the run of digits, so only the digits behind it count
      obtain ⟨more, rfl⟩ := hds
      rw [List.append_assoc, List.cons_append] at hrest ⊢
      rw [dropWhile_run hdigits (by simp)] at hrest
      obtain rfl := (List.cons.inj hrest).2
      have := length_le_takeWhile hes (List.prefix_append es more)
      rw [takeWhile_run hdigits (by simp)]
      simp
      omega
  · have hinteger : number c cs = ⟨c :: cs.takeWhile Char.isDigit, some (integer (c :: cs.takeWhile Char.isDigit)),
        cs.dropWhile Char.isDigit⟩ := by
      unfold number
      split
      · exact absurd ⟨_, ‹_›⟩ hdot
      · rfl
    rw [hinteger] at hcs ⊢
    refine isLongest_of_starts c cs hcs rfl (integer_rule (by simp) hwhole) fun ds u hstarts hds => ?_
    rcases hstarts.of_digit hc with ⟨-, hdigits⟩ | ⟨ds, es, rfl, -, hdigits, -⟩
    · exact Nat.lt_succ_of_le (length_le_takeWhile hdigits hds)
    · obtain ⟨more, rfl⟩ := hds
      rw [List.append_assoc, List.cons_append, dropWhile_run hdigits (by simp)] at hdot
      exact absurd ⟨_, rfl⟩ hdot

theorem word_rule {c : Char} {cs : List Char} (hc : c.isAlpha) (hcs : ∀ d ∈ cs, d.isAlphanum) :
    Rule (c :: cs) (word (c :: cs)) := by
  cases hk : Keyword.ofSpelling? (String.ofList (c :: cs)) with
  | some k =>
    have hrule := Rule.keyword k
    rw [Keyword.ofSpelling?_eq_some_iff.1 hk, String.toList_ofList] at hrule
    simpa only [word, hk] using hrule
  | none =>
    have hname : word (c :: cs) = .name (String.ofList (c :: cs)) := by simp only [word, hk]
    have hrule := Rule.name (word_namesIdentifier hc hcs _ hname)
    rwa [String.toList_ofList, ← hname] at hrule

theorem word_isLongest {c : Char} (cs : List Char) (hc : c.isAlpha) :
    (⟨c :: cs.takeWhile Char.isAlphanum, some (word (c :: cs.takeWhile Char.isAlphanum)),
      cs.dropWhile Char.isAlphanum⟩ : Piece).IsLongest := by
  refine isLongest_of_starts c cs (by simp) rfl (word_rule hc fun d hd => List.mem_takeWhile_imp hd) ?_
  intro ds u hstarts hds
  exact Nat.lt_succ_of_le (length_le_takeWhile (hstarts.of_letter hc).2 hds)

theorem symbol_rule {c : Char} {s : Symbol} (h : Symbol.ofChar? c = some s) : Rule [c] (.symbol s) := by
  have hs : s.spelling.toList = [c] := by
    unfold Symbol.ofChar? at h
    split at h <;> first | (obtain rfl := Option.some.inj h; rfl) | cases h
  have := Rule.symbol s
  rwa [hs] at this

theorem sign_isLongest {c : Char} (cs : List Char) (hb : ¬c.isWhitespace) (hc : c ≠ '{') (hd : ¬c.isDigit)
    (ha : ¬c.isAlpha) : (sign c cs).IsLongest := by
  by_cases hassign : ∃ rest, c = ':' ∧ cs = '=' :: rest
  · obtain ⟨rest, rfl, rfl⟩ := hassign
    refine isLongest_of_starts ':' ('=' :: rest) rfl rfl (.symbol .assign) ?_
    intro ds u hstarts hds
    rcases hstarts.of_other hb hc hd ha with ⟨rfl, -⟩ | ⟨-, rfl, -⟩ <;> simp [sign]
  · have hsign : sign c cs = ⟨[c], (Symbol.ofChar? c).map .symbol, cs⟩ := by
      unfold sign
      split
      · exact absurd ⟨_, rfl, rfl⟩ hassign
      · rfl
    -- what a rule matches here is the character alone
    have halone : ∀ ds u, Rule.Starts c ds u → ds <+: cs → ds = [] ∧ (Symbol.ofChar? c).isSome := by
      intro ds u hstarts hds
      rcases hstarts.of_other hb hc hd ha with ⟨rfl, s, hs, -⟩ | ⟨rfl, rfl, -⟩
      · exact ⟨rfl, by rw [hs]; rfl⟩
      · obtain ⟨rest, rfl⟩ := hds
        exact absurd ⟨rest, rfl, rfl⟩ hassign
    rw [hsign]
    cases hs : Symbol.ofChar? c with
    | none =>
      refine ⟨rfl, fun text u hu htext => ?_⟩
      obtain ⟨d, ds, rfl, hstarts⟩ := hu.starts
      obtain ⟨rfl, hds⟩ := List.cons_prefix_cons.1 htext
      simpa [hs] using (halone ds u hstarts hds).2
    | some s =>
      refine isLongest_of_starts c cs rfl rfl (symbol_rule hs) fun ds u hstarts hds => ?_
      rw [(halone ds u hstarts hds).1]
      exact Nat.one_pos

/-- What is cut off a text is the longest match at its head. -/
theorem cut_isLongest (c : Char) (cs : List Char) : (cut c cs).IsLongest := by
  unfold cut
  split
  · exact blank_isLongest cs ‹_›
  split
  · exact comment_isLongest cs
  split
  · exact number_isLongest cs ‹_›
  split
  · exact word_isLongest cs ‹_›
  · exact sign_isLongest cs ‹_› ‹_› ‹_› ‹_›

theorem IsLongest.eq_cut {p : Piece} {c : Char} {cs : List Char} (hp : p.IsLongest) (h : p.text ++ p.rest = c :: cs) :
    p = cut c cs := hp.eq (cut_isLongest c cs) (h.trans (text_append_rest c cs).symm)

end Piece

end Pascaline
