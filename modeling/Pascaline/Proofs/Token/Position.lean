/-
  Pascaline.Proofs.Token.Position — the lines and positions that calls report.

  A call starts between what has been consumed of a text and the rest. It goes over trivia
  and stops behind a word, behind a stray character or at the end of the text, and the
  cursor it leaves is again one between two parts of the text (`Finds`, `next_finds`). No
  word and no stray character has a line feed in it.

  So after any number of calls the cursor stands between two parts of the text
  (`exists_after`), its line counts the line feeds of the first part and of nothing else,
  and a stray character is reported with the bytes and the line feeds before it
  (`after_counts_lines`). Behind a stray character the cursor is further on, and it never
  goes back, so the next one has a higher position (`position_le_after`).
-/

import Mathlib.Order.Monotone.Basic
import Pascaline.Proofs.Token.Tiling

namespace Pascaline

/-! ## One call -/

/-- What a call returns and the cursor it leaves, from between the text consumed before and
    the rest. -/
inductive Finds (before rest : List Char) : Item → Cursor → Prop
  | word {skipped text more : List Char} {t : Token} (h : rest = skipped ++ (text ++ more)) (ht : Rule text t)
      (hline : '\n' ∉ text) :
      Finds before rest (.token t (lineBehind (before ++ skipped))) (.between (before ++ skipped ++ text) more)
  | stray {skipped more : List Char} {c : Char} (h : rest = skipped ++ c :: more) (hline : '\n' ∉ [c]) :
      Finds before rest
        (.stray ⟨c, (String.ofList (before ++ skipped)).utf8ByteSize, lineBehind (before ++ skipped)⟩)
        (.between (before ++ skipped ++ [c]) more)
  | nothing : Finds before rest (.token .endOfInput (lineBehind (before ++ rest))) (.between (before ++ rest) [])

namespace Finds

variable {before rest : List Char} {item : Item} {c : Cursor}

/-- What is found behind trivia is found in front of it. -/
theorem behind {skipped : List Char} (h : Finds (before ++ skipped) rest item c) :
    Finds before (skipped ++ rest) item c := by
  cases h with
  | @word more text after t h ht hline =>
    rw [List.append_assoc before skipped more]
    exact .word (by rw [h, List.append_assoc]) ht hline
  | @stray more after x h hline =>
    rw [List.append_assoc before skipped more]
    exact .stray (by rw [h, List.append_assoc]) hline
  | nothing =>
    rw [List.append_assoc before skipped rest]
    exact .nothing

/-- The cursor that is left stands in the same text. -/
theorem exists_between (h : Finds before rest item c) :
    ∃ before' rest', before ++ rest = before' ++ rest' ∧ c = .between before' rest' := by
  cases h with
  | word h => exact ⟨_, _, by simp [h], rfl⟩
  | stray h => exact ⟨_, _, by simp [h], rfl⟩
  | nothing => exact ⟨_, _, (List.append_nil _).symm, rfl⟩

/-- A token starts behind trivia, and the cursor behind it is still on its line. -/
theorem of_token {t : Token} {n : Nat} (h : Finds before rest (.token t n) c) (ht : t ≠ .endOfInput) :
    ∃ skipped text, rest = skipped ++ (text ++ c.rest) ∧ Rule text t ∧ n = lineBehind (before ++ skipped) ∧
      c.line = n := by
  cases h with
  | @word skipped text more _ h hrule hline =>
    refine ⟨skipped, text, h, hrule, rfl, ?_⟩
    simp [Cursor.between, lineBehind, List.count_eq_zero.2 hline]
  | nothing => exact absurd rfl ht

/-- At the end of the input everything has been consumed. -/
theorem of_endOfInput {n : Nat} (h : Finds before rest (.token .endOfInput n) c) :
    n = lineBehind (before ++ rest) ∧ c = .between (before ++ rest) [] := by
  cases h with
  | word h hrule => exact absurd rfl hrule.ne_endOfInput
  | nothing => exact ⟨rfl, rfl⟩

theorem of_stray {e : StrayCharacter} (h : Finds before rest (.stray e) c) :
    ∃ skipped, rest = skipped ++ e.character :: c.rest ∧
      e.position = (String.ofList (before ++ skipped)).utf8ByteSize ∧ e.line = lineBehind (before ++ skipped) ∧
      c.line = e.line := by
  cases h with
  | @stray skipped more x h hline =>
    refine ⟨skipped, h, rfl, rfl, ?_⟩
    simp [Cursor.between, lineBehind, List.count_eq_zero.2 hline]

theorem position_le (h : Finds before rest item c) : (Cursor.between before rest).position ≤ c.position := by
  cases h <;> simp [Cursor.between]

/-- In front of the end of the input a call consumes at least one byte. -/
theorem position_lt (h : Finds before rest item c) (hitem : ∀ n, item ≠ .token .endOfInput n) :
    (Cursor.between before rest).position < c.position := by
  cases h with
  | @word skipped text more t h hrule hline =>
    obtain ⟨x, xs, rfl, -⟩ := hrule.starts
    have hsize : 0 < x.utf8Size := x.utf8Size_pos
    simp [Cursor.between]
    omega
  | @stray skipped more x h hline =>
    have hsize : 0 < x.utf8Size := x.utf8Size_pos
    simp [Cursor.between]
    omega
  | nothing => exact absurd rfl (hitem _)

/-- A stray character is not before the place of the call, and the cursor that is left is
    behind it. -/
theorem stray_position {e : StrayCharacter} (h : Finds before rest (.stray e) c) :
    (Cursor.between before rest).position ≤ e.position ∧ e.position < c.position := by
  cases h with
  | @stray skipped more x h hline =>
    have hsize : 0 < x.utf8Size := x.utf8Size_pos
    simp only [Cursor.between, String.ofList_append, String.utf8ByteSize_append]
    simp
    omega

end Finds

/-- The piece at its place is what a call finds, unless it is trivia. -/
theorem Piece.IsLongest.finds {p : Piece} (hp : p.IsLongest) {before : List Char} {item : Item}
    (h : p.item? before = some item) :
    Finds before (p.text ++ p.rest) item (.between (before ++ p.text) p.rest) := by
  have hline := hp.newline_notMem
  unfold Piece.item? at h
  cases hr : p.reading with
  | some t =>
    simp only [hr] at h
    split at h
    · cases h
    · rename_i ht
      obtain rfl := Option.some.inj h
      have hfinds : Finds before ([] ++ (p.text ++ p.rest)) _ _ := .word rfl (hp.reading_iff.1 hr)
        (hline fun u hu => by rwa [Option.some.inj (hu.symm.trans hr)])
      simpa using hfinds
  | none =>
    have hone : p.text.length = 1 := by
      unfold IsLongest at hp
      rw [hr] at hp
      exact hp.1
    obtain ⟨x, hx⟩ := List.length_eq_one_iff.1 hone
    have hfinds : Finds before ([] ++ x :: p.rest) _ _ := .stray rfl (hx ▸ hline (by simp [hr]))
    simp only [hr, hx] at h
    obtain rfl := Option.some.inj h
    simpa [hx] using hfinds

theorem next_finds (before rest : List Char) :
    Finds before rest (Cursor.between before rest).next.1 (Cursor.between before rest).next.2 := by
  obtain ⟨ps, hps⟩ := exists_tiles rest
  generalize hend : ([] : List Char) = last at hps
  induction hps generalizing before with
  | nil last =>
    subst hend
    have hfinds : Finds before [] _ _ := .nothing
    rw [List.append_nil] at hfinds
    rw [Cursor.next_of_nil (c := .between before []) rfl]
    exact hfinds
  | @cons p ps last hp h ih =>
    have hnext := Cursor.next_between hp before
    cases hitem : p.item? before with
    | some item =>
      rw [hitem] at hnext
      rw [hnext]
      exact hp.finds hitem
    | none =>
      rw [hitem] at hnext
      rw [hnext]
      exact (ih (before ++ p.text) hend).behind

/-! ## Any number of calls -/

/-- The cursor always stands between two parts of the text. -/
theorem exists_after (source : String) (k : Nat) :
    ∃ before rest, source.toList = before ++ rest ∧ (Cursor.ofString source).after k = .between before rest := by
  induction k with
  | zero => exact ⟨[], source.toList, rfl, rfl⟩
  | succ k ih =>
    obtain ⟨before, rest, hsource, hafter⟩ := ih
    obtain ⟨before', rest', heq, hnext⟩ := (next_finds before rest).exists_between
    exact ⟨before', rest', hsource.trans heq, by rw [Cursor.after_succ, hafter, hnext]⟩

/-- The call behind the first `k` starts between two parts of the text. -/
theorem exists_finds (source : String) (k : Nat) :
    ∃ before rest, source.toList = before ++ rest ∧ (Cursor.ofString source).after k = .between before rest ∧
      Finds before rest ((Cursor.ofString source).item k) ((Cursor.ofString source).after (k + 1)) := by
  obtain ⟨before, rest, hsource, hafter⟩ := exists_after source k
  refine ⟨before, rest, hsource, hafter, ?_⟩
  rw [Cursor.after_succ, Cursor.item, hafter]
  exact next_finds before rest

theorem exists_finds_of_item {source : String} {k : Nat} {item : Item} (h : (Cursor.ofString source).item k = item) :
    ∃ before rest, source.toList = before ++ rest ∧
      Finds before rest item ((Cursor.ofString source).after (k + 1)) := by
  obtain ⟨before, rest, hsource, -, hfinds⟩ := exists_finds source k
  exact ⟨before, rest, hsource, h ▸ hfinds⟩

/-- The cursor never goes back. -/
theorem position_le_after (source : String) {i j : Nat} (h : i ≤ j) :
    ((Cursor.ofString source).after i).position ≤ ((Cursor.ofString source).after j).position := by
  refine monotone_nat_of_le_succ (f := fun k => ((Cursor.ofString source).after k).position) (fun k => ?_) h
  obtain ⟨before, rest, -, hafter, hfinds⟩ := exists_finds source k
  rw [hafter]
  exact hfinds.position_le

theorem position_lt_after {source : String} {k : Nat}
    (h : ∀ n, (Cursor.ofString source).item k ≠ .token .endOfInput n) :
    ((Cursor.ofString source).after k).position < ((Cursor.ofString source).after (k + 1)).position := by
  obtain ⟨before, rest, -, hafter, hfinds⟩ := exists_finds source k
  rw [hafter]
  exact hfinds.position_lt h

/-- Of two stray characters the one returned first has the lower position. -/
theorem stray_position_lt {source : String} {i j : Nat} (hij : i < j) {e f : StrayCharacter}
    (hi : (Cursor.ofString source).item i = .stray e) (hj : (Cursor.ofString source).item j = .stray f) :
    e.position < f.position := by
  obtain ⟨_, _, -, hfirst⟩ := exists_finds_of_item hi
  obtain ⟨before, rest, -, hafter, hsecond⟩ := exists_finds source j
  rw [hj] at hsecond
  calc e.position
      < ((Cursor.ofString source).after (i + 1)).position := hfirst.stray_position.2
    _ ≤ ((Cursor.ofString source).after j).position := position_le_after source hij
    _ ≤ f.position := by
      rw [hafter]
      exact hsecond.stray_position.1

/-- Lines and positions are those of the text, after any number of calls.

    The line of the cursor is one more than the line feeds in what has been consumed. After a
    call that returns a token this is the line on which the token starts, and at the end of
    the input that of the end of the text, whatever the last line feeds stand in. A stray
    character is the one that stands behind so many bytes of the text as its position says,
    it is on the line of the line feeds before it, and one that is returned later has a
    higher position. -/
theorem after_counts_lines (source : String) :
    (∀ k, ∃ consumed, source.toList = consumed ++ ((Cursor.ofString source).after k).rest ∧
      ((Cursor.ofString source).after k).line = 1 + consumed.count '\n') ∧
    (∀ k t n, (Cursor.ofString source).item k = .token t n → t ≠ .endOfInput → ∃ before text,
      source.toList = before ++ (text ++ ((Cursor.ofString source).after (k + 1)).rest) ∧ Rule text t ∧
      n = 1 + before.count '\n' ∧ ((Cursor.ofString source).after (k + 1)).line = n) ∧
    (∀ k n, (Cursor.ofString source).item k = .token .endOfInput n →
      ((Cursor.ofString source).after (k + 1)).rest = [] ∧ n = 1 + source.toList.count '\n' ∧
      ((Cursor.ofString source).after (k + 1)).line = n) ∧
    (∀ k e, (Cursor.ofString source).item k = .stray e → ∃ before,
      source.toList = before ++ e.character :: ((Cursor.ofString source).after (k + 1)).rest ∧
      e.position = (String.ofList before).utf8ByteSize ∧ e.line = 1 + before.count '\n' ∧
      ((Cursor.ofString source).after (k + 1)).line = e.line) ∧
    ∀ i j e f, i < j → (Cursor.ofString source).item i = .stray e → (Cursor.ofString source).item j = .stray f →
      e.position < f.position := by
  refine ⟨fun k => ?_, fun k t n hitem ht => ?_, fun k n hitem => ?_, fun k e hitem => ?_,
    fun i j e f hij hi hj => stray_position_lt hij hi hj⟩
  · obtain ⟨before, rest, hsource, hafter⟩ := exists_after source k
    rw [hafter]
    exact ⟨before, hsource, rfl⟩
  · obtain ⟨before, rest, hsource, hfinds⟩ := exists_finds_of_item hitem
    obtain ⟨skipped, text, hrest, hrule, hn, hline⟩ := hfinds.of_token ht
    exact ⟨before ++ skipped, text, by rw [hsource, hrest, List.append_assoc], hrule, hn, hline⟩
  · obtain ⟨before, rest, hsource, hfinds⟩ := exists_finds_of_item hitem
    obtain ⟨hn, hafter⟩ := hfinds.of_endOfInput
    rw [hafter, hsource]
    exact ⟨rfl, hn, hn.symm⟩
  · obtain ⟨before, rest, hsource, hfinds⟩ := exists_finds_of_item hitem
    obtain ⟨skipped, hrest, hposition, hn, hline⟩ := hfinds.of_stray
    exact ⟨before ++ skipped, by rw [hsource, hrest, List.append_assoc], hposition, hn, hline⟩

-- the comment is never closed, and the carriage return does not count
example : ((Cursor.ofString "?\r\n\x7b\n?").after 2).line = 3 := by decide +kernel

end Pascaline
