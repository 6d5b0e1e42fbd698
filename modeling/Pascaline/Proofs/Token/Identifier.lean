/-
  Pascaline.Proofs.Token.Identifier — the names in a text are identifiers.

  An identifier is a letter with letters and digits behind it, and no reserved word. Only a
  word is read as a name (`Piece.identifier`), so all names among the items of a text are
  identifiers (`Cursor.items_identifiers`).
-/

import Mathlib.Data.List.TakeWhile
import Pascaline.Token.Cursor

namespace Pascaline

/-- `[a-zA-Z][a-zA-Z0-9]*`, and not a reserved word. -/
structure IsIdentifier (s : String) : Prop where
  word : ∃ c cs, s.toList = c :: cs ∧ c.isAlpha ∧ ∀ d ∈ cs, d.isAlphanum
  notReserved : ∀ k : Keyword, s ≠ k.spelling

theorem isIdentifier_iff {s : String} : IsIdentifier s ↔
    (s.toList.head?.any Char.isAlpha ∧ ∀ d ∈ s.toList.tail, d.isAlphanum) ∧ ∀ k ∈ Keyword.all, s ≠ k.spelling := by
  constructor
  · intro h
    obtain ⟨c, cs, hs, hc, hcs⟩ := h.word
    rw [hs]
    exact ⟨⟨hc, hcs⟩, fun k _ => h.notReserved k⟩
  · rintro ⟨⟨hhead, htail⟩, hreserved⟩
    refine ⟨?_, fun k => hreserved k k.mem_all⟩
    cases hs : s.toList with
    | nil => simp [hs] at hhead
    | cons c cs => exact ⟨c, cs, rfl, by simpa [hs] using hhead, by simpa [hs] using htail⟩

/-- The token is a name only if it is an identifier. -/
def Token.NamesIdentifier (t : Token) : Prop := ∀ s, t = .name s → IsIdentifier s

namespace Piece

theorem word_namesIdentifier {c : Char} {cs : List Char} (hc : c.isAlpha) (hcs : ∀ d ∈ cs, d.isAlphanum) :
    (word (c :: cs)).NamesIdentifier := by
  intro s hs
  simp only [word] at hs
  cases hk : Keyword.ofSpelling? (String.ofList (c :: cs)) with
  | some k =>
    rw [hk] at hs
    cases hs
  | none =>
    rw [hk] at hs
    obtain rfl := Token.name.inj hs
    refine ⟨⟨c, cs, by simp, hc, hcs⟩, fun k h => ?_⟩
    rw [Keyword.ofSpelling?_eq_some_iff.2 h.symm] at hk
    cases hk

/-- What starts with no letter is no name. -/
theorem identifier {c : Char} {cs : List Char} {t : Token} (h : (cut c cs).reading = some t) : t.NamesIdentifier := by
  unfold cut at h
  split at h
  · obtain rfl := Option.some.inj h
    exact nofun
  split at h
  · unfold comment at h
    split at h <;> (obtain rfl := Option.some.inj h; exact nofun)
  split at h
  · unfold number at h
    split at h <;> (obtain rfl := Option.some.inj h; exact nofun)
  split at h
  · rename_i halpha
    obtain rfl := Option.some.inj h
    exact word_namesIdentifier halpha fun d hd => List.mem_takeWhile_imp hd
  · unfold sign at h
    split at h
    · obtain rfl := Option.some.inj h
      exact nofun
    · obtain ⟨s, -, rfl⟩ := Option.map_eq_some_iff.1 h
      exact nofun

end Piece

namespace Cursor

theorem next_identifier {c : Cursor} {t : Token} {n : Nat} (h : c.next.1 = .token t n) : t.NamesIdentifier := by
  fun_induction next c with
  | case1 c =>
    obtain ⟨rfl, -⟩ := Item.token.inj h
    rintro _ ⟨⟩
  | case2 c x xs e piece hstray => cases h
  | case3 c x xs e piece u hu htrivia ih => exact ih h
  | case4 c x xs e piece u hu htrivia =>
    obtain ⟨rfl, -⟩ := Item.token.inj h
    exact Piece.identifier hu

theorem items_identifiers {c : Cursor} {t : Token} {n : Nat} (h : .token t n ∈ c.items) : t.NamesIdentifier := by
  fun_induction items c with
  | case1 c hlast => exact next_identifier (List.mem_singleton.1 h).symm
  | case2 c hlast ih =>
    rcases List.mem_cons.1 h with hnext | hmem
    · exact next_identifier hnext.symm
    · exact ih hmem

end Cursor

end Pascaline
