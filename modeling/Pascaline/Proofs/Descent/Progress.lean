/-
  Pascaline.Proofs.Descent.Progress — no procedure is entered again before a token has been
  consumed.

  Procedures have ranks. As long as a procedure has consumed nothing it calls procedures of
  lower rank only, and it never pulls an item behind the end of the input (`Steps.Guarded`,
  `body_guarded`). So a call that is reached from another one, through any number of calls,
  stands at a later token or at the same one with a lower rank (`transGen_calls_below`).

  What is ahead falls with every token that is consumed (`pull_consumes`), and it is at most
  the length of the text: `18` calls for every character of it are fuel enough
  (`enter_ne_exhausted`).
-/

import Mathlib.Logic.Relation
import Pascaline.Proofs.Descent.Basic

namespace Pascaline.Descent

/-- The place of a procedure in the order in which they call each other at one token. -/
def Procedure.rank : Procedure → Nat
  | .var => 0
  | .typeName => 1
  | .names _ => 2
  | .multipliers _ => 3
  | .factor => 4
  | .term => 5
  | .summands _ => 6
  | .expression => 7
  | .assignment => 8
  | .compound => 9
  | .statement => 10
  | .moreStatements _ => 11
  | .statements => 12
  | .group => 13
  | .groups _ => 14
  | .declarations => 15
  | .block => 16
  | .program => 17

theorem Procedure.rank_lt (p : Procedure) : p.rank < 18 := by cases p <;> simp [rank]

/-! ## What a body may do -/

variable {α β : Type}

/-- Calls are of lower rank than the bound, which there is until an item has been pulled, and
    none is pulled behind the end of the input. -/
def Steps.Guarded : Steps α → Option Nat → Token → Prop
  | .done _, _, _ | .fail _, _, _ => True
  | .look next, bound, t => ∀ n, (next t n).Guarded bound t
  | .advance next, _, t => t ≠ .endOfInput ∧ ∀ u, next.Guarded none u
  | .call p next, bound, _ => (∀ m ∈ bound, p.rank < m) ∧ ∀ a u, (next a).Guarded bound u

@[simp] theorem guarded_expect {e : Expectation} {next : Steps α} {bound : Option Nat} {t : Token} :
    (expect e next).Guarded bound t ↔ (e.admits t → ∀ u, next.Guarded none u) := by
  have hend : e.admits t → t ≠ .endOfInput := by
    rintro h rfl
    cases e <;> cases h
  by_cases h : e.admits t
  · simp [expect, Steps.Guarded, h, hend h]
  · simp [expect, Steps.Guarded, h]

@[simp] theorem guarded_expectName {next : Name → Steps α} {bound : Option Nat} {t : Token} :
    (expectName next).Guarded bound t ↔ ∀ s, t = .name s → ∀ n u, (next ⟨s, n⟩).Guarded none u := by
  cases t <;> simp [expectName, Steps.Guarded]

theorem body_guarded (p : Procedure) (t : Token) : p.body.Guarded (some p.rank) t := by
  cases p with
  | program | block | group | compound | statements | assignment | var | expression | term =>
    simp [Procedure.body, Steps.Guarded, Procedure.rank]
  | declarations | moreStatements before | typeName | statement | factor =>
    intro n
    dsimp only
    split <;> simp [Steps.Guarded, Procedure.rank]
  | summands left | multipliers left =>
    intro n
    dsimp only
    split
    · rename_i op hop
      refine ⟨?_, by simp [Steps.Guarded]⟩
      rintro rfl
      cases hop
    · trivial
  | groups before =>
    simp only [Procedure.body, Steps.Guarded, guarded_expect]
    refine ⟨by simp [Procedure.rank], fun ds u _ v n => ?_⟩
    split <;> simp [Steps.Guarded]
  | names before =>
    simp only [Procedure.body, guarded_expectName]
    intro s _ n u m
    dsimp only
    split <;> simp [Steps.Guarded]

/-! ## What a run consumes -/

/-- What is left to consume: the token ahead and the characters behind it. -/
def Lookahead.ahead (s : Lookahead) : Nat := if s.token = .endOfInput then 0 else s.cursor.rest.length + 1

/-- An item has been pulled since, and less is left. -/
def Consumed (s u : Lookahead) : Prop := s.pulled.length < u.pulled.length ∧ u.ahead < s.ahead

/-- The run is where it was or has consumed something. -/
def Onward (s u : Lookahead) : Prop := u = s ∨ Consumed s u

variable {s u v : Lookahead}

theorem Consumed.trans (h : Consumed s u) (k : Consumed u v) : Consumed s v :=
  ⟨Nat.lt_trans h.1 k.1, Nat.lt_trans k.2 h.2⟩

theorem Consumed.of_onward (h : Consumed s u) (k : Onward u v) : Consumed s v := by
  rcases k with rfl | k
  · exact h
  · exact h.trans k

theorem Onward.trans (h : Onward s u) (k : Onward u v) : Onward s v := by
  rcases h with rfl | h
  · exact k
  · exact Or.inr (h.of_onward k)

/-- A pulled item is no longer ahead. -/
theorem ahead_of_pull {c : Cursor} {pulled : List Item} (h : pull c pulled = .returns () u) :
    u.ahead ≤ c.rest.length ∧ u.pulled.length = pulled.length + 1 := by
  unfold pull at h
  split at h
  · rename_i t n hnext
    obtain rfl := (Ending.returns.inj h).2
    refine ⟨?_, by simp⟩
    unfold Lookahead.ahead
    split
    · exact Nat.zero_le _
    · rename_i hne
      exact Cursor.next_rest_length_lt fun m e => hne (Item.token.inj (hnext.symm.trans e)).1
  · cases h

/-- Each item that is pulled in front of the end of the input leaves less to consume. -/
theorem pull_consumes (ht : s.token ≠ .endOfInput) (h : pull s.cursor s.pulled = .returns () u) : Consumed s u := by
  obtain ⟨hahead, hpulled⟩ := ahead_of_pull h
  have hs : s.ahead = s.cursor.rest.length + 1 := if_neg ht
  exact ⟨by omega, by omega⟩

theorem pull_ne_exhausted (c : Cursor) (pulled : List Item) : pull c pulled ≠ .exhausted := by
  unfold pull
  split <;> simp

theorem andThen_eq_returns {o : Ending α} {next : α → Lookahead → Ending β} {b : β} :
    o.andThen next = .returns b v ↔ ∃ a u, o = .returns a u ∧ next a u = .returns b v := by
  cases o <;> simp [Ending.andThen, and_assoc]

theorem andThen_eq_exhausted {o : Ending α} {next : α → Lookahead → Ending β} :
    o.andThen next = .exhausted ↔ o = .exhausted ∨ ∃ a u, o = .returns a u ∧ next a u = .exhausted := by
  cases o <;> simp [Ending.andThen, and_assoc]

section Exec

variable {onCall : (p : Procedure) → Lookahead → Ending p.Result}

theorem exec_onward (hcall : ∀ p s a u, onCall p s = .returns a u → Onward s u) {steps : Steps α}
    {bound : Option Nat} (hg : steps.Guarded bound s.token) {a : α} (h : steps.exec onCall s = .returns a u) :
    Onward s u := by
  induction steps generalizing bound s with
  | done b => exact Or.inl (Ending.returns.inj h).2.symm
  | fail why => cases h
  | look next ih => exact ih _ _ (hg s.line) h
  | advance next ih =>
    obtain ⟨_, v, hpull, hnext⟩ := andThen_eq_returns.1 h
    exact Or.inr ((pull_consumes hg.1 hpull).of_onward (ih (hg.2 v.token) hnext))
  | call p next ih =>
    obtain ⟨b, v, hp, hnext⟩ := andThen_eq_returns.1 h
    exact (hcall p s b v hp).trans (ih b (hg.2 b v.token) hnext)

end Exec

/-- A procedure that returns is where it was or has consumed something. -/
theorem enter_onward {fuel : Nat} {p : Procedure} {a : p.Result} (h : enter fuel p s = .returns a u) : Onward s u := by
  induction fuel generalizing p s u with
  | zero => cases h
  | succ fuel ih => exact exec_onward (fun p s a u => ih) (body_guarded p s.token) h

/-! ## Calls inside each other -/

section Comes

variable (onCall : (p : Procedure) → Lookahead → Ending p.Result)

/-- The steps come to a call of the procedure there. -/
inductive Comes : Steps α → Lookahead → Procedure → Lookahead → Prop
  | here {p : Procedure} {next : p.Result → Steps α} {s : Lookahead} : Comes (.call p next) s p s
  | look {next : Token → Nat → Steps α} {s u : Lookahead} {q : Procedure} (h : Comes (next s.token s.line) s q u) :
    Comes (.look next) s q u
  | advance {next : Steps α} {s v u : Lookahead} {q : Procedure} (hpull : pull s.cursor s.pulled = .returns () v)
      (h : Comes next v q u) : Comes (.advance next) s q u
  | behind {p : Procedure} {next : p.Result → Steps α} {a : p.Result} {s v u : Lookahead} {q : Procedure}
      (hcall : onCall p s = .returns a v) (h : Comes (next a) v q u) : Comes (.call p next) s q u

variable {onCall}

/-- A call stands at a later token or at the same one with a rank below the bound. -/
theorem Comes.consumed_or (hcall : ∀ p s a u, onCall p s = .returns a u → Onward s u) {steps : Steps α}
    {q : Procedure} (h : Comes onCall steps s q u) {bound : Option Nat} (hg : steps.Guarded bound s.token) :
    Consumed s u ∨ u = s ∧ ∀ m ∈ bound, q.rank < m := by
  induction h generalizing bound with
  | here => exact Or.inr ⟨rfl, hg.1⟩
  | look h ih => exact ih (hg _)
  | @advance next s v u q hpull h ih =>
    have hconsumed := pull_consumes hg.1 hpull
    rcases ih (hg.2 v.token) with hlater | ⟨rfl, -⟩
    · exact Or.inl (hconsumed.trans hlater)
    · exact Or.inl hconsumed
  | @behind p next a s v u q hp h ih =>
    have hnext := ih (hg.2 a v.token)
    rcases hcall p s a v hp with rfl | hconsumed
    · exact hnext
    · exact Or.inl (hconsumed.of_onward (hnext.symm.imp_left And.left))

/-- Steps run out of fuel only in a call. -/
theorem exists_comes_of_exhausted {steps : Steps α} (h : steps.exec onCall s = .exhausted) :
    ∃ q u, Comes onCall steps s q u ∧ onCall q u = .exhausted := by
  induction steps generalizing s with
  | done b => cases h
  | fail why => cases h
  | look next ih =>
    obtain ⟨q, u, hcomes, hq⟩ := ih _ _ h
    exact ⟨q, u, .look hcomes, hq⟩
  | advance next ih =>
    obtain ⟨_, v, hv, hnext⟩ := (andThen_eq_exhausted.1 h).resolve_left (pull_ne_exhausted _ _)
    obtain ⟨q, u, hcomes, hq⟩ := ih hnext
    exact ⟨q, u, .advance hv hcomes, hq⟩
  | call p next ih =>
    rcases andThen_eq_exhausted.1 h with hp | ⟨a, v, hp, hnext⟩
    · exact ⟨p, s, .here, hp⟩
    · obtain ⟨q, u, hcomes, hq⟩ := ih a hnext
      exact ⟨q, u, .behind hp hcomes, hq⟩

end Comes

/-- A call that has not ended. -/
structure Frame where
  fuel : Nat
  procedure : Procedure
  lookahead : Lookahead

/-- The call comes to the other one. -/
inductive Calls : Frame → Frame → Prop
  | mk {fuel : Nat} {p q : Procedure} {s u : Lookahead} (h : Comes (enter fuel) p.body s q u) :
    Calls ⟨fuel + 1, p, s⟩ ⟨fuel, q, u⟩

/-- At a later token, or at the same one with a lower rank. -/
def Frame.Below (f g : Frame) : Prop :=
  Consumed f.lookahead g.lookahead ∨ g.lookahead = f.lookahead ∧ g.procedure.rank < f.procedure.rank

theorem Frame.Below.trans {f g h : Frame} (hfg : f.Below g) (hgh : g.Below h) : f.Below h := by
  rcases hfg with hfg | ⟨hfg, hrank⟩
  · exact Or.inl (hfg.of_onward (hgh.symm.imp_left And.left))
  · unfold Below at hgh ⊢
    rw [hfg] at hgh
    exact hgh.imp_right fun h => ⟨h.1, Nat.lt_trans h.2 hrank⟩

theorem calls_below {f g : Frame} (h : Calls f g) : f.Below g := by
  obtain ⟨hcomes⟩ := h
  rename_i fuel p q s u
  have hbelow := hcomes.consumed_or (fun p s a u => enter_onward) (body_guarded p s.token)
  exact hbelow.imp_right fun h => ⟨h.1, h.2 _ rfl⟩

/-- However many calls lie between, the inner one stands at a later token or has a lower rank. -/
theorem transGen_calls_below {f g : Frame} (h : Relation.TransGen Calls f g) : f.Below g := by
  induction h with
  | single h => exact calls_below h
  | tail _ h ih => exact ih.trans (calls_below h)

/-! ## Fuel -/

/-- What can still be called from here, one inside the other. -/
def depth (p : Procedure) (s : Lookahead) : Nat := 18 * s.ahead + p.rank

theorem Frame.Below.depth_lt {f g : Frame} (h : f.Below g) :
    depth g.procedure g.lookahead < depth f.procedure f.lookahead := by
  have hrank := g.procedure.rank_lt
  unfold depth
  rcases h with h | ⟨hsame, hlt⟩
  · have hahead := h.2
    omega
  · rw [hsame]
    omega

theorem enter_ne_exhausted {fuel : Nat} {p : Procedure} (h : depth p s < fuel) : enter fuel p s ≠ .exhausted := by
  induction fuel generalizing p s with
  | zero => omega
  | succ fuel ih =>
    intro hexhausted
    obtain ⟨q, u, hcomes, hq⟩ := exists_comes_of_exhausted hexhausted
    have hlt : depth q u < depth p s := (calls_below (.mk hcomes)).depth_lt
    exact ih (by omega) hq

theorem whole_ne_exhausted {fuel : Nat} (h : 18 * s.ahead + 17 < fuel) : whole.exec (enter fuel) s ≠ .exhausted := by
  have hwhole : whole.Guarded (some 18) s.token := by
    refine ⟨by simp [Procedure.rank], fun tree u n => ?_⟩
    dsimp only
    split <;> trivial
  intro hexhausted
  obtain ⟨q, u, hcomes, hq⟩ := exists_comes_of_exhausted hexhausted
  refine enter_ne_exhausted ?_ hq
  have hrank := q.rank_lt
  unfold depth
  rcases hcomes.consumed_or (fun p s a u => enter_onward) hwhole with hlater | ⟨rfl, -⟩
  · have hahead := hlater.2
    omega
  · omega

/-- Fuel in proportion to the length of the text is enough. -/
theorem parse_ne_none {fuel : Nat} {source : String} (h : 18 * (source.length + 1) ≤ fuel) :
    parse fuel source ≠ none := by
  have hexec : (pull (.ofString source) []).andThen (fun _ s => whole.exec (enter fuel) s) ≠ .exhausted := by
    intro hexhausted
    obtain ⟨_, s, hs, hwhole⟩ := (andThen_eq_exhausted.1 hexhausted).resolve_left (pull_ne_exhausted _ _)
    have hahead : s.ahead ≤ source.length := by
      rw [← String.length_toList]
      exact (ahead_of_pull hs).1
    exact whole_ne_exhausted (by omega) hwhole
  unfold parse
  split
  · simp
  · simp
  · contradiction

end Pascaline.Descent
