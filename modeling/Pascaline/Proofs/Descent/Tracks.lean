/-
  Pascaline.Proofs.Descent.Tracks — what the steps of a procedure and a reading have in common.

  A reading can be resumed where a procedure has been called, from the token ahead and the
  items pulled so far (`Reading.resume`). The steps of the procedure then end as the reading
  does: in the same error with the same items pulled, or so that the result is right
  (`Tracks`). Each kind of step has a rule for it. Where one token is due (`Awaits`) the
  procedure and the reading expect the same, at every place in the grammar.
-/

import Pascaline.Proofs.Descent.Basic
import Pascaline.Proofs.Reading.Taken

namespace Pascaline

namespace Reading

/-! ## Readings that are resumed -/

open Descent

/-- What a reading comes to from a cursor, and the items that have been pulled by then. -/
def proceed (r : Reading) (c : Cursor) (pulled : List Item) : Except Error Tree × List Item :=
  ((r.run c).1, pulled ++ r.taken c.items)

/-- The same where the next token has been pulled already. -/
def resume (r : Reading) (s : Lookahead) : Except Error Tree × List Item :=
  match r.accept? s.token s.line with
  | some q => q.proceed s.cursor s.pulled
  | none => (r.verdict s.token s.line, s.pulled)

variable {r q : Reading} {s : Lookahead}

theorem resume_accept (h : r.accept? s.token s.line = some q) : r.resume s = q.proceed s.cursor s.pulled := by
  rw [resume, h]

theorem resume_refuse (h : r.accept? s.token s.line = none) (hdue : r.due?.isSome) :
    r.resume s = (.error (.grammar (r.reject s.token s.line)), s.pulled) := by
  rw [resume, h, ← verdict_eq_error hdue]

/-- Readings that do the same with the token ahead come to the same. -/
theorem resume_congr (haccept : r.accept? s.token s.line = q.accept? s.token s.line)
    (hreject : r.reject s.token s.line = q.reject s.token s.line) (hr : r.due?.isSome) (hq : q.due?.isSome) :
    r.resume s = q.resume s := by
  unfold resume
  rw [haccept, verdict_eq_error hr, verdict_eq_error hq, hreject]

theorem reject_eq_unexpected {e : Expectation} {t : Token} (hdue : r.due? = some e)
    (hname : r.endsStatement → ∀ x, t ≠ .name x) (n : Nat) : r.reject t n = .unexpected e t n := by
  unfold reject
  rw [hdue]
  split
  · contradiction
  · rename_i e' x he
    obtain rfl := Option.some.inj he
    split
    · rename_i hends
      exact absurd rfl (hname hends x)
    · rfl
  · rename_i e' he _
    rw [Option.some.inj he]

/-- What is due where only one token is, and the reading behind it. -/
def only? : Reading → Option (Expectation × Reading)
  | .opening => some (.keyword .program, .title)
  | .titleEnd name => some (.symbol .semicolon, .sections ⟨name, #[]⟩)
  | .groupEnd h => some (.symbol .semicolon, .nextGroup h)
  | .assigning b target => some (.symbol .assign, .operand ⟨b, target, []⟩ .start)
  | .closing h body => some (.symbol .dot, .complete (.program h.program (.block h.declared.toList body)))
  | _ => none

end Reading

namespace Descent

open Reading

variable {α β : Type} {x : Except Error Tree × List Item}

/-! ## Steps that track a reading -/

/-- A procedure ends as the reading does that comes to `x`: with the same error, or so that the
    result is right. -/
def Tracks (x : Except Error Tree × List Item) (P : α → Lookahead → Prop) : Ending α → Prop
  | .returns a s => P a s
  | .fails e pulled => x = (.error e, pulled)
  | .exhausted => True

theorem Tracks.andThen {P : α → Lookahead → Prop} {Q : β → Lookahead → Prop} {o : Ending α}
    {next : α → Lookahead → Ending β} (h : Tracks x P o) (hnext : ∀ a s, P a s → Tracks x Q (next a s)) :
    Tracks x Q (o.andThen next) := by
  cases o with
  | returns a s => exact hnext a s h
  | fails e pulled => exact h
  | exhausted => trivial

/-- The reading goes on with the item that is pulled. -/
theorem tracks_pull (r : Reading) (c : Cursor) (pulled : List Item) :
    Tracks (r.proceed c pulled) (fun _ s => r.proceed c pulled = r.resume s) (pull c pulled) := by
  unfold pull
  split
  · rename_i t n hnext
    have hline : c.next.2.line = n := Cursor.next_line hnext
    show r.proceed c pulled = r.resume ⟨t, c.next.2, pulled ++ [c.next.1]⟩
    simp only [proceed, resume, Lookahead.line, hline]
    rw [Cursor.items_eq_cons c, hnext]
    cases haccept : r.accept? t n with
    | some q =>
      have hlast : ¬(Item.token t n).isLast := by simpa [Item.isLast] using ne_endOfInput_of_accept? haccept
      rw [run_accept hnext haccept, if_neg hlast, taken, haccept]
      simp
    | none =>
      rw [run_refuse hnext haccept, taken, haccept]
  · rename_i e hnext
    show r.proceed c pulled = (.error (.stray e), pulled ++ [c.next.1])
    rw [proceed, Cursor.items_eq_cons c, hnext, run_refused hnext id, taken]
    rfl

variable {onCall : (p : Procedure) → Lookahead → Ending p.Result} {s : Lookahead} {r q : Reading}

theorem exec_look (next : Token → Nat → Steps α) (s : Lookahead) :
    (Steps.look next).exec onCall s = (next s.token s.line).exec onCall s := rfl

theorem tracks_advance {next : Steps α} {Q : α → Lookahead → Prop} (hx : x = r.resume s)
    (h : r.accept? s.token s.line = some q) (hnext : ∀ u, x = q.resume u → Tracks x Q (next.exec onCall u)) :
    Tracks x Q ((Steps.advance next).exec onCall s) := by
  rw [resume_accept h] at hx
  subst hx
  exact (tracks_pull q s.cursor s.pulled).andThen fun _ u => hnext u

theorem tracks_fail {why : Token → Nat → GrammarError} {Q : α → Lookahead → Prop} (hx : x = r.resume s)
    (h : r.accept? s.token s.line = none) (hdue : r.due?.isSome)
    (hwhy : r.reject s.token s.line = why s.token s.line) : Tracks x Q ((Steps.fail why).exec onCall s) := by
  rw [resume_refuse h hdue, hwhy] at hx
  exact hx

theorem tracks_unexpected {e : Expectation} {Q : α → Lookahead → Prop} (hx : x = r.resume s) (hdue : r.due? = some e)
    (hends : r.endsStatement = false) (h : r.accept? s.token s.line = none) :
    Tracks x Q ((Steps.fail (.unexpected e)).exec onCall s) :=
  tracks_fail hx h (by simp [hdue]) (reject_eq_unexpected hdue (by simp [hends]) _)

theorem tracks_call {p : Procedure} {next : p.Result → Steps α} {P : p.Result → Lookahead → Prop}
    {Q : α → Lookahead → Prop} (h : Tracks x P (onCall p s))
    (hnext : ∀ a u, P a u → Tracks x Q ((next a).exec onCall u)) :
    Tracks x Q ((Steps.call p next).exec onCall s) := h.andThen hnext

/-- Of the token ahead the reading takes what is due and goes on with `q`; anything else is
    unexpected. -/
structure Awaits (r : Reading) (e : Expectation) (s : Lookahead) (q : Reading) : Prop where
  accept : e.admits s.token → r.accept? s.token s.line = some q
  refuse : ¬e.admits s.token → r.resume s = (.error (.grammar (.unexpected e s.token s.line)), s.pulled)

theorem Awaits.of_due {e : Expectation} (hdue : r.due? = some e) (hname : r.endsStatement → ∀ y, s.token ≠ .name y)
    (h : r.accept? s.token s.line = if e.admits s.token then some q else none) : Awaits r e s q where
  accept hadmits := by rw [h, if_pos hadmits]
  refuse hadmits := by
    rw [if_neg hadmits] at h
    rw [resume_refuse h (by simp [hdue]), reject_eq_unexpected hdue hname]

theorem tracks_expect {e : Expectation} {next : Steps α} {Q : α → Lookahead → Prop} (hx : x = r.resume s)
    (h : Awaits r e s q) (hnext : ∀ u, x = q.resume u → Tracks x Q (next.exec onCall u)) :
    Tracks x Q ((expect e next).exec onCall s) := by
  show Tracks x Q (Steps.exec onCall (if e.admits s.token then _ else _) s)
  split
  · rename_i hadmits
    exact tracks_advance hx (h.accept hadmits) hnext
  · rename_i hadmits
    exact hx.trans (h.refuse hadmits)

theorem tracks_expectName {next : Name → Steps α} {Q : α → Lookahead → Prop} {q : Name → Reading} (hx : x = r.resume s)
    (hdue : r.due? = some .name) (hends : r.endsStatement = false)
    (haccept : ∀ t n, r.accept? t n = match t with | .name y => some (q ⟨y, n⟩) | _ => none)
    (hnext : ∀ y u, x = (q y).resume u → Tracks x Q ((next y).exec onCall u)) :
    Tracks x Q ((expectName next).exec onCall s) := by
  have hs := haccept s.token s.line
  show Tracks x Q (Steps.exec onCall (match s.token with | .name y => _ | _ => _) s)
  split
  · rename_i y hy
    rw [hy] at hs
    exact tracks_advance hx (by rw [hy, hs]) (hnext ⟨y, s.line⟩)
  · rename_i hname
    refine tracks_unexpected hx hdue hends ?_
    rw [hs]
    split
    · rename_i y hy
      exact absurd hy (hname y)
    · rfl

/-! ## Places in the grammar -/

/-- Neither another statement nor a name that lacks a semicolon. -/
def EndsList (t : Token) : Prop := t ≠ .symbol .semicolon ∧ ∀ y, t ≠ .name y

theorem awaits_only {e : Expectation} (h : r.only? = some (e, q)) : Awaits r e s q := by
  cases r with
  | opening | titleEnd | groupEnd | assigning | closing =>
    obtain ⟨rfl, rfl⟩ := Prod.mk.inj (Option.some.inj h)
    refine .of_due rfl nofun ?_
    cases s.token with
    | keyword k => cases k <;> rfl
    | symbol k => cases k <;> rfl
    | _ => rfl
  | _ => cases h

theorem awaits_colon (h : Heading) (group : Array Name) (ht : s.token ≠ .symbol .comma) :
    Awaits (.declared h group) (.symbol .colon) s (.typing h group) := by
  refine .of_due rfl nofun ?_
  cases hs : s.token with
  | symbol k =>
    cases k with
    | comma => exact absurd hs ht
    | _ => rfl
  | _ => rfl

theorem awaits_sections (h : Heading) (ht : s.token ≠ .keyword .var) :
    Awaits (.sections h) (.keyword .beginBody) s (.statement (.ofHeading h)) := by
  refine .of_due rfl nofun ?_
  cases hs : s.token with
  | keyword k =>
    cases k with
    | var => exact absurd hs ht
    | _ => rfl
  | _ => rfl

theorem awaits_nextGroup (h : Heading) (ht : ∀ y, s.token ≠ .name y) :
    Awaits (.nextGroup h) (.keyword .beginBody) s (.statement (.ofHeading h)) := by
  refine .of_due rfl nofun ?_
  cases hs : s.token with
  | name y => exact absurd hs (ht y)
  | keyword k => cases k <;> rfl
  | _ => rfl

theorem awaits_endBody (b : Body) (ht : EndsList s.token) : Awaits (.separator b) (.keyword .endBody) s b.close := by
  refine .of_due rfl (fun _ => ht.2) ?_
  cases hs : s.token with
  | symbol k =>
    cases k with
    | semicolon => exact absurd hs ht.1
    | _ => rfl
  | keyword k => cases k <;> rfl
  | _ => rfl

theorem awaits_nest (b : Body) (ht : s.token = .keyword .beginBody) :
    Awaits (.statement b) (.keyword .beginBody) s (.statement b.nest) where
  accept _ := by rw [ht]; rfl
  refuse h := absurd (by rw [ht]; rfl) h

/-- Around the expression a parenthesis is open. -/
theorem awaits_closeParen (a : Assignment) (level : Level) (value : Tree) (ht : EndsExpression s.token) :
    Awaits (.operator { a with outer := level :: a.outer } none value) (.symbol .closeParen) s
      (a.supply level value) := by
  refine .of_due rfl nofun ?_
  rw [EndsExpression] at ht
  simp only [accept?, Assignment.operator?, ht, Expectation.admits_symbol]
  rfl

/-- A sum and its last term say no more than the whole of it, unless a factor follows. -/
theorem resume_operator (a : Assignment) (sum : Option Pending) (term : Tree) (ht : EndsTerm s.token) :
    (Reading.operator a sum term).resume s = (Reading.operator a none (Pending.complete sum term)).resume s := by
  refine resume_congr ?_ rfl rfl rfl
  cases h : s.token.operator? with
  | none => exact accept?_operator h a sum term s.line
  | some op =>
    have hop := Token.operator?_eq_some_iff.1 h
    simp only [accept?, Assignment.operator?, h]
    cases op with
    | plus | minus => rfl
    | times => exact absurd hop (ht .times)
    | intDiv => exact absurd hop (ht .intDiv)
    | div => exact absurd hop (ht .div)

/-- Behind the value of an assignment the statement is over. -/
theorem resume_assigned (b : Body) (target : Name) (value : Tree) (ht : EndsExpression s.token) :
    (Reading.operator ⟨b, target, []⟩ none value).resume s =
      (Reading.separator (b.add (.assign target.tree value))).resume s := by
  refine resume_congr ?_ rfl rfl rfl
  rw [EndsExpression] at ht
  simp only [accept?, Assignment.operator?, ht]
  rfl

/-- Where no statement begins the empty one is over. -/
theorem resume_empty (b : Body) (hbegin : s.token ≠ .keyword .beginBody) (hname : ∀ y, s.token ≠ .name y) :
    (Reading.statement b).resume s = (Reading.separator (b.add .empty)).resume s := by
  refine resume_congr ?_ ?_ rfl rfl
  · cases hs : s.token with
    | keyword k =>
      cases k with
      | beginBody => exact absurd hs hbegin
      | _ => rfl
    | name y => exact absurd hs (hname y)
    | _ => rfl
  · rw [reject_eq_unexpected (r := .statement b) rfl nofun, reject_eq_unexpected (r := .separator _) rfl fun _ => hname]

/-- A name after a group is the first one of another group. -/
theorem resume_nextGroup (h : Heading) {y : String} (ht : s.token = .name y) :
    (Reading.nextGroup h).resume s = (Reading.declaring h #[]).resume s := by
  unfold resume
  rw [ht]
  rfl

end Descent

end Pascaline
