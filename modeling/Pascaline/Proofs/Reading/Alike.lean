/-
  Pascaline.Proofs.Reading.Alike — what is read behind statement lists that are alike.

  The reader never looks into the statements that it has read. Take a relation of statement
  lists that lasts when both lists get the same statement, or related lists as statements of
  their own (`Lasting`). Two readings that hold related lists at every depth, and are the
  same else (`Reading.Alike`), accept the same tokens and hold related lists behind each of
  them (`Alike.accept?`). So what leads the one to the end of a program does so for the
  other, and the statement lists of the two programs are related (`Alike.ends`).
-/

import Mathlib.Data.List.Forall2
import Pascaline.Proofs.Reading.Derives

namespace Pascaline

/-- The relation lasts while statements are added to both lists. -/
structure Lasting (R : List Tree → List Tree → Prop) : Prop where
  refl (ss : List Tree) : R ss ss
  add {ss ss' : List Tree} (h : R ss ss') (s : Tree) : R (ss ++ [s]) (ss' ++ [s])
  nest {us us' ss ss' : List Tree} (hu : R us us') (hs : R ss ss') : R (us ++ [.compound ss]) (us' ++ [.compound ss'])

/-- Related lists are open at each depth. -/
structure Body.Alike (R : List Tree → List Tree → Prop) (b b' : Body) : Prop where
  heading : b.heading = b'.heading
  inner : R b.inner.toList b'.inner.toList
  outer : List.Forall₂ (fun us us' => R us.toList us'.toList) b.outer b'.outer

/-- The readings are at one place, with related lists. -/
inductive Reading.Alike (R : List Tree → List Tree → Prop) : Reading → Reading → Prop
  | statement {b b' : Body} (h : b.Alike R b') : Alike R (.statement b) (.statement b')
  | assigning {b b' : Body} (h : b.Alike R b') (target : Name) : Alike R (.assigning b target) (.assigning b' target)
  | operand {b b' : Body} (h : b.Alike R b') (target : Name) (outer : List Level) (level : Level) :
      Alike R (.operand ⟨b, target, outer⟩ level) (.operand ⟨b', target, outer⟩ level)
  | operator {b b' : Body} (h : b.Alike R b') (target : Name) (outer : List Level) (sum : Option Pending)
      (term : Tree) :
      Alike R (.operator ⟨b, target, outer⟩ sum term) (.operator ⟨b', target, outer⟩ sum term)
  | separator {b b' : Body} (h : b.Alike R b') : Alike R (.separator b) (.separator b')
  | closing (heading : Heading) {ss ss' : List Tree} (h : R ss ss') :
      Alike R (.closing heading (.compound ss)) (.closing heading (.compound ss'))
  | complete (name : String) (declarations : List Tree) {ss ss' : List Tree} (h : R ss ss') :
      Alike R (.complete (.program name (.block declarations (.compound ss))))
        (.complete (.program name (.block declarations (.compound ss'))))

variable {R : List Tree → List Tree → Prop}

/-! ## Statement lists -/

namespace Body.Alike

variable {b b' : Body}

/-- With related lists innermost, and the same lists around them. -/
theorem of_inner (hR : Lasting R) (b : Body) {ss ss' : Array Tree} (h : R ss.toList ss'.toList) :
    ({ b with inner := ss } : Body).Alike R { b with inner := ss' } where
  heading := rfl
  inner := h
  outer := List.forall₂_same.2 fun us _ => hR.refl us.toList

theorem add (hR : Lasting R) (h : b.Alike R b') (s : Tree) : (b.add s).Alike R (b'.add s) where
  heading := h.heading
  inner := by simpa [Body.add] using hR.add h.inner s
  outer := h.outer

theorem nest (hR : Lasting R) (h : b.Alike R b') : b.nest.Alike R b'.nest where
  heading := h.heading
  inner := hR.refl []
  outer := .cons h.inner h.outer

theorem close (hR : Lasting R) (h : b.Alike R b') : b.close.Alike R b'.close := by
  obtain ⟨heading, inner, outer⟩ := b
  obtain ⟨heading', inner', outer'⟩ := b'
  obtain ⟨rfl, hinner, houter⟩ := h
  cases houter with
  | nil => exact .closing heading hinner
  | cons hlist houter => exact .separator ⟨rfl, by simpa using hR.nest hlist hinner, houter⟩

theorem accept? (hR : Lasting R) (h : b.Alike R b') (t : Token) :
    Option.Rel (Reading.Alike R) (b.accept? t) (b'.accept? t) := by
  unfold Body.accept?
  split
  · exact .some (.statement h)
  · exact .some (h.close hR)
  · exact .none

end Body.Alike

/-! ## Steps -/

namespace Reading.Alike

variable {b b' : Body}

theorem accept?_statement (hR : Lasting R) (h : b.Alike R b') (t : Token) (n : Nat) :
    Option.Rel (Alike R) ((Reading.statement b).accept? t n) ((Reading.statement b').accept? t n) := by
  have hempty := (h.add hR .empty).accept? hR t
  cases t with
  | name s => exact .some (.assigning h _)
  | keyword k =>
    cases k with
    | beginBody => exact .some (.statement (h.nest hR))
    | _ => exact hempty
  | _ => exact hempty

theorem accept?_operand (h : b.Alike R b') (target : Name) (outer : List Level) (level : Level) (t : Token) (n : Nat) :
    Option.Rel (Alike R) ((Reading.operand ⟨b, target, outer⟩ level).accept? t n)
      ((Reading.operand ⟨b', target, outer⟩ level).accept? t n) := by
  have hsupply : ∀ factor, Option.Rel (Alike R) (some (Assignment.supply ⟨b, target, outer⟩ level factor))
      (some (Assignment.supply ⟨b', target, outer⟩ level factor)) :=
    fun factor => .some (.operator h target outer _ _)
  cases t with
  | integer v => exact hsupply _
  | real v => exact hsupply _
  | name s => exact hsupply _
  | symbol s =>
    cases s with
    | plus => exact .some (.operand h target outer _)
    | minus => exact .some (.operand h target outer _)
    | openParen => exact .some (.operand h target _ _)
    | _ => exact .none
  | _ => exact .none

theorem accept?_operator (hR : Lasting R) (h : b.Alike R b') (target : Name) (outer : List Level)
    (sum : Option Pending) (term : Tree) (t : Token) (n : Nat) :
    Option.Rel (Alike R) ((Reading.operator ⟨b, target, outer⟩ sum term).accept? t n)
      ((Reading.operator ⟨b', target, outer⟩ sum term).accept? t n) := by
  simp only [accept?, Assignment.operator?]
  split
  · split <;> exact .some (.operand h target outer _)
  · cases outer with
    | nil => exact (h.add hR _).accept? hR t
    | cons level outer =>
      simp only
      split
      · exact .some (.operator h target outer _ _)
      · exact .none

variable {r r' : Reading}

/-- Alike readings accept the same tokens, and are alike behind them. -/
theorem accept? (hR : Lasting R) (h : r.Alike R r') (t : Token) (n : Nat) :
    Option.Rel (Alike R) (r.accept? t n) (r'.accept? t n) := by
  cases h with
  | statement h => exact accept?_statement hR h t n
  | assigning h target =>
    cases t with
    | symbol s =>
      cases s with
      | assign => exact .some (.operand h target [] .start)
      | _ => exact .none
    | _ => exact .none
  | operand h target outer level => exact accept?_operand h target outer level t n
  | operator h target outer sum term => exact accept?_operator hR h target outer sum term t n
  | separator h => exact h.accept? hR t
  | closing heading h =>
    cases t with
    | symbol s =>
      cases s with
      | dot => exact .some (.complete heading.program heading.declared.toList h)
      | _ => exact .none
    | _ => exact .none
  | complete name declarations h => exact .none

/-! ## Programs -/

/-- What the first of two alike readings can be followed by, the second one can. -/
theorem readAll? (hR : Lasting R) (h : r.Alike R r') {ls : List Lexeme} {s : Reading} (hs : r.readAll? ls = some s) :
    ∃ s', r'.readAll? ls = some s' ∧ s.Alike R s' := by
  induction ls generalizing r r' with
  | nil =>
    obtain rfl := Option.some.inj hs
    exact ⟨r', rfl, h⟩
  | cons l ls ih =>
    rw [readAll?_cons] at hs ⊢
    obtain ⟨x, hx, hs⟩ := Option.bind_eq_some_iff.1 hs
    have hstep := h.accept? hR l.token l.line
    rw [hx] at hstep
    generalize r'.accept? l.token l.line = out at hstep ⊢
    cases hstep with | some halike =>
    exact ih halike hs

/-- What leads the first to the end leads the second to the end of a program with the same
    head and a related list of statements. -/
theorem ends (hR : Lasting R) (h : r.Alike R r') {ls : List Lexeme} {p : Tree} (hp : r.Ends ls p) :
    ∃ name declarations ss ss', p = .program name (.block declarations (.compound ss)) ∧
      r'.Ends ls (.program name (.block declarations (.compound ss'))) ∧ R ss ss' := by
  obtain ⟨s', hs', halike⟩ := h.readAll? hR hp
  cases halike with
  | complete name declarations hlists => exact ⟨name, declarations, _, _, rfl, hs', hlists⟩

end Reading.Alike

end Pascaline
