/-
  Pascaline.Proofs.Tree.Events — how a run ends can be read off the tree.

  The events of a tree are the reads and writes of variables, and the places where a run
  must stop, in the order in which a run comes to them. No value plays a part: an event ends
  the run because of the names that are known when it is reached (`Event.error?`), and these
  are the names that the table starts with and those written before.

  A computation that follows its events succeeds if none of them ends it, and otherwise
  fails at the first that does, with the names known there (`Follows`). Computations one
  after the other follow their events one after the other (`Follows.bind`), so a run follows
  the events of its tree (`eval_follows`, `eval_first_offending`).
-/

import Pascaline.Tree.Eval

namespace Pascaline

/-! ## Events -/

inductive Event where
  | read (name : String) (line : Nat)
  | write (name : String)
  | badTarget (label : String)
  | badOperator (op : Operator) (line : Nat)
  deriving DecidableEq, Repr

namespace Tree

mutual
/-- What a run of the tree comes to. The value of a bad target is never run; the operand of
    a bad operator is. -/
def events : Tree → List Event
  | .program _ b => events b
  | .block declarations body => eventsAll declarations ++ events body
  | .declaration .. | .typeName _ | .number _ | .empty => []
  | .compound statements => eventsAll statements
  | .assign (.var name _) value => events value ++ [.write name]
  | .assign target _ => [.badTarget target.label]
  | .binary left _ right _ => events left ++ events right
  | .unary .plus operand _ | .unary .minus operand _ => events operand
  | .unary op operand n => events operand ++ [.badOperator op n]
  | .var name n => [.read name n]

def eventsAll : List Tree → List Event
  | [] => []
  | t :: ts => events t ++ eventsAll ts
end

/-- The event of a node itself, without those of the nodes below it. -/
def ownEvents : Tree → List Event
  | .assign (.var name _) _ => [.write name]
  | .assign target _ => [.badTarget target.label]
  | .unary .plus _ _ | .unary .minus _ _ => []
  | .unary op _ n => [.badOperator op n]
  | .var name n => [.read name n]
  | _ => []

theorem mem_eventsAll {e : Event} {ts : List Tree} (h : e ∈ eventsAll ts) : ∃ t ∈ ts, e ∈ t.events := by
  induction ts with
  | nil => cases h
  | cons t ts ih =>
    rcases List.mem_append.1 h with ht | hts
    · exact ⟨t, List.mem_cons_self, ht⟩
    · obtain ⟨u, hu, he⟩ := ih hts
      exact ⟨u, List.mem_cons_of_mem t hu, he⟩

/-- An event of a tree is that of its root or one of a tree below. -/
theorem mem_events {e : Event} {t : Tree} (h : e ∈ t.events) : e ∈ t.ownEvents ∨ ∃ c ∈ t.children, e ∈ c.events := by
  cases t with
  | program name b => exact Or.inr ⟨b, List.mem_singleton_self b, h⟩
  | block declarations body =>
    rcases List.mem_append.1 h with h | h
    · obtain ⟨c, hc, he⟩ := mem_eventsAll h
      exact Or.inr ⟨c, List.mem_append_left _ hc, he⟩
    · exact Or.inr ⟨body, by simp [children], h⟩
  | compound statements =>
    obtain ⟨c, hc, he⟩ := mem_eventsAll h
    exact Or.inr ⟨c, hc, he⟩
  | assign target value =>
    cases target with
    | var name n =>
      rcases List.mem_append.1 h with h | h
      · exact Or.inr ⟨value, by simp [children], h⟩
      · exact Or.inl h
    | _ => exact Or.inl h
  | binary left op right n =>
    rcases List.mem_append.1 h with h | h
    · exact Or.inr ⟨left, by simp [children], h⟩
    · exact Or.inr ⟨right, by simp [children], h⟩
  | unary op operand n =>
    cases op with
    | plus => exact Or.inr ⟨operand, by simp [children], h⟩
    | minus => exact Or.inr ⟨operand, by simp [children], h⟩
    | _ => exact (List.mem_append.1 h).symm.imp_right fun h => ⟨operand, by simp [children], h⟩
  | var name n => exact Or.inl h
  | _ => cases h

theorem read_mem_ownEvents {x : String} {n : Nat} {t : Tree} (h : .read x n ∈ t.ownEvents) : t = .var x n := by
  unfold ownEvents at h
  split at h <;> simp_all

theorem write_mem_ownEvents {x : String} {t : Tree} (h : .write x ∈ t.ownEvents) :
    ∃ n value, t = .assign (.var x n) value := by
  unfold ownEvents at h
  split at h <;> simp_all

end Tree

/-- The error in which the event ends a run that started from the table, after the events
    before it. -/
def Event.error? (table : Table) (before : List Event) : Event → Option EvalError
  | .read name n => if name ∈ table ∨ .write name ∈ before then none else some (.undefinedVariable name n)
  | .write _ => none
  | .badTarget label => some (.notAssignable label)
  | .badOperator op n => some (.unknownOperator op n)

/-- None of the events ends a run that starts from the table. -/
def Clear (table : Table) (events : List Event) : Prop :=
  ∀ before e, before ++ [e] <+: events → e.error? table before = none

/-- The first event that ends the run is the one behind those before it. -/
def EndsAt (table : Table) (events before : List Event) (err : EvalError) : Prop :=
  ∃ e, before ++ [e] <+: events ∧ Clear table before ∧ e.error? table before = some err

/-- The second table has the names of the first and those that the events write. -/
def Known (table : Table) (events : List Event) (table' : Table) : Prop :=
  ∀ x, x ∈ table' ↔ x ∈ table ∨ .write x ∈ events

/-- The outcome of a computation, and the table it leaves, are those that its events decide:
    it succeeds past all of them or fails at the first that ends it. -/
def Follows {α : Type} (events : List Event) (table : Table) (out : Except EvalError α × Table) : Prop :=
  match out.1 with
  | .ok _ => Clear table events ∧ Known table events out.2
  | .error err => ∃ before, EndsAt table events before err ∧ Known table before out.2

/-! ## One after the other -/

section

variable {table table' : Table} {es fs : List Event}

theorem Known.refl (table : Table) : Known table [] table := fun x => by simp

theorem Known.append {table'' : Table} (h : Known table es table') (h' : Known table' fs table'') :
    Known table (es ++ fs) table'' := by
  intro x
  rw [h' x, h x, List.mem_append, or_assoc]

/-- An event ends a run from the table it reaches as it ends the whole run. -/
theorem Known.error? (h : Known table es table') (before : List Event) (e : Event) :
    e.error? table (es ++ before) = e.error? table' before := by
  cases e with
  | read name n => simp [Event.error?, h name, or_assoc]
  | _ => rfl

theorem clear_nil (table : Table) : Clear table [] := by
  intro before e h
  simp at h

theorem Clear.append (h : Clear table es) (hk : Known table es table') (h' : Clear table' fs) :
    Clear table (es ++ fs) := by
  intro before e hp
  rcases List.prefix_or_prefix_of_prefix hp (List.prefix_append es fs) with hb | hb
  · exact h before e hb
  rcases List.prefix_concat_iff.1 hb with heq | ⟨b, rfl⟩
  · exact h before e (heq ▸ List.prefix_rfl)
  · rw [List.append_assoc, List.prefix_append_right_inj] at hp
    rw [hk.error?]
    exact h' b e hp

variable {α β : Type}

theorem Follows.pure (a : α) (table : Table) : Follows [] table ((pure a : Eval α).on table) :=
  ⟨clear_nil table, Known.refl table⟩

/-- The first event already ends the computation. -/
theorem Follows.single {e : Event} {err : EvalError} (he : e.error? table [] = some err) :
    Follows (α := α) [e] table (.error err, table) :=
  ⟨[], ⟨e, List.prefix_rfl, clear_nil table, he⟩, Known.refl table⟩

theorem clear_singleton {e : Event} (he : e.error? table [] = none) : Clear table [e] := by
  intro before e' hp
  rcases List.prefix_concat_iff.1 (show before ++ [e'] <+: [] ++ [e] from hp) with h | h
  · obtain ⟨rfl, he'⟩ := List.append_inj' h rfl
    obtain rfl := List.singleton_inj.1 he'
    exact he
  · simp at h

theorem Follows.bind {x : Eval α} {f : α → Eval β} (hx : Follows es table (x.on table))
    (hf : ∀ a table', Follows fs table' ((f a).on table')) : Follows (es ++ fs) table ((x >>= f).on table) := by
  rw [Eval.on_bind]
  rcases hout : x.on table with ⟨err | a, table'⟩
  · rw [hout] at hx
    obtain ⟨before, ⟨e, hp, hc, he⟩, hk⟩ := hx
    exact ⟨before, ⟨e, hp.trans (List.prefix_append es fs), hc, he⟩, hk⟩
  · rw [hout] at hx
    obtain ⟨hc, hk⟩ := hx
    have hrest := hf a table'
    show Follows (es ++ fs) table ((f a).on table')
    rcases hout' : (f a).on table' with ⟨err | b, table''⟩
    · rw [hout'] at hrest
      obtain ⟨before, ⟨e, hp, hc', he⟩, hk'⟩ := hrest
      refine ⟨es ++ before, ⟨e, ?_, hc.append hk hc', ?_⟩, hk.append hk'⟩
      · rw [List.append_assoc]
        exact (List.prefix_append_right_inj es).2 hp
      · rw [hk.error?]
        exact he
    · rw [hout'] at hrest
      exact ⟨hc.append hk hrest.1, hk.append hrest.2⟩

/-- What is computed from a value without events of its own does not matter. -/
theorem Follows.map {x : Eval α} (hx : Follows es table (x.on table)) (f : α → β) :
    Follows es table ((x >>= fun a => Pure.pure (f a)).on table) := by
  have h := hx.bind fun a table' => Follows.pure (f a) table'
  rwa [List.append_nil] at h

theorem follows_lookup (name : String) (n : Nat) (table : Table) :
    Follows [.read name n] table ((Eval.lookup name n).on table) := by
  rw [Eval.on_lookup]
  cases hv : table[name]? with
  | none =>
    have hmem : name ∉ table := by simp [Std.ExtTreeMap.mem_iff_isSome_getElem?, hv]
    exact .single (by simp [Event.error?, hmem])
  | some v =>
    have hmem : name ∈ table := by simp [Std.ExtTreeMap.mem_iff_isSome_getElem?, hv]
    exact ⟨clear_singleton (by simp [Event.error?, hmem]), fun x => by simp⟩

theorem follows_assign (name : String) (v : Float) (table : Table) :
    Follows [.write name] table ((Eval.assign name v).on table) := by
  refine ⟨clear_singleton rfl, fun x => ?_⟩
  simp [Std.ExtTreeMap.mem_insert, eq_comm (a := x), or_comm]

theorem follows_notAssignable (label : String) (table : Table) :
    Follows [.badTarget label] table ((throw (.notAssignable label) : Eval Float).on table) := .single rfl

/-- An operator that may stand before an operand ends no run. -/
theorem follows_sign {op : Operator} (h : op = .plus ∨ op = .minus) (v : Float) (n : Nat) (table : Table) :
    Follows [] table ((Eval.unary op v n).on table) := by
  rcases h with rfl | rfl <;> exact Follows.pure _ table

theorem follows_badOperator {op : Operator} (h : ¬(op = .plus ∨ op = .minus)) (v : Float) (n : Nat) (table : Table) :
    Follows [.badOperator op n] table ((Eval.unary op v n).on table) := by
  have hnone : op.unary? v = none := by
    rw [← Option.not_isSome_iff_eq_none, Operator.unary?_isSome_iff]
    exact h
  rw [Eval.on_unary, hnone]
  exact .single rfl

end

/-! ## Runs of a tree -/

namespace Tree

mutual
theorem eval_follows (t : Tree) (table : Table) : Follows t.events table (t.eval.on table) := by
  cases t with
  | program name b => exact (eval_follows b table).map _
  | block declarations body =>
    exact (evalAll_follows declarations table).bind fun _ table' => (eval_follows body table').map _
  | declaration subject type => exact Follows.pure _ table
  | typeName type => exact Follows.pure _ table
  | compound statements => exact (evalAll_follows statements table).map _
  | assign target value =>
    cases target with
    | var name n => exact (eval_follows value table).bind fun v table' => (follows_assign name v table').map _
    | _ => exact follows_notAssignable _ table
  | binary left op right n =>
    exact (eval_follows left table).bind fun a table' => (eval_follows right table').map _
  | unary op operand n =>
    have ih := eval_follows operand table
    cases op with
    | plus => simpa [events, eval] using ih.bind fun a table' => follows_sign (Or.inl rfl) a n table'
    | minus => simpa [events, eval] using ih.bind fun a table' => follows_sign (Or.inr rfl) a n table'
    | _ => exact ih.bind fun a table' => follows_badOperator (by decide) a n table'
  | number v => exact Follows.pure v table
  | var name n => exact follows_lookup name n table
  | empty => exact Follows.pure _ table

theorem evalAll_follows (ts : List Tree) (table : Table) : Follows (eventsAll ts) table ((evalAll ts).on table) := by
  cases ts with
  | nil => exact Follows.pure () table
  | cons t ts => exact (eval_follows t table).bind fun _ table' => evalAll_follows ts table'
end

end Tree

section

variable {α : Type} {table : Table} {es : List Event} {out : Except EvalError α × Table}

theorem EndsAt.not_clear {before : List Event} {err : EvalError} (h : EndsAt table es before err) :
    ¬Clear table es := by
  obtain ⟨e, hp, -, he⟩ := h
  intro hc
  rw [hc before e hp] at he
  cases he

theorem Follows.ok_iff (h : Follows es table out) : (∃ v, out.1 = .ok v) ↔ Clear table es := by
  obtain ⟨err | v, table'⟩ := out
  · obtain ⟨before, hends, -⟩ := h
    exact iff_of_false nofun hends.not_clear
  · exact iff_of_true ⟨v, rfl⟩ h.1

theorem Follows.known (h : Follows es table out) (hc : Clear table es) : Known table es out.2 := by
  obtain ⟨err | v, table'⟩ := out
  · obtain ⟨before, hends, -⟩ := h
    exact absurd hc hends.not_clear
  · exact h.2

/-- There is one first event that ends a run. -/
theorem EndsAt.unique {before before' : List Event} {err err' : EvalError} (h : EndsAt table es before err)
    (h' : EndsAt table es before' err') : before = before' ∧ err = err' := by
  obtain ⟨e, hp, hc, he⟩ := h
  obtain ⟨e', hp', hc', he'⟩ := h'
  -- of two events that end the run, the one with the shorter past is the other one
  have heq : ∀ {b b' e e' err}, b ++ [e] <+: b' ++ [e'] → Clear table b' → Event.error? table b e = some err →
      b = b' ∧ e = e' := by
    intro b b' e e' err h hc' he
    rcases List.prefix_concat_iff.1 h with heq | hb
    · obtain ⟨rfl, hee⟩ := List.append_inj' heq rfl
      exact ⟨rfl, List.singleton_inj.1 hee⟩
    · rw [hc' b e hb] at he
      cases he
  rcases List.prefix_or_prefix_of_prefix hp hp' with h | h
  · obtain ⟨rfl, rfl⟩ := heq h hc' he
    exact ⟨rfl, Option.some.inj (he.symm.trans he')⟩
  · obtain ⟨rfl, rfl⟩ := heq h hc he'
    exact ⟨rfl, Option.some.inj (he.symm.trans he')⟩

theorem Follows.endsAt {err : EvalError} (h : Follows es table out) (herr : out.1 = .error err) :
    ∃ before, EndsAt table es before err := by
  obtain ⟨_, table'⟩ := out
  obtain rfl := herr
  obtain ⟨before, hends, -⟩ := h
  exact ⟨before, hends⟩

theorem Follows.exists_endsAt (h : Follows es table out) (hc : ¬Clear table es) :
    ∃ before err, EndsAt table es before err := by
  obtain ⟨err | v, table'⟩ := out
  · obtain ⟨before, hends, -⟩ := h
    exact ⟨before, err, hends⟩
  · exact absurd h.1 hc

theorem Follows.error {before : List Event} {err : EvalError} (h : Follows es table out)
    (hends : EndsAt table es before err) : out.1 = .error err ∧ Known table before out.2 := by
  obtain ⟨err' | v, table'⟩ := out
  · obtain ⟨before', hends', hk⟩ := h
    obtain ⟨rfl, rfl⟩ := hends.unique hends'
    exact ⟨rfl, hk⟩
  · exact absurd h.1 hends.not_clear

end

/-- The outcome of a run, and the names it leaves in the table, are decided by the events of
    the tree.

    The run succeeds exactly if no event ends it, and the names of the table are then those
    from before and all that are written. Otherwise it fails with the error of the first
    event that ends it, and of the names that are written the table gets those written
    before that event. -/
theorem eval_first_offending (t : Tree) (table : Table) :
    ((∃ v, (t.eval.on table).1 = .ok v) ↔ Clear table t.events) ∧
    (Clear table t.events → Known table t.events (t.eval.on table).2) ∧
    (¬Clear table t.events → ∃ before err, EndsAt table t.events before err) ∧
    ∀ before err, EndsAt table t.events before err →
      (t.eval.on table).1 = .error err ∧ Known table before (t.eval.on table).2 := by
  have h := t.eval_follows table
  exact ⟨h.ok_iff, h.known, h.exists_endsAt, fun before err => h.error⟩

/-- The first statement assigns to a variable, and the second one ends the run. -/
theorem eval_first_offending_read :
    ((Tree.compound [.assign (.var "x" 1) (.number 0), .var "y" 2]).eval.on ∅).1 = .error (.undefinedVariable "y" 2) ∧
      Known ∅ [.write "x"] ((Tree.compound [.assign (.var "x" 1) (.number 0), .var "y" 2]).eval.on ∅).2 := by
  have hends : EndsAt ∅ [.write "x", .read "y" 2] [.write "x"] (.undefinedVariable "y" 2) :=
    ⟨.read "y" 2, List.prefix_rfl, clear_singleton rfl, by simp [Event.error?]⟩
  exact (eval_first_offending (.compound [.assign (.var "x" 1) (.number 0), .var "y" 2]) ∅).2.2.2 _ _ hends

end Pascaline
