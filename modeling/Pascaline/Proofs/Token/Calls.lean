/-
  Pascaline.Proofs.Token.Calls — both ways of reading a feed take the items of one stream.

  A call of `next?` returns nothing exactly if an earlier call of `next?` returned a last item,
  and then it leaves the feed as it is; every other call returns the next item of the cursor
  and steps behind it (`call_eq_none_iff`, `call_of_none`, `call_of_some`). So whatever the
  order of the calls, the feed behind them is behind as many items as have been returned
  (`results_items`), and it has ended exactly if one of the calls of `next?` returned a last
  item (`ended_behind`).
-/

import Mathlib.Data.List.ReduceOption
import Pascaline.Proofs.Token.Items

namespace Pascaline.Feed

/-- The two ways of reading a feed. -/
inductive Call where
  | pull
  | next
  deriving DecidableEq, Repr

/-- What a call returns, and the feed behind it. -/
def call (f : Feed) : Call → Option Item × Feed
  | .pull => (some f.pull.1, f.pull.2)
  | .next => f.next?

/-- What calls return, one after the other. -/
def results (f : Feed) : List Call → List (Option Item)
  | [] => []
  | a :: calls => (f.call a).1 :: (f.call a).2.results calls

/-- The feed behind calls. -/
def behind (f : Feed) : List Call → Feed
  | [] => f
  | a :: calls => (f.call a).2.behind calls

/-! ## One call -/

variable {f : Feed} {a : Call} {item : Item}

theorem call_eq_none_iff : (f.call a).1 = none ↔ a = .next ∧ f.ended := by
  cases a with
  | pull => simp [call]
  | next => by_cases hended : f.ended <;> simp [call, next?, hended]

/-- A call that returns nothing changes nothing. -/
theorem call_of_none (h : (f.call a).1 = none) : (f.call a).2 = f := by
  obtain ⟨rfl, hended⟩ := call_eq_none_iff.1 h
  rw [call, next?, if_pos hended]

/-- A call that returns something returns the next item, and only `next?` heeds whether it is
    a last one. -/
theorem call_of_some (h : (f.call a).1 = some item) :
    item = f.cursor.next.1 ∧ (f.call a).2.cursor = f.cursor.next.2 ∧
      ((f.call a).2.ended ↔ f.ended ∨ a = .next ∧ item.isLast) := by
  cases a with
  | pull =>
    obtain rfl := Option.some.inj h
    exact ⟨rfl, rfl, by simp [call, pull]⟩
  | next =>
    by_cases hended : f.ended
    · rw [call_eq_none_iff.2 ⟨rfl, hended⟩] at h
      cases h
    · rw [call, next?, if_neg hended] at h ⊢
      obtain rfl := Option.some.inj h
      exact ⟨rfl, rfl, by simp [hended]⟩

theorem ended_call (f : Feed) (a : Call) :
    (f.call a).2.ended ↔ f.ended ∨ a = .next ∧ ∃ item, (f.call a).1 = some item ∧ item.isLast := by
  cases h : (f.call a).1 with
  | none => simp [call_of_none h]
  | some item => simp [(call_of_some h).2.2]

/-! ## Any calls -/

/-- The items that are returned are those of the cursor in order, and the feed behind the
    calls is behind them. -/
theorem results_items (f : Feed) (calls : List Call) :
    (f.results calls).reduceOption = (List.range (f.results calls).reduceOption.length).map f.cursor.item ∧
      (f.behind calls).cursor = f.cursor.after (f.results calls).reduceOption.length := by
  induction calls generalizing f with
  | nil => exact ⟨rfl, rfl⟩
  | cons a calls ih =>
    obtain ⟨hitems, hcursor⟩ := ih (f.call a).2
    rw [results, behind]
    cases h : (f.call a).1 with
    | none =>
      rw [call_of_none h] at hitems hcursor ⊢
      rw [List.reduceOption_cons_of_none]
      exact ⟨hitems, hcursor⟩
    | some item =>
      obtain ⟨rfl, hnext, -⟩ := call_of_some h
      rw [hnext] at hitems hcursor
      rw [List.reduceOption_cons_of_some, List.length_cons, List.range_succ_eq_map, List.map_cons, List.map_map]
      exact ⟨congrArg (List.cons _) hitems, hcursor⟩

theorem getElem?_results (f : Feed) (calls : List Call) (i : Nat) :
    (f.results calls)[i]? = calls[i]?.map fun a => ((f.behind (calls.take i)).call a).1 := by
  induction calls generalizing f i with
  | nil => rfl
  | cons a calls ih =>
    cases i with
    | zero => rfl
    | succ i => exact ih (f.call a).2 i

theorem behind_take_succ {calls : List Call} {i : Nat} (h : calls[i]? = some a) :
    f.behind (calls.take (i + 1)) = ((f.behind (calls.take i)).call a).2 := by
  induction calls generalizing f i with
  | nil => cases h
  | cons b calls ih =>
    cases i with
    | zero =>
      obtain rfl := Option.some.inj h
      rfl
    | succ i => exact ih h

/-- The call at `i` is one of `next?`, and it returns a last item. -/
def LastAt (f : Feed) (calls : List Call) (i : Nat) : Prop :=
  calls[i]? = some .next ∧ ∃ item, (f.results calls)[i]? = some (some item) ∧ item.isLast

/-- A feed has ended exactly if one of the calls before has returned a last item to `next?`. -/
theorem ended_behind (f : Feed) (calls : List Call) (i : Nat) :
    (f.behind (calls.take i)).ended ↔ f.ended ∨ ∃ j < i, f.LastAt calls j := by
  induction calls generalizing f i with
  | nil => simp [behind, LastAt]
  | cons a calls ih =>
    cases i with
    | zero => simp [behind]
    | succ i =>
      rw [List.take_succ_cons, behind, ih, ended_call, Nat.exists_lt_succ_left, or_assoc]
      refine or_congr_right (or_congr ?_ Iff.rfl)
      simp [LastAt, results]

/-! ## Calls of one kind -/

theorem results_pulls (f : Feed) (n : Nat) :
    f.results (List.replicate n .pull) = (List.range n).map fun i => some (f.cursor.item i) := by
  induction n generalizing f with
  | zero => rfl
  | succ n ih =>
    rw [List.replicate_succ, results, ih, List.range_succ_eq_map, List.map_cons, List.map_map]
    rfl

theorem getElem?_items_zero (c : Cursor) : c.items[0]? = some c.next.1 := by
  rw [Cursor.items_eq_cons, List.getElem?_cons_zero]

theorem getElem?_items_succ (c : Cursor) (i : Nat) :
    c.items[i + 1]? = if c.next.1.isLast then none else c.next.2.items[i]? := by
  rw [Cursor.items_eq_cons, List.getElem?_cons_succ]
  split <;> rfl

/-- Calls of `next?` alone go through the items up to the first last one. -/
theorem results_nexts (f : Feed) (n : Nat) :
    f.results (List.replicate n .next) = (List.range n).map fun i => if f.ended then none else f.cursor.items[i]? := by
  induction n generalizing f with
  | zero => rfl
  | succ n ih =>
    rw [List.replicate_succ, results, ih, List.range_succ_eq_map, List.map_cons, List.map_map]
    cases hended : f.ended
    · simp [call, next?, hended, pull, getElem?_items_zero, getElem?_items_succ, Function.comp_def]
    · simp [call, next?, hended, Function.comp_def]

/-- The items up to the first last one are those of the stream. -/
theorem getElem?_items_iff {c : Cursor} {i : Nat} :
    c.items[i]? = some item ↔ item = c.item i ∧ ∀ j < i, ¬(c.item j).isLast := by
  induction i generalizing c with
  | zero =>
    rw [getElem?_items_zero, Option.some.injEq, eq_comm]
    exact (and_iff_left nofun).symm
  | succ i ih =>
    rw [getElem?_items_succ, Nat.forall_lt_succ_left]
    show _ ↔ item = c.next.2.item i ∧ ¬c.next.1.isLast ∧ ∀ j < i, ¬(c.next.2.item j).isLast
    split
    · rename_i hlast
      simp [hlast]
    · rename_i hlast
      simp [hlast, ih]

/-- All calls take the items of one stream.

    The stream is what calls of `pull` alone return. In any order of calls of both kinds, the
    items that are returned are the first ones of the stream, in order and each once. A call
    returns nothing exactly if it is one of `next?` and an earlier one of `next?` returned a
    last item, and it leaves the feed as it is, with its place and its line. So calls of
    `next?` alone return the stream up to its first last item, and nothing from then on. -/
theorem results_one_stream (source : String) :
    let f : Feed := .ofString source
    let stream : Nat → Item := (Cursor.ofString source).item
    (∀ n, f.results (List.replicate n .pull) = (List.range n).map fun i => some (stream i)) ∧
    (∀ calls,
      (f.results calls).reduceOption = (List.range (f.results calls).reduceOption.length).map stream ∧
      (∀ i, (f.results calls)[i]? = some none ↔ calls[i]? = some .next ∧ ∃ j < i, f.LastAt calls j) ∧
      ∀ i, (f.results calls)[i]? = some none → f.behind (calls.take (i + 1)) = f.behind (calls.take i)) ∧
    ∀ n i item, (f.results (List.replicate n .next))[i]? = some (some item) ↔
      i < n ∧ item = stream i ∧ ∀ j < i, ¬(stream j).isLast := by
  intro f stream
  refine ⟨results_pulls f, fun calls => ⟨(results_items f calls).1, fun i => ?_, fun i hi => ?_⟩, fun n i item => ?_⟩
  · have hended : (f.behind (calls.take i)).ended ↔ ∃ j < i, f.LastAt calls j := by
      rw [ended_behind]
      exact or_iff_right Bool.false_ne_true
    rw [getElem?_results, Option.map_eq_some_iff, ← hended]
    constructor
    · rintro ⟨a, ha, hnone⟩
      obtain ⟨rfl, hcall⟩ := call_eq_none_iff.1 hnone
      exact ⟨ha, hcall⟩
    · rintro ⟨ha, hcall⟩
      exact ⟨.next, ha, call_eq_none_iff.2 ⟨rfl, hcall⟩⟩
  · rw [getElem?_results, Option.map_eq_some_iff] at hi
    obtain ⟨a, ha, hnone⟩ := hi
    rw [behind_take_succ ha, call_of_none hnone]
  · rw [results_nexts, List.getElem?_map, Option.map_eq_some_iff, ← getElem?_items_iff]
    simp [List.getElem?_eq_some_iff, f, Feed.ofString]

end Pascaline.Feed
