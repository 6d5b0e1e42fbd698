/-
  Pascaline.Proofs.Graph.Escape — escaping a label is one pass, and it can be undone.

  A label can be escaped by three replacements in the whole text, one after the other, the
  backslash first (`replaceInTurn`). The library's `replace` maps each character by itself
  (`toList_replace`), and no replacement meets a character that an earlier one has put in
  (`replaceChar_inTurn`), so the three come to the one pass of `escape`.

  - `upToQuote` looks for the quote that ends a label, a backslash taking the next character
    with it; it finds the end of an escaped label and nothing before (`upToQuote_escape`).
  - `readEscaped_eq`: to read a label is to find its end and to undo the escapes before it.
  - `escape_one_pass`: all of this of the label that is replaced in turn.
-/

import Pascaline.Graph.Drawing

namespace Pascaline.Graph

open String.Slice.Pattern

/-! ## Replacing a character in a text -/

section Replace

variable {s : String.Slice} {c : Char} {p q : s.Pos} {before text after : String}

theorem copy_slice!_of_splits (hp : p.Splits before (text ++ after)) (hq : q.Splits (before ++ text) after) :
    (s.slice! p q).copy = text := by
  obtain ⟨hle, hcopy⟩ := String.Slice.copy_slice_eq_iff_splits.2 ⟨before, after, hp, hq⟩
  rw [← String.Slice.slice_eq_slice! (h := hle), hcopy]

/-- A character that is found nowhere between two positions is not in the text between them. -/
theorem notMem_of_not_matchesAt (hp : p.Splits before (text ++ after)) (hq : q.Splits (before ++ text) after)
    (h : ∀ pos : s.Pos, p ≤ pos → pos < q → ¬Model.MatchesAt c pos) : c ∉ text.toList := by
  intro hmem
  obtain ⟨xs, ys, hxs⟩ := List.append_of_mem hmem
  obtain rfl : text = String.ofList xs ++ (String.singleton c ++ String.ofList ys) :=
    String.toList_inj.1 (by simp [hxs])
  have hcopy : s.copy = (before ++ String.ofList xs) ++ (String.singleton c ++ (String.ofList ys ++ after)) := by
    rw [hp.eq_append]
    simp only [String.append_assoc]
  have hsplit := String.Slice.Pos.splits_ofEqAppend hcopy
  have hle := (hp.le_iff_exists_eq_append hsplit).2 ⟨_, rfl, by simp only [String.append_assoc]⟩
  have hlt := (hsplit.lt_iff_exists_eq_append hq).2
    ⟨String.singleton c ++ String.ofList ys, by simp, by simp only [String.append_assoc],
      by simp only [String.append_assoc]⟩
  exact h _ hle hlt (Model.Char.matchesAt_iff_splits.2 ⟨_, _, hsplit⟩)

/-- What stands for a character after a replacement of `c`. -/
def replaceChar (c : Char) (replacement : String) (x : Char) : List Char :=
  if x = c then replacement.toList else [x]

theorem flatMap_replaceChar_of_notMem {xs : List Char} (replacement : String) (h : c ∉ xs) :
    xs.flatMap (replaceChar c replacement) = xs := by
  induction xs with
  | nil => rfl
  | cons x xs ih =>
    obtain ⟨hx, hxs⟩ := not_or.1 (mt List.mem_cons.2 h)
    rw [List.flatMap_cons, ih hxs, replaceChar, if_neg (Ne.symm hx), List.singleton_append]

/-- What a step of the search for a character adds to the text before it. -/
def addStep (s : String.Slice) (replacement : String) (sofar : String) : SearchStep s → String
  | .matched _ _ => sofar ++ replacement
  | .rejected p q => sofar ++ s.slice! p q

/-- A search from a position replaces the character in all of the text behind it. -/
theorem toList_foldl_addStep {steps : List (SearchStep s)} (h : Model.IsValidSearchFrom c p steps)
    (hp : p.Splits before after) (replacement sofar : String) :
    (steps.foldl (addStep s replacement) sofar).toList =
      sofar.toList ++ after.toList.flatMap (replaceChar c replacement) := by
  induction h generalizing before after sofar with
  | endPos =>
    obtain ⟨-, rfl⟩ := String.Slice.splits_endPos_iff.1 hp
    simp
  | matched hmatch _ ih =>
    obtain ⟨hne, rfl, rfl⟩ := Model.Char.isLongestMatchAt_iff.1 hmatch
    obtain ⟨after, rfl⟩ := hp.exists_eq_singleton_append hne
    rw [List.foldl_cons, ih hp.next]
    simp [addStep, replaceChar]
  | @mismatched steps p q hlt hnone _ ih =>
    have hq := q.splits
    obtain ⟨text, -, hbefore, rfl⟩ := (hp.lt_iff_exists_eq_append hq).1 hlt
    rw [hbefore] at hq
    have htext := flatMap_replaceChar_of_notMem replacement (notMem_of_not_matchesAt hp hq hnone)
    rw [List.foldl_cons, ih hq, addStep, String.appendSlice_eq, copy_slice!_of_splits hp hq, String.toList_append,
      String.toList_append, List.flatMap_append, htext, List.append_assoc]

end Replace

theorem toList_replace (text : String) (c : Char) (replacement : String) :
    (text.replace c replacement).toList = text.toList.flatMap (replaceChar c replacement) := by
  have hfold : text.replace c replacement =
      (ToForwardSearcher.toSearcher c text.toSlice).toList.foldl (addStep text.toSlice replacement) "" := by
    rw [Std.Iter.foldl_toList]
    unfold String.replace String.Slice.replace
    congr 1
    funext sofar step
    cases step with
    | rejected p q => rfl
    | matched p q =>
      show sofar ++ replacement.toSlice = sofar ++ replacement
      rw [String.appendSlice_eq, String.copy_toSlice]
  have hvalid : Model.IsValidSearchFrom c text.toSlice.startPos (ToForwardSearcher.toSearcher c text.toSlice).toList :=
    Model.LawfulToForwardSearcherModel.isValidSearchFrom_toList _
  rw [hfold, toList_foldl_addStep hvalid text.toSlice.splits_startPos]
  simp

/-! ## Three replacements -/

/-- The label with a backslash put before each backslash, then before each quote, and then
    `\n` put for each line feed. -/
def replaceInTurn (label : String) : String :=
  ((label.replace '\\' "\\\\").replace '"' "\\\"").replace '\n' "\\n"

/-- What is put for a character is left alone by the replacements behind. -/
theorem replaceChar_inTurn (c : Char) :
    ((replaceChar '\\' "\\\\" c).flatMap fun x => (replaceChar '"' "\\\"" x).flatMap (replaceChar '\n' "\\n")) =
      escapeChar c := by
  unfold escapeChar
  split
  · rename_i h; subst h; rfl
  split
  · rename_i h; subst h; rfl
  split
  · rename_i h; subst h; rfl
  · simp_all [replaceChar]

theorem toList_replaceInTurn (label : String) : (replaceInTurn label).toList = escape label.toList := by
  rw [replaceInTurn, toList_replace, toList_replace, toList_replace, List.flatMap_assoc, List.flatMap_assoc, escape]
  exact congrArg (fun f => label.toList.flatMap f) (funext replaceChar_inTurn)

/-! ## The end of a label -/

/-- The text before the first quote that no backslash goes with, as it is written, and the
    text after it. -/
def upToQuote : List Char → Option (List Char × List Char)
  | [] => none
  | '"' :: rest => some ([], rest)
  | '\\' :: [] => none
  | '\\' :: c :: rest => (upToQuote rest).map fun (text, rest) => ('\\' :: c :: text, rest)
  | c :: rest => (upToQuote rest).map fun (text, rest) => (c :: text, rest)

/-- The text with each backslash and the character behind it read as the one they stand for. -/
def unescape : List Char → List Char
  | [] => []
  | '\\' :: c :: rest => unescapeChar c :: unescape rest
  | c :: rest => c :: unescape rest

theorem upToQuote_cons {c : Char} (hquote : c ≠ '"') (hbackslash : c ≠ '\\') (rest : List Char) :
    upToQuote (c :: rest) = (upToQuote rest).map fun (text, rest) => (c :: text, rest) := by
  simp [upToQuote, hbackslash]

theorem unescape_cons {c : Char} (h : c ≠ '\\') (rest : List Char) : unescape (c :: rest) = c :: unescape rest := by
  simp [unescape, h]

theorem upToQuote_escapeChar (c : Char) (cs : List Char) :
    upToQuote (escapeChar c ++ cs) = (upToQuote cs).map fun (text, rest) => (escapeChar c ++ text, rest) := by
  unfold escapeChar
  split
  · rfl
  split
  · rfl
  split
  · rfl
  · rename_i hbackslash hquote _
    exact upToQuote_cons hquote hbackslash cs

theorem upToQuote_escape (label rest : List Char) :
    upToQuote (escape label ++ '"' :: rest) = some (escape label, rest) := by
  induction label with
  | nil => rfl
  | cons c label ih =>
    rw [escape, List.flatMap_cons, List.append_assoc, upToQuote_escapeChar, ← escape, ih]
    rfl

/-- A label is read by finding its end and undoing the escapes before it. -/
theorem readEscaped_eq (cs : List Char) :
    readEscaped cs = (upToQuote cs).map fun (text, rest) => (unescape text, rest) := by
  fun_induction readEscaped cs with
  | case1 => rfl
  | case2 rest => rfl
  | case3 => rfl
  | case4 c rest ih =>
    rw [ih, upToQuote]
    cases upToQuote rest <;> rfl
  | case5 c rest hquote hlone hpair ih =>
    have hbackslash : c ≠ '\\' := by
      intro h
      cases rest with
      | nil => exact hlone h rfl
      | cons d rest => exact hpair d rest h rfl
    rw [ih, upToQuote_cons hquote hbackslash]
    cases upToQuote rest with
    | none => rfl
    | some found => simp [unescape_cons hbackslash]

theorem unescape_escape (label : List Char) : unescape (escape label) = label := by
  have hread := readEscaped_escape label []
  rw [readEscaped_eq, upToQuote_escape] at hread
  exact congrArg Prod.fst (Option.some.inj hread)

theorem replaceInTurn_eq (label : String) : replaceInTurn label = String.ofList (escape label.toList) := by
  rw [← toList_replaceInTurn, String.ofList_toList]

/-- Replacing in turn is one pass over the label, and it can be read back.

    The three replacements put for each character of the label what one pass puts for it, and
    nothing for what has been put; this is the label as it stands in the line of a node. There
    is no line feed in it. Read with a quote and any text behind it, it ends at that quote and
    nowhere before, and its escapes undone it is the label again. -/
theorem escape_one_pass (label : String) :
    (replaceInTurn label).toList = label.toList.flatMap escapeChar ∧
    (∀ id, (Line.node id label).text = "Node" ++ id.repr ++ " [label=\"" ++ replaceInTurn label ++ "\"]\n") ∧
    '\n' ∉ (replaceInTurn label).toList ∧
    (∀ rest, upToQuote ((replaceInTurn label).toList ++ '"' :: rest) = some ((replaceInTurn label).toList, rest)) ∧
    unescape (replaceInTurn label).toList = label.toList := by
  rw [toList_replaceInTurn, replaceInTurn_eq]
  exact ⟨rfl, fun id => rfl, newline_not_mem_escape label.toList, upToQuote_escape label.toList,
    unescape_escape label.toList⟩

-- a line feed is told from a backslash and an `n`
example : escape ['\n', '\\', 'n'] = ['\\', 'n', '\\', '\\', 'n'] := rfl

end Pascaline.Graph
