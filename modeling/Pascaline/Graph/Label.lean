/-
  Pascaline.Graph.Label — labels within quotes.

  A backslash, a quote and a line feed are written as a backslash and one more character,
  all others as they are. `readEscaped` reads a label back up to the quote that ends it
  (`readEscaped_escape`), and no written label holds a line feed (`newline_not_mem_escape`).
-/

namespace Pascaline.Graph

def escapeChar (c : Char) : List Char :=
  if c = '\\' then ['\\', '\\']
  else if c = '"' then ['\\', '"']
  else if c = '\n' then ['\\', 'n']
  else [c]

/-- The label as it stands between the quotes. -/
def escape (label : List Char) : List Char := label.flatMap escapeChar

/-- The character that `c` stands for behind a backslash. -/
def unescapeChar (c : Char) : Char := if c = 'n' then '\n' else c

/-- The label before the first quote that no backslash goes with, and the text after it. -/
def readEscaped : List Char → Option (List Char × List Char)
  | [] => none
  | '"' :: rest => some ([], rest)
  | '\\' :: [] => none
  | '\\' :: c :: rest => (readEscaped rest).map fun (label, rest) => (unescapeChar c :: label, rest)
  | c :: rest => (readEscaped rest).map fun (label, rest) => (c :: label, rest)

/-! ## Reading what was written -/

/-- One written character is read as itself, whatever follows. -/
theorem readEscaped_escapeChar (c : Char) (cs : List Char) :
    readEscaped (escapeChar c ++ cs) = (readEscaped cs).map fun (label, rest) => (c :: label, rest) := by
  unfold escapeChar
  repeat' split
  · rename_i h; subst h; rfl
  · rename_i h; subst h; rfl
  · rename_i h; subst h; rfl
  · simp_all [readEscaped]

theorem readEscaped_escape (label rest : List Char) :
    readEscaped (escape label ++ '"' :: rest) = some (label, rest) := by
  induction label with
  | nil => rfl
  | cons c label ih =>
    rw [escape, List.flatMap_cons, List.append_assoc, readEscaped_escapeChar, ← escape, ih]
    rfl

theorem newline_not_mem_escapeChar (c : Char) : '\n' ∉ escapeChar c := by
  unfold escapeChar
  repeat' split
  · decide
  · decide
  · decide
  · rename_i h
    simpa using Ne.symm h

theorem newline_not_mem_escape (label : List Char) : '\n' ∉ escape label := fun h =>
  let ⟨c, _, hc⟩ := List.mem_flatMap.1 h
  newline_not_mem_escapeChar c hc

end Pascaline.Graph
