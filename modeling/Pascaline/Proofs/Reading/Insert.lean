/-
  Pascaline.Proofs.Reading.Insert — blanks and comments change nothing but positions and
  lines.

  Two sequences of items that differ by an insertion are read alike: the first item with which
  the one is not viable is that of the other, and it is refused for the same reason
  (`parse_error_insert`). If they are programs, their trees are one tree on different lines:
  where a node comes from is the index of its token, and each text has its own line for it
  (`exists_moved_tree`). So their runs come to the same, too, and if they fail, it is at the
  same read (`run_error_insert`).

  Trivia between two pieces is such an insertion (`parse_insert`).
-/

import Pascaline.Proofs.Reading.Classify
import Pascaline.Proofs.Reading.Lines
import Pascaline.Proofs.Reading.Yield
import Pascaline.Proofs.Token.Trivia

namespace Pascaline

/-! ## What errors are about -/

def GrammarError.mapLine (f : Nat → Nat) : GrammarError → GrammarError
  | .unexpected e t n => .unexpected e t (f n)
  | .missingSeparator t n => .missingSeparator t (f n)
  | .trailing t n => .trailing t (f n)

namespace Error

/-- The error names the item: the stray character, the token out of place, or the variable
    that is read too early. -/
def About : Error → Item → Prop
  | .stray e, .stray e' => e = e'
  | .grammar g, .token t n => g.found = t ∧ g.line = n
  | .eval (.undefinedVariable x n), .token t m => t = .name x ∧ n = m
  | _, _ => False

/-- The error with so many more bytes and lines before it. -/
def shift (bytes lines : Nat) : Error → Error
  | .stray e => .stray ⟨e.character, e.position + bytes, e.line + lines⟩
  | .grammar g => .grammar (g.mapLine (· + lines))
  | .eval e => .eval (e.mapLines (· + lines))

end Error

namespace Insertion

variable (g : Insertion)

/-- What becomes of an error about the item at `i`. -/
def error (i : Nat) (e : Error) : Error := if i < g.behind then e else e.shift g.bytes g.lines

/-- What becomes of the line of the item at `i`. -/
def line (i n : Nat) : Nat := if i < g.behind then n else n + g.lines

/-- The insertion as seen from behind the first item. -/
def next : Insertion := { g with behind := g.behind - 1 }

theorem item_succ (i : Nat) (item : Item) : g.item (i + 1) item = g.next.item i item := by
  have hlt : i + 1 < g.behind ↔ i < g.behind - 1 := by omega
  by_cases h : i < g.behind - 1
  · simp [Insertion.item, next, h, hlt]
  · simp [Insertion.item, next, h, hlt]

theorem item_token (i : Nat) (t : Token) (n : Nat) : g.item i (.token t n) = .token t (g.line i n) := by
  unfold Insertion.item line
  split <;> rfl

theorem item_stray (i : Nat) (e : StrayCharacter) :
    ∃ e', g.item i (.stray e) = .stray e' ∧ g.error i (.stray e) = .stray e' := by
  unfold Insertion.item error
  split
  · exact ⟨e, rfl, rfl⟩
  · exact ⟨_, rfl, rfl⟩

theorem isLast_item (i : Nat) (item : Item) : (g.item i item).isLast = item.isLast := by
  cases item with
  | token t n => rw [item_token]; rfl
  | stray e =>
    obtain ⟨e', he, -⟩ := g.item_stray i e
    rw [he]
    rfl

theorem error_undefined (i : Nat) (x : String) (n : Nat) :
    g.error i (.eval (.undefinedVariable x n)) = .eval (.undefinedVariable x (g.line i n)) := by
  unfold error line
  split <;> rfl

end Insertion

namespace Reading

/-! ## Errors -/

variable {r s : Reading}

theorem reject_mapLine (f : Nat → Nat) (r : Reading) (t : Token) (n : Nat) :
    (r.reject t n).mapLine f = r.reject t (f n) := by
  unfold reject
  split
  · rfl
  · split <;> rfl
  · rfl

theorem error_reject (g : Insertion) (h : r.blank = s.blank) (i : Nat) (t : Token) (n : Nat) :
    g.error i (.grammar (r.reject t n)) = .grammar (s.reject t (g.line i n)) := by
  rw [← reject_congr h]
  unfold Insertion.error Insertion.line
  split
  · rfl
  · rw [Error.shift, reject_mapLine]

theorem takes_item (g : Insertion) (h : r.blank = s.blank) (i : Nat) (item : Item) :
    s.Takes (g.item i item) ↔ r.Takes item := by
  cases item with
  | stray e =>
    obtain ⟨e', he, -⟩ := g.item_stray i e
    rw [he]
    exact Iff.rfl
  | token t n =>
    have hstep := congrArg Option.isSome (accept?_congr h t n (g.line i n))
    rw [Option.isSome_map, Option.isSome_map] at hstep
    have hcomplete : (∃ p, r = .complete p) ↔ ∃ p, s = .complete p := by
      constructor
      · rintro ⟨p, rfl⟩
        exact eq_complete_of_blank h.symm
      · rintro ⟨p, rfl⟩
        exact eq_complete_of_blank h
    rw [g.item_token]
    simp only [Takes, hstep, hcomplete]

theorem refuse_item (g : Insertion) (h : r.blank = s.blank) (i : Nat) (item : Item) :
    s.refuse (g.item i item) = g.error i (r.refuse item) := by
  cases item with
  | stray e =>
    obtain ⟨e', he, herror⟩ := g.item_stray i e
    rw [he]
    exact herror.symm
  | token t n =>
    rw [g.item_token]
    exact (error_reject g h i t n).symm

theorem refuse_about (r : Reading) (item : Item) : (r.refuse item).About item := by
  cases item with
  | stray e => exact rfl
  | token t n => exact ⟨r.reject_found t n, r.reject_line t n⟩

end Reading

/-! ## Items -/

theorem Cursor.items_insert {g : Insertion} {c c' : Cursor} (hitems : ∀ i, c'.item i = g.item i (c.item i)) :
    c'.items = c.items.mapIdx g.item := by
  fun_induction Cursor.items c generalizing c' g with
  | case1 c hlast =>
    have hnext : c'.next.1 = g.item 0 c.next.1 := hitems 0
    have hlast' : c'.next.1.isLast := by rw [hnext, g.isLast_item, hlast]
    rw [items_eq_cons, if_pos hlast', hnext]
    rfl
  | case2 c hlast ih =>
    have hnext : c'.next.1 = g.item 0 c.next.1 := hitems 0
    have hlast' : ¬c'.next.1.isLast := by rwa [hnext, g.isLast_item]
    have hsucc : (fun i => g.item (i + 1)) = g.next.item := funext fun i => funext (g.item_succ i)
    rw [items_eq_cons, if_neg hlast', hnext, List.mapIdx_cons, hsucc,
      ih fun i => (hitems (i + 1)).trans (g.item_succ i _)]

/-- The lexemes behind an insertion. -/
def Insertion.lexemes (g : Insertion) (ls : List Lexeme) : List Lexeme :=
  ls.mapIdx fun i l => ⟨l.token, g.line i l.line⟩

theorem Insertion.map_token_lexemes (g : Insertion) (ls : List Lexeme) :
    (g.lexemes ls).map Lexeme.token = ls.map Lexeme.token := by
  refine List.ext_getElem? fun i => ?_
  cases hl : ls[i]? <;> simp [lexemes, hl]

theorem Cursor.items_insert_append {g : Insertion} {c c' : Cursor} {ls : List Lexeme} {item : Item} {rest : List Item}
    (hitems : ∀ i, c'.item i = g.item i (c.item i)) (hls : c.items = ls.map Lexeme.item ++ item :: rest) :
    c'.items = (g.lexemes ls).map Lexeme.item ++
      g.item ls.length item :: rest.mapIdx fun i => g.item (i + 1 + ls.length) := by
  have hmap : (ls.map Lexeme.item).mapIdx g.item = (g.lexemes ls).map Lexeme.item := by
    refine List.ext_getElem? fun i => ?_
    cases hl : ls[i]? <;> simp [hl, Insertion.lexemes, Lexeme.item, g.item_token]
  rw [items_insert hitems, hls, List.mapIdx_append, hmap, List.mapIdx_cons, List.length_map, Nat.zero_add]

/-- The first item with which the one text is not viable is that of the other, and the error
    about it moves as it does. -/
theorem parse_error_insert {s s' : String} {g : Insertion} {e : Error}
    (hitems : ∀ i, (Cursor.ofString s').item i = g.item i ((Cursor.ofString s).item i)) (h : parse s = .error e) :
    ∃ i, FirstUnviable (Cursor.ofString s).items i ∧ e.About ((Cursor.ofString s).item i) ∧
      parse s' = .error (g.error i e) := by
  obtain ⟨ls, item, rest, r, hls, hr, htakes, rfl⟩ := Reading.exists_refused h
  have hls' := Cursor.items_insert_append hitems hls
  have hread := Reading.readAll?_congr (r := .opening) rfl (g.map_token_lexemes ls).symm
  rw [hr] at hread
  obtain ⟨r', hr', hblank⟩ := Option.map_eq_some_iff.1 hread.symm
  have hitem : (Cursor.ofString s).item ls.length = item := by
    refine Cursor.next_after ?_
    rw [hls, List.getElem?_append_right (by simp)]
    simp
  refine ⟨ls.length, firstUnviable_of_refused hls hr htakes, ?_, ?_⟩
  · rw [hitem]
    exact r.refuse_about item
  · rw [parse_refused hls' hr' ((Reading.takes_item g hblank.symm _ _).not.2 htakes),
      Reading.refuse_item g hblank.symm]

/-! ## Trees -/

/-- The lexemes with their indices for lines. -/
def numbered (ls : List Lexeme) : List Lexeme := ls.mapIdx fun i l => ⟨l.token, i⟩

/-- The line of the lexeme at an index. -/
def lineAt (ls : List Lexeme) (i : Nat) : Nat := (ls[i]?.map Lexeme.line).getD 0

theorem map_numbered (f : Nat → Nat → Nat) (ls : List Lexeme) :
    (numbered ls).map (Lexeme.mapLine fun i => f i (lineAt ls i)) = ls.mapIdx fun i l => ⟨l.token, f i l.line⟩ := by
  refine List.ext_getElem? fun i => ?_
  cases hl : ls[i]? with
  | none => simp [numbered, hl]
  | some l => simp [numbered, Lexeme.mapLine, lineAt, hl]

theorem getElem?_of_mem_numbered {ls : List Lexeme} {l : Lexeme} (h : l ∈ numbered ls) :
    ls[l.line]? = some ⟨l.token, lineAt ls l.line⟩ := by
  obtain ⟨i, hi, rfl⟩ := List.mem_mapIdx.1 h
  simp [lineAt, hi]

/-- The names of a program's tree are among its tokens. -/
theorem mem_lexemes_of_var {p : Phrase.Program} {x : String} {n : Nat} (hx : .var x n ∈ p.tree.nodes) :
    ⟨.name x, n⟩ ∈ p.lexemes := by
  have hname : ⟨x, n⟩ ∈ p.lexemes.filterMap Lexeme.name? := by
    rw [filterMap_marksOf Lexeme.name?_eq, p.filterMap_lexemes rfl]
    refine List.mem_cons_of_mem _ ?_
    rw [p.tree.filterMap_name?_marks]
    exact List.mem_filterMap.2 ⟨_, hx, rfl⟩
  obtain ⟨⟨t, m⟩, hl, hlx⟩ := List.mem_filterMap.1 hname
  cases t with
  | name y =>
    obtain ⟨rfl, rfl⟩ := Name.mk.inj (Option.some.inj hlx)
    exact hl
  | _ => cases hlx

/-- The trees of a program with and without an insertion are one tree, on the lines of the
    tokens that its nodes come from. -/
theorem exists_moved_tree {s s' : String} {g : Insertion} {tree : Tree}
    (hitems : ∀ i, (Cursor.ofString s').item i = g.item i ((Cursor.ofString s).item i))
    (h : parse s = .ok tree) :
    ∃ (ls : List Lexeme) (n : Nat) (p : Phrase.Program),
      (Cursor.ofString s).items = ls.map Lexeme.item ++ [.token .endOfInput n] ∧ p.lexemes = numbered ls ∧
      tree = p.tree.mapLines (lineAt ls) ∧ parse s' = .ok (p.tree.mapLines fun i => g.line i (lineAt ls i)) := by
  obtain ⟨ls, last, hls, hlast, -⟩ := (Cursor.ofString s).exists_items
  obtain ⟨hends, n, rfl⟩ := (Reading.run_eq_ok_iff hls hlast).1 h
  have hls' := Cursor.items_insert_append hitems hls
  rw [g.item_token] at hls'
  have hself : (numbered ls).map (Lexeme.mapLine (lineAt ls)) = ls := by
    refine (map_numbered (fun _ n => n) ls).trans ?_
    exact List.ext_getElem? fun i => by simp
  rw [← hself] at hends
  obtain ⟨t, ht, rfl⟩ := Reading.ends_mapLines_iff.1 hends
  obtain ⟨p, hp, rfl⟩ := Reading.exists_program ht
  refine ⟨ls, n, p, hls, hp, rfl, (Reading.run_eq_ok_iff hls' rfl).2 ⟨?_, _, rfl⟩⟩
  rw [Insertion.lexemes, ← map_numbered g.line]
  exact Reading.ends_mapLines_iff.2 ⟨p.tree, ht, rfl⟩

/-! ## Runs -/

namespace Tree

theorem var_mem_nodes {x : String} {n : Nat} {t : Tree} (h : .read x n ∈ t.events) : .var x n ∈ t.nodes := by
  induction t using children_induction with
  | step t ih =>
    rcases mem_events h with hown | ⟨c, hc, he⟩
    · obtain rfl := read_mem_ownEvents hown
      exact mem_nodes_self _
    · exact mem_nodes_of_mem_children hc (ih c hc he)

/-- The variable that a run fails at is one of the tree. -/
theorem var_mem_nodes_of_error {x : String} {n : Nat} {t : Tree} {table : Table}
    (h : (t.eval.on table).1 = .error (.undefinedVariable x n)) : .var x n ∈ t.nodes := by
  obtain ⟨before, e, hp, -, he⟩ := (t.eval_follows table).endsAt h
  have hmem : e ∈ t.events := hp.subset (by simp)
  cases e with
  | read y m =>
    simp only [Event.error?] at he
    split at he
    · cases he
    · obtain ⟨rfl, rfl⟩ := EvalError.undefinedVariable.inj (Option.some.inj he)
      exact var_mem_nodes hmem
  | _ => cases he

end Tree

/-- The items are a program, and its run fails at the item at the index, which is the read of
    a variable without a value. The tree of the program has the indices of its tokens for
    lines, so that it tells which of them is read. -/
def FailsAt (items : List Item) (i : Nat) : Prop :=
  ∃ (ls : List Lexeme) (n : Nat) (p : Phrase.Program) (x : String),
    items = ls.map Lexeme.item ++ [.token .endOfInput n] ∧ p.lexemes = numbered ls ∧
      (p.tree.eval.on ∅).1 = .error (.undefinedVariable x i)

/-- Two texts whose items differ by an insertion are run alike. -/
theorem run_insert {s s' : String} {g : Insertion} {tree : Tree}
    (hitems : ∀ i, (Cursor.ofString s').item i = g.item i ((Cursor.ofString s).item i)) (hparse : parse s = .ok tree) :
    (∀ table, run s = .ok table → run s' = .ok table) ∧
    ∀ e, run s = .error e → ∃ i, FailsAt (Cursor.ofString s).items i ∧ e.About ((Cursor.ofString s).item i) ∧
      run s' = .error (g.error i e) := by
  obtain ⟨ls, n, p, hls, hp, rfl, hparse'⟩ := exists_moved_tree hitems hparse
  have hmoves := p.tree.eval_moves (lineAt ls) ∅
  have hmoves' := p.tree.eval_moves (fun i => g.line i (lineAt ls i)) ∅
  have haccess := (isProgram_of_parse hparse).access
  rw [run_of_parse hparse, run_of_parse hparse', hmoves, hmoves']
  rcases hout : p.tree.eval.on ∅ with ⟨e | v, table⟩
  · have herr : ((p.tree.mapLines (lineAt ls)).eval.on ∅).1 = .error (e.mapLines (lineAt ls)) := by
      rw [hmoves, hout]
      rfl
    obtain ⟨x, m, hx⟩ := Tree.eval_error_of_access haccess herr
    cases e with
    | undefinedVariable y i =>
      have hmem : ⟨.name y, i⟩ ∈ numbered ls := by
        rw [← hp]
        exact mem_lexemes_of_var (Tree.var_mem_nodes_of_error (by rw [hout]))
      have hitem := Cursor.item_of_items hls (getElem?_of_mem_numbered hmem)
      refine ⟨nofun, ?_⟩
      rintro _ ⟨⟩
      refine ⟨i, ⟨ls, n, p, y, hls, hp, by rw [hout]⟩, by rw [hitem]; exact ⟨rfl, rfl⟩, ?_⟩
      exact congrArg Except.error (g.error_undefined i y (lineAt ls i)).symm
    | _ => cases hx
  · exact ⟨fun _ h => h, nofun⟩

/-- The runs fail together, at the first item that is not viable or at one and the same read. -/
theorem run_error_insert {s s' : String} {g : Insertion} {e : Error}
    (hitems : ∀ i, (Cursor.ofString s').item i = g.item i ((Cursor.ofString s).item i)) (h : run s = .error e) :
    ∃ i, (FirstUnviable (Cursor.ofString s).items i ∨ FailsAt (Cursor.ofString s).items i) ∧
      e.About ((Cursor.ofString s).item i) ∧ run s' = .error (g.error i e) := by
  cases hparse : parse s with
  | error e' =>
    rw [run_of_parse_error hparse] at h
    obtain rfl := Except.error.inj h
    obtain ⟨i, hi, habout, herror⟩ := parse_error_insert hitems hparse
    exact ⟨i, Or.inl hi, habout, run_of_parse_error herror⟩
  | ok tree =>
    obtain ⟨i, hi, habout, herror⟩ := (run_insert hitems hparse).2 e h
    exact ⟨i, Or.inr hi, habout, herror⟩

/-- Blanks and comments change nothing but positions and lines.

    Trivia is put into a text where a piece ends, be it the start of the text or its end.
    The items in front of it stay, and those behind it move by its bytes and its lines. If
    the text is a program, it stays one and its tree is the same up to lines; if it runs, it
    leaves the same table. An error is the same one, and it moves if the item that it is about
    stands behind the trivia: of a text that is no program this is the first item with which
    the items are not viable, and of a program that fails it is the read at which it does. -/
theorem parse_insert {u c v : String} {ps : List Piece} (hu : Tiles (u.toList ++ v.toList) ps v.toList)
    (hc : IsTrivia c.toList) :
    let g : Insertion := ⟨(stops [] ps).length, c.utf8ByteSize, c.toList.count '\n'⟩
    let before := Cursor.ofString (u ++ v)
    (∀ i, (Cursor.ofString (u ++ c ++ v)).item i = g.item i (before.item i)) ∧
    (∀ tree, parse (u ++ v) = .ok tree → ∃ tree', parse (u ++ c ++ v) = .ok tree' ∧ tree'.EqUpToLines tree) ∧
    (∀ e, parse (u ++ v) = .error e → ∃ i, FirstUnviable before.items i ∧ e.About (before.item i) ∧
      parse (u ++ c ++ v) = .error (g.error i e)) ∧
    (∀ table, run (u ++ v) = .ok table → run (u ++ c ++ v) = .ok table) ∧
    ∀ e, run (u ++ v) = .error e → ∃ i, (FirstUnviable before.items i ∨ FailsAt before.items i) ∧
      e.About (before.item i) ∧ run (u ++ c ++ v) = .error (g.error i e) := by
  intro g before
  have hitems : ∀ i, (Cursor.ofString (u ++ c ++ v)).item i = g.item i (before.item i) := by
    intro i
    have h := next_insert hu hc i
    rw [String.ofList_toList] at h
    simpa [Cursor.item, Cursor.ofString_eq_between, before, g] using h
  refine ⟨hitems, fun tree h => ?_, fun e h => parse_error_insert hitems h, fun table h => ?_,
    fun e h => run_error_insert hitems h⟩
  · obtain ⟨ls, n, p, -, -, rfl, hparse⟩ := exists_moved_tree hitems h
    exact ⟨_, hparse, Tree.eqUpToLines_mapLines _ _ p.tree⟩
  · cases hparse : parse (u ++ v) with
    | error e =>
      rw [run_of_parse_error hparse] at h
      cases h
    | ok tree => exact (run_insert hitems hparse).1 table h

/-- A comment over the end of a line stands between the two tokens, and the second one is
    out of place. -/
theorem parse_insert_comment :
    parse "PROGRAM;" = .error (.grammar (.unexpected .name (.symbol .semicolon) 1)) ∧
    parse "PROGRAM\x7b\n\x7d;" = .error (.grammar (.unexpected .name (.symbol .semicolon) 2)) := by
  have hu : Tiles ("PROGRAM".toList ++ ";".toList) [⟨"PROGRAM".toList, some (.keyword .program), ";".toList⟩]
      ";".toList := by
    have hcut := Piece.cut_isLongest 'P' "ROGRAM;".toList
    rw [show Piece.cut 'P' "ROGRAM;".toList = ⟨"PROGRAM".toList, some (.keyword .program), ";".toList⟩ from rfl]
      at hcut
    exact Tiles.cons hcut (Tiles.nil _)
  have hc : IsTrivia "\x7b\n\x7d".toList := .comment (show '}' ∉ ['\n'] by decide)
  have hfirst : (Cursor.ofString ("PROGRAM" ++ ";")).item 0 = .token (.keyword .program) 1 := by decide +kernel
  have hsecond : (Cursor.ofString ("PROGRAM" ++ ";")).item 1 = .token (.symbol .semicolon) 1 := by decide +kernel
  have hparse : parse ("PROGRAM" ++ ";") = .error (.grammar (.unexpected .name (.symbol .semicolon) 1)) := by
    have hstep := Reading.run_accept (r := .opening) hfirst rfl
    exact (congrArg Prod.fst hstep).trans (Reading.run_refused hsecond (by simp [Reading.Takes, Reading.accept?]))
  obtain ⟨i, -, habout, herror⟩ := (parse_insert hu hc).2.2.1 _ hparse
  have hi : i ≠ 0 := by
    rintro rfl
    rw [hfirst] at habout
    cases habout.1
  refine ⟨hparse, herror.trans ?_⟩
  rw [Insertion.error, if_neg]
  · rfl
  · exact fun hlt => hi (Nat.lt_one_iff.1 hlt)

end Pascaline
