/-
  Pascaline.Proofs.Reading.Yield — nothing of a program text is lost in its tree.

  The marks of the tokens that a phrase derives are the marks of its tree, in order
  (`Phrase.Compound.marksOf_lexemes`); of declarations only the semicolons are left out
  (`Phrase.Declarations.marksOf_lexemes`). Counted, or with only the names, the numbers or
  the operators kept, this says what of a text can be read off its tree, and on which lines
  (`parse_yield`).
-/

import Pascaline.Proofs.Reading.Parse
import Pascaline.Proofs.Token.Tiling
import Pascaline.Proofs.Tree.Marks
import Pascaline.Proofs.Tree.WellFormed

namespace Pascaline

/-- The marks that tokens leave. -/
def marksOf (ls : List Lexeme) : List Mark := ls.filterMap Lexeme.mark?

theorem marksOf_append (ls ms : List Lexeme) : marksOf (ls ++ ms) = marksOf ls ++ marksOf ms := List.filterMap_append

theorem marksOf_cons_some {l : Lexeme} {m : Mark} (h : l.mark? = some m) (ls : List Lexeme) :
    marksOf (l :: ls) = m :: marksOf ls := List.filterMap_cons_some h

theorem marksOf_cons_none {l : Lexeme} (h : l.mark? = none) (ls : List Lexeme) : marksOf (l :: ls) = marksOf ls :=
  List.filterMap_cons_none h

namespace Phrase

/-! ## Expressions and statements -/

theorem Sign.mark? (s : Sign) (n : Nat) : (s.lexeme n).mark? = some (.operator s.operator n) := by cases s <;> rfl

theorem Scaling.mark? (s : Scaling) (n : Nat) : (s.lexeme n).mark? = some (.operator s.operator n) := by cases s <;> rfl

mutual
theorem Expression.marksOf_lexemes (e : Expression) : marksOf e.lexemes = e.tree.marks := by
  cases e with | mk first rest =>
  rw [Expression.lexemes, marksOf_append, first.marksOf_lexemes, Expression.tree, rest.marks_tree]

theorem Summands.marks_tree (rest : Summands) (left : Tree) :
    (rest.tree left).marks = left.marks ++ marksOf rest.lexemes := by
  cases rest with
  | nil => exact (List.append_nil _).symm
  | cons sign n term rest =>
    rw [Summands.tree, rest.marks_tree, Summands.lexemes, marksOf_cons_some (sign.mark? n), marksOf_append,
      term.marksOf_lexemes, Tree.marks, List.append_assoc, List.cons_append]

theorem Term.marksOf_lexemes (t : Term) : marksOf t.lexemes = t.tree.marks := by
  cases t with | mk first rest =>
  rw [Term.lexemes, marksOf_append, first.marksOf_lexemes, Term.tree, rest.marks_tree]

theorem Multipliers.marks_tree (rest : Multipliers) (left : Tree) :
    (rest.tree left).marks = left.marks ++ marksOf rest.lexemes := by
  cases rest with
  | nil => exact (List.append_nil _).symm
  | cons op n factor rest =>
    rw [Multipliers.tree, rest.marks_tree, Multipliers.lexemes, marksOf_cons_some (op.mark? n), marksOf_append,
      factor.marksOf_lexemes, Tree.marks, List.append_assoc, List.cons_append]

theorem Factor.marksOf_lexemes (f : Factor) : marksOf f.lexemes = f.tree.marks := by
  cases f with
  | signed sign n operand =>
    rw [Factor.lexemes, marksOf_cons_some (sign.mark? n), operand.marksOf_lexemes, Factor.tree, Tree.marks]
  | group m inner n =>
    rw [Factor.lexemes, marksOf_cons_none rfl, marksOf_append, inner.marksOf_lexemes, marksOf_cons_none rfl,
      Factor.tree]
    exact List.append_nil _
  | _ => rfl
end

theorem Assignment.marksOf_lexemes (a : Assignment) : marksOf a.lexemes = a.tree.marks := by
  rw [Assignment.lexemes, marksOf_cons_some rfl, marksOf_cons_some rfl, a.value.marksOf_lexemes]
  rfl

mutual
theorem Compound.marksOf_lexemes (c : Compound) : marksOf c.lexemes = c.tree.marks := by
  cases c with | mk m body n =>
  cases body with | mk first rest =>
  rw [Compound.lexemes, marksOf_cons_some rfl, Statements.lexemes, marksOf_append, marksOf_append,
    marksOf_cons_none rfl, first.marksOf_lexemes, rest.marksOf_lexemes, Compound.tree, Statements.trees, Tree.marks]
  exact congrArg _ (List.append_nil _)

theorem MoreStatements.marksOf_lexemes (rest : MoreStatements) : marksOf rest.lexemes = Tree.marksMore rest.trees := by
  cases rest with
  | nil => rfl
  | cons n statement rest =>
    rw [MoreStatements.lexemes, marksOf_cons_some rfl, marksOf_append, statement.marksOf_lexemes, rest.marksOf_lexemes,
      MoreStatements.trees, Tree.marksMore]

theorem Statement.marksOf_lexemes (s : Statement) : marksOf s.lexemes = s.tree.marks := by
  cases s with
  | compound c => exact c.marksOf_lexemes
  | assignment a => exact a.marksOf_lexemes
  | empty => rfl
end

/-! ## Declarations and programs -/

theorem TypeSpec.mark? (t : TypeSpec) : t.lexeme.mark? = none := by
  obtain ⟨type, n⟩ := t
  cases type <;> rfl

theorem VarDeclaration.marksOf_lexemes (d : VarDeclaration) : marksOf d.lexemes = d.names.map .name := by
  have hrest : marksOf (d.rest.flatMap commaName) = d.rest.map fun x => .name x.2 := by
    induction d.rest with
    | nil => rfl
    | cons x xs ih =>
      rw [List.flatMap_cons, marksOf_append, ih]
      rfl
  rw [VarDeclaration.lexemes, marksOf_cons_some rfl, marksOf_append, hrest, marksOf_cons_none rfl,
    marksOf_cons_none d.type.mark?, VarDeclaration.names, List.map_cons, List.map_map]
  exact congrArg _ (List.append_nil _)

theorem VarDeclaration.marks_trees (d : VarDeclaration) : d.trees.flatMap Tree.marks = d.names.map .name := by
  rw [VarDeclaration.trees, List.flatMap_map, List.map_eq_flatMap]
  rfl

/-- Of declarations only the semicolons leave a mark that is not in their trees. -/
theorem Declarations.marksOf_lexemes (d : Declarations) :
    (marksOf d.lexemes).filter (· ≠ .separator) = d.trees.flatMap Tree.marks := by
  have hlines : ∀ ds : List (VarDeclaration × Nat), (marksOf (ds.flatMap declarationLine)).filter (· ≠ .separator) =
      (ds.flatMap fun d => d.1.trees).flatMap Tree.marks := by
    intro ds
    induction ds with
    | nil => rfl
    | cons d ds ih =>
      have hnames : (d.1.names.map Mark.name).filter (· ≠ .separator) = d.1.names.map .name := by
        rw [List.filter_eq_self]
        simp
      rw [List.flatMap_cons, marksOf_append, declarationLine, marksOf_append, List.filter_append, List.filter_append,
        ih, List.flatMap_cons, List.flatMap_append, d.1.marksOf_lexemes, hnames, d.1.marks_trees]
      exact congrArg (· ++ _) (List.append_nil _)
  cases d with
  | none => rfl
  | some n first rest => rw [Declarations.lexemes, marksOf_cons_none rfl, hlines, Declarations.trees]

theorem Program.marks_tree (p : Program) :
    p.tree.marks = p.block.declarations.trees.flatMap Tree.marks ++ p.block.body.tree.marks := by
  rw [Program.tree, Tree.marks, Tree.marks, Tree.marksAll_eq]

theorem Program.marksOf_lexemes (p : Program) : marksOf p.lexemes =
    .name p.name :: .separator :: (marksOf p.block.declarations.lexemes ++ p.block.body.tree.marks) := by
  rw [Program.lexemes, marksOf_cons_none rfl, marksOf_cons_some rfl, marksOf_cons_some rfl, marksOf_append,
    Block.lexemes, marksOf_append, p.block.body.marksOf_lexemes]
  exact congrArg (_ :: _ :: ·) (List.append_nil _)

/-- Besides its semicolons a program has the mark of its name, and then those of its tree. -/
theorem Program.filter_marksOf_lexemes (p : Program) : (marksOf p.lexemes).filter (· ≠ .separator) =
    .name p.name :: p.tree.marks.filter (· ≠ .separator) := by
  have hd := p.block.declarations.marksOf_lexemes
  have hidem : ((marksOf p.block.declarations.lexemes).filter (· ≠ .separator)).filter (· ≠ .separator) =
      (marksOf p.block.declarations.lexemes).filter (· ≠ .separator) := by
    rw [List.filter_filter]
    simp
  rw [p.marksOf_lexemes, List.filter_cons_of_pos (by simp), List.filter_cons_of_neg (by simp), List.filter_append,
    p.marks_tree, List.filter_append, ← hd, hidem]

end Phrase

/-! ## What can be read off a tree -/

def Lexeme.name? (l : Lexeme) : Option Name :=
  match l.token with
  | .name s => some ⟨s, l.line⟩
  | _ => none

def Lexeme.value? (l : Lexeme) : Option Float :=
  match l.token with
  | .integer v | .real v => some v
  | _ => none

def Lexeme.operator? (l : Lexeme) : Option (Operator × Nat) := l.token.operator?.map fun op => (op, l.line)

/-- The one token that leaves the mark, if there is only one. -/
def Mark.token? : Mark → Option Token
  | .assign => some (.symbol .assign)
  | .list => some (.keyword .beginBody)
  | .separator => some (.symbol .semicolon)
  | _ => none

def Tree.name? : Tree → Option Name
  | .var x n => some ⟨x, n⟩
  | _ => none

def Tree.value? : Tree → Option Float
  | .number v => some v
  | _ => none

namespace Lexeme

theorem name?_eq (l : Lexeme) : l.name? = l.mark?.bind Mark.name? := by
  obtain ⟨t, n⟩ := l
  cases t with
  | keyword k => cases k <;> rfl
  | symbol s => cases s <;> rfl
  | _ => rfl

theorem value?_eq (l : Lexeme) : l.value? = l.mark?.bind Mark.value? := by
  obtain ⟨t, n⟩ := l
  cases t with
  | keyword k => cases k <;> rfl
  | symbol s => cases s <;> rfl
  | _ => rfl

theorem operator?_eq (l : Lexeme) : l.operator? = l.mark?.bind Mark.operator? := by
  obtain ⟨t, n⟩ := l
  cases t with
  | keyword k => cases k <;> rfl
  | symbol s => cases s <;> rfl
  | _ => rfl

/-- A mark that stands for one token is left by that token only. -/
theorem mark?_eq_some_iff {m : Mark} {t : Token} (h : m.token? = some t) (l : Lexeme) :
    l.mark? = some m ↔ l.token = t := by
  obtain ⟨u, n⟩ := l
  cases m with
  | assign | list | separator =>
    obtain rfl := Option.some.inj h
    cases u with
    | keyword k => cases k <;> simp [mark?, Token.operator?]
    | symbol s => cases s <;> simp [mark?, Token.operator?]
    | _ => simp [mark?, Token.operator?]
  | _ => cases h

end Lexeme

/-- A mark is left as often as its token stands in the text. -/
theorem count_marksOf {m : Mark} {t : Token} (h : m.token? = some t) (ls : List Lexeme) :
    (marksOf ls).count m = ls.countP (·.token = t) := by
  rw [marksOf, List.count, List.countP_filterMap]
  refine List.countP_congr fun l _ => ?_
  have hiff := l.mark?_eq_some_iff h
  cases hl : l.mark? with
  | none => simpa [hl] using hiff
  | some k => simpa [hl] using hiff

theorem filterMap_marksOf {α : Type} {f : Mark → Option α} {g : Lexeme → Option α} (h : ∀ l, g l = l.mark?.bind f)
    (ls : List Lexeme) : ls.filterMap g = (marksOf ls).filterMap f := by
  rw [marksOf, List.filterMap_filterMap]
  exact List.filterMap_congr fun l _ => h l

namespace Phrase

variable (p : Program)

/-- What is kept of the marks of a program, if it is not semicolons, is kept of its name and
    of its tree. -/
theorem Program.filterMap_lexemes {α : Type} {f : Mark → Option α} (hf : f .separator = none) :
    (marksOf p.lexemes).filterMap f = (Mark.name p.name :: p.tree.marks).filterMap f := by
  have hdrop : ∀ ms : List Mark, (ms.filter (· ≠ .separator)).filterMap f = ms.filterMap f := by
    intro ms
    rw [List.filterMap_filter]
    refine List.filterMap_congr fun m _ => ?_
    by_cases hm : m = .separator
    · simp [hm, hf]
    · simp [hm]
  rw [← hdrop, p.filter_marksOf_lexemes, List.filterMap_cons, hdrop, List.filterMap_cons]

theorem Program.count_lexemes {m : Mark} (hs : m ≠ .separator) (hn : m.name? = none) :
    (marksOf p.lexemes).count m = p.tree.marks.count m := by
  have hfilter : ∀ ms : List Mark, (ms.filter (· ≠ .separator)).count m = ms.count m := fun ms =>
    List.count_filter (by simpa using hs)
  have hname : Mark.name p.name ≠ m := by
    rintro rfl
    cases hn
  rw [← hfilter, p.filter_marksOf_lexemes, List.count_cons_of_ne hname, hfilter]

/-- No list of statements is opened in declarations. -/
theorem Declarations.beginBody_notMem (d : Declarations) : ∀ l ∈ d.lexemes, l.token ≠ .keyword .beginBody := by
  intro l hl ht
  have hmem : Mark.list ∈ (marksOf d.lexemes).filter (· ≠ .separator) :=
    List.mem_filter.2 ⟨List.mem_filterMap.2 ⟨l, hl, (l.mark?_eq_some_iff rfl).2 ht⟩, by simp⟩
  rw [d.marksOf_lexemes] at hmem
  obtain ⟨t, ht, hmark⟩ := List.mem_flatMap.1 hmem
  cases d with
  | none => cases ht
  | some n first rest =>
    obtain ⟨d, -, ht⟩ := List.mem_flatMap.1 ht
    obtain ⟨x, -, rfl⟩ := List.mem_map.1 ht
    simp [Tree.marks, Name.tree] at hmark

/-- The semicolons behind the first `BEGIN` are those of the tree. -/
theorem Program.countP_semicolon : (p.lexemes.dropWhile (·.token ≠ .keyword .beginBody)).countP
    (·.token = .symbol .semicolon) = p.tree.marks.count .separator := by
  have hbody : p.lexemes.dropWhile (·.token ≠ .keyword .beginBody) =
      p.block.body.lexemes ++ [⟨.symbol .dot, p.point⟩] := by
    obtain ⟨m, x, n, ⟨d, c⟩, k⟩ := p
    have hd : ∀ l ∈ d.lexemes, decide (l.token ≠ .keyword .beginBody) = true := fun l hl =>
      decide_eq_true (d.beginBody_notMem l hl)
    cases c with | mk i body j =>
    simp only [Program.lexemes, Block.lexemes, List.append_assoc]
    rw [List.dropWhile_cons_of_pos (by simp), List.dropWhile_cons_of_pos (by simp [Name.lexeme]),
      List.dropWhile_cons_of_pos (by simp), List.dropWhile_append_of_pos hd]
    rfl
  have hdeclared : (p.block.declarations.trees.flatMap Tree.marks).count .separator = 0 := by
    rw [← p.block.declarations.marksOf_lexemes]
    exact List.count_eq_zero.2 fun h => by simp at h
  rw [hbody, ← count_marksOf (m := .separator) rfl, marksOf_append, List.count_append,
    p.block.body.marksOf_lexemes, p.marks_tree, List.count_append, hdeclared, Nat.zero_add]
  rfl

end Phrase

namespace Tree

/-! ## Names, numbers and lists of a tree -/

theorem filterMap_name?_marks (t : Tree) : t.marks.filterMap Mark.name? = t.nodes.filterMap name? := by
  refine filterMap_marks (fun m hm => ?_) (fun t => ?_) t
  · cases m with
    | name x => exact absurd rfl hm
    | _ => rfl
  · cases t with
    | compound ss => simp [ownMarks, name?, List.filterMap_cons, Mark.name?]
    | _ => rfl

theorem filterMap_value?_marks (t : Tree) : t.marks.filterMap Mark.value? = t.nodes.filterMap value? := by
  refine filterMap_marks (fun m hm => ?_) (fun t => ?_) t
  · cases m with
    | number v => exact absurd rfl hm
    | _ => rfl
  · cases t with
    | compound ss => simp [ownMarks, value?, List.filterMap_cons, Mark.value?]
    | _ => rfl

theorem forall_mem_nodes {P : Tree → Prop} {t : Tree} (ht : P t) (h : ∀ c ∈ t.children, ∀ n ∈ c.nodes, P n) :
    ∀ n ∈ t.nodes, P n := by
  rw [nodes_eq]
  refine List.forall_mem_cons.2 ⟨ht, fun n hn => ?_⟩
  obtain ⟨c, hc, hn⟩ := List.mem_flatMap.1 hn
  exact h c hc n hn

theorem IsVariable.ne_compound_nil {t : Tree} (h : t.IsVariable) : ∀ n ∈ t.nodes, n ≠ .compound [] := by
  obtain ⟨-, k⟩ := h
  exact forall_mem_nodes nofun nofun

theorem IsExpression.ne_compound_nil {t : Tree} (h : t.IsExpression) : ∀ n ∈ t.nodes, n ≠ .compound [] := by
  induction h with
  | number v => exact forall_mem_nodes nofun nofun
  | var h => exact h.ne_compound_nil
  | binary op k hl hr ihl ihr =>
    exact forall_mem_nodes nofun (List.forall_mem_cons.2 ⟨ihl, List.forall_mem_singleton.2 ihr⟩)
  | unary k hop h ih => exact forall_mem_nodes nofun (List.forall_mem_singleton.2 ih)

theorem IsStatement.ne_compound_nil {t : Tree} (h : t.IsStatement) : ∀ n ∈ t.nodes, n ≠ .compound [] := by
  induction h with
  | compound hne h ih => exact forall_mem_nodes (fun he => hne (compound.inj he)) ih
  | assign ht hv =>
    exact forall_mem_nodes nofun
      (List.forall_mem_cons.2 ⟨ht.ne_compound_nil, List.forall_mem_singleton.2 hv.ne_compound_nil⟩)
  | empty => exact forall_mem_nodes nofun nofun

/-- In the tree of a program every list has a statement. -/
theorem IsProgram.ne_compound_nil {t : Tree} (h : t.IsProgram) : ∀ n ∈ t.nodes, n ≠ .compound [] := by
  obtain ⟨-, hd, hb⟩ := h
  refine forall_mem_nodes nofun (List.forall_mem_singleton.2 (forall_mem_nodes nofun fun c hc => ?_))
  rcases List.mem_append.1 hc with hc | hc
  · obtain ⟨hx, type⟩ := hd c hc
    exact forall_mem_nodes nofun
      (List.forall_mem_cons.2 ⟨hx.ne_compound_nil, List.forall_mem_singleton.2 (forall_mem_nodes nofun nofun)⟩)
  · obtain rfl := List.mem_singleton.1 hc
    exact hb.ne_compound_nil

/-- The semicolons of a program's tree are the statements beyond the first of each list. -/
theorem IsProgram.sum_length_children {t : Tree} (h : t.IsProgram) :
    ((t.nodes.filter (·.kind = .compound)).map fun n => (n.children.length : Int) - 1).sum =
      (t.marks.count .separator : Int) := by
  have hpos : ∀ n ∈ t.nodes.filter (·.kind = .compound), 0 < n.children.length := by
    intro n hn
    obtain ⟨hmem, hkind⟩ := List.mem_filter.1 hn
    have hne := h.ne_compound_nil n hmem
    cases n with
    | compound ss =>
      refine List.length_pos_iff.2 fun hnil => hne ?_
      rw [show ss = [] from hnil]
    | _ => simp [kind] at hkind
  rw [t.count_separator_marks]
  generalize t.nodes.filter (·.kind = .compound) = ns at hpos
  induction ns with
  | nil => rfl
  | cons n ns ih =>
    obtain ⟨hn, hns⟩ := List.forall_mem_cons.1 hpos
    rw [List.map_cons, List.map_cons, List.sum_cons, List.sum_cons, ih hns]
    omega

end Tree

/-! ## The text and its tree -/

/-- The token of an item with its line. -/
def Item.lexeme? : Item → Option Lexeme
  | .token t n => some ⟨t, n⟩
  | .stray _ => none

/-- The tokens of the pieces of a text, each with the line that it starts on. -/
def lexemesOf (ps : List Piece) : List Lexeme := (stops [] ps).filterMap fun s => s.1.lexeme?

theorem lexemesOf_eq {ps : List Piece} {ls : List Lexeme} (h : (stops [] ps).map Prod.fst = ls.map Lexeme.item) :
    lexemesOf ps = ls := by
  have hmap : (ls.map Lexeme.item).filterMap Item.lexeme? = ls := by
    rw [List.filterMap_map]
    exact List.filterMap_some
  rw [lexemesOf, ← hmap, ← h, List.filterMap_map]
  rfl

/-- A text that is parsed is a program of the grammar, with its tokens on the lines that they
    start on. -/
theorem exists_program_of_parse {source : String} {tree : Tree} {ps : List Piece} (h : parse source = .ok tree)
    (hps : Tiles source.toList ps []) : ∃ p : Phrase.Program, p.lexemes = lexemesOf ps ∧ p.tree = tree := by
  obtain ⟨ls, last, hls, hlast, -⟩ := (Cursor.ofString source).exists_items
  obtain ⟨hends, n, rfl⟩ := (Reading.run_eq_ok_iff hls hlast).1 h
  rw [lexemesOf_eq (hps.map_stops hls)]
  exact Reading.exists_program hends

/-- Nothing of a text is lost in its tree, and nothing is added or moved.

    Of a text with the pieces `ps`: the first name is that of the program, and the others
    are, in order and with the lines they start on, the variables of the tree; so are the
    numbers and, between or before their operands, the operators. There are as many
    assignments as `:=`, as many lists as BEGIN, and behind the first BEGIN as many
    semicolons as there are statements beyond the first of each list. -/
theorem parse_yield {source : String} {tree : Tree} {ps : List Piece} (h : parse source = .ok tree)
    (hps : Tiles source.toList ps []) :
    (∃ x block, tree = .program x.text block ∧
      (lexemesOf ps).filterMap Lexeme.name? = x :: tree.nodes.filterMap Tree.name?) ∧
    (lexemesOf ps).filterMap Lexeme.value? = tree.nodes.filterMap Tree.value? ∧
    (lexemesOf ps).filterMap Lexeme.operator? = tree.operators ∧
    (lexemesOf ps).countP (·.token = .symbol .assign) = tree.nodes.countP (·.kind = .assign) ∧
    (lexemesOf ps).countP (·.token = .keyword .beginBody) = tree.nodes.countP (·.kind = .compound) ∧
    ((tree.nodes.filter (·.kind = .compound)).map fun t => (t.children.length : Int) - 1).sum =
      (((lexemesOf ps).dropWhile (·.token ≠ .keyword .beginBody)).countP (·.token = .symbol .semicolon) : Int) := by
  have hshape := isProgram_of_parse h
  obtain ⟨p, hls, rfl⟩ := exists_program_of_parse h hps
  rw [← hls]
  refine ⟨⟨p.name, _, rfl, ?_⟩, ?_, ?_, ?_, ?_, ?_⟩
  · rw [filterMap_marksOf Lexeme.name?_eq, p.filterMap_lexemes rfl, ← p.tree.filterMap_name?_marks]
    rfl
  · rw [filterMap_marksOf Lexeme.value?_eq, p.filterMap_lexemes rfl, ← p.tree.filterMap_value?_marks]
    rfl
  · rw [filterMap_marksOf Lexeme.operator?_eq, p.filterMap_lexemes rfl, ← p.tree.filterMap_operator?_marks]
    rfl
  · rw [← count_marksOf (m := .assign) rfl, p.count_lexemes (by simp) rfl, p.tree.count_assign_marks]
  · rw [← count_marksOf (m := .list) rfl, p.count_lexemes (by simp) rfl, p.tree.count_list_marks]
  · rw [p.countP_semicolon, hshape.sum_length_children]

/-- The difference runs over the end of a line, and the sign is on the second; the list ends
    with an empty statement. -/
theorem parse_yield_difference :
    parse "PROGRAM p; BEGIN x := y\n- z; END." =
      .ok (.program "p" (.block []
        (.compound [.assign (.var "x" 1) (.binary (.var "y" 1) .minus (.var "z" 2) 2), .empty]))) ∧
    ∃ ps, Tiles "PROGRAM p; BEGIN x := y\n- z; END.".toList ps [] ∧
      (∃ n, (lexemesOf ps).filterMap Lexeme.name? = [⟨"p", n⟩, ⟨"x", 1⟩, ⟨"y", 1⟩, ⟨"z", 2⟩]) ∧
      (lexemesOf ps).filterMap Lexeme.operator? = [(.minus, 2)] := by
  have hitems : (Cursor.ofString "PROGRAM p; BEGIN x := y\n- z; END.").items =
      [⟨.keyword .program, 1⟩, ⟨.name "p", 1⟩, ⟨.symbol .semicolon, 1⟩, ⟨.keyword .beginBody, 1⟩, ⟨.name "x", 1⟩,
        ⟨.symbol .assign, 1⟩, ⟨.name "y", 1⟩, ⟨.symbol .minus, 2⟩, ⟨.name "z", 2⟩, ⟨.symbol .semicolon, 2⟩,
        ⟨.keyword .endBody, 2⟩, ⟨.symbol .dot, 2⟩].map Lexeme.item ++ [.token .endOfInput 2] := by
    decide +kernel
  have hparse : parse "PROGRAM p; BEGIN x := y\n- z; END." =
      .ok (.program "p" (.block []
        (.compound [.assign (.var "x" 1) (.binary (.var "y" 1) .minus (.var "z" 2) 2), .empty]))) :=
    (Reading.run_eq_ok_iff hitems rfl).2 ⟨rfl, 2, rfl⟩
  obtain ⟨ps, hps⟩ := exists_tiles "PROGRAM p; BEGIN x := y\n- z; END.".toList
  obtain ⟨⟨⟨text, n⟩, block, htree, hnames⟩, -, hoperators, -⟩ := parse_yield hparse hps
  obtain ⟨rfl, rfl⟩ := Tree.program.inj htree
  exact ⟨hparse, ps, hps, ⟨n, hnames⟩, hoperators⟩

end Pascaline
