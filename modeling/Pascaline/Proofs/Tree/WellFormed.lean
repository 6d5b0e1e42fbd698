/-
  Pascaline.Proofs.Tree.WellFormed — the trees of programs, and how their runs can fail.

  The tree of a text is one of a program: declarations of variables, statements, and
  expressions stand where they belong, every variable and the program have identifiers for
  names, and only signs stand before an operand (`Tree.IsProgram`). It is so for every
  phrase of the grammar whose names are identifiers (`Phrase.Program.isProgram`), and the
  names of a text are.

  All that a run of such a tree comes to is reads and writes of variables
  (`Tree.IsProgram.access`). So there is one way in which it can fail: a variable is read
  before it is known (`parse_isProgram`).
-/

import Pascaline.Proofs.Reading.Parse
import Pascaline.Proofs.Token.Identifier
import Pascaline.Proofs.Tree.Events

namespace Pascaline

namespace Tree

/-! ## The shapes of trees -/

inductive IsVariable : Tree → Prop
  | mk {name : String} (h : IsIdentifier name) (line : Nat) : IsVariable (.var name line)

inductive IsExpression : Tree → Prop
  | number (v : Float) : IsExpression (.number v)
  | var {t : Tree} (h : IsVariable t) : IsExpression t
  | binary {left right : Tree} (op : Operator) (line : Nat) (hl : IsExpression left) (hr : IsExpression right) :
      IsExpression (.binary left op right line)
  | unary {op : Operator} {operand : Tree} (line : Nat) (hop : op = .plus ∨ op = .minus)
      (h : IsExpression operand) : IsExpression (.unary op operand line)

/-- A list of statements is not empty, but a statement in it may be. -/
inductive IsStatement : Tree → Prop
  | compound {statements : List Tree} (hne : statements ≠ []) (h : ∀ s ∈ statements, IsStatement s) :
      IsStatement (.compound statements)
  | assign {target value : Tree} (ht : IsVariable target) (hv : IsExpression value) :
      IsStatement (.assign target value)
  | empty : IsStatement .empty

inductive IsDeclaration : Tree → Prop
  | mk {subject : Tree} (h : IsVariable subject) (type : DataType) :
      IsDeclaration (.declaration subject (.typeName type))

inductive IsProgram : Tree → Prop
  | mk {name : String} {declarations statements : List Tree} (hname : IsIdentifier name)
      (hd : ∀ d ∈ declarations, IsDeclaration d) (hb : IsStatement (.compound statements)) :
      IsProgram (.program name (.block declarations (.compound statements)))

end Tree

namespace Phrase

/-! ## What phrases mean -/

/-- All names in the text are identifiers. -/
def Identified (ls : List Lexeme) : Prop := ∀ l ∈ ls, l.token.NamesIdentifier

theorem identified_cons {l : Lexeme} {ls : List Lexeme} :
    Identified (l :: ls) ↔ l.token.NamesIdentifier ∧ Identified ls := by
  simp [Identified]

theorem identified_append {ls ms : List Lexeme} : Identified (ls ++ ms) ↔ Identified ls ∧ Identified ms := by
  simp [Identified, or_imp, forall_and]

theorem isIdentifier_of_lexeme {x : Name} (h : x.lexeme.token.NamesIdentifier) : IsIdentifier x.text := h x.text rfl

theorem isVariable_of_lexeme {x : Name} (h : x.lexeme.token.NamesIdentifier) : x.tree.IsVariable :=
  .mk (isIdentifier_of_lexeme h) x.line

theorem Sign.operator_eq (s : Sign) : s.operator = .plus ∨ s.operator = .minus := by
  cases s
  · exact Or.inl rfl
  · exact Or.inr rfl

mutual
theorem Expression.isExpression (e : Expression) (h : Identified e.lexemes) : e.tree.IsExpression := by
  cases e with | mk first rest =>
  obtain ⟨hf, hr⟩ := identified_append.1 h
  exact rest.isExpression (first.isExpression hf) hr

theorem Summands.isExpression (rest : Summands) {left : Tree} (hl : left.IsExpression) (h : Identified rest.lexemes) :
    (rest.tree left).IsExpression := by
  cases rest with
  | nil => exact hl
  | cons sign n term rest =>
    obtain ⟨ht, hr⟩ := identified_append.1 (identified_cons.1 h).2
    exact rest.isExpression (.binary _ _ hl (term.isExpression ht)) hr

theorem Term.isExpression (t : Term) (h : Identified t.lexemes) : t.tree.IsExpression := by
  cases t with | mk first rest =>
  obtain ⟨hf, hr⟩ := identified_append.1 h
  exact rest.isExpression (first.isExpression hf) hr

theorem Multipliers.isExpression (rest : Multipliers) {left : Tree} (hl : left.IsExpression)
    (h : Identified rest.lexemes) : (rest.tree left).IsExpression := by
  cases rest with
  | nil => exact hl
  | cons op n factor rest =>
    obtain ⟨hf, hr⟩ := identified_append.1 (identified_cons.1 h).2
    exact rest.isExpression (.binary _ _ hl (factor.isExpression hf)) hr

theorem Factor.isExpression (f : Factor) (h : Identified f.lexemes) : f.tree.IsExpression := by
  cases f with
  | signed sign n operand => exact .unary n sign.operator_eq (operand.isExpression (identified_cons.1 h).2)
  | integer v n => exact .number v
  | real v n => exact .number v
  | group m inner n => exact inner.isExpression (identified_append.1 (identified_cons.1 h).2).1
  | name x => exact .var (isVariable_of_lexeme (identified_cons.1 h).1)
end

theorem Assignment.isStatement (a : Assignment) (h : Identified a.lexemes) : a.tree.IsStatement := by
  obtain ⟨hx, hrest⟩ := identified_cons.1 h
  exact .assign (isVariable_of_lexeme hx) (a.value.isExpression (identified_cons.1 hrest).2)

mutual
theorem Compound.isStatement (c : Compound) (h : Identified c.lexemes) : c.tree.IsStatement := by
  cases c with | mk m body n =>
  have hs := body.isStatement (identified_append.1 (identified_cons.1 h).2).1
  refine .compound ?_ hs
  cases body
  exact List.cons_ne_nil _ _

theorem Statements.isStatement (ss : Statements) (h : Identified ss.lexemes) : ∀ t ∈ ss.trees, t.IsStatement := by
  cases ss with | mk first rest =>
  obtain ⟨hf, hr⟩ := identified_append.1 h
  exact List.forall_mem_cons.2 ⟨first.isStatement hf, rest.isStatement hr⟩

theorem MoreStatements.isStatement (rest : MoreStatements) (h : Identified rest.lexemes) :
    ∀ t ∈ rest.trees, t.IsStatement := by
  cases rest with
  | nil => exact nofun
  | cons n statement rest =>
    obtain ⟨hs, hr⟩ := identified_append.1 (identified_cons.1 h).2
    exact List.forall_mem_cons.2 ⟨statement.isStatement hs, rest.isStatement hr⟩

theorem Statement.isStatement (s : Statement) (h : Identified s.lexemes) : s.tree.IsStatement := by
  cases s with
  | compound c => exact c.isStatement h
  | assignment a => exact a.isStatement h
  | empty => exact .empty
end

theorem VarDeclaration.isDeclaration (d : VarDeclaration) (h : Identified d.lexemes) :
    ∀ t ∈ d.trees, t.IsDeclaration := by
  obtain ⟨hfirst, hrest⟩ := identified_cons.1 h
  have hnames : ∀ x ∈ d.names, x.lexeme.token.NamesIdentifier := by
    refine List.forall_mem_cons.2 ⟨hfirst, fun x hx => ?_⟩
    obtain ⟨y, hy, rfl⟩ := List.mem_map.1 hx
    have hcomma : y.2.lexeme ∈ d.rest.flatMap commaName := List.mem_flatMap.2 ⟨y, hy, by simp [commaName]⟩
    exact hrest _ (List.mem_append_left _ hcomma)
  intro t ht
  obtain ⟨x, hx, rfl⟩ := List.mem_map.1 ht
  exact .mk (isVariable_of_lexeme (hnames x hx)) d.type.type

theorem Declarations.isDeclaration (d : Declarations) (h : Identified d.lexemes) : ∀ t ∈ d.trees, t.IsDeclaration := by
  cases d with
  | none => exact nofun
  | some n first rest =>
    intro t ht
    obtain ⟨d, hd, ht⟩ := List.mem_flatMap.1 ht
    have hline : Identified (declarationLine d) := fun l hl =>
      (identified_cons.1 h).2 l (List.mem_flatMap.2 ⟨d, hd, hl⟩)
    exact d.1.isDeclaration (identified_append.1 hline).1 t ht

theorem Program.isProgram (p : Program) (h : Identified p.lexemes) : p.tree.IsProgram := by
  obtain ⟨m, x, n, ⟨d, c⟩, k⟩ := p
  obtain ⟨-, h⟩ := identified_cons.1 h
  obtain ⟨hx, h⟩ := identified_cons.1 h
  obtain ⟨hb, -⟩ := identified_append.1 (identified_cons.1 h).2
  obtain ⟨hd, hc⟩ := identified_append.1 hb
  have hbody := c.isStatement hc
  cases c
  exact .mk (isIdentifier_of_lexeme hx) (d.isDeclaration hd) hbody

end Phrase

/-! ## How runs can fail -/

/-- The event is a read or a write. -/
def Event.IsAccess : Event → Prop
  | .read .. | .write _ => True
  | .badTarget _ | .badOperator .. => False

namespace Tree

theorem IsVariable.access {t : Tree} (h : t.IsVariable) : ∀ e ∈ t.events, e.IsAccess := by
  obtain ⟨-, n⟩ := h
  simp [events, Event.IsAccess]

theorem IsExpression.access {t : Tree} (h : t.IsExpression) : ∀ e ∈ t.events, e.IsAccess := by
  induction h with
  | number v => exact nofun
  | var h => exact h.access
  | binary op n hl hr ihl ihr => exact fun e he => (List.mem_append.1 he).elim (ihl e) (ihr e)
  | unary n hop h ih => rcases hop with rfl | rfl <;> simpa [events] using ih

theorem IsStatement.access {t : Tree} (h : t.IsStatement) : ∀ e ∈ t.events, e.IsAccess := by
  induction h with
  | compound hne h ih =>
    intro e he
    obtain ⟨s, hs, he⟩ := mem_eventsAll he
    exact ih s hs e he
  | assign ht hv =>
    obtain ⟨-, n⟩ := ht
    intro e he
    rcases List.mem_append.1 he with hvalue | hwrite
    · exact hv.access e hvalue
    · obtain rfl := List.mem_singleton.1 hwrite
      trivial
  | empty => exact nofun

theorem IsProgram.access {t : Tree} (h : t.IsProgram) : ∀ e ∈ t.events, e.IsAccess := by
  obtain ⟨hname, hd, hb⟩ := h
  intro e he
  rcases List.mem_append.1 he with hdecl | hbody
  · obtain ⟨d, hmem, he⟩ := mem_eventsAll hdecl
    obtain ⟨hsubject, type⟩ := hd d hmem
    cases he
  · exact hb.access e hbody

/-- A run that comes to nothing but reads and writes can only fail at a read. -/
theorem eval_error_of_access {t : Tree} (h : ∀ e ∈ t.events, e.IsAccess) {table : Table} {err : EvalError}
    (herr : (t.eval.on table).1 = .error err) : ∃ x n, err = .undefinedVariable x n := by
  obtain ⟨before, e, hp, -, he⟩ := (t.eval_follows table).endsAt herr
  have haccess := h e (hp.subset (by simp))
  cases e with
  | read x n =>
    simp only [Event.error?] at he
    split at he
    · cases he
    · exact ⟨x, n, (Option.some.inj he).symm⟩
  | write x => cases he
  | _ => exact haccess.elim

end Tree

theorem isProgram_of_parse {source : String} {tree : Tree} (h : parse source = .ok tree) : tree.IsProgram := by
  obtain ⟨ls, last, hls, hlast, -⟩ := (Cursor.ofString source).exists_items
  obtain ⟨hends, -⟩ := (Reading.run_eq_ok_iff hls hlast).1 h
  obtain ⟨p, rfl, rfl⟩ := Reading.exists_program hends
  refine p.isProgram fun l hl => Cursor.items_identifiers (n := l.line) (c := .ofString source) ?_
  rw [hls]
  exact List.mem_append_left _ (List.mem_map_of_mem hl)

theorem error_of_run {r : Reading} {c : Cursor} {err : Error} (h : (r.run c).1 = .error err) :
    (∃ e, err = .stray e) ∨ ∃ e, err = .grammar e := by
  fun_induction Reading.run r c with
  | case1 r c e hstray => exact Or.inl ⟨e, (Except.error.inj h).symm⟩
  | case2 r c n hend =>
    rcases hfinish : r.finish n with g | p
    · rw [hfinish] at h
      exact Or.inr ⟨g, (Except.error.inj h).symm⟩
    · rw [hfinish] at h
      cases h
  | case3 r c t n htoken ht s hs ih => exact ih h
  | case4 r c t n htoken ht hs => exact Or.inr ⟨_, (Except.error.inj h).symm⟩

theorem run_of_parse {source : String} {tree : Tree} (h : parse source = .ok tree) :
    run source = match tree.eval.on ∅ with
      | (.ok _, table) => .ok table
      | (.error e, _) => .error (.eval e) := by
  rw [run, h]
  simp only [bind, Except.bind]
  rcases tree.eval.on ∅ with ⟨_ | _, _⟩ <;> rfl

theorem run_of_parse_error {source : String} {e : Error} (h : parse source = .error e) : run source = .error e := by
  rw [run, h]
  rfl

/-- A text that runs has a tree, and the tree runs. -/
theorem exists_of_run {source : String} {table : Table} (h : run source = .ok table) :
    ∃ tree v, parse source = .ok tree ∧ tree.eval.on ∅ = (.ok v, table) := by
  cases hparse : parse source with
  | error e =>
    rw [run_of_parse_error hparse] at h
    cases h
  | ok tree =>
    rw [run_of_parse hparse] at h
    split at h
    · rename_i v final heval
      obtain rfl := Except.ok.inj h
      exact ⟨tree, v, rfl, heval⟩
    · cases h

/-- The tree of a text is the tree of a program. So no run of it, from any table, meets an
    operator or a target that has no business there; and a text fails for what it says or
    for a variable that it reads too early, and for nothing else. -/
theorem parse_isProgram (source : String) :
    (∀ tree, parse source = .ok tree → tree.IsProgram ∧
      ∀ table err, (tree.eval.on table).1 = .error err → ∃ x n, err = .undefinedVariable x n) ∧
    ∀ err, run source = .error err →
      (∃ e, err = .stray e) ∨ (∃ e, err = .grammar e) ∨ ∃ x n, err = .eval (.undefinedVariable x n) := by
  have hprogram : ∀ tree, parse source = .ok tree → tree.IsProgram ∧
      ∀ table err, (tree.eval.on table).1 = .error err → ∃ x n, err = .undefinedVariable x n :=
    fun tree h => ⟨isProgram_of_parse h, fun table err => Tree.eval_error_of_access (isProgram_of_parse h).access⟩
  refine ⟨hprogram, fun err herr => ?_⟩
  rcases hparse : parse source with e | tree
  · rw [run, hparse] at herr
    obtain rfl : e = err := Except.error.inj herr
    exact (error_of_run hparse).imp_right Or.inl
  · rw [run_of_parse hparse] at herr
    split at herr
    · cases herr
    · rename_i e table heval
      obtain ⟨x, n, rfl⟩ := (hprogram tree hparse).2 ∅ e (by rw [heval])
      exact Or.inr (Or.inr ⟨x, n, (Except.error.inj herr).symm⟩)

/-- A program that reads `y` before it is known. -/
theorem parse_isProgram_assignment :
    (Tree.program "p" (.block [] (.compound [.assign (.var "x" 1) (.var "y" 1)]))).IsProgram := by
  have hitems : (Cursor.ofString "PROGRAM p; BEGIN x := y END.").items =
      [⟨.keyword .program, 1⟩, ⟨.name "p", 1⟩, ⟨.symbol .semicolon, 1⟩, ⟨.keyword .beginBody, 1⟩, ⟨.name "x", 1⟩,
        ⟨.symbol .assign, 1⟩, ⟨.name "y", 1⟩, ⟨.keyword .endBody, 1⟩, ⟨.symbol .dot, 1⟩].map Lexeme.item ++
        [.token .endOfInput 1] := by
    decide +kernel
  refine ((parse_isProgram "PROGRAM p; BEGIN x := y END.").1 _ ?_).1
  exact (Reading.run_eq_ok_iff hitems rfl).2 ⟨rfl, 1, rfl⟩

end Pascaline
