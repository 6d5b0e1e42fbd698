/-
  Pascaline.Proofs.Reading.Relabel — other names and other lines, read alike.

  No rule of the grammar looks at what a name is or at the line of a token. A reading can be
  relabelled: each name is replaced by its image and so is each line (`Reading.relabel`). It
  accepts a token exactly if the relabelled reading accepts the relabelled token, and the
  readings behind are again the same but for their labels (`accept?_relabel`). So reading
  commutes with relabelling, up to the tree of a whole program (`ends_relabel_iff`), and so
  does what is said of a token out of place (`reject_relabel`).
-/

import Pascaline.Proofs.Reading.Viable
import Pascaline.Proofs.Tree.Lines

namespace Pascaline

/-! ## Trees -/

namespace Tree

mutual
/-- The tree with each of its names and lines replaced by its image. -/
def relabel (g : String → String) (f : Nat → Nat) : Tree → Tree
  | .program name b => .program (g name) (relabel g f b)
  | .block declarations body => .block (relabelAll g f declarations) (relabel g f body)
  | .declaration subject type => .declaration (relabel g f subject) (relabel g f type)
  | .typeName t => .typeName t
  | .compound statements => .compound (relabelAll g f statements)
  | .assign target value => .assign (relabel g f target) (relabel g f value)
  | .binary left op right n => .binary (relabel g f left) op (relabel g f right) (f n)
  | .unary op operand n => .unary op (relabel g f operand) (f n)
  | .number v => .number v
  | .var name n => .var (g name) (f n)
  | .empty => .empty

def relabelAll (g : String → String) (f : Nat → Nat) : List Tree → List Tree
  | [] => []
  | t :: ts => relabel g f t :: relabelAll g f ts
end

theorem relabelAll_eq (g : String → String) (f : Nat → Nat) (ts : List Tree) :
    relabelAll g f ts = ts.map (relabel g f) := by
  induction ts with
  | nil => rfl
  | cons t ts ih => rw [relabelAll, ih, List.map_cons]

mutual
/-- With the names as they are, relabelling moves the tree to other lines. -/
theorem relabel_id (f : Nat → Nat) (t : Tree) : t.relabel id f = t.mapLines f := by
  cases t with
  | program name b => rw [relabel, mapLines, relabel_id f b, id]
  | block declarations body => rw [relabel, mapLines, relabelAll_id f declarations, relabel_id f body]
  | declaration subject type => rw [relabel, mapLines, relabel_id f subject, relabel_id f type]
  | compound statements => rw [relabel, mapLines, relabelAll_id f statements]
  | assign target value => rw [relabel, mapLines, relabel_id f target, relabel_id f value]
  | binary left op right n => rw [relabel, mapLines, relabel_id f left, relabel_id f right]
  | unary op operand n => rw [relabel, mapLines, relabel_id f operand]
  | _ => rfl

theorem relabelAll_id (f : Nat → Nat) (ts : List Tree) : relabelAll id f ts = mapLinesAll f ts := by
  cases ts with
  | nil => rfl
  | cons t ts => rw [relabelAll, mapLinesAll, relabel_id f t, relabelAll_id f ts]
end

end Tree

/-! ## Tokens and readings -/

/-- The token with its name replaced, if it is one. -/
def Token.rename (g : String → String) : Token → Token
  | .name s => .name (g s)
  | t => t

@[simp] theorem Token.rename_id (t : Token) : t.rename id = t := by cases t <;> rfl

@[simp] theorem Token.rename_eq_endOfInput_iff {g : String → String} {t : Token} :
    t.rename g = .endOfInput ↔ t = .endOfInput := by
  cases t <;> simp [rename]

variable (g : String → String) (f : Nat → Nat)

def GrammarError.relabel : GrammarError → GrammarError
  | .unexpected e t n => .unexpected e (t.rename g) (f n)
  | .missingSeparator t n => .missingSeparator (t.rename g) (f n)
  | .trailing t n => .trailing (t.rename g) (f n)

def Lexeme.relabel (l : Lexeme) : Lexeme := ⟨l.token.rename g, f l.line⟩

def Name.relabel (x : Name) : Name := ⟨g x.text, f x.line⟩

def Heading.relabel (h : Heading) : Heading := ⟨g h.program, h.declared.map (Tree.relabel g f)⟩

def Body.relabel (b : Body) : Body :=
  ⟨b.heading.relabel g f, b.inner.map (Tree.relabel g f), b.outer.map (Array.map (Tree.relabel g f))⟩

def Pending.relabel (p : Pending) : Pending := ⟨p.left.relabel g f, p.op, f p.line⟩

def Level.relabel (l : Level) : Level :=
  ⟨l.sum.map (Pending.relabel g f), l.product.map (Pending.relabel g f), l.signs.map fun s => (s.1, f s.2)⟩

def Assignment.relabel (a : Assignment) : Assignment :=
  ⟨a.body.relabel g f, a.target.relabel g f, a.outer.map (Level.relabel g f)⟩

def Reading.relabel : Reading → Reading
  | .opening => .opening
  | .title => .title
  | .titleEnd program => .titleEnd (g program)
  | .sections h => .sections (h.relabel g f)
  | .declaring h group => .declaring (h.relabel g f) (group.map (Name.relabel g f))
  | .declared h group => .declared (h.relabel g f) (group.map (Name.relabel g f))
  | .typing h group => .typing (h.relabel g f) (group.map (Name.relabel g f))
  | .groupEnd h => .groupEnd (h.relabel g f)
  | .nextGroup h => .nextGroup (h.relabel g f)
  | .statement b => .statement (b.relabel g f)
  | .assigning b target => .assigning (b.relabel g f) (target.relabel g f)
  | .operand a level => .operand (a.relabel g f) (level.relabel g f)
  | .operator a sum term => .operator (a.relabel g f) (sum.map (Pending.relabel g f)) (term.relabel g f)
  | .separator b => .separator (b.relabel g f)
  | .closing h body => .closing (h.relabel g f) (body.relabel g f)
  | .complete program => .complete (program.relabel g f)

/-! ## Steps -/

theorem Heading.relabel_declare (h : Heading) (group : Array Name) (type : DataType) :
    (h.declare group type).relabel g f = (h.relabel g f).declare (group.map (Name.relabel g f)) type := by
  simp [Heading.declare, Heading.relabel, Function.comp_def, Tree.relabel, Name.tree, Name.relabel]

theorem Pending.relabel_complete (p : Option Pending) (right : Tree) :
    (Pending.complete p right).relabel g f = Pending.complete (p.map (Pending.relabel g f)) (right.relabel g f) := by
  cases p <;> rfl

theorem Level.relabel_term (l : Level) (factor : Tree) :
    (l.term factor).relabel g f = (l.relabel g f).term (factor.relabel g f) := by
  obtain ⟨sum, product, signs⟩ := l
  have hsigns : ∀ factor : Tree, (signs.foldl (fun t s => .unary s.1 t s.2) factor).relabel g f =
      (signs.map fun s => (s.1, f s.2)).foldl (fun t s => .unary s.1 t s.2) (factor.relabel g f) := by
    induction signs with
    | nil => exact fun factor => rfl
    | cons s signs ih => exact fun factor => ih (.unary s.1 factor s.2)
  rw [Level.term, Pending.relabel_complete, hsigns]
  rfl

theorem Body.relabel_add (b : Body) (statement : Tree) :
    (b.add statement).relabel g f = (b.relabel g f).add (statement.relabel g f) := by
  simp [Body.add, Body.relabel]

theorem Body.relabel_close (b : Body) : b.close.relabel g f = (b.relabel g f).close := by
  obtain ⟨heading, inner, outer⟩ := b
  cases outer <;> simp [Body.close, Body.relabel, Reading.relabel, Tree.relabel, Tree.relabelAll_eq]

theorem Body.accept?_relabel (b : Body) (t : Token) :
    (b.relabel g f).accept? (t.rename g) = (b.accept? t).map (Reading.relabel g f) := by
  cases t with
  | keyword k =>
    cases k with
    | endBody => exact congrArg some (b.relabel_close g f).symm
    | _ => rfl
  | symbol s => cases s <;> rfl
  | _ => rfl

namespace Assignment

theorem operand?_relabel (a : Assignment) (level : Level) (n : Nat) (t : Token) :
    (a.relabel g f).operand? (level.relabel g f) (f n) (t.rename g) =
      (a.operand? level n t).map (Reading.relabel g f) := by
  have hsupply : ∀ factor : Tree, (a.relabel g f).supply (level.relabel g f) (factor.relabel g f) =
      (a.supply level factor).relabel g f := by
    intro factor
    simp only [supply, Reading.relabel, Level.relabel_term]
    rfl
  cases t with
  | integer v => exact congrArg some (hsupply (.number v))
  | real v => exact congrArg some (hsupply (.number v))
  | name s => exact congrArg some (hsupply (.var s n))
  | symbol s => cases s <;> rfl
  | _ => rfl

theorem operator?_relabel (a : Assignment) (sum : Option Pending) (term : Tree) (n : Nat) (t : Token) :
    (a.relabel g f).operator? (sum.map (Pending.relabel g f)) (term.relabel g f) (f n) (t.rename g) =
      (a.operator? sum term n t).map (Reading.relabel g f) := by
  obtain ⟨body, target, outer⟩ := a
  have hop : (t.rename g).operator? = t.operator? := by cases t <;> rfl
  unfold operator?
  rw [hop]
  split
  · split <;> simp [Reading.relabel, Level.relabel, Pending.relabel, Pending.relabel_complete]
  · cases outer with
    | nil =>
      simp only [relabel, List.map_nil]
      rw [← Body.accept?_relabel, close, close, Body.relabel_add, Tree.relabel, Pending.relabel_complete]
      rfl
    | cons level outer =>
      simp only [relabel, List.map_cons]
      by_cases ht : t = .symbol .closeParen
      · subst ht
        simp [supply, Reading.relabel, Level.relabel_term, Pending.relabel_complete, relabel, Level.relabel,
          Token.rename]
      · have ht' : t.rename g ≠ .symbol .closeParen := by cases t <;> simp_all [Token.rename]
        rw [if_neg ht, if_neg ht']
        rfl

end Assignment

namespace Reading

theorem statement_accept?_relabel (b : Body) (t : Token) (n : Nat) :
    ((Reading.statement b).relabel g f).accept? (t.rename g) (f n) =
      ((Reading.statement b).accept? t n).map (relabel g f) := by
  have hempty : ((b.relabel g f).add .empty).accept? (t.rename g) = ((b.add .empty).accept? t).map (relabel g f) := by
    rw [← Body.accept?_relabel, Body.relabel_add]
    rfl
  cases t with
  | name s => rfl
  | keyword k =>
    cases k with
    | beginBody => simp [accept?, relabel, Body.nest, Body.relabel, Token.rename]
    | _ => exact hempty
  | _ => exact hempty

/-- A token is accepted, or not, whatever its name and its line are, and what is behind it is
    relabelled with it. -/
theorem accept?_relabel (r : Reading) (t : Token) (n : Nat) :
    (r.relabel g f).accept? (t.rename g) (f n) = (r.accept? t n).map (relabel g f) := by
  cases r with
  | statement b => exact statement_accept?_relabel g f b t n
  | operand a level => exact a.operand?_relabel g f level n t
  | operator a sum term => exact a.operator?_relabel g f sum term n t
  | separator b => exact b.accept?_relabel g f t
  | typing h group =>
    cases t with
    | keyword k => cases k <;> simp [accept?, relabel, Heading.relabel_declare, Token.rename]
    | _ => rfl
  | declaring h group => cases t <;> simp [accept?, relabel, Name.relabel, Token.rename]
  | closing h body =>
    cases t with
    | symbol s =>
      cases s <;> simp [accept?, relabel, Tree.relabel, Heading.relabel, Tree.relabelAll_eq, Token.rename]
    | _ => rfl
  | _ =>
    cases t with
    | keyword k => cases k <;> simp [accept?, relabel, Body.ofHeading, Body.relabel, Token.rename]
    | symbol s =>
      cases s <;> simp [accept?, relabel, Heading.relabel, Assignment.relabel, Level.relabel, Level.start, Token.rename]
    | _ => simp [accept?, relabel, Name.relabel, Token.rename]

theorem blank_relabel (r : Reading) : (r.relabel g f).blank = r.blank := by
  cases r <;> simp [relabel, blank, Body.relabel, Body.blank, Assignment.relabel, Assignment.blank, Function.comp_def]

theorem reject_relabel (r : Reading) (t : Token) (n : Nat) :
    (r.relabel g f).reject (t.rename g) (f n) = (r.reject t n).relabel g f := by
  rw [reject_congr (r.blank_relabel g f)]
  unfold reject
  cases r.due? with
  | none => rfl
  | some e =>
    cases t with
    | name s => cases r.endsStatement <;> rfl
    | _ => rfl

/-! ## Programs -/

theorem readAll?_relabel (r : Reading) (ls : List Lexeme) :
    (r.relabel g f).readAll? (ls.map (Lexeme.relabel g f)) = (r.readAll? ls).map (relabel g f) := by
  induction ls generalizing r with
  | nil => rfl
  | cons l ls ih =>
    have hstep := accept?_relabel g f r l.token l.line
    rw [List.map_cons, readAll?_cons, readAll?_cons]
    rw [show (l.relabel g f).token = l.token.rename g from rfl, show (l.relabel g f).line = f l.line from rfl, hstep]
    cases r.accept? l.token l.line with
    | none => rfl
    | some s => exact ih s

variable {g f}

theorem eq_complete_of_relabel {r : Reading} {p : Tree} (h : r.relabel g f = .complete p) :
    ∃ q, r = .complete q ∧ q.relabel g f = p := by
  cases r with
  | complete q => exact ⟨q, rfl, Reading.complete.inj h⟩
  | _ => cases h

/-- The relabelled program is read as the relabelled tree. -/
theorem ends_relabel_iff {ls : List Lexeme} {p : Tree} :
    Reading.opening.Ends (ls.map (Lexeme.relabel g f)) p ↔ ∃ q, Reading.opening.Ends ls q ∧ q.relabel g f = p := by
  have hmap := readAll?_relabel g f .opening ls
  constructor
  · intro h
    obtain ⟨r, hr, hp⟩ := Option.map_eq_some_iff.1 (hmap.symm.trans h)
    obtain ⟨q, rfl, hq⟩ := eq_complete_of_relabel hp
    exact ⟨q, hr, hq⟩
  · rintro ⟨q, hq, rfl⟩
    rw [Ends] at hq
    rw [hq] at hmap
    exact hmap

end Reading

end Pascaline
