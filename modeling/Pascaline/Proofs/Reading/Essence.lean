/-
  Pascaline.Proofs.Reading.Essence — what of a text a run does not look at.

  The reader looks neither into the trees that it holds nor at the name and the declarations
  in front of the body, and it takes `/` where it takes `DIV`. So a reading without what its
  trees can do without (`Reading.essence`) accepts the same tokens, with the one sign of
  division for the other or not, and each step gives readings of one essence
  (`accept?_essence`, `readAll?_congr_essence`).

  Behind other declarations the reading has the same essence, and so the program has
  (`Ends.replace_declarations`). So a text runs to the same table with other declarations or
  none, and with the other sign of division (`run_essence`).
-/

import Pascaline.Proofs.Reading.Splice
import Pascaline.Proofs.Tree.Essence

namespace Pascaline

/-- The token with `/` for `DIV`. -/
def Token.asDiv : Token → Token
  | .keyword .div => .symbol .slash
  | t => t

def Lexeme.asDiv (l : Lexeme) : Lexeme := ⟨l.token.asDiv, l.line⟩

def Pending.essence (p : Pending) : Pending := ⟨p.left.essence, p.op.asDiv, 0⟩

def Level.essence (l : Level) : Level := ⟨l.sum.map Pending.essence, l.product.map Pending.essence, l.signs⟩

/-- The heading without the name, and without the declarations if there is nothing else. -/
def Heading.essence (h : Heading) : Heading := ⟨"", (Tree.essenceDeclared h.declared.toList).toArray⟩

def Body.essence (b : Body) : Body :=
  ⟨b.heading.essence, b.inner.map Tree.essence, b.outer.map (Array.map Tree.essence)⟩

def Assignment.essence (a : Assignment) : Assignment :=
  ⟨a.body.essence, ⟨a.target.text, 0⟩, a.outer.map Level.essence⟩

/-- The reading with the essence of all that it holds. -/
def Reading.essence : Reading → Reading
  | .titleEnd _ => .titleEnd ""
  | .sections h => .sections h.essence
  | .declaring h group => .declaring h.essence group
  | .declared h group => .declared h.essence group
  | .typing h group => .typing h.essence group
  | .groupEnd h => .groupEnd h.essence
  | .nextGroup h => .nextGroup h.essence
  | .statement b => .statement b.essence
  | .assigning b target => .assigning b.essence ⟨target.text, 0⟩
  | .operand a level => .operand a.essence level.essence
  | .operator a sum term => .operator a.essence (sum.map Pending.essence) term.essence
  | .separator b => .separator b.essence
  | .closing h body => .closing h.essence body.essence
  | .complete program => .complete program.essence
  | r => r

/-! ## The parts of a reading -/

@[simp] theorem Pending.essence_essence (p : Pending) : p.essence.essence = p.essence := by simp [essence]

@[simp] theorem Level.essence_essence (l : Level) : l.essence.essence = l.essence := by
  simp [essence, Function.comp_def]

@[simp] theorem Heading.essence_essence (h : Heading) : h.essence.essence = h.essence := by simp [essence]

theorem Heading.essence_declare (h : Heading) (group : Array Name) (type : DataType) :
    (h.essence.declare group type).essence = (h.declare group type).essence := by
  have hgroup : Tree.Declared (group.toList.map fun x => .declaration x.tree (.typeName type)) := by
    intro t ht
    obtain ⟨x, -, rfl⟩ := List.mem_map.1 ht
    rfl
  simp [essence, declare, Tree.essenceDeclared_append _ hgroup]

@[simp] theorem Body.essence_essence (b : Body) : b.essence.essence = b.essence := by simp [essence, Function.comp_def]

@[simp] theorem Assignment.essence_essence (a : Assignment) : a.essence.essence = a.essence := by
  simp [essence, Function.comp_def]

theorem Pending.essence_mk (left : Tree) (op : Operator) (n : Nat) :
    (⟨left, op, n⟩ : Pending).essence = ⟨left.essence, op.asDiv, 0⟩ := rfl

theorem Pending.essence_complete (p : Option Pending) {right right' : Tree} (h : right.essence = right'.essence) :
    (Pending.complete (p.map Pending.essence) right).essence = (Pending.complete p right').essence := by
  cases p with
  | none => exact h
  | some p => simp [Pending.complete, Pending.essence, Tree.essence, h]

theorem Level.essence_signs (signs : List (Operator × Nat)) (factor : Tree) :
    (signs.foldl (fun t s => .unary s.1 t s.2) factor).essence =
      signs.foldl (fun t s => .unary s.1 t s.2) factor.essence := by
  induction signs generalizing factor with
  | nil => rfl
  | cons s signs ih => exact ih (.unary s.1 factor s.2)

theorem Level.essence_term (l : Level) {factor factor' : Tree} (h : factor.essence = factor'.essence) :
    (l.essence.term factor).essence = (l.term factor').essence := by
  refine Pending.essence_complete l.product ?_
  rw [Level.essence_signs, h, ← Level.essence_signs]
  rfl

theorem Body.essence_add (b : Body) (statement : Tree) :
    (b.essence.add statement.essence) = (b.add statement).essence := by
  simp [Body.add, Body.essence]

theorem Body.essence_close (b : Body) : b.essence.close.essence = b.close.essence := by
  obtain ⟨heading, inner, outer⟩ := b
  cases outer <;> simp [Body.close, Body.essence, Reading.essence, Tree.essence, Tree.essenceAll_eq, Function.comp_def]

theorem Body.accept?_essence (b : Body) (t : Token) :
    (b.essence.accept? t.asDiv).map Reading.essence = (b.accept? t).map Reading.essence := by
  cases t with
  | keyword k =>
    cases k with
    | endBody => exact congrArg some b.essence_close
    | _ => rfl
  | symbol s => cases s <;> simp [accept?, Token.asDiv, Reading.essence]
  | _ => rfl

theorem Token.asDiv_ofOperator (op : Operator) : (ofOperator op).asDiv = ofOperator op.asDiv := by cases op <;> rfl

theorem Token.operator?_asDiv (t : Token) : t.asDiv.operator? = t.operator?.map Operator.asDiv := by
  cases t with
  | keyword k => cases k <;> rfl
  | symbol s => cases s <;> rfl
  | _ => rfl

theorem Assignment.essence_supply (a : Assignment) (level : Level) {factor factor' : Tree}
    (h : factor.essence = factor'.essence) :
    (a.essence.supply level.essence factor).essence = (a.supply level factor').essence := by
  simp only [supply, Reading.essence, essence_essence, level.essence_term h]
  simp [Level.essence, Function.comp_def]

theorem Assignment.operand?_essence (a : Assignment) (level : Level) (n : Nat) (t : Token) :
    (a.essence.operand? level.essence n t.asDiv).map Reading.essence = (a.operand? level n t).map Reading.essence := by
  have hsupply : ∀ factor : Tree, (a.essence.supply level.essence factor).essence = (a.supply level factor).essence :=
    fun factor => a.essence_supply level rfl
  cases t with
  | integer v => exact congrArg some (hsupply (.number v))
  | real v => exact congrArg some (hsupply (.number v))
  | name s => exact congrArg some (hsupply (.var s n))
  | symbol s =>
    cases s <;> simp [operand?, Token.asDiv, Reading.essence, essence, Level.essence, Function.comp_def, Level.start]
  | keyword k => cases k <;> rfl
  | _ => rfl

theorem Assignment.operator?_essence (a : Assignment) (sum : Option Pending) (term : Tree) (n : Nat) (t : Token) :
    (a.essence.operator? (sum.map Pending.essence) term.essence n t.asDiv).map Reading.essence =
      (a.operator? sum term n t).map Reading.essence := by
  obtain ⟨body, target, outer⟩ := a
  have hsum := Pending.essence_complete sum term.essence_essence
  unfold operator?
  rw [Token.operator?_asDiv]
  cases hop : t.operator? with
  | some op =>
    cases op <;> simp [Operator.asDiv, Reading.essence, Level.essence, Pending.essence_mk, hsum, Function.comp_def]
  | none =>
    have ht : t.asDiv = t := by
      cases t with
      | keyword k => cases k <;> first | rfl | cases hop
      | _ => rfl
    rw [ht]
    cases outer with
    | nil =>
      have hclose : ((⟨body, target, []⟩ : Assignment).essence.close
          (Pending.complete (sum.map Pending.essence) term.essence)).essence =
            ((⟨body, target, []⟩ : Assignment).close (Pending.complete sum term)).essence := by
        simp [close, essence, Body.add, Body.essence, Name.tree, Tree.essence, hsum, Function.comp_def]
      simp only [Option.map_none]
      refine (Body.accept?_essence _ t).symm.trans ?_
      rw [hclose]
      exact Body.accept?_essence _ t
    | cons level outer =>
      simp only [Option.map_none, essence, List.map_cons]
      by_cases hclose : t = .symbol .closeParen
      · simp only [hclose, if_true, Option.map_some]
        exact congrArg some (Assignment.essence_supply ⟨body, target, outer⟩ level hsum)
      · simp [hclose]

/-! ## Steps -/

namespace Reading

theorem statement_accept?_essence (b : Body) (t : Token) (n : Nat) :
    ((Reading.statement b).essence.accept? t.asDiv n).map essence =
      ((Reading.statement b).accept? t n).map essence := by
  have hempty : ((b.essence.add .empty).accept? t.asDiv).map essence = ((b.add .empty).accept? t).map essence := by
    rw [← Body.accept?_essence (b.add .empty), ← Body.essence_add]
    rfl
  cases t with
  | name s => simp [accept?, essence, Token.asDiv]
  | keyword k =>
    cases k with
    | beginBody => simp [accept?, essence, Body.nest, Body.essence, Token.asDiv, Function.comp_def]
    | _ => exact hempty
  | _ => exact hempty

/-- A token, or the one for it, is accepted with the essence of a reading where it is with the
    reading, and gives the same essence. -/
theorem accept?_essence (r : Reading) (t : Token) (n : Nat) :
    (r.essence.accept? t.asDiv n).map essence = (r.accept? t n).map essence := by
  cases r with
  | statement b => exact statement_accept?_essence b t n
  | operand a level => exact a.operand?_essence level n t
  | operator a sum term => exact a.operator?_essence sum term n t
  | separator b => exact b.accept?_essence t
  | assigning b target =>
    cases t with
    | symbol s => cases s <;> simp [accept?, essence, Assignment.essence, Level.essence, Level.start, Token.asDiv]
    | keyword k => cases k <;> rfl
    | _ => rfl
  | closing h body =>
    cases t with
    | symbol s => cases s <;> simp [accept?, essence, Heading.essence, Token.asDiv]
    | keyword k => cases k <;> rfl
    | _ => rfl
  | complete p => cases t <;> rfl
  | _ =>
    cases t with
    | keyword k =>
      cases k <;> simp [accept?, essence, Token.asDiv, Heading.essence_declare, Body.essence, Body.ofHeading]
    | symbol s => cases s <;> simp [accept?, essence, Token.asDiv, Heading.essence]
    | _ => simp [accept?, essence, Token.asDiv]

theorem accept?_congr_essence {r s : Reading} (h : r.essence = s.essence) {t u : Token} (ht : t.asDiv = u.asDiv)
    (n : Nat) : (r.accept? t n).map essence = (s.accept? u n).map essence := by
  rw [← accept?_essence, h, ht, accept?_essence]

theorem readAll?_congr_essence {r s : Reading} (h : r.essence = s.essence) {ls ms : List Lexeme}
    (hl : ls.map Lexeme.asDiv = ms.map Lexeme.asDiv) : (r.readAll? ls).map essence = (s.readAll? ms).map essence := by
  induction ls generalizing r s ms with
  | nil =>
    obtain rfl : ms = [] := List.map_eq_nil_iff.1 hl.symm
    exact congrArg some h
  | cons l ls ih =>
    obtain ⟨m, ms, rfl, hm, hms⟩ := List.map_eq_cons_iff.1 hl.symm
    obtain ⟨htoken, hline⟩ := Lexeme.mk.inj hm
    have hstep := accept?_congr_essence h htoken.symm l.line
    rw [readAll?_cons, readAll?_cons, hline]
    cases hr : r.accept? l.token l.line with
    | none =>
      rw [hr, Option.map_none] at hstep
      rw [Option.map_eq_none_iff.1 hstep.symm]
      rfl
    | some r' =>
      rw [hr, Option.map_some] at hstep
      obtain ⟨s', hs, hs'⟩ := Option.map_eq_some_iff.1 hstep.symm
      rw [hs]
      exact ih hs'.symm hms.symm

/-- Readings of one essence, with the one sign of division for the other or not, lead to the
    ends of programs of one essence. -/
theorem Ends.congr_essence {r s : Reading} (h : r.essence = s.essence) {ls ms : List Lexeme}
    (hl : ls.map Lexeme.asDiv = ms.map Lexeme.asDiv) {p : Tree} (hp : r.Ends ls p) :
    ∃ q, s.Ends ms q ∧ p.essence = q.essence := by
  have he := readAll?_congr_essence h hl
  rw [hp] at he
  obtain ⟨s', hs, hs'⟩ := Option.map_eq_some_iff.1 he.symm
  cases s' with
  | complete q => exact ⟨q, hs, (Reading.complete.inj hs').symm⟩
  | _ => cases hs'

/-! ## Declarations -/

theorem declared_trees (d : Phrase.Declarations) : Tree.Declared d.trees := by
  intro t ht
  cases d with
  | none => cases ht
  | some n first rest =>
    obtain ⟨d, -, hd⟩ := List.mem_flatMap.1 ht
    obtain ⟨x, -, rfl⟩ := List.mem_map.1 hd
    rfl

/-- Other declarations in front of the body give a program of the same essence. -/
theorem Ends.replace_declarations {us vs : List Lexeme} {x : String} {p : Tree} {d : Phrase.Declarations}
    (hus : us.map Lexeme.token = [.keyword .program, .name x, .symbol .semicolon])
    (hvs : Next (· = .keyword .beginBody) vs) (h : Reading.opening.Ends (us ++ (d.lexemes ++ vs)) p)
    (d' : Phrase.Declarations) : ∃ q, Reading.opening.Ends (us ++ (d'.lexemes ++ vs)) q ∧ p.essence = q.essence := by
  have hread : ∀ d : Phrase.Declarations, Reading.opening.readAll? (us ++ (d.lexemes ++ vs)) =
      (Reading.nextGroup ((⟨x, #[]⟩ : Heading).declareAll d.trees)).readAll? vs := by
    intro d
    obtain ⟨⟨_, _⟩, us₁, rfl, rfl, hus₁⟩ := List.map_eq_cons_iff.1 hus
    obtain ⟨⟨_, _⟩, us₂, rfl, rfl, hus₂⟩ := List.map_eq_cons_iff.1 hus₁
    obtain ⟨⟨_, _⟩, us₃, rfl, rfl, hus₃⟩ := List.map_eq_cons_iff.1 hus₂
    obtain rfl := List.map_eq_nil_iff.1 hus₃
    exact readAll?_declarations ⟨x, #[]⟩ d hvs
  have hessence : ∀ d : Phrase.Declarations, ((⟨x, #[]⟩ : Heading).declareAll d.trees).essence = ⟨"", #[]⟩ := by
    intro d
    have hd := declared_trees d
    simp [Heading.essence, Heading.declareAll, Tree.essenceDeclared, hd]
  have hheading : (Reading.nextGroup ((⟨x, #[]⟩ : Heading).declareAll d.trees)).essence =
      (Reading.nextGroup ((⟨x, #[]⟩ : Heading).declareAll d'.trees)).essence := by
    simp only [Reading.essence, hessence]
  rw [Ends, hread d] at h
  obtain ⟨q, hq, hpq⟩ := Ends.congr_essence hheading rfl h
  exact ⟨q, (hread d').trans hq, hpq⟩

end Reading

/-! ## Texts -/

/-- The sign of an operator is a word of its own. -/
theorem Operator.holds (op : Operator) : Holds [] op.symbol.toList [' '] [⟨.ofOperator op, 1⟩] := by
  cases op with
  | plus => exact (Rule.symbol .plus).holds nofun
  | minus => exact (Rule.symbol .minus).holds nofun
  | times => exact (Rule.symbol .star).holds nofun
  | intDiv => exact (Rule.keyword .div).holds nofun
  | div => exact (Rule.symbol .slash).holds nofun

/-- The part in the middle is what the program declares, from behind its name up to its body. -/
inductive DeclaresIn (u m v : String) (d : Phrase.Declarations) : Prop
  | mk (us : List Lexeme) (x : String) (n : Nat)
      (hus : us.map Lexeme.token = [.keyword .program, .name x, .symbol .semicolon])
      (h : Parts u.toList m.toList v.toList us d.lexemes)
      (hnext : (Cursor.between (u.toList ++ m.toList) v.toList).next.1 = .token (.keyword .beginBody) n)

/-- What a program declares is a part of its text. -/
theorem exists_declaresIn {source : String} {p : Tree} (h : parse source = .ok p) :
    ∃ u m v d, source = u ++ m ++ v ∧ DeclaresIn u m v d := by
  obtain ⟨ls, last, hls, hlast, -⟩ := (Cursor.ofString source).exists_items
  obtain ⟨hends, n, rfl⟩ := (Reading.run_eq_ok_iff hls hlast).1 h
  obtain ⟨⟨i, x, j, ⟨d, c⟩, k⟩, rfl, -⟩ := Reading.exists_program hends
  cases c with | mk b body e =>
  let us : List Lexeme := [⟨.keyword .program, i⟩, x.lexeme, ⟨.symbol .semicolon, j⟩]
  let vs : List Lexeme := (Phrase.Compound.mk b body e).lexemes ++ [⟨.symbol .dot, k⟩]
  have hparts : (Cursor.between [] source.toList).items =
      (us ++ (d.lexemes ++ vs)).map Lexeme.item ++ [.token .endOfInput n] := by
    rw [← Cursor.ofString_eq_between, hls]
    simp [us, vs, Phrase.Program.lexemes, Phrase.Block.lexemes]
  obtain ⟨u, m, v, htext, hp, n', hv⟩ := Parts.exists_of_items hparts
  refine ⟨.ofList u, .ofList m, .ofList v, d, ?_, us, x.text, b, rfl, ?_, ?_⟩
  · rw [← String.ofList_append, ← String.ofList_append, List.append_assoc, ← htext, String.ofList_toList]
  · simpa using hp
  · rw [String.toList_ofList, String.toList_ofList, String.toList_ofList]
    exact Cursor.next_of_items hv

/-- Declarations, types and the signs of division have no influence on a run.

    Trees of one essence have the same value, or the same error, from every table, and leave
    the same table. What a program declares is a part of its text; if the text runs, it leaves
    the same table with any other declarations put there, or none. It does so, too, if any
    `DIV` is put in place of a `/` or the other way round. What is put there has a blank on
    each side. -/
theorem run_essence :
    (∀ t u : Tree, t.essence = u.essence → ∀ table, t.eval.on table = u.eval.on table) ∧
    (∀ source tree, parse source = .ok tree → ∃ u m v d, source = u ++ m ++ v ∧ DeclaresIn u m v d) ∧
    (∀ (u m v w : String) (d d' : Phrase.Declarations), DeclaresIn u m v d → Holds [] w.toList [' '] d'.lexemes →
      ∀ table, run (u ++ m ++ v) = .ok table → run (u ++ " " ++ w ++ " " ++ v) = .ok table) ∧
    ∀ (u m v : String) (us : List Lexeme) (op op' : Operator) (n : Nat), op.asDiv = .div → op'.asDiv = .div →
      Parts u.toList m.toList v.toList us [⟨.ofOperator op, n⟩] →
      ∀ table, run (u ++ m ++ v) = .ok table → run (u ++ " " ++ op'.symbol ++ " " ++ v) = .ok table := by
  refine ⟨fun t u h table => ?_, fun source tree h => exists_declaresIn h, fun u m v w d d' h hw table hrun => ?_,
    fun u m v us op op' n hop hop' h table hrun => ?_⟩
  · rw [Tree.eval_eq_of_essence h]
  · obtain ⟨us, x, n, hus, h, hnext⟩ := h
    have hne : m.toList ++ v.toList ≠ [] := fun hnil =>
      Cursor.ne_nil_of_next hnext nofun (List.append_eq_nil_iff.1 hnil).2
    refine h.run_splice hne hw (fun vs k p hvs hp => ?_) hrun
    obtain ⟨vs, rfl⟩ := Cursor.exists_cons_of_next hvs hnext nofun
    have hbegin : Next (· = .keyword .beginBody) (⟨.keyword .beginBody, n⟩ :: vs) := rfl
    obtain ⟨q, hq, hpq⟩ := Reading.Ends.replace_declarations hus hbegin hp d'
    exact ⟨d'.lexemes, q, rfl, hq, Tree.eval_eq_of_essence hpq ▸ .refl _⟩
  · have hne : m.toList ++ v.toList ≠ [] := fun hnil =>
      h.middle.text_ne_nil (List.cons_ne_nil _ _) (List.append_eq_nil_iff.1 hnil).1
    refine h.run_splice hne (Operator.holds op') (fun vs k p hvs hp => ?_) hrun
    have hsigns : (us ++ ([(⟨.ofOperator op, n⟩ : Lexeme)] ++ vs)).map Lexeme.asDiv =
        (us ++ ([(⟨.ofOperator op', n⟩ : Lexeme)] ++ vs)).map Lexeme.asDiv := by
      simp [Lexeme.asDiv, Token.asDiv_ofOperator, hop, hop']
    have hopening : Reading.opening.essence = Reading.opening.essence := rfl
    obtain ⟨q, hq, hpq⟩ := Reading.Ends.congr_essence hopening hsigns hp
    exact ⟨[⟨.ofOperator op', n⟩], q, rfl, hq, Tree.eval_eq_of_essence hpq ▸ .refl _⟩

/-- A quotient without the declaration in front of it, and with the other sign. -/
theorem run_essence_quotient :
    let t : Tree := .program "p" (.block [.declaration (.var "a" 1) (.typeName .real)]
      (.compound [.assign (.var "x" 1) (.binary (.number 1) .intDiv (.number 2) 1)]))
    let u : Tree := .program "q" (.block [] (.compound [.assign (.var "x" 3) (.binary (.number 1) .div (.number 2) 4)]))
    let table : Table := (∅ : Table).insert "x" (1 / 2)
    t.eval.on ∅ = (.ok 0, table) ∧ t.eval.on ∅ = u.eval.on ∅ ∧
      (∃ u m v d, "PROGRAM p; VAR a: REAL; BEGIN x := 1 DIV 2 END." = u ++ m ++ v ∧ DeclaresIn u m v d) ∧
      run "PROGRAM p; VAR a: REAL; BEGIN x := 1 DIV 2 END." = .ok table ∧
      run "PROGRAM p;   BEGIN x := 1 DIV 2 END." = .ok table ∧
      run "PROGRAM p; VAR a: REAL; BEGIN x := 1  /  2 END." = .ok table := by
  intro t u table
  have ht : t.eval.on ∅ = (.ok 0, table) := by
    simp only [t, table, Tree.eval, Tree.evalAll, Eval.on_bind, Eval.on_pure, Eval.on_assign]
    rfl
  have hitems : (Cursor.ofString ("PROGRAM p;" ++ " VAR a: REAL;" ++ " BEGIN x := 1 DIV 2 END.")).items =
      [⟨.keyword .program, 1⟩, ⟨.name "p", 1⟩, ⟨.symbol .semicolon, 1⟩, ⟨.keyword .var, 1⟩, ⟨.name "a", 1⟩,
        ⟨.symbol .colon, 1⟩, ⟨.keyword .real, 1⟩, ⟨.symbol .semicolon, 1⟩, ⟨.keyword .beginBody, 1⟩, ⟨.name "x", 1⟩,
        ⟨.symbol .assign, 1⟩, ⟨.integer 1, 1⟩, ⟨.keyword .div, 1⟩, ⟨.integer 2, 1⟩, ⟨.keyword .endBody, 1⟩,
        ⟨.symbol .dot, 1⟩].map Lexeme.item ++ [.token .endOfInput 1] := by
    decide +kernel
  let d : Phrase.Declarations := .some 1 (⟨⟨"a", 1⟩, [], 1, ⟨.real, 1⟩⟩, 1) []
  let c : Phrase.Compound := .mk 1 (.mk (.assignment ⟨⟨"x", 1⟩, 1,
    .mk (.mk (.integer 1 1) (.cons .intDiv 1 (.integer 2 1) .nil)) .nil⟩) .nil) 1
  have hparse : parse ("PROGRAM p;" ++ " VAR a: REAL;" ++ " BEGIN x := 1 DIV 2 END.") = .ok t :=
    (Reading.run_eq_ok_iff hitems rfl).2 ⟨Reading.readAll?_program ⟨1, ⟨"p", 1⟩, 1, ⟨d, c⟩, 1⟩, 1, rfl⟩
  have hrun : run ("PROGRAM p;" ++ " VAR a: REAL;" ++ " BEGIN x := 1 DIV 2 END.") = .ok table := by
    rw [run_of_parse hparse, ht]
  obtain ⟨htrees, hparts, hdeclarations, hsigns⟩ := run_essence
  refine ⟨ht, htrees t u ?_ ∅, hparts _ t hparse, hrun, ?_, ?_⟩
  · rfl
  · have hdeclares : DeclaresIn "PROGRAM p;" " VAR a: REAL;" " BEGIN x := 1 DIV 2 END." d := by
      refine ⟨[⟨.keyword .program, 1⟩, ⟨.name "p", 1⟩, ⟨.symbol .semicolon, 1⟩], "p", 1, rfl, ⟨?_, ?_⟩, ?_⟩
      · exact holds_of_pieces 4 rfl (by decide +kernel) (by decide +kernel)
      · exact holds_of_pieces 8 rfl (by decide +kernel) (by decide +kernel)
      · decide +kernel
    exact hdeclarations _ _ _ "" d .none hdeclares (.nil _ _) table hrun
  · refine hsigns "PROGRAM p; VAR a: REAL; BEGIN x := 1 " "DIV" " 2 END."
      [⟨.keyword .program, 1⟩, ⟨.name "p", 1⟩, ⟨.symbol .semicolon, 1⟩, ⟨.keyword .var, 1⟩, ⟨.name "a", 1⟩,
        ⟨.symbol .colon, 1⟩, ⟨.keyword .real, 1⟩, ⟨.symbol .semicolon, 1⟩, ⟨.keyword .beginBody, 1⟩, ⟨.name "x", 1⟩,
        ⟨.symbol .assign, 1⟩, ⟨.integer 1, 1⟩] .intDiv .div 1 rfl rfl ⟨?_, ?_⟩ table hrun
    · exact holds_of_pieces 21 rfl (by decide +kernel) (by decide +kernel)
    · exact holds_of_pieces 1 rfl (by decide +kernel) (by decide +kernel)

end Pascaline
