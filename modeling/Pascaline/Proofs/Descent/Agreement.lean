/-
  Pascaline.Proofs.Descent.Agreement — procedures that call each other read what the reader
  reads.

  A call of a procedure tracks the reading from the place where its phrase is due to the one
  behind it, with what it returns in the reading (`Procedure.Spec`). Every body does so if the
  calls in it do (`body_spec`), and so every call does, however much fuel there is
  (`enter_spec`). So with enough fuel a text has the tree or the error that it has for the
  reader, and exactly the items up to the one that decides it are pulled
  (`parse_terminates`).
-/

import Pascaline.Proofs.Descent.Progress
import Pascaline.Proofs.Descent.Tracks
import Pascaline.Proofs.Token.Position

namespace Pascaline

theorem Body.addAll_add (b : Body) (ts : List Tree) (t : Tree) : (b.addAll ts).add t = b.addAll (ts ++ [t]) := by
  simp [addAll, add]

namespace Heading

theorem declareAll_nil (h : Heading) : h.declareAll [] = h := by simp [declareAll]

theorem declareAll_map (h : Heading) (xs : List Name) (type : DataType) :
    h.declareAll (xs.map fun x => .declaration x.tree (.typeName type)) = h.declare xs.toArray type := by
  simp [declareAll, declare]

end Heading

namespace Descent

open Reading

variable {x : Except Error Tree × List Item} {onCall : (p : Procedure) → Lookahead → Ending p.Result} {s : Lookahead}

/-! ## What procedures stand for -/

/-- Calls of the procedure track a reading that comes to `x`, from the place where the phrase is
    due to the one behind it. -/
def Procedure.Spec (x : Except Error Tree × List Item) : (p : Procedure) → (Lookahead → Ending p.Result) → Prop
  | .program, o => ∀ s, x = Reading.opening.resume s →
    Tracks x (fun tree u => x = (Reading.complete tree).resume u) (o s)
  | .block, o => ∀ s h, x = (Reading.sections h).resume s →
    Tracks x (fun block u => ∃ ds body, block = .block ds body ∧ x = (Reading.closing (h.declareAll ds) body).resume u)
      (o s)
  | .declarations, o => ∀ s h, x = (Reading.sections h).resume s →
    Tracks x (fun ds u => ∃ r, x = r.resume u ∧
      Awaits r (.keyword .beginBody) u (.statement (.ofHeading (h.declareAll ds)))) (o s)
  | .groups before, o => ∀ s (h : Heading), x = (Reading.declaring (h.declareAll before) #[]).resume s →
    Tracks x (fun ds u => x = (Reading.nextGroup (h.declareAll ds)).resume u ∧ ∀ y, u.token ≠ .name y) (o s)
  | .group, o => ∀ s h, x = (Reading.declaring h #[]).resume s →
    Tracks x (fun ds u => x = (Reading.groupEnd (h.declareAll ds)).resume u) (o s)
  | .names before, o => ∀ s h, x = (Reading.declaring h before.toArray).resume s →
    Tracks x (fun xs u => x = (Reading.declared h xs.toArray).resume u ∧ u.token ≠ .symbol .comma) (o s)
  | .typeName, o => ∀ s h group, x = (Reading.typing h group).resume s →
    Tracks x (fun type u => x = (Reading.groupEnd (h.declare group type)).resume u) (o s)
  | .compound, o => ∀ s r b, x = r.resume s → Awaits r (.keyword .beginBody) s (.statement b) →
    Tracks x (fun tree u => ∃ ts, tree = .compound ts ∧ x = (b.addAll ts).close.resume u) (o s)
  | .statements, o => ∀ s b, x = (Reading.statement b).resume s →
    Tracks x (fun ts u => x = (Reading.separator (b.addAll ts)).resume u ∧ EndsList u.token) (o s)
  | .moreStatements before, o => ∀ s (b : Body), x = (Reading.separator (b.addAll before)).resume s →
    Tracks x (fun ts u => x = (Reading.separator (b.addAll ts)).resume u ∧ EndsList u.token) (o s)
  | .statement, o => ∀ s b, x = (Reading.statement b).resume s →
    Tracks x (fun tree u => x = (Reading.separator (b.add tree)).resume u) (o s)
  | .assignment, o => ∀ s b y, x = (Reading.statement b).resume s → s.token = .name y →
    Tracks x (fun tree u => x = (Reading.separator (b.add tree)).resume u) (o s)
  | .var, o => ∀ s r q y, x = Reading.resume r s → s.token = .name y → r.accept? s.token s.line = some q →
    Tracks x (fun name u => name = ⟨y, s.line⟩ ∧ x = q.resume u) (o s)
  | .expression, o => ∀ s a, x = (Reading.operand a .start).resume s →
    Tracks x (fun value u => x = (Reading.operator a none value).resume u ∧ EndsExpression u.token) (o s)
  | .summands left, o => ∀ s a, x = (Reading.operator a none left).resume s → EndsTerm s.token →
    Tracks x (fun value u => x = (Reading.operator a none value).resume u ∧ EndsExpression u.token) (o s)
  | .term, o => ∀ s a sum, x = (Reading.operand a ⟨sum, none, []⟩).resume s →
    Tracks x (fun value u => x = (Reading.operator a sum value).resume u ∧ EndsTerm u.token) (o s)
  | .multipliers left, o => ∀ s a sum, x = (Reading.operator a sum left).resume s →
    Tracks x (fun value u => x = (Reading.operator a sum value).resume u ∧ EndsTerm u.token) (o s)
  | .factor, o => ∀ s a level, x = (Reading.operand a level).resume s →
    Tracks x (fun value u => x = (Assignment.supply a level value).resume u) (o s)

/-! ### Expressions -/

section Bodies

variable (hcall : ∀ p : Procedure, p.Spec x (onCall p))
include hcall

/-- A sign and the factor behind it are a factor. -/
theorem tracks_signed {a : Assignment} {level : Level} (op : Operator) (hx : x = (Reading.operand a level).resume s)
    (h : (Reading.operand a level).accept? s.token s.line =
      some (.operand a { level with signs := (op, s.line) :: level.signs })) :
    Tracks x (fun value u => x = (a.supply level value).resume u)
      ((Steps.advance <| .call .factor fun operand => .done (.unary op operand s.line)).exec onCall s) := by
  refine tracks_advance hx h fun u hu => ?_
  exact tracks_call (hcall .factor u a _ hu) fun operand v hv => hv

theorem factor_spec : Procedure.Spec x .factor (Procedure.factor.body.exec onCall) := by
  intro s a level hx
  simp only [Procedure.body, exec_look]
  split
  · rename_i ht
    exact tracks_signed hcall .plus hx (by rw [ht]; rfl)
  · rename_i ht
    exact tracks_signed hcall .minus hx (by rw [ht]; rfl)
  · rename_i v ht
    exact tracks_advance hx (by rw [ht]; rfl) fun u hu => hu
  · rename_i v ht
    exact tracks_advance hx (by rw [ht]; rfl) fun u hu => hu
  · rename_i ht
    refine tracks_advance hx (by rw [ht]; rfl) fun u hu => ?_
    refine tracks_call (hcall .expression u { a with outer := level :: a.outer } hu) fun value v hv => ?_
    exact tracks_expect hv.1 (awaits_closeParen a level value hv.2) fun w hw => hw
  · rename_i y ht
    refine tracks_call (hcall .var s _ (a.supply level (.var y s.line)) y hx ht (by rw [ht]; rfl)) fun name u hu => ?_
    obtain ⟨rfl, hu⟩ := hu
    exact hu
  · refine tracks_unexpected hx rfl rfl ?_
    simp only [accept?]
    unfold Assignment.operand?
    split <;> simp_all

theorem multipliers_spec (left : Tree) :
    Procedure.Spec x (.multipliers left) ((Procedure.multipliers left).body.exec onCall) := by
  intro s a sum hx
  simp only [Procedure.body, exec_look]
  split
  · rename_i op h
    obtain ⟨hop, hscale⟩ := Option.filter_eq_some_iff.1 h
    have haccept : (Reading.operator a sum left).accept? s.token s.line =
        some (.operand a ⟨sum, some ⟨left, op, s.line⟩, []⟩) := by
      simp only [accept?, Assignment.operator?, hop]
      cases op <;> first | rfl | cases hscale
    refine tracks_advance hx haccept fun u hu => ?_
    refine tracks_call (hcall .factor u a _ hu) fun right v hv => ?_
    exact tracks_call (hcall (.multipliers _) v a sum hv) fun value w hw => hw
  · rename_i h
    refine ⟨hx, fun op he => ?_⟩
    rw [Token.operator?_eq_some_iff.2 he] at h
    cases op <;> cases h

theorem term_spec : Procedure.Spec x .term (Procedure.term.body.exec onCall) := by
  intro s a sum hx
  refine tracks_call (hcall .factor s a ⟨sum, none, []⟩ hx) fun left u hu => ?_
  exact tracks_call (hcall (.multipliers left) u a sum hu) fun value v hv => hv

theorem summands_spec (left : Tree) :
    Procedure.Spec x (.summands left) ((Procedure.summands left).body.exec onCall) := by
  intro s a hx hends
  simp only [Procedure.body, exec_look]
  split
  · rename_i op h
    obtain ⟨hop, hadd⟩ := Option.filter_eq_some_iff.1 h
    have haccept : (Reading.operator a none left).accept? s.token s.line =
        some (.operand a ⟨some ⟨left, op, s.line⟩, none, []⟩) := by
      simp only [accept?, Assignment.operator?, hop]
      cases op <;> first | rfl | cases hadd
    refine tracks_advance hx haccept fun u hu => ?_
    refine tracks_call (hcall .term u a _ hu) fun right v hv => ?_
    -- the sum that is pending in the reading is the left operand of the next round
    have hv' := hv.1.trans (resume_operator a _ right hv.2)
    exact tracks_call (hcall (.summands _) v a hv' hv.2) fun value w hw => hw
  · rename_i h
    refine ⟨hx, EndsTerm.endsExpression hends fun sign he => ?_⟩
    rw [Token.operator?_eq_some_iff.2 he] at h
    cases sign <;> cases h

theorem expression_spec : Procedure.Spec x .expression (Procedure.expression.body.exec onCall) := by
  intro s a hx
  refine tracks_call (hcall .term s a none hx) fun left u hu => ?_
  exact tracks_call (hcall (.summands left) u a hu.1 hu.2) fun value v hv => hv

omit hcall in
theorem var_spec : Procedure.Spec x .var (Procedure.var.body.exec onCall) := by
  intro s r q y hx ht haccept
  simp only [Procedure.body, expectName, exec_look, ht]
  exact tracks_advance hx haccept fun u hu => ⟨rfl, hu⟩

/-! ### Statements -/

theorem assignment_spec : Procedure.Spec x .assignment (Procedure.assignment.body.exec onCall) := by
  intro s b y hx ht
  refine tracks_call (hcall .var s _ (.assigning b ⟨y, s.line⟩) y hx ht (by rw [ht]; rfl)) fun name u hu => ?_
  obtain ⟨rfl, hu⟩ := hu
  refine tracks_expect hu (awaits_only rfl) fun v hv => ?_
  refine tracks_call (hcall .expression v ⟨b, _, []⟩ hv) fun value w hw => ?_
  exact hw.1.trans (resume_assigned b _ value hw.2)

theorem statement_spec : Procedure.Spec x .statement (Procedure.statement.body.exec onCall) := by
  intro s b hx
  simp only [Procedure.body, exec_look]
  split
  · rename_i ht
    refine tracks_call (hcall .compound s _ b.nest hx (awaits_nest b ht)) fun tree u hu => ?_
    obtain ⟨ts, rfl, hu⟩ := hu
    rw [Body.nest_addAll_close] at hu
    exact hu
  · rename_i y ht
    exact tracks_call (hcall .assignment s b y hx ht) fun tree u hu => hu
  · rename_i hbegin hname
    exact hx.trans (resume_empty b hbegin hname)

theorem moreStatements_spec (before : List Tree) :
    Procedure.Spec x (.moreStatements before) ((Procedure.moreStatements before).body.exec onCall) := by
  intro s b hx
  simp only [Procedure.body, exec_look]
  split
  · rename_i ht
    refine tracks_advance hx (by rw [ht]; rfl) fun u hu => ?_
    refine tracks_call (hcall .statement u _ hu) fun tree v hv => ?_
    rw [Body.addAll_add] at hv
    exact tracks_call (hcall (.moreStatements _) v b hv) fun ts w hw => hw
  · rename_i y ht
    exact tracks_fail hx (by rw [ht]; rfl) rfl (by rw [ht]; rfl)
  · rename_i hsemicolon hname
    exact ⟨hx, hsemicolon, hname⟩

theorem statements_spec : Procedure.Spec x .statements (Procedure.statements.body.exec onCall) := by
  intro s b hx
  refine tracks_call (hcall .statement s b hx) fun tree u hu => ?_
  rw [← Body.addAll_nil (b.add tree), Body.add_addAll] at hu
  exact tracks_call (hcall (.moreStatements [tree]) u b hu) fun ts v hv => hv

theorem compound_spec : Procedure.Spec x .compound (Procedure.compound.body.exec onCall) := by
  intro s r b hx hawaits
  refine tracks_expect hx hawaits fun u hu => ?_
  refine tracks_call (hcall .statements u b hu) fun ts v hv => ?_
  refine tracks_expect hv.1 (awaits_endBody _ hv.2) fun w hw => ?_
  exact ⟨ts, rfl, hw⟩

/-! ### Declarations and programs -/

omit hcall in
theorem typeName_spec : Procedure.Spec x .typeName (Procedure.typeName.body.exec onCall) := by
  intro s h group hx
  simp only [Procedure.body, exec_look]
  split
  · rename_i ht
    exact tracks_advance hx (by rw [ht]; rfl) fun u hu => hu
  · rename_i ht
    exact tracks_advance hx (by rw [ht]; rfl) fun u hu => hu
  · rename_i hinteger hreal
    refine tracks_unexpected hx rfl rfl ?_
    cases hs : s.token with
    | keyword k =>
      cases k with
      | integer => exact absurd hs hinteger
      | real => exact absurd hs hreal
      | _ => rfl
    | _ => rfl

theorem names_spec (before : List Name) :
    Procedure.Spec x (.names before) ((Procedure.names before).body.exec onCall) := by
  intro s h hx
  simp only [Procedure.body]
  refine tracks_expectName (q := fun y => .declared h (before.toArray.push y)) hx rfl rfl ?_ fun y u hu => ?_
  · intro t n
    cases t <;> rfl
  simp only [exec_look]
  have hu' : x = (Reading.declared h (before ++ [y]).toArray).resume u := by simpa using hu
  split
  · rename_i ht
    refine tracks_advance hu' (by rw [ht]; rfl) fun v hv => ?_
    exact tracks_call (hcall (.names _) v h hv) fun xs w hw => hw
  · rename_i hcomma
    exact ⟨hu', hcomma⟩

theorem group_spec : Procedure.Spec x .group (Procedure.group.body.exec onCall) := by
  intro s h hx
  refine tracks_call (hcall (.names []) s h hx) fun xs u hu => ?_
  refine tracks_expect hu.1 (awaits_colon h _ hu.2) fun v hv => ?_
  refine tracks_call (hcall .typeName v h _ hv) fun type w hw => ?_
  rw [← Heading.declareAll_map] at hw
  exact hw

theorem groups_spec (before : List Tree) :
    Procedure.Spec x (.groups before) ((Procedure.groups before).body.exec onCall) := by
  intro s h hx
  refine tracks_call (hcall .group s _ hx) fun ds u hu => ?_
  rw [Heading.declareAll_append] at hu
  refine tracks_expect hu (awaits_only rfl) fun v hv => ?_
  simp only [exec_look]
  split
  -- another group is read like the first one, from its first name on
  · rename_i y ht
    exact tracks_call (hcall (.groups _) v h (hv.trans (resume_nextGroup _ ht))) fun ds w hw => hw
  · rename_i hname
    exact ⟨hv, hname⟩

theorem declarations_spec : Procedure.Spec x .declarations (Procedure.declarations.body.exec onCall) := by
  intro s h hx
  simp only [Procedure.body, exec_look]
  split
  · rename_i ht
    refine tracks_advance hx (by rw [ht]; rfl) fun u hu => ?_
    rw [← Heading.declareAll_nil h] at hu
    refine tracks_call (hcall (.groups []) u h hu) fun ds v hv => ?_
    exact ⟨_, hv.1, awaits_nextGroup _ hv.2⟩
  · rename_i hvar
    refine ⟨_, hx, ?_⟩
    rw [Heading.declareAll_nil]
    exact awaits_sections h hvar

theorem block_spec : Procedure.Spec x .block (Procedure.block.body.exec onCall) := by
  intro s h hx
  refine tracks_call (hcall .declarations s h hx) fun ds u hu => ?_
  obtain ⟨r, hu, hawaits⟩ := hu
  refine tracks_call (hcall .compound u r _ hu hawaits) fun body v hv => ?_
  obtain ⟨ts, rfl, hv⟩ := hv
  rw [Body.ofHeading_addAll_close] at hv
  exact ⟨ds, _, rfl, hv⟩

theorem program_spec : Procedure.Spec x .program (Procedure.program.body.exec onCall) := by
  intro s hx
  refine tracks_expect hx (awaits_only rfl) fun u hu => ?_
  refine tracks_expectName (q := fun y => .titleEnd y.text) hu rfl rfl ?_ fun y v hv => ?_
  · intro t n
    cases t <;> rfl
  refine tracks_expect hv (awaits_only rfl) fun w hw => ?_
  refine tracks_call (hcall .block w _ hw) fun block u hu => ?_
  obtain ⟨ds, body, rfl, hu⟩ := hu
  refine tracks_expect hu (awaits_only rfl) fun v hv => ?_
  simp only [Heading.declareAll, List.append_toArray, List.nil_append] at hv
  exact hv

theorem body_spec (p : Procedure) : p.Spec x (p.body.exec onCall) := by
  cases p with
  | program => exact program_spec hcall
  | block => exact block_spec hcall
  | declarations => exact declarations_spec hcall
  | groups before => exact groups_spec hcall before
  | group => exact group_spec hcall
  | names before => exact names_spec hcall before
  | typeName => exact typeName_spec
  | compound => exact compound_spec hcall
  | statements => exact statements_spec hcall
  | moreStatements before => exact moreStatements_spec hcall before
  | statement => exact statement_spec hcall
  | assignment => exact assignment_spec hcall
  | var => exact var_spec
  | expression => exact expression_spec hcall
  | summands left => exact summands_spec hcall left
  | term => exact term_spec hcall
  | multipliers left => exact multipliers_spec hcall left
  | factor => exact factor_spec hcall

end Bodies

/-- However much fuel there is, calls track the reading. -/
theorem enter_spec (x : Except Error Tree × List Item) (fuel : Nat) (p : Procedure) : p.Spec x (enter fuel p) := by
  induction fuel generalizing p with
  -- without fuel nothing is promised
  | zero => cases p <;> simp [Procedure.Spec, enter, Tracks]
  | succ fuel ih => exact body_spec ih p

/-! ## The whole text -/

theorem whole_tracks (fuel : Nat) (hx : x = Reading.opening.resume s) :
    Tracks x (fun tree u => x = (.ok tree, u.pulled)) (whole.exec (enter fuel) s) := by
  refine tracks_call (enter_spec x fuel .program s hx) fun tree u hu => ?_
  have hrefused : x = ((Reading.complete tree).verdict u.token u.line, u.pulled) := hu
  simp only [exec_look]
  split
  · rename_i ht
    rw [ht] at hrefused
    exact hrefused
  · rename_i ht
    rw [verdict, if_neg ht] at hrefused
    exact hrefused

/-- What comes out before the fuel runs out is what the reader comes to. -/
theorem parse_eq {fuel : Nat} {source : String} (h : parse fuel source ≠ none) :
    parse fuel source = some (Reading.opening.proceed (.ofString source) []) := by
  have htracks := (tracks_pull Reading.opening (.ofString source) []).andThen fun _ s => whole_tracks fuel
  unfold parse at h ⊢
  split
  · rename_i tree s hs
    rw [hs] at htracks
    exact congrArg some htracks.symm
  · rename_i e pulled he
    rw [he] at htracks
    exact congrArg some htracks.symm
  · rename_i hexhausted
    rw [hexhausted] at h
    exact absurd rfl h

/-- The procedures end for every text, and nothing is pulled behind the item that decides it.

    With fuel in proportion to the length of the text they come to the tree or the error of the
    text. By then the first items of it have been pulled, in order and each once, and none
    behind the end of the input or a stray character: all of them if there is a tree, and else
    those up to the one that the error is about, the first with which they are not viable. The
    reader leaves its cursor behind the same items.

    This is so because between a call and any call inside it of a procedure that is not lower in
    rank, such as one of the same procedure, a token is consumed and so less of the text is left.
    A repetition goes on by a call of itself. And each item that is pulled in front of the end of
    the input takes at least one byte. -/
theorem parse_terminates (source : String) :
    let text : Cursor := .ofString source
    (∃ pulled,
      (∀ fuel, 18 * (source.length + 1) ≤ fuel → parse fuel source = some (Pascaline.parse source, pulled)) ∧
      pulled <+: text.items ∧ (∀ item ∈ pulled.dropLast, ¬item.isLast) ∧
      (Reading.opening.run text).2 = text.after pulled.length ∧
      (∀ tree, Pascaline.parse source = .ok tree →
        pulled = text.items ∧ ∃ n, pulled.getLast? = some (.token .endOfInput n)) ∧
      ∀ e, Pascaline.parse source = .error e → ∃ before item, pulled = before ++ [item] ∧ Viable before ∧
        ¬Viable pulled ∧ e.Blames item (text.after pulled.length).line) ∧
    (∀ f g : Frame, Relation.TransGen Calls f g → f.procedure.rank ≤ g.procedure.rank →
      Consumed f.lookahead g.lookahead) ∧
    ∀ k, (∀ n, text.item k ≠ .token .endOfInput n) → (text.after k).position < (text.after (k + 1)).position := by
  intro text
  refine ⟨⟨Reading.opening.taken text.items, fun fuel hfuel => ?_, taken_prefix _ _,
    fun item => not_isLast_of_taken, run_cursor _ _, ?_, ?_⟩, ?_, ?_⟩
  · exact parse_eq (parse_ne_none hfuel)
  · intro tree htree
    obtain ⟨hall, hend⟩ := taken_of_run_ok htree
    rw [hall]
    exact ⟨rfl, hend⟩
  · intro e he
    obtain ⟨before, item, htaken, hviable, hunviable, hblames⟩ := taken_of_parse_error he
    rw [htaken]
    refine ⟨before, item, rfl, hviable, hunviable, ?_⟩
    rw [List.length_append]
    exact hblames
  · intro f g hcalls hrank
    exact (transGen_calls_below hcalls).resolve_right fun h => Nat.not_lt.2 hrank h.2
  · exact fun k => position_lt_after

end Descent

end Pascaline
