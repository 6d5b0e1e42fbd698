/-
  Pascaline.Proofs.Reading.Viable — what is accepted so far is the beginning of a program.

  What a reading accepts depends on where it is and not on what it has read: readings that
  are the same without their trees, names and lines (`blank`) go the same way
  (`accept?_congr`). So the lines of lexemes do not matter to whether they are read
  (`Ends.of_tokens_eq`).

  Every reading can be led to the end of a program (`canEnd`), so nothing is accepted that
  no program begins with; and what a program begins with is accepted, because the reader
  takes all of it (`isSome_readAll?_iff`).

  The word `BEGIN` leads into the body, and nothing leads out of it (`inBody_readAll?`).
-/

import Pascaline.Proofs.Reading.Derives

namespace Pascaline

/-! ## Places without contents -/

def Body.blank (b : Body) : Body := ⟨⟨"", #[]⟩, #[], b.outer.map fun _ => #[]⟩

def Assignment.blank (a : Assignment) : Assignment := ⟨a.body.blank, ⟨"", 0⟩, a.outer.map fun _ => .start⟩

namespace Reading

/-- The reading with nothing of what it has read but the number of open lists and
    parentheses. -/
def blank : Reading → Reading
  | .opening => .opening
  | .title => .title
  | .titleEnd _ => .titleEnd ""
  | .sections _ => .sections ⟨"", #[]⟩
  | .declaring _ _ => .declaring ⟨"", #[]⟩ #[]
  | .declared _ _ => .declared ⟨"", #[]⟩ #[]
  | .typing _ _ => .typing ⟨"", #[]⟩ #[]
  | .groupEnd _ => .groupEnd ⟨"", #[]⟩
  | .nextGroup _ => .nextGroup ⟨"", #[]⟩
  | .statement b => .statement b.blank
  | .assigning b _ => .assigning b.blank ⟨"", 0⟩
  | .operand a _ => .operand a.blank .start
  | .operator a _ _ => .operator a.blank none .empty
  | .separator b => .separator b.blank
  | .closing _ _ => .closing ⟨"", #[]⟩ .empty
  | .complete _ => .complete .empty

theorem eq_complete_of_blank {r : Reading} {p : Tree} (h : r.blank = .complete p) : ∃ q, r = .complete q := by
  cases r with
  | complete q => exact ⟨q, rfl⟩
  | _ => cases h

theorem blank_close (b c : Body) (h : b.blank = c.blank) : b.close.blank = c.close.blank := by
  obtain ⟨_, _, bs⟩ := b
  obtain ⟨_, _, cs⟩ := c
  simp only [Body.blank, Body.mk.injEq, true_and] at h
  cases bs <;> cases cs <;> simp_all [Body.close, blank, Body.blank]

theorem blank_body_accept? (b c : Body) (h : b.blank = c.blank) (t : Token) :
    (b.accept? t).map blank = (c.accept? t).map blank := by
  unfold Body.accept?
  split
  · exact congrArg (fun b => some (Reading.statement b)) h
  · exact congrArg some (blank_close b c h)
  · rfl

theorem blank_operand? (a b : Assignment) (h : a.blank = b.blank) (level level' : Level) (n n' : Nat) (t : Token) :
    (a.operand? level n t).map blank = (b.operand? level' n' t).map blank := by
  have hout : ∀ l l' : Level, ({ a with outer := l :: a.outer } : Assignment).blank =
      ({ b with outer := l' :: b.outer } : Assignment).blank := by
    intro l l'
    simp_all [Assignment.blank]
  unfold Assignment.operand?
  split
  case h_6 => exact congrArg (fun a => some (Reading.operand a .start)) (hout level level')
  all_goals simp [Assignment.supply, blank, h]

theorem blank_operator? (a b : Assignment) (h : a.blank = b.blank) (sum sum' : Option Pending) (term term' : Tree)
    (n n' : Nat) (t : Token) :
    (a.operator? sum term n t).map blank = (b.operator? sum' term' n' t).map blank := by
  obtain ⟨body, _, as⟩ := a
  obtain ⟨body', _, bs⟩ := b
  simp only [Assignment.blank, Assignment.mk.injEq, true_and] at h
  unfold Assignment.operator?
  split
  · split <;> simp [blank, Assignment.blank, h]
  · cases as <;> cases bs
    · exact blank_body_accept? _ _ (by simpa [Assignment.close, Body.add, Body.blank] using h.1) t
    · simp at h
    · simp at h
    · simp only
      split
      · simp_all [Assignment.supply, blank, Assignment.blank]
      · rfl

theorem blank_statement? (b c : Body) (h : b.blank = c.blank) (n n' : Nat) (t : Token) :
    ((Reading.statement b).accept? t n).map blank = ((Reading.statement c).accept? t n').map blank := by
  have hempty : (b.add .empty).blank = (c.add .empty).blank := h
  cases t with
  | name s => simp [accept?, blank, h]
  | keyword k =>
    cases k with
    | beginBody => simp_all [accept?, blank, Body.blank, Body.nest]
    | endBody => exact blank_body_accept? _ _ hempty (.keyword .endBody)
    | _ => rfl
  | symbol s => exact blank_body_accept? _ _ hempty (.symbol s)
  | _ => rfl

/-- Two readings at one place accept the same tokens and go to one place, whatever they have
    read and wherever the tokens stand. -/
theorem accept?_congr {r s : Reading} (h : r.blank = s.blank) (t : Token) (n n' : Nat) :
    (r.accept? t n).map blank = (s.accept? t n').map blank := by
  cases r <;> cases s <;> try (first | cases h | skip)
  case statement.statement => exact blank_statement? _ _ (Reading.statement.inj h) n n' t
  case operand.operand => exact blank_operand? _ _ (Reading.operand.inj h).1 _ _ n n' t
  case operator.operator => exact blank_operator? _ _ (Reading.operator.inj h).1 _ _ _ _ n n' t
  case separator.separator => exact blank_body_accept? _ _ (Reading.separator.inj h) t
  case assigning.assigning b x c y =>
    simp only [blank, assigning.injEq, and_true] at h
    cases t with
    | symbol s =>
      cases s with
      | assign => simp [accept?, blank, Assignment.blank, h]
      | _ => rfl
    | _ => rfl
  all_goals cases t <;> try rfl
  -- the reserved words and the symbols, where the grammar names one of them
  all_goals rename_i x; cases x <;> rfl

theorem due?_blank (r : Reading) : r.blank.due? = r.due? := by
  cases r with
  | operator a sum term =>
    obtain ⟨body, target, outer⟩ := a
    cases outer <;> rfl
  | _ => rfl

theorem endsStatement_blank (r : Reading) : r.blank.endsStatement = r.endsStatement := by
  cases r with
  | operator a sum term =>
    obtain ⟨body, target, outer⟩ := a
    cases outer <;> rfl
  | _ => rfl

/-- Why a token is refused depends on the place only. -/
theorem reject_congr {r s : Reading} (h : r.blank = s.blank) (t : Token) (n : Nat) : r.reject t n = s.reject t n := by
  have hdue : r.due? = s.due? := by rw [← due?_blank, h, due?_blank]
  have hends : r.endsStatement = s.endsStatement := by rw [← endsStatement_blank, h, endsStatement_blank]
  unfold reject
  rw [hdue, hends]

theorem readAll?_congr {r s : Reading} (h : r.blank = s.blank) {ls ms : List Lexeme}
    (hl : ls.map Lexeme.token = ms.map Lexeme.token) : (r.readAll? ls).map blank = (s.readAll? ms).map blank := by
  induction ls generalizing r s ms with
  | nil =>
    obtain rfl : ms = [] := List.map_eq_nil_iff.1 hl.symm
    exact congrArg some h
  | cons l ls ih =>
    obtain ⟨m, ms, rfl, hm, hms⟩ := List.map_eq_cons_iff.1 hl.symm
    have hstep := accept?_congr h l.token l.line m.line
    rw [readAll?_cons, readAll?_cons, hm]
    cases hr : r.accept? l.token l.line with
    | none =>
      rw [hr, Option.map_none] at hstep
      rw [Option.map_eq_none_iff.1 hstep.symm]
      rfl
    | some r' =>
      rw [hr, Option.map_some] at hstep
      obtain ⟨s', hs, hs'⟩ := Option.map_eq_some_iff.1 hstep.symm
      rw [hs]
      exact ih hs'.symm hms.symm

/-- Programs are read to the end on any lines. -/
theorem Ends.of_tokens_eq {r : Reading} {ls ms : List Lexeme} {p : Tree} (h : r.Ends ls p)
    (hl : ms.map Lexeme.token = ls.map Lexeme.token) : ∃ q, r.Ends ms q := by
  have he := readAll?_congr (r := r) rfl hl
  rw [h] at he
  obtain ⟨r', hr, hr'⟩ := Option.map_eq_some_iff.1 he
  obtain ⟨q, rfl⟩ := eq_complete_of_blank hr'
  exact ⟨q, hr⟩

/-! ## The way to the end -/

/-- More lexemes can lead to the end of a program. -/
def CanEnd (r : Reading) : Prop := ∃ ls p, r.Ends ls p

theorem canEnd_complete (p : Tree) : (complete p).CanEnd := ⟨[], p, rfl⟩

theorem CanEnd.of_accept? {r r' : Reading} (t : Token) (h : r.accept? t 1 = some r') (he : r'.CanEnd) : r.CanEnd := by
  obtain ⟨ls, p, he⟩ := he
  exact ⟨⟨t, 1⟩ :: ls, p, by rw [Ends, readAll?_cons, h]; exact he⟩

/-- The open lists end one after the other, and then the program. -/
theorem canEnd_close (b : Body) : b.close.CanEnd := by
  obtain ⟨heading, inner, outer⟩ := b
  induction outer generalizing inner with
  | nil => exact .of_accept? (.symbol .dot) rfl (canEnd_complete _)
  | cons list outer ih => exact .of_accept? (.keyword .endBody) rfl (ih _)

theorem canEnd_statement (b : Body) : (statement b).CanEnd :=
  .of_accept? (.keyword .endBody) rfl (canEnd_close _)

/-- The open parentheses close one after the other, and then the statement is over. -/
theorem canEnd_operator (a : Assignment) (sum : Option Pending) (term : Tree) : (operator a sum term).CanEnd := by
  obtain ⟨body, target, outer⟩ := a
  induction outer generalizing sum term with
  | nil => exact .of_accept? (.keyword .endBody) rfl (canEnd_close _)
  | cons level outer ih => exact .of_accept? (.symbol .closeParen) rfl (ih _ _)

theorem canEnd_operand (a : Assignment) (level : Level) : (operand a level).CanEnd :=
  .of_accept? (.name "x") rfl (canEnd_operator _ _ _)

theorem canEnd_nextGroup (h : Heading) : (nextGroup h).CanEnd :=
  .of_accept? (.keyword .beginBody) rfl (canEnd_statement _)

theorem canEnd_groupEnd (h : Heading) : (groupEnd h).CanEnd :=
  .of_accept? (.symbol .semicolon) rfl (canEnd_nextGroup _)

theorem canEnd_typing (h : Heading) (group : Array Name) : (typing h group).CanEnd :=
  .of_accept? (.keyword .integer) rfl (canEnd_groupEnd _)

theorem canEnd_declared (h : Heading) (group : Array Name) : (declared h group).CanEnd :=
  .of_accept? (.symbol .colon) rfl (canEnd_typing _ _)

theorem canEnd_sections (h : Heading) : (sections h).CanEnd :=
  .of_accept? (.keyword .beginBody) rfl (canEnd_statement _)

theorem canEnd_titleEnd (program : String) : (titleEnd program).CanEnd :=
  .of_accept? (.symbol .semicolon) rfl (canEnd_sections _)

theorem canEnd_title : title.CanEnd := .of_accept? (.name "x") rfl (canEnd_titleEnd _)

theorem canEnd (r : Reading) : r.CanEnd := by
  cases r with
  | opening => exact .of_accept? (.keyword .program) rfl canEnd_title
  | title => exact canEnd_title
  | titleEnd program => exact canEnd_titleEnd program
  | sections h => exact canEnd_sections h
  | declaring h group => exact .of_accept? (.name "x") rfl (canEnd_declared _ _)
  | declared h group => exact canEnd_declared h group
  | typing h group => exact canEnd_typing h group
  | groupEnd h => exact canEnd_groupEnd h
  | nextGroup h => exact canEnd_nextGroup h
  | statement b => exact canEnd_statement b
  | assigning b x => exact .of_accept? (.symbol .assign) rfl (canEnd_operand _ _)
  | operand a level => exact canEnd_operand a level
  | operator a sum term => exact canEnd_operator a sum term
  | separator b => exact .of_accept? (.keyword .endBody) rfl (canEnd_close b)
  | closing h body => exact .of_accept? (.symbol .dot) rfl (canEnd_complete _)
  | complete p => exact canEnd_complete p

/-- The tokens of the lexemes begin a program exactly if all of them are accepted. -/
theorem isSome_readAll?_iff (ls : List Lexeme) :
    (Reading.opening.readAll? ls).isSome ↔ ∃ p : Phrase.Program, ls.map Lexeme.token <+: p.tokens := by
  constructor
  · intro h
    obtain ⟨r, hr⟩ := Option.isSome_iff_exists.1 h
    obtain ⟨us, p, hu⟩ := canEnd r
    have he : Reading.opening.Ends (ls ++ us) p := by
      rw [Ends, readAll?_append, hr]
      exact hu
    obtain ⟨q, hq, -⟩ := exists_program he
    exact ⟨q, us.map Lexeme.token, by rw [Phrase.Program.tokens, hq, List.map_append]⟩
  · rintro ⟨p, ts, hp⟩
    obtain ⟨ms, us, hms, hls, -⟩ := List.map_eq_append_iff.1 hp.symm
    have hall : ((Reading.opening.readAll? ms).bind fun r => r.readAll? us).isSome := by
      rw [← readAll?_append, ← hms, readAll?_program]
      rfl
    have hsome : (Reading.opening.readAll? ms).isSome := Option.isSome_of_isSome_bind hall
    have hcongr := congrArg Option.isSome (readAll?_congr (r := Reading.opening) rfl hls)
    simpa [hsome] using hcongr.symm

/-! ## Places in the body -/

/-- The reading is behind the word that begins the body. -/
def inBody : Reading → Bool
  | .statement _ | .assigning .. | .operand .. | .operator .. | .separator _ | .closing .. | .complete _ => true
  | _ => false

theorem inBody_close (b : Body) : b.close.inBody := by
  unfold Body.close
  split <;> rfl

theorem inBody_of_body_accept? {b : Body} {t : Token} {s : Reading} (h : b.accept? t = some s) : s.inBody := by
  unfold Body.accept? at h
  split at h
  · obtain rfl := Option.some.inj h
    rfl
  · obtain rfl := Option.some.inj h
    exact inBody_close b
  · cases h

theorem inBody_of_operand? {a : Assignment} {level : Level} {n : Nat} {t : Token} {s : Reading}
    (h : a.operand? level n t = some s) : s.inBody := by
  unfold Assignment.operand? at h
  split at h
  case h_7 => cases h
  all_goals
    obtain rfl := Option.some.inj h
    rfl

theorem inBody_of_operator? {a : Assignment} {sum : Option Pending} {term : Tree} {n : Nat} {t : Token} {s : Reading}
    (h : a.operator? sum term n t = some s) : s.inBody := by
  unfold Assignment.operator? at h
  split at h
  · split at h <;> (obtain rfl := Option.some.inj h; rfl)
  · simp only at h
    split at h
    · exact inBody_of_body_accept? h
    · split at h
      · obtain rfl := Option.some.inj h
        rfl
      · cases h

/-- In the body every token stays there; before it, one word leads there. -/
theorem inBody_accept? {r s : Reading} {t : Token} {n : Nat} (h : r.accept? t n = some s) :
    s.inBody ↔ r.inBody ∨ t = .keyword .beginBody := by
  revert h
  fun_cases Reading.accept? r t n
  -- the places in the body that leave the token to the list or to the assignment
  case case16 => exact fun h => iff_of_true (inBody_of_body_accept? h) (Or.inl rfl)
  case case18 => exact fun h => iff_of_true (inBody_of_operand? h) (Or.inl rfl)
  case case19 => exact fun h => iff_of_true (inBody_of_operator? h) (Or.inl rfl)
  case case20 => exact fun h => iff_of_true (inBody_of_body_accept? h) (Or.inl rfl)
  case case22 => exact nofun
  all_goals
    intro h
    obtain rfl := Option.some.inj h
    simp [inBody]

/-- A reading is in the body exactly if the word that begins it has been read. -/
theorem inBody_readAll? {r s : Reading} {ls : List Lexeme} (h : r.readAll? ls = some s) :
    s.inBody ↔ r.inBody ∨ .keyword .beginBody ∈ ls.map Lexeme.token := by
  induction ls generalizing r with
  | nil =>
    obtain rfl := Option.some.inj h
    simp
  | cons l ls ih =>
    obtain ⟨r', hl, hr'⟩ := Option.bind_eq_some_iff.1 h
    rw [ih hr', inBody_accept? hl, or_assoc, List.map_cons, List.mem_cons, @eq_comm _ l.token]

end Reading

end Pascaline
