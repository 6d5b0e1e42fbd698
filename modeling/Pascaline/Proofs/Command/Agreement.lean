/-
  Pascaline.Proofs.Command.Agreement — the command comes to what the program comes to.

  The command parses, draws and runs a program by itself. If its text can be read and the
  drawing, where one is asked for, can be written, what is printed and the status are those
  of a run of the text (`Options.run_eq`, `carryOut_agrees`). This is so over any file system.
-/

import Pascaline.Proofs.Command.Effect
import Pascaline.Proofs.Command.Report
import Pascaline.Proofs.Tree.WellFormed

namespace Pascaline.Command

variable {σ : Type} [FileSystem σ]

/-- The outcome of a run, as the command shows it. -/
def Outcome.ofRun : Except Error Table → Outcome
  | .ok table => .success (report table)
  | .error e => .failure e.message

/-- The outcome of the command is that of a run of the text. -/
theorem Options.run_eq {o : Options} {s : σ} {source : String} (hs : o.Reads s source)
    (hd : ∀ tree, parse source = .ok tree → o.CanDraw s tree) :
    ((o.run : StateM σ Outcome) s).1 = .ofRun (Pascaline.run source) := by
  rw [run_eq_runWith, runWith_eq, effect_of_reads hs]
  cases hparse : parse source with
  | error e =>
    simp only [run_of_parse_error hparse]
    rfl
  | ok tree =>
    obtain ⟨s', hdrawn⟩ := exists_drawn (hd tree hparse)
    simp only [hdrawn, run_of_parse hparse, evaluated]
    rcases tree.eval.on ∅ with ⟨e | v, table⟩ <;> rfl

/-- The command shows what a run of the program gives.

    The text of the program is the argument, or that of a readable file, and a drawing is not
    asked for or can be written; how paths lead to files is for the file system to say. Then
    the status is 0 exactly if the program runs. It prints a report of the table and no
    message, and the report is the same in whatever order the table is enumerated before it is
    sorted. If the program does not run, the status is 1, nothing is printed and the message
    is that of the error. -/
theorem carryOut_agrees {o : Options} {s : σ} {source : String} (hs : o.Reads s source)
    (hd : ∀ tree, parse source = .ok tree → o.CanDraw s tree) :
    let outcome := (((Request.run o).carryOut : StateM σ Outcome) s).1
    (outcome.status = 0 ↔ ∃ table, run source = .ok table) ∧
    (∀ table, run source = .ok table →
      outcome.stderr = "" ∧ IsReport table outcome.stdout ∧
      ∀ entries, Enumerates entries table →
        outcome.stdout = "GLOBAL SCOPE\n" ++ "------------\n" ++
          String.join ((entries.mergeSort nameLe).map fun e => row e.1 e.2)) ∧
    ∀ e, run source = .error e → outcome = ⟨1, "", e.message ++ "\n"⟩ := by
  intro outcome
  have heq : outcome = .ofRun (run source) := Options.run_eq hs hd
  cases hrun : run source with
  | error e =>
    rw [hrun] at heq
    refine ⟨iff_of_false ?_ nofun, nofun, ?_⟩
    · rw [heq]
      exact Nat.one_ne_zero
    · rintro _ ⟨⟩
      exact heq
  | ok table =>
    rw [hrun] at heq
    refine ⟨iff_of_true ?_ ⟨table, rfl⟩, ?_, nofun⟩
    · rw [heq]
      rfl
    · rintro _ ⟨⟩
      rw [heq]
      refine ⟨rfl, isReport_report table, fun entries h => ?_⟩
      rw [h.mergeSort_eq]
      rfl

/-- The program is in a file, its drawing goes to another one, and it assigns one variable. -/
theorem carryOut_agrees_file :
    let o : Options := ⟨true, true, some "p.dot", "p.pas"⟩
    let d : Directory := (∅ : Directory).insert "p.pas" "PROGRAM p; BEGIN x := 2 END.".toUTF8
    let outcome := (((Request.run o).carryOut : StateM Directory Outcome) d).1
    outcome.status = 0 ∧ outcome.stderr = "" ∧ IsReport ((∅ : Table).insert "x" 2) outcome.stdout := by
  intro o d outcome
  have hitems : (Cursor.ofString "PROGRAM p; BEGIN x := 2 END.").items =
      [⟨.keyword .program, 1⟩, ⟨.name "p", 1⟩, ⟨.symbol .semicolon, 1⟩, ⟨.keyword .beginBody, 1⟩, ⟨.name "x", 1⟩,
        ⟨.symbol .assign, 1⟩, ⟨.integer 2, 1⟩, ⟨.keyword .endBody, 1⟩, ⟨.symbol .dot, 1⟩].map Lexeme.item ++
        [.token .endOfInput 1] := by
    decide +kernel
  have hparse : parse "PROGRAM p; BEGIN x := 2 END." =
      .ok (.program "p" (.block [] (.compound [.assign (.var "x" 1) (.number 2)]))) :=
    (Reading.run_eq_ok_iff hitems rfl).2 ⟨rfl, 1, rfl⟩
  have hrun : run "PROGRAM p; BEGIN x := 2 END." = .ok ((∅ : Table).insert "x" 2) := by
    rw [run_of_parse hparse]
    rfl
  have hreads : o.Reads d "PROGRAM p; BEGIN x := 2 END." :=
    Directory.read_eq (show d.resolve "p.pas" = .ok "p.pas" from rfl) Std.ExtTreeMap.getElem?_insert_self
  have hdraw : ∀ tree, parse "PROGRAM p; BEGIN x := 2 END." = .ok tree → o.CanDraw d tree := by
    rintro tree - path ⟨⟩
    exact ⟨_, Directory.write_eq (show d.resolve "p.dot" = .ok "p.dot" from rfl) tree.dot.toUTF8⟩
  obtain ⟨hstatus, hreport, -⟩ := carryOut_agrees hreads hdraw
  exact ⟨hstatus.2 ⟨_, hrun⟩, (hreport _ hrun).1, (hreport _ hrun).2.1⟩

end Pascaline.Command
