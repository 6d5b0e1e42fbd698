/-
  Pascaline.Proofs.Command.Files — what the command does to files.

  A run changes one file at most (`carryOut_files`). What it writes is seen in a `Record` of
  the files, which also keeps a list of all that has been written to them and is a file
  system as they are. Over the files and over their record a run comes to the same
  (`Options.effect_files`).

  A run fails before its program is run, and leaves all files as they are, or it runs the
  program, and what it has written by then is the drawing, if one is asked for
  (`Options.exists_effect`).
-/

import Pascaline.Proofs.Command.Agreement

namespace Pascaline.Command

/-! ## Files with a record of what is written -/

/-- Files, and the paths and bytes of all that has been written to them. -/
structure Record (σ : Type) where
  files : σ
  written : List (String × ByteArray)

section

variable {σ : Type} [FileSystem σ]

def Record.write (r : Record σ) (path : String) (bytes : ByteArray) : Except SystemError (Record σ) :=
  (FileSystem.write r.files path bytes).map fun files => ⟨files, r.written ++ [(path, bytes)]⟩

instance : FileSystem (Record σ) where
  read r := FileSystem.read r.files
  write := Record.write

theorem Record.write_eq (r : Record σ) (path : String) (bytes : ByteArray) :
    FileSystem.write r path bytes =
      match FileSystem.write r.files path bytes with
      | .ok files => .ok ⟨files, r.written ++ [(path, bytes)]⟩
      | .error e => .error e := by
  show r.write path bytes = _
  unfold Record.write
  cases FileSystem.write r.files path bytes <;> rfl

namespace Options

variable {o : Options} {s : σ} {source : String} {tree : Tree}

theorem drawn_files (o : Options) (tree : Tree) (r : Record σ) :
    o.drawn tree r.files = ((o.drawn tree r).1, (o.drawn tree r).2.files) := by
  unfold drawn
  cases o.dot with
  | none => rfl
  | some path =>
    simp only [Record.write_eq]
    cases FileSystem.write r.files path tree.dot.toUTF8 <;> rfl

/-- The record is of the files that the run works on. -/
theorem effect_files (evaluate : Tree → Outcome) (o : Options) (r : Record σ) :
    o.effect evaluate r.files = ((o.effect evaluate r).1, (o.effect evaluate r).2.files) := by
  have hread : FileSystem.read r o.contents = FileSystem.read r.files o.contents := rfl
  unfold effect
  rw [hread]
  cases (if o.file then text? (FileSystem.read r.files o.contents) else some o.contents) with
  | none => rfl
  | some source =>
    cases hparse : parse source with
    | error e => simp only [hparse]
    | ok tree =>
      simp only [hparse, drawn_files]
      rcases o.drawn tree r with ⟨message | u, r'⟩ <;> rfl

/-! ## What is written -/

/-- The text of the program is not there, or it is no program, or its drawing cannot be
    written. -/
def Fails (o : Options) (s : σ) : Prop :=
  (¬∃ source, o.Reads s source) ∨ (∃ source e, o.Reads s source ∧ parse source = .error e) ∨
    ∃ source tree, o.Reads s source ∧ parse source = .ok tree ∧ ¬o.CanDraw s tree

theorem not_fails (hreads : o.Reads s source) (hparse : parse source = .ok tree) (hdraw : o.CanDraw s tree) :
    ¬o.Fails s := by
  rintro (hnone | ⟨other, e, hother, herror⟩ | ⟨other, tree', hother, hok, hcannot⟩)
  · exact hnone ⟨source, hreads⟩
  · obtain rfl := hreads.unique hother
    rw [hparse] at herror
    cases herror
  · obtain rfl := hreads.unique hother
    obtain rfl := Except.ok.inj (hparse.symm.trans hok)
    exact hcannot hdraw

/-- What happens to files until the program is run, or until the run of the command fails. -/
theorem exists_effect (o : Options) (s : σ) :
    (o.Fails s ∧ ∃ message, ∀ evaluate,
      o.effect evaluate (⟨s, []⟩ : Record σ) = (.failure message, ⟨s, []⟩)) ∨
    ∃ source tree, o.Reads s source ∧ parse source = .ok tree ∧
      ((o.dot = none ∧ ∀ evaluate, o.effect evaluate (⟨s, []⟩ : Record σ) = (evaluate tree, ⟨s, []⟩)) ∨
        ∃ path s', o.dot = some path ∧ FileSystem.write s path tree.dot.toUTF8 = .ok s' ∧ ∀ evaluate,
          o.effect evaluate (⟨s, []⟩ : Record σ) = (evaluate tree, ⟨s', [(path, tree.dot.toUTF8)]⟩)) := by
  by_cases hreads : ∃ source, o.Reads s source
  · obtain ⟨source, hreads⟩ := hreads
    have heffect := effect_of_reads (show o.Reads (⟨s, []⟩ : Record σ) source from hreads)
    cases hparse : parse source with
    | error e =>
      refine Or.inl ⟨Or.inr (Or.inl ⟨source, e, hreads, hparse⟩), e.message, fun evaluate => ?_⟩
      rw [heffect, hparse]
    | ok tree =>
      simp only [hparse, drawn, Record.write_eq] at heffect
      cases hdot : o.dot with
      | none =>
        rw [hdot] at heffect
        exact Or.inr ⟨source, tree, hreads, hparse, Or.inl ⟨rfl, heffect⟩⟩
      | some path =>
        simp only [hdot] at heffect
        cases hwrite : FileSystem.write s path tree.dot.toUTF8 with
        | ok s' =>
          simp only [hwrite] at heffect
          exact Or.inr ⟨source, tree, hreads, hparse, Or.inr ⟨path, s', rfl, hwrite, heffect⟩⟩
        | error e =>
          simp only [hwrite] at heffect
          refine Or.inl ⟨Or.inr (Or.inr ⟨source, tree, hreads, hparse, fun hdraw => ?_⟩), _, heffect⟩
          obtain ⟨s', hok⟩ := hdraw path hdot
          rw [hwrite] at hok
          cases hok
  · have hreads' : ¬∃ source, o.Reads (⟨s, []⟩ : Record σ) source := hreads
    exact Or.inl ⟨Or.inl hreads, unreadable o.contents, effect_of_not_reads hreads'⟩

end Options

end

/-- A run changes one file at most, and only when it has come to a drawing.

    The files behind a run are those of its record, and what is run is `evaluated` of the tree.
    If the text of the program is read from a file, then it is the content of that file before
    the run, in UTF-8. A file to which the path of the drawing does not lead is as it was.
    Something is written exactly if the path of a drawing is given, the text of the program can
    be read, it is parsed, and its drawing can be written to the path; it is the drawing, to
    that path, and it is the whole of the file there then, whatever the run of the program
    comes to and whatever was in the file, the program too. If the text is not there, or is no
    program, or cannot be drawn to the path, then all files are as they were and nothing is
    written, nothing is printed, the status is 1, and it would all be so with any other way of
    running a program. -/
theorem carryOut_files {σ : Type} [LawfulFileSystem σ] (o : Options) (s : σ) :
    let ran := ((Request.run o).carryOut : StateM (Record σ) Outcome) ⟨s, []⟩
    ((Request.run o).carryOut : StateM σ Outcome) s = (ran.1, ran.2.files) ∧
    ((Request.run o).carryOut : StateM σ Outcome) = o.runWith evaluated ∧
    (∀ source, o.file → o.Reads s source → ∃ f, LawfulFileSystem.place? s o.contents = some f ∧
      LawfulFileSystem.content? s f = some source.toUTF8) ∧
    (∀ f, (∀ path ∈ o.dot, LawfulFileSystem.place? s path ≠ some f) →
      LawfulFileSystem.content? ran.2.files f = LawfulFileSystem.content? s f) ∧
    (∀ path bytes, (path, bytes) ∈ ran.2.written ↔ o.dot = some path ∧
      ∃ source tree, o.Reads s source ∧ parse source = .ok tree ∧ bytes = tree.dot.toUTF8 ∧
        ∃ s', FileSystem.write s path bytes = .ok s') ∧
    (∀ path bytes, (path, bytes) ∈ ran.2.written →
      ∃ f, LawfulFileSystem.place? s path = some f ∧ LawfulFileSystem.content? ran.2.files f = some bytes) ∧
    (o.Fails s → ran.2 = ⟨s, []⟩ ∧ ran.1.stdout = "" ∧ ran.1.status = 1 ∧
      ∀ evaluate, (o.runWith evaluate : StateM σ Outcome) s = (ran.1, s)) := by
  intro ran
  have hran : ran = o.effect evaluated (⟨s, []⟩ : Record σ) := by
    show (o.run : StateM (Record σ) Outcome) ⟨s, []⟩ = _
    rw [Options.run_eq_runWith, Options.runWith_eq]
  have hrun : ((Request.run o).carryOut : StateM σ Outcome) = o.runWith evaluated := o.run_eq_runWith
  have hfiles : ∀ evaluate, (o.runWith evaluate : StateM σ Outcome) s =
      ((o.effect evaluate (⟨s, []⟩ : Record σ)).1, (o.effect evaluate (⟨s, []⟩ : Record σ)).2.files) :=
    fun evaluate => (Options.runWith_eq evaluate o s).trans (Options.effect_files evaluate o ⟨s, []⟩)
  have hcontent : ∀ source, o.file → o.Reads s source → ∃ f, LawfulFileSystem.place? s o.contents = some f ∧
      LawfulFileSystem.content? s f = some source.toUTF8 := by
    intro source hfile hreads
    rw [Options.Reads, if_pos hfile] at hreads
    exact LawfulFileSystem.content?_of_read hreads
  refine ⟨by rw [hran, hrun]; exact hfiles evaluated, hrun, hcontent, ?_⟩
  rcases o.exists_effect s with ⟨hfails, message, hmessage⟩ | ⟨source, tree, hreads, hparse, hdrawn⟩
  · rw [hran, hmessage]
    refine ⟨fun _ _ => rfl, fun path bytes => ?_, nofun, fun _ => ⟨rfl, rfl, rfl, fun evaluate => ?_⟩⟩
    · refine iff_of_false nofun ?_
      rintro ⟨hdot, source, tree, hreads, hparse, rfl, hwrite⟩
      refine Options.not_fails hreads hparse (fun other hother => ?_) hfails
      obtain rfl := Option.some.inj (hdot.symm.trans hother)
      exact hwrite
    · rw [hfiles, hmessage]
  · rcases hdrawn with ⟨hdot, htree⟩ | ⟨path, s', hdot, hwrite, htree⟩
    · rw [hran, htree]
      refine ⟨fun _ _ => rfl, fun path bytes => iff_of_false nofun ?_, nofun, fun hfails => ?_⟩
      · simp [hdot]
      · exact absurd hfails (Options.not_fails hreads hparse (by simp [Options.CanDraw, hdot]))
    · obtain ⟨f, hplace, hcontent, hothers⟩ := LawfulFileSystem.content?_of_write hwrite
      rw [hran, htree]
      refine ⟨fun g hg => ?_, fun other bytes => ?_, fun other bytes hmem => ?_, fun hfails => ?_⟩
      · refine hothers g fun hgf => hg path hdot ?_
        rw [hgf, hplace]
      · rw [List.mem_singleton, Prod.mk.injEq]
        constructor
        · rintro ⟨rfl, rfl⟩
          exact ⟨hdot, source, tree, hreads, hparse, rfl, s', hwrite⟩
        · rintro ⟨hother, source', tree', hreads', hparse', hbytes, -⟩
          obtain rfl := hreads.unique hreads'
          obtain rfl := Except.ok.inj (hparse.symm.trans hparse')
          exact ⟨Option.some.inj (hother.symm.trans hdot), hbytes⟩
      · obtain ⟨rfl, rfl⟩ := Prod.mk.inj (List.mem_singleton.1 hmem)
        exact ⟨f, hplace, hcontent⟩
      · refine absurd hfails (Options.not_fails hreads hparse fun other hother => ?_)
        obtain rfl := Option.some.inj (hdot.symm.trans hother)
        exact ⟨s', hwrite⟩

/-- The drawing takes the place of the program that it is drawn from, which then fails. -/
theorem carryOut_files_own_source :
    let o : Options := ⟨true, false, some "p.pas", "./p.pas"⟩
    let d : Directory := (∅ : Directory).insert "p.pas" "PROGRAM p; BEGIN x := y END.".toUTF8
    let tree : Tree := .program "p" (.block [] (.compound [.assign (.var "x" 1) (.var "y" 1)]))
    let ran := ((Request.run o).carryOut : StateM (Record Directory) Outcome) ⟨d, []⟩
    ("p.pas", tree.dot.toUTF8) ∈ ran.2.written ∧ ran.2.files.readText? "./p.pas" = some tree.dot ∧
      ran.1 = ⟨1, "", (EvalError.undefinedVariable "y" 1).message ++ "\n"⟩ := by
  intro o d tree ran
  have hitems : (Cursor.ofString "PROGRAM p; BEGIN x := y END.").items =
      [⟨.keyword .program, 1⟩, ⟨.name "p", 1⟩, ⟨.symbol .semicolon, 1⟩, ⟨.keyword .beginBody, 1⟩, ⟨.name "x", 1⟩,
        ⟨.symbol .assign, 1⟩, ⟨.name "y", 1⟩, ⟨.keyword .endBody, 1⟩, ⟨.symbol .dot, 1⟩].map Lexeme.item ++
        [.token .endOfInput 1] := by
    decide +kernel
  have hparse : parse "PROGRAM p; BEGIN x := y END." = .ok tree := (Reading.run_eq_ok_iff hitems rfl).2 ⟨rfl, 1, rfl⟩
  have hreads : o.Reads d "PROGRAM p; BEGIN x := y END." :=
    Directory.read_eq (show d.resolve "./p.pas" = .ok "p.pas" from rfl) Std.ExtTreeMap.getElem?_insert_self
  have hplace : d.resolve "p.pas" = .ok "p.pas" := rfl
  have hwrite := Directory.write_eq hplace tree.dot.toUTF8
  obtain ⟨-, -, -, -, hwritten, hcontent, -⟩ := carryOut_files o d
  have hmem := (hwritten "p.pas" tree.dot.toUTF8).2 ⟨rfl, _, tree, hreads, hparse, rfl, _, hwrite⟩
  refine ⟨hmem, ?_, ?_⟩
  · obtain ⟨name, hname, hbytes⟩ := hcontent _ _ hmem
    obtain rfl : "p.pas" = name := by
      change (d.resolve "p.pas").toOption = some name at hname
      rw [hplace] at hname
      exact Option.some.inj hname
    exact text?_eq_some_iff.2 (Directory.read_eq (show ran.2.files.resolve "./p.pas" = .ok "p.pas" from rfl) hbytes)
  · have hdraw : ∀ t, parse "PROGRAM p; BEGIN x := y END." = .ok t → o.CanDraw (⟨d, []⟩ : Record Directory) t := by
      rintro t - path ⟨⟩
      exact ⟨_, by rw [Record.write_eq, show FileSystem.write d "p.pas" t.dot.toUTF8 = _ from
        Directory.write_eq hplace t.dot.toUTF8]⟩
    refine (Options.run_eq (s := (⟨d, []⟩ : Record Directory)) hreads hdraw).trans ?_
    rw [run_of_parse hparse]
    rfl

end Pascaline.Command
