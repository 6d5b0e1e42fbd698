/-
  Pascaline.Proofs.Command.Effect — a run of the command as one function.

  A run asks for one file to be read, if its program is in a file, and for one to be written,
  if a drawing is asked for, with the program parsed in between. Over any file system this
  comes to `Options.effect` (`Options.runWith_eq`), and it does so with any way of running the
  program in the place of `evaluated`.

  What the effect is depends on whether the text of the program can be read
  (`Options.Reads`), is a program, and can be drawn (`Options.CanDraw`).
-/

import Pascaline.Command.Outcome

namespace Pascaline.Command

/-- What comes second starts from what the first step leaves. -/
theorem bind_of_eq {σ α β : Type} {x : StateM σ α} {f : α → StateM σ β} {s s' : σ} {a : α} (h : x s = (a, s')) :
    (x >>= f) s = f a s' := by
  show f (x s).1 (x s).2 = f a s'
  rw [h]

theorem text?_eq_some_iff {r : Except SystemError ByteArray} {source : String} :
    text? r = some source ↔ r = .ok source.toUTF8 := by
  cases r with
  | error e => exact iff_of_false nofun nofun
  | ok bytes =>
    show String.fromUTF8? bytes = some source ↔ _
    unfold String.fromUTF8?
    split
    · rename_i hvalid
      rw [Option.some.injEq, Except.ok.injEq]
      constructor
      · rintro rfl
        rfl
      · rintro rfl
        rfl
    · rename_i hvalid
      refine iff_of_false nofun fun h => hvalid ?_
      rw [Except.ok.inj h]
      exact source.isValidUTF8

/-- The outcome of running a program. -/
def evaluated (tree : Tree) : Outcome :=
  match tree.eval.on ∅ with
  | (.ok _, table) => .success (report table)
  | (.error e, _) => .failure e.message

namespace Options

section

variable {m : Type → Type} [Monad m] [FileAccess m]

/-- A run of the command that runs its program in the given way. -/
def runWith (evaluate : Tree → Outcome) (o : Options) : m Outcome := do
  let some source ← o.source? | return .failure (unreadable o.contents)
  match parse source with
  | .error e => return .failure e.message
  | .ok tree =>
    match ← o.draw tree with
    | .error message => return .failure message
    | .ok () => return evaluate tree

theorem run_eq_runWith (o : Options) : (o.run : m Outcome) = o.runWith evaluated := by
  unfold run runWith evaluated
  refine congrArg (bind o.source?) (funext fun source => ?_)
  cases source with
  | none => rfl
  | some source =>
    cases hparse : parse source with
    | error e => simp only [hparse]
    | ok tree =>
      simp only [hparse]
      refine congrArg (bind (o.draw tree)) (funext fun drawn => ?_)
      cases drawn with
      | error message => rfl
      | ok u => rcases tree.eval.on ∅ with ⟨_ | _, _⟩ <;> rfl

end

/-! ## Over a file system -/

section

variable {σ : Type} [FileSystem σ] {s : σ} {source : String} {tree : Tree}

/-- What it comes to to write the drawing, and the files behind that. -/
def drawn (o : Options) (tree : Tree) (s : σ) : Except String Unit × σ :=
  match o.dot with
  | none => (.ok (), s)
  | some path =>
    match FileSystem.write s path tree.dot.toUTF8 with
    | .ok s => (.ok (), s)
    | .error e => (.error (unwritable path e), s)

/-- The outcome of a run and the files behind it. -/
def effect (evaluate : Tree → Outcome) (o : Options) (s : σ) : Outcome × σ :=
  match if o.file then text? (FileSystem.read s o.contents) else some o.contents with
  | none => (.failure (unreadable o.contents), s)
  | some source =>
    match parse source with
    | .error e => (.failure e.message, s)
    | .ok tree =>
      match o.drawn tree s with
      | (.error message, s) => (.failure message, s)
      | (.ok (), s) => (evaluate tree, s)

theorem source?_eq (o : Options) (s : σ) :
    (o.source? : StateM σ (Option String)) s =
      (if o.file then text? (FileSystem.read s o.contents) else some o.contents, s) := by
  unfold source?
  split <;> rfl

theorem write_eq (path : String) (bytes : ByteArray) (s : σ) :
    (FileAccess.write path bytes : StateM σ (Except SystemError Unit)) s =
      match FileSystem.write s path bytes with
      | .ok s => (.ok (), s)
      | .error e => (.error e, s) := by
  show ((get >>= fun s => _) : StateM σ (Except SystemError Unit)) s = _
  rw [bind_of_eq (show (get : StateM σ σ) s = (s, s) from rfl)]
  cases FileSystem.write s path bytes <;> rfl

theorem draw_eq (o : Options) (tree : Tree) (s : σ) :
    (o.draw tree : StateM σ (Except String Unit)) s = o.drawn tree s := by
  unfold draw drawn
  cases o.dot with
  | none => rfl
  | some path =>
    have hwrite := write_eq path tree.dot.toUTF8 s
    cases h : FileSystem.write s path tree.dot.toUTF8 with
    | ok s' =>
      simp only [h] at hwrite ⊢
      exact bind_of_eq hwrite
    | error e =>
      simp only [h] at hwrite ⊢
      exact bind_of_eq hwrite

/-- A run over a file system changes it as `effect` says. -/
theorem runWith_eq (evaluate : Tree → Outcome) (o : Options) (s : σ) :
    (o.runWith evaluate : StateM σ Outcome) s = o.effect evaluate s := by
  unfold runWith effect
  rw [bind_of_eq (source?_eq o s)]
  cases (if o.file then text? (FileSystem.read s o.contents) else some o.contents) with
  | none => rfl
  | some source =>
    cases hparse : parse source with
    | error e =>
      simp only [hparse]
      rfl
    | ok tree =>
      obtain ⟨drawing, s', hdrawn⟩ : ∃ drawing s', o.drawn tree s = (drawing, s') := ⟨_, _, rfl⟩
      simp only [hparse, hdrawn]
      rw [bind_of_eq ((draw_eq o tree s).trans hdrawn)]
      cases drawing <;> rfl

/-! ## What the effect depends on -/

/-- The text of the program is the argument itself, or what is read of the file it names is
    this text in UTF-8. -/
def Reads (o : Options) (s : σ) (source : String) : Prop :=
  if o.file then FileSystem.read s o.contents = .ok source.toUTF8 else o.contents = source

/-- There is no drawing to be written, or it can be written to its path. -/
def CanDraw (o : Options) (s : σ) (tree : Tree) : Prop :=
  ∀ path ∈ o.dot, ∃ s', FileSystem.write s path tree.dot.toUTF8 = .ok s'

variable {o : Options}

theorem reads_iff :
    o.Reads s source ↔ (if o.file then text? (FileSystem.read s o.contents) else some o.contents) = some source := by
  unfold Reads
  split
  · exact text?_eq_some_iff.symm
  · rw [Option.some.injEq]

theorem Reads.unique {other : String} (h : o.Reads s source) (h' : o.Reads s other) : source = other :=
  Option.some.inj ((reads_iff.1 h).symm.trans (reads_iff.1 h'))

theorem effect_of_reads (h : o.Reads s source) (evaluate : Tree → Outcome) :
    o.effect evaluate s =
      match parse source with
      | .error e => (.failure e.message, s)
      | .ok tree =>
        match o.drawn tree s with
        | (.error message, s) => (.failure message, s)
        | (.ok (), s) => (evaluate tree, s) := by
  rw [effect, reads_iff.1 h]

theorem effect_of_not_reads (h : ¬∃ source, o.Reads s source) (evaluate : Tree → Outcome) :
    o.effect evaluate s = (.failure (unreadable o.contents), s) := by
  have hnone : (if o.file then text? (FileSystem.read s o.contents) else some o.contents) = none :=
    Option.eq_none_iff_forall_ne_some.2 fun source hs => h ⟨source, reads_iff.2 hs⟩
  rw [effect, hnone]

theorem exists_drawn (h : o.CanDraw s tree) : ∃ s', o.drawn tree s = (.ok (), s') := by
  unfold drawn
  cases hdot : o.dot with
  | none => exact ⟨s, rfl⟩
  | some path =>
    obtain ⟨s', hwrite⟩ := h path hdot
    simp only [hwrite]
    exact ⟨s', rfl⟩

end

end Options

end Pascaline.Command
