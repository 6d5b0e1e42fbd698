/-
  Pascaline.Command.FileSystem — access to files.

  `FileAccess` is all that the command asks of its surroundings: the bytes of a file, and
  bytes for the whole content of one. Which paths lead to files, which of these can be read
  and which can be written is for the surroundings to say.

  A `FileSystem` answers from a state, so that what a run does to files is a function of the
  files before it. A write that fails leaves the state as it is. In a `LawfulFileSystem` a
  path leads to a place where a file is or can be, and perhaps several paths to one place; a
  write changes the file at its place and no other.
-/

namespace Pascaline.Command

/-- Why the operating system refuses a file. -/
structure SystemError where
  text : String
  code : Nat
  deriving DecidableEq, Repr

def SystemError.message (e : SystemError) : String := e.text ++ " (os error " ++ e.code.repr ++ ")"

/-- Access to files by their paths. -/
class FileAccess (m : Type → Type) where
  /-- The bytes of a file. -/
  read : String → m (Except SystemError ByteArray)
  /-- Makes the bytes the whole content of a file. -/
  write : String → ByteArray → m (Except SystemError Unit)

/-- The text that has been read; none if there is no file to read or its bytes are not valid
    UTF-8. -/
def text? (r : Except SystemError ByteArray) : Option String := r.toOption.bind String.fromUTF8?

/-- Files that are read and written by functions of their state. -/
class FileSystem (σ : Type) where
  read : σ → String → Except SystemError ByteArray
  /-- The state behind a write; there is none behind one that fails. -/
  write : σ → String → ByteArray → Except SystemError σ

instance {σ : Type} [FileSystem σ] : FileAccess (StateM σ) where
  read path := return FileSystem.read (← get) path
  write path bytes := do
    match FileSystem.write (← get) path bytes with
    | .ok s =>
      set s
      return .ok ()
    | .error e => return .error e

/-- A file system in which each file has its own place. -/
class LawfulFileSystem (σ : Type) extends FileSystem σ where
  /-- Where a file is or can be. -/
  Place : Type
  /-- The place that a path leads to. -/
  place? : σ → String → Option Place
  /-- The content of the file at a place; none if there is no file. -/
  content? : σ → Place → Option ByteArray
  /-- What is read of a file is its content. -/
  content?_of_read {s : σ} {path : String} {bytes : ByteArray} :
    read s path = .ok bytes → ∃ f, place? s path = some f ∧ content? s f = some bytes
  /-- What is written is the content of the file at the end of the path, and all other files
      are as they were. -/
  content?_of_write {s s' : σ} {path : String} {bytes : ByteArray} :
    write s path bytes = .ok s' →
      ∃ f, place? s path = some f ∧ content? s' f = some bytes ∧ ∀ g, g ≠ f → content? s' g = content? s g

end Pascaline.Command
