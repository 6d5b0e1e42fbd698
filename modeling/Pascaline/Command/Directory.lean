/-
  Pascaline.Command.Directory — files in memory.

  One of the file systems that the command can work on: a working directory that holds
  files and nothing else.

  A path is walked part by part. Empty parts and `.` stay where they are, `..` leads out of
  the directory, and a part that is not the last one would have to be a directory, which no
  file is. A slash at the end asks for a directory too.
-/

import Pascaline.Command.FileSystem
import Std.Data.ExtTreeMap

namespace Pascaline.Command

namespace SystemError

def missing : SystemError := ⟨"No such file or directory", 2⟩
def notDirectory : SystemError := ⟨"Not a directory", 20⟩
def directory : SystemError := ⟨"Is a directory", 21⟩
def nameTooLong : SystemError := ⟨"File name too long", 36⟩

end SystemError

/-- The files of a working directory with their bytes. -/
abbrev Directory := Std.ExtTreeMap String ByteArray

namespace Directory

/-- Names longer than this many bytes are refused. -/
def nameLimit : Nat := 255

/-- Paths of this many bytes or more are refused. -/
def pathLimit : Nat := 4096

/-- The name of a file `up` directories above the working directory. -/
def nameAbove (up : Nat) (name : String) : String := String.join (List.replicate up "../") ++ name

/-- The name of the file at the end of the parts of a path. -/
def walk (d : Directory) (up : Nat) : List String → Except SystemError String
  | [] => .error .directory
  | part :: parts =>
    if part = "" ∨ part = "." then d.walk up parts
    else if part = ".." then d.walk (up + 1) parts
    else if nameLimit < part.utf8ByteSize then .error .nameTooLong
    else if parts.isEmpty then .ok (nameAbove up part)
    else if parts.all (· = "") then .error .directory
    else if nameAbove up part ∈ d then .error .notDirectory
    else .error .missing

/-- The parts of a path between its slashes. -/
def parts (path : String) : List String :=
  (path.toList.foldr (fun c ps => if c = '/' then [] :: ps else ps.modifyHead (c :: ·)) [[]]).map String.ofList

/-- The name of the file that a path leads to. Of what lies below the root of all
    directories nothing is known. -/
def resolve (d : Directory) (path : String) : Except SystemError String :=
  if path = "" then .error .missing
  else if pathLimit ≤ path.utf8ByteSize then .error .nameTooLong
  else
    match parts path with
    | "" :: rest => if rest.all (· ∈ ["", ".", ".."]) then .error .directory else .error .missing
    | ps => d.walk 0 ps

/-- The content of the file that a path leads to. -/
def read (d : Directory) (path : String) : Except SystemError ByteArray :=
  (d.resolve path).bind fun name => d[name]?.elim (.error .missing) .ok

def write (d : Directory) (path : String) (bytes : ByteArray) : Except SystemError Directory :=
  (d.resolve path).map fun name => d.insert name bytes

/-- The text of the file that a path leads to. -/
def readText? (d : Directory) (path : String) : Option String := text? (d.read path)

/-! ## Laws -/

theorem read_eq {d : Directory} {path name : String} {bytes : ByteArray} (hname : d.resolve path = .ok name)
    (hbytes : d[name]? = some bytes) : d.read path = .ok bytes := by
  rw [read, hname]
  show d[name]?.elim _ _ = _
  rw [hbytes]
  rfl

theorem write_eq {d : Directory} {path name : String} (hname : d.resolve path = .ok name) (bytes : ByteArray) :
    d.write path bytes = .ok (d.insert name bytes) := by
  rw [write, hname]
  rfl

theorem getElem?_of_read {d : Directory} {path : String} {bytes : ByteArray} (h : d.read path = .ok bytes) :
    ∃ name, (d.resolve path).toOption = some name ∧ d[name]? = some bytes := by
  unfold read at h
  cases hname : d.resolve path with
  | error e =>
    rw [hname] at h
    cases h
  | ok name =>
    rw [hname] at h
    cases hbytes : d[name]? with
    | none => simp [Except.bind, hbytes] at h
    | some b => exact ⟨name, rfl, by simpa [Except.bind, hbytes] using h⟩

theorem getElem?_of_write {d d' : Directory} {path : String} {bytes : ByteArray} (h : d.write path bytes = .ok d') :
    ∃ name, (d.resolve path).toOption = some name ∧ d'[name]? = some bytes ∧
      ∀ other, other ≠ name → d'[other]? = d[other]? := by
  cases hname : d.resolve path with
  | error e =>
    rw [write, hname] at h
    cases h
  | ok name =>
    rw [write_eq hname] at h
    obtain rfl := Except.ok.inj h
    refine ⟨name, rfl, Std.ExtTreeMap.getElem?_insert_self, fun other hother => ?_⟩
    rw [Std.ExtTreeMap.getElem?_insert, if_neg (mt Std.compare_eq_iff_eq.1 hother.symm)]

instance : LawfulFileSystem Directory where
  read := read
  write := write
  Place := String
  place? d path := (d.resolve path).toOption
  content? d name := d[name]?
  content?_of_read := getElem?_of_read
  content?_of_write := getElem?_of_write

end Directory

end Pascaline.Command
