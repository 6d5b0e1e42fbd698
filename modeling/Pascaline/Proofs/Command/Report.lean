/-
  Pascaline.Proofs.Command.Report — what is printed of a table.

  A report is two lines of heading and one row for each variable, in the order of the bytes
  of their names, with the value as a double is shown (`IsReport`). A table lists its
  variables in the order of the characters of their names, which is the same order, because
  UTF-8 writes a greater character with greater bytes (`bytes_lt`).

  In whatever order the variables are enumerated, sorted by their names they come in that
  one order (`Enumerates.mergeSort_eq`), so the report depends on the table alone.
-/

import Mathlib.Data.List.Forall2
import Mathlib.Data.String.Basic
import Pascaline.Command.Outcome
import Pascaline.Proofs.Decimal.Display

namespace Pascaline

/-! ## The order of names -/

/-- The bytes of a text in UTF-8. -/
def bytes (s : String) : List UInt8 := s.toUTF8.data.toList

theorem bytes_eq (s : String) : bytes s = s.toList.flatMap String.utf8EncodeChar := by
  rw [bytes, String.toUTF8, ← String.ofList_toList (s := s), String.toByteArray_ofList, String.toList_ofList]
  simp [List.utf8Encode]

/-- The bytes of a character are smaller than those of a greater one at the first place
    where they differ, and they do differ. -/
theorem utf8EncodeChar_append_lt {c d : Char} (h : c < d) (xs ys : List UInt8) :
    String.utf8EncodeChar c ++ xs < String.utf8EncodeChar d ++ ys := by
  have hlt : c.val.toNat < d.val.toNat := h
  have hd : d.val.toNat < 0x110000 := by
    have hvalid := d.valid
    unfold UInt32.isValidChar Nat.isValidChar at hvalid
    omega
  simp only [String.utf8EncodeChar]
  generalize c.val.toNat = n at *
  generalize d.val.toNat = m at *
  -- one case for each pair of lengths; the bytes are digits with a mark of the length on top
  split_ifs <;>
    simp only [List.cons_append, List.nil_append, List.cons_lt_cons_iff, UInt8.lt_iff_toNat_lt, ← UInt8.toNat_inj,
      UInt8.toNat_ofNat'] <;>
    simp (disch := omega) only [Nat.mod_eq_of_lt] <;>
    omega

theorem flatMap_utf8EncodeChar_lt {cs ds : List Char} (h : cs < ds) :
    cs.flatMap String.utf8EncodeChar < ds.flatMap String.utf8EncodeChar := by
  induction h with
  | nil =>
    rename_i d ds
    obtain ⟨x, xs, hx⟩ := List.exists_cons_of_ne_nil (String.utf8EncodeChar_ne_nil (c := d))
    rw [List.flatMap_cons, hx]
    exact List.nil_lt_cons ..
  | cons h ih =>
    rw [List.flatMap_cons, List.flatMap_cons]
    exact List.append_left_lt ih
  | rel h =>
    rw [List.flatMap_cons, List.flatMap_cons]
    exact utf8EncodeChar_append_lt h _ _

/-- Names in the order of their characters are in the order of their bytes. -/
theorem bytes_lt {x y : String} (h : x < y) : bytes x < bytes y := by
  rw [bytes_eq, bytes_eq]
  exact flatMap_utf8EncodeChar_lt (String.lt_iff.1 h)

/-! ## Enumerations of a table -/

/-- The list holds the entries of the table, each once, in any order. -/
structure Enumerates (entries : List (String × Float)) (table : Table) : Prop where
  nodup : entries.Nodup
  mem_iff : ∀ x v, (x, v) ∈ entries ↔ table[x]? = some v

namespace Table

variable (table : Table)

theorem pairwise_toList : table.toList.Pairwise fun a b => a.1 < b.1 :=
  Std.ExtTreeMap.ordered_keys_toList.imp compare_lt_iff_lt.1

theorem enumerates_toList : Enumerates table.toList table where
  nodup := table.pairwise_toList.imp fun {a _} h e => absurd (e ▸ h) (lt_irrefl a.1)
  mem_iff _ _ := Std.ExtTreeMap.mem_toList_iff_getElem?_eq_some

end Table

/-- Are the entries in the order of their names? -/
def nameLe (a b : String × Float) : Bool := a.1 ≤ b.1

/-- However the entries of a table are enumerated, sorting brings them into one order. -/
theorem Enumerates.mergeSort_eq {entries : List (String × Float)} {table : Table} (h : Enumerates entries table) :
    entries.mergeSort nameLe = table.toList := by
  have hperm : (entries.mergeSort nameLe).Perm table.toList := by
    refine (List.mergeSort_perm entries nameLe).trans ?_
    rw [List.perm_ext_iff_of_nodup h.nodup table.enumerates_toList.nodup]
    rintro ⟨x, v⟩
    rw [h.mem_iff, table.enumerates_toList.mem_iff]
  have hsorted : (entries.mergeSort nameLe).Pairwise fun a b => a.1 ≤ b.1 := by
    refine (List.pairwise_mergeSort ?_ ?_ entries).imp fun {a b} h => by simpa [nameLe] using h
    · intro a b c hab hbc
      simp only [nameLe, decide_eq_true_eq] at hab hbc ⊢
      exact le_trans hab hbc
    · intro a b
      simpa [nameLe] using le_total a.1 b.1
  refine hperm.eq_of_pairwise ?_ hsorted (table.pairwise_toList.imp fun h => le_of_lt h)
  -- two entries with one name are the same entry
  rintro ⟨x, v⟩ ⟨y, w⟩ ha hb hxy hyx
  obtain rfl : x = y := le_antisymm hxy hyx
  have hv := (table.enumerates_toList.mem_iff x v).1 (hperm.mem_iff.1 ha)
  have hw := (table.enumerates_toList.mem_iff x w).1 hb
  rw [Option.some.inj (hv.symm.trans hw)]

namespace Command

/-! ## Reports -/

/-- A name, filled up with blanks to ten columns, a bar and the value as it is shown. -/
def IsRow (entry : String × Float) (text : String) : Prop :=
  ∃ (pad : List Char) (value : String), (∀ c ∈ pad, c = ' ') ∧
    entry.1.length + pad.length = max 10 entry.1.length ∧ Double.Displays entry.2 value ∧
      text = entry.1 ++ String.ofList pad ++ " | " ++ value ++ "\n"

/-- Two lines of heading and a row for each entry of the table, in the order of the bytes of
    the names. -/
def IsReport (table : Table) (text : String) : Prop :=
  ∃ (entries : List (String × Float)) (rows : List String),
    entries.Pairwise (fun a b => bytes a.1 < bytes b.1) ∧ Enumerates entries table ∧ List.Forall₂ IsRow entries rows ∧
      text = "GLOBAL SCOPE\n" ++ "------------\n" ++ String.join rows

theorem isRow_row (x : String) (v : Float) : IsRow (x, v) (row x v) := by
  refine ⟨List.replicate (10 - x.length) ' ', plain v, fun c hc => List.eq_of_mem_replicate hc, ?_,
    Double.displays_plain v, rfl⟩
  show x.length + (List.replicate (10 - x.length) ' ').length = max 10 x.length
  rw [List.length_replicate]
  omega

theorem isReport_report (table : Table) : IsReport table (report table) := by
  refine ⟨table.toList, _, table.pairwise_toList.imp bytes_lt, table.enumerates_toList, ?_, rfl⟩
  exact List.forall₂_map_right_iff.2 (List.forall₂_same.2 fun e _ => isRow_row e.1 e.2)

end Command

end Pascaline
