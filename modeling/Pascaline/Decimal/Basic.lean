/-
  Pascaline.Decimal.Basic — decimal numbers `digits · 10 ^ exponent`.

  A literal is read as such a number first and becomes a double after that, so its value
  is a function of the digits alone. `ofDigits` gives the number that digits with a point
  among them stand for, `toFloat` rounds it to the nearest double (half to even, overflow
  to infinity), and `trim` takes the zeros off the end without changing the value.
-/

namespace Pascaline

/-- The number `digits · 10 ^ exponent`. -/
structure Decimal where
  digits : Nat
  exponent : Int
  deriving DecidableEq, Repr

namespace Decimal

/-- The value of one digit. -/
def digit (c : Char) : Nat := c.toNat - '0'.toNat

/-- The number that a run of digits stands for; the empty run is zero. -/
def natural (ds : List Char) : Nat := ds.foldl (fun n c => 10 * n + digit c) 0

/-- The number written `whole.fraction`, either part perhaps empty. -/
def ofDigits (whole fraction : List Char) : Decimal :=
  ⟨natural (whole ++ fraction), -(fraction.length : Int)⟩

/-- The double nearest to the number, half to even. -/
def toFloat (d : Decimal) : Float :=
  .ofModel (.ofScientific d.digits d.exponent)

/-- The same number without zeros at the end of its digits. -/
def trim (d : Decimal) : Decimal :=
  if _ : 0 < d.digits ∧ d.digits % 10 = 0 then trim ⟨d.digits / 10, d.exponent + 1⟩ else d
termination_by d.digits
decreasing_by omega

/-! ## Laws -/

/-- Trimming leaves no zero at the end, but for the number zero. -/
theorem trim_digits_mod (d : Decimal) (h : 0 < d.digits) : d.trim.digits % 10 ≠ 0 := by
  fun_induction trim d with
  | case1 d hd ih => exact ih (by show 0 < d.digits / 10; omega)
  | case2 d hd => omega

end Decimal

end Pascaline
