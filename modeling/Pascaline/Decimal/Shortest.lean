/-
  Pascaline.Decimal.Shortest — the shortest decimal that reads back as a given double.

  A finite double is `mantissa · 2 ^ exponent`. The reals that round to it form a span
  around it: half way to each neighbour, ends included iff the mantissa is even, and half
  as far down where the neighbour below is twice as close (`narrow`). One decimal scale
  makes the ends and the value of a span natural numbers (`Binary.span`).

  `Span.shortest` tries the grids of 1, 2, … 17 digits in turn and takes the first one with
  a point in the span; of the two neighbours of the value on that grid the nearer wins, and
  the upper one wins a tie. What a grid gives lies in the span (`holds_onGrid`) and on the
  grid (`dvd_onGrid`).
-/

import Pascaline.Decimal.Basic

namespace Pascaline

/-- The magnitude of a double. -/
inductive Binary where
  | nan
  | infinite
  | finite (mantissa : Nat) (exponent : Int) (narrow : Bool)
  deriving DecidableEq, Repr

/-- The double's sign bit: true for negative numbers and for negative zero. -/
def signBit (x : Float) : Bool := x.toBits.toNat >>> 63 = 1

namespace Binary

/-- A double's magnitude, read off its bits. The neighbour below is twice as close at the
    powers of two, but for the least normal number. -/
def ofFloat (x : Float) : Binary :=
  let bits : Nat := x.toBits.toNat
  let biased : Nat := (bits >>> 52) % 2048
  let fraction : Nat := bits % (1 <<< 52)
  if biased = 2047 then if fraction = 0 then .infinite else .nan
  else if biased = 0 then .finite fraction (-1074) false
  else .finite ((1 <<< 52) + fraction) ((biased : Int) - 1075) (fraction = 0 && 1 < biased)

end Binary

/-- The reals between `low` and `high` around `value`, all three times `10 ^ scale`. -/
structure Span where
  low : Nat
  value : Nat
  high : Nat
  scale : Int
  closed : Bool
  deriving DecidableEq, Repr

/-- The reals that round to `mantissa · 2 ^ exponent`. One quarter of the last place is
    `quarter · 10 ^ scale`. -/
def Binary.span (mantissa : Nat) (exponent : Int) (narrow : Bool) : Span :=
  let quarter := Nat.pow 2 (exponent - 2).toNat * Nat.pow 5 (2 - exponent).toNat
  { low := (4 * mantissa - if narrow then 1 else 2) * quarter
    value := 4 * mantissa * quarter
    high := (4 * mantissa + 2) * quarter
    scale := min (exponent - 2) 0
    closed := mantissa % 2 = 0 }

namespace Span

/-- Does `n · 10 ^ scale` lie in the span? -/
def holds (s : Span) (n : Nat) : Bool :=
  if s.closed then s.low ≤ n && n ≤ s.high else s.low < n && n < s.high

/-- The neighbour of the value on the grid of `unit` that lies in the span: the nearer one
    if both do, the upper one if they are equally near. -/
def onGrid? (s : Span) (unit : Nat) : Option Nat :=
  let below := s.value / unit * unit
  let above := below + unit
  if s.holds below && (!s.holds above || s.value - below < above - s.value) then some below
  else if s.holds above then some above
  else none

/-- The grids of `digits` down to one digit, coarsest first, for a value of `places` digits. -/
def grids (places digits : Nat) : List Nat := (List.range digits).map fun n => Nat.pow 10 (places - (n + 1))

/-- The decimal of fewest digits in the span, nearest to its value. -/
def shortest (s : Span) : Decimal :=
  let places := (Nat.toDigits 10 s.value).length
  Decimal.trim ⟨((grids places 17).findSome? s.onGrid?).getD s.value, s.scale⟩

/-! ## Laws -/

theorem holds_onGrid {s : Span} {unit n : Nat} (h : s.onGrid? unit = some n) : s.holds n := by
  simp only [onGrid?] at h
  split at h
  · simp_all
  · split at h <;> simp_all

theorem dvd_onGrid {s : Span} {unit n : Nat} (h : s.onGrid? unit = some n) : unit ∣ n := by
  simp only [onGrid?] at h
  split at h
  · simp only [Option.some.injEq] at h
    exact h ▸ Nat.dvd_mul_left ..
  · split at h
    · simp only [Option.some.injEq] at h
      exact h ▸ Nat.dvd_add (Nat.dvd_mul_left ..) (Nat.dvd_refl _)
    · cases h

end Span

end Pascaline
