/-
  Pascaline.Decimal.Plain — doubles as text: plain positional notation.

  There is never an exponent and never a point without a fraction. The sign of zero is
  kept; a NaN has no sign. The digits are those of `Span.shortest`.
-/

import Pascaline.Decimal.Shortest

namespace Pascaline

/-- `digits · 10 ^ exponent` in positional notation. -/
def Decimal.plain (d : Decimal) : String :=
  let ds := Nat.toDigits 10 d.digits
  let places := (-d.exponent).toNat
  String.ofList <|
    if places = 0 then ds ++ List.replicate d.exponent.toNat '0'
    else if places < ds.length then ds.take (ds.length - places) ++ '.' :: ds.drop (ds.length - places)
    else '0' :: '.' :: List.replicate (places - ds.length) '0' ++ ds

def Binary.plain : Binary → String
  | .nan => "NaN"
  | .infinite => "inf"
  | .finite 0 _ _ => "0"
  | .finite mantissa exponent narrow => (Binary.span mantissa exponent narrow).shortest.plain

/-- The text of a double. -/
def plain (x : Float) : String :=
  match Binary.ofFloat x with
  | .nan => Binary.nan.plain
  | b => if signBit x then "-" ++ b.plain else b.plain

end Pascaline
