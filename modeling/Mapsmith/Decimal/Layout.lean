import Mapsmith.Decimal.Shortest

/-!
# Written decimals

`Layout.single`: how the shortest decimal of a single-precision number is laid out: where
positional writing gives way to an exponent, whether a whole number keeps its point, and what
stands for infinities and for no number.
-/

namespace Mapsmith.Decimal

/-- The choices of a written form. -/
structure Layout where
  tie : Tie
  /-- Exponents of the leading digit that are written positionally; `none` for all. -/
  positional : Option (Int × Int)
  /-- A whole number is written with `.0`. -/
  point : Bool
  /-- A positive exponent has its sign. -/
  signedExponent : Bool
  notANumber : String
  infinity : String
  negativeInfinity : String

namespace Layout

def positionalText (layout : Layout) (d : Decimal) : String :=
  let digits := toString d.digits
  if 0 ≤ d.exponent then
    digits ++ String.ofList (List.replicate d.exponent.toNat '0') ++
      if layout.point then ".0" else ""
  else
    let places := (-d.exponent).toNat
    let cs := digits.toList
    if cs.length ≤ places then
      "0." ++ String.ofList (List.replicate (places - cs.length) '0') ++ digits
    else
      String.ofList (cs.take (cs.length - places)) ++ "." ++
        String.ofList (cs.drop (cs.length - places))

/-- The decimal with one digit before the point and an exponent. -/
def exponentText (layout : Layout) (d : Decimal) (leading : Int) : String :=
  let cs := (toString d.digits).toList
  let mantissa := match cs with
    | [] => ""
    | [c] => String.singleton c
    | c :: rest => String.singleton c ++ "." ++ String.ofList rest
  mantissa ++ "e" ++ (if layout.signedExponent && 0 ≤ leading then "+" else "") ++ toString leading

def magnitude (layout : Layout) (d : Decimal) : String :=
  let leading := d.exponent + (toString d.digits).length - 1
  match layout.positional with
  | none => layout.positionalText d
  | some (low, high) =>
    if low ≤ leading && leading ≤ high then layout.positionalText d
    else layout.exponentText d leading

def single (layout : Layout) (bits : UInt32) : String :=
  let negative := 0x80000000 ≤ bits.toNat
  match Binary.ofSingle? bits with
  | none =>
    if bits.toNat % 0x800000 ≠ 0 then layout.notANumber
    else if negative then layout.negativeInfinity else layout.infinity
  | some x =>
    let text := if x.mantissa = 0 then (if layout.point then "0.0" else "0")
      else layout.magnitude (shortest layout.tie x)
    if negative then "-" ++ text else text

end Layout

end Mapsmith.Decimal
