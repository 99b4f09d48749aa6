/-!
# Shortest decimals

`Decimal.shortest`: a binary floating-point number stands for every real that rounds to it. Its
shortest decimal is the one with the fewest digits among those reals and, of several with
equally many digits, the one nearest to the number.
-/

namespace Mapsmith

/-- A decimal number `digits * 10 ^ exponent`. -/
structure Decimal where
  digits : Nat
  exponent : Int
  deriving DecidableEq, Repr

namespace Decimal

/-- Which of two decimals equally far from the number is taken. -/
inductive Tie where
  | toEven
  | upward
  deriving DecidableEq, Repr

/-- A finite binary number `mantissa * 2 ^ exponent` above zero. -/
structure Binary where
  mantissa : Nat
  exponent : Int
  /-- The number below is half as far away as the number above. -/
  crowdedBelow : Bool
  deriving DecidableEq, Repr

/-- The number with sign and scale removed, from the bits of a single-precision
format: `none` for an infinity or for no number. -/
def Binary.ofSingle? (bits : UInt32) : Option Binary :=
  let field : Nat := bits.toNat / 0x800000 % 256
  let fraction : Nat := bits.toNat % 0x800000
  if field = 255 then none
  else if field = 0 then some ⟨fraction, -149, false⟩
  else some ⟨0x800000 + fraction, (field : Int) - 150, fraction = 0 && field ≠ 1⟩

/-- Four times the number and the ends of the interval that rounds to it, over a
common denominator, in units of `10 ^ place`. -/
structure Interval where
  low : Nat
  middle : Nat
  high : Nat
  unit : Nat
  /-- The ends themselves round to the number. -/
  closed : Bool

def Binary.interval (x : Binary) (place : Int) : Interval :=
  let twos := Nat.pow 2 x.exponent.toNat * Nat.pow 10 (-place).toNat
  { low := (4 * x.mantissa - if x.crowdedBelow then 1 else 2) * twos
    middle := 4 * x.mantissa * twos
    high := (4 * x.mantissa + 2) * twos
    unit := 4 * Nat.pow 2 (-x.exponent).toNat * Nat.pow 10 place.toNat
    closed := x.mantissa % 2 = 0 }

def Interval.contains (i : Interval) (n : Nat) : Bool :=
  if i.closed then i.low ≤ n * i.unit && n * i.unit ≤ i.high
  else i.low < n * i.unit && n * i.unit < i.high

/-- The multiple of the unit in the interval nearest to its middle. Only the two
neighbours of the middle can be that one. -/
def Interval.nearest? (i : Interval) (tie : Tie) : Option Nat :=
  let below := i.middle / i.unit
  let above := below + 1
  match i.contains below && 0 < below, i.contains above with
  | false, false => none
  | true, false => some below
  | false, true => some above
  | true, true =>
    let gapBelow := i.middle - below * i.unit
    let gapAbove := above * i.unit - i.middle
    if gapBelow < gapAbove then some below
    else if gapAbove < gapBelow then some above
    else match tie with
      | .upward => some above
      | .toEven => some (if below % 2 = 0 then below else above)

/-- The largest power of ten that is tried; no single-precision number reaches it. -/
def topPlace : Int := 40

/-- Looks for a decimal at `place`, then at the places below it. -/
def search (tie : Tie) (x : Binary) (place : Int) : Nat → Decimal
  | 0 => ⟨x.mantissa, 0⟩
  | fuel + 1 =>
    match (x.interval place).nearest? tie with
    | some n => ⟨n, place⟩
    | none => search tie x (place - 1) fuel

/-- The shortest decimal of a number above zero. Places from `10 ^ 40` down to
`10 ^ -60` are tried, and every single-precision number has its decimal there. -/
def shortest (tie : Tie) (x : Binary) : Decimal := search tie x topPlace 101

end Decimal

end Mapsmith
