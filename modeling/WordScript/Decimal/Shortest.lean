/-
The shortest decimal that reads back.

A single-precision value stands for an interval of reals, the ones that round to
it; the ends belong to it when the mantissa is even.  On the grid of decimals
with one digit, two digits and so on, the value's two neighbours are tried: the
first grid with a neighbour inside the interval gives the digits, the nearer one
if both are inside, and the upper one if they are equally near.  The text never
has an exponent.

* `Interval` — the reals that round to a value, over a common denominator;
* `shortest` — digits and decimal exponent of a positive value;
* `text32` — the text of a single-precision bit pattern.
-/
import WordScript.Decimal.Dyadic

namespace WordScript.Decimal

/-- The reals that round to one value: value and ends as numerators over one denominator. -/
structure Interval where
  value : Nat
  lower : Nat
  upper : Nat
  den : Nat
  closed : Bool

/-- The interval of a positive value; below a power of two the gap is half as wide. -/
def Format.interval (f : Format) (mantissa : Nat) (exponent : Int) : Interval :=
  let halfBelow := if mantissa = pow2 f.mantissaBits ∧ f.leastExponent < exponent then 1 else 2
  let up := pow2 (exponent - 2).toNat
  { value := 4 * mantissa * up
    lower := (4 * mantissa - halfBelow) * up
    upper := (4 * mantissa + 2) * up
    den := pow2 (2 - exponent).toNat
    closed := mantissa % 2 == 0 }

namespace Interval

/-- Whether `digits · 10 ^ exponent` lies inside. -/
def holds (i : Interval) (digits : Nat) (exponent : Int) : Bool :=
  let x := digits * pow10 exponent.toNat * i.den
  let scale := pow10 (-exponent).toNat
  if i.closed then i.lower * scale ≤ x && x ≤ i.upper * scale
  else i.lower * scale < x && x < i.upper * scale

/-- The neighbour inside the interval on the grid of multiples of `10 ^ exponent`, if any. -/
def onGrid (i : Interval) (exponent : Int) : Option Nat :=
  let num := i.value * pow10 (-exponent).toNat
  let den := i.den * pow10 exponent.toNat
  let below := num / den
  let above := below + 1
  match i.holds below exponent, i.holds above exponent with
  | true, true => if 2 * (num % den) < den then some below else some above
  | true, false => some below
  | false, true => some above
  | false, false => none

/-- The exponent `e` with `10 ^ (e - 1) ≤ value < 10 ^ e`. -/
def leadingExponent (i : Interval) : Int :=
  if i.den ≤ i.value then
    (Nat.toDigits 10 (i.value / i.den)).length
  else
    let scaled := i.den / i.value
    let e := (Nat.toDigits 10 scaled).length
    -- here `1 / value` lies between `scaled` and `scaled + 1`
    if i.value * pow10 (e - 1) < i.den then -(e - 1 : Int) else 1 - (e - 1 : Int)

/-- Digits and exponent of the first grid that has a neighbour inside, among `tries` grids. -/
def search (i : Interval) : Nat → Int → Nat × Int
  | 0, exponent => (i.value * pow10 (-exponent).toNat / (i.den * pow10 exponent.toNat), exponent)
  | tries + 1, exponent =>
    match i.onGrid exponent with
    | some digits => (digits, exponent)
    | none => i.search tries (exponent - 1)

/-- Digits and exponent of the shortest decimal inside. -/
def shortest (i : Interval) : Nat × Int :=
  i.search 17 (i.leadingExponent - 1)

end Interval

/-- `digits · 10 ^ exponent` written out without an exponent. -/
def positional (digits : Nat) (exponent : Int) : String :=
  let ds := Nat.toDigits 10 digits
  if 0 ≤ exponent then
    String.ofList (ds ++ List.replicate exponent.toNat '0')
  else
    let places := (-exponent).toNat
    let padded := List.replicate (places + 1 - ds.length) '0' ++ ds
    let whole := padded.take (padded.length - places)
    let fraction := padded.drop (padded.length - places)
    -- a digit string that ends in zeros is not shortest, but a neighbour may be a round number
    let kept := (fraction.reverse.dropWhile (· == '0')).reverse
    if kept.isEmpty then String.ofList whole
    else String.ofList (whole ++ '.' :: kept)

/-- The text of a single-precision bit pattern: the shortest decimal that reads back. -/
def text32 (bits : UInt32) : String :=
  let v := Format.binary32.value bits.toNat
  let sign := if v.negative then "-" else ""
  match v.magnitude with
  | .notANumber => "NaN"
  | .infinite => sign ++ "inf"
  | .finite 0 _ => sign ++ "0"
  | .finite m q =>
    let (digits, exponent) := (Format.binary32.interval m q).shortest
    sign ++ positional digits exponent

end WordScript.Decimal
