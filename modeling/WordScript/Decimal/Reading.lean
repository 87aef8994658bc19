/-
Decimals read as single-precision values.

The decimal is an exact fraction; it is scaled by the power of two of the last
place and rounded once, a half to the even neighbour.  A value past the largest
one is infinite.
-/
import WordScript.Decimal.Dyadic

namespace WordScript.Decimal

/-- The number that a list of decimal digits stands for. -/
def ofDigits (ds : List Char) : Nat :=
  ds.foldl (fun n c => 10 * n + (c.toNat - '0'.toNat)) 0

/-- The exponent of the last place of the value nearest to `num / den`. -/
def lastPlace (num den : Nat) : Int :=
  -- the quotient lies between `2 ^ e` and `2 ^ (e + 2)`
  let e : Int := (num.log2 : Int) - den.log2 - 1
  let e := if num * pow2 (-(e + 1)).toNat < den * pow2 (e + 1).toNat then e else e + 1
  max (e - 23) (-149)

/-- The bit pattern of the single-precision value nearest to `num / den`. -/
def nearest32 (num den : Nat) : UInt32 :=
  if num = 0 then 0
  else
    let q := lastPlace num den
    let m := roundQuotient (num * pow2 (-q).toNat) (den * pow2 q.toNat)
    -- a mantissa that rounds up to the next power of two carries into the exponent field
    let bits := (q + 149).toNat * pow2 23 + m
    if bits < 0x7F800000 then bits.toUInt32 else 0x7F800000

/-- The bit pattern of a decimal given by its digits before and after the point. -/
def read32 (whole fraction : List Char) : UInt32 :=
  nearest32 (ofDigits (whole ++ fraction)) (pow10 fraction.length)

end WordScript.Decimal
