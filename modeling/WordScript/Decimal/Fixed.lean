/-
Values with one decimal place.

The value is rounded once, from its exact binary value, to a tenth; a half goes
to the even neighbour.
-/
import WordScript.Decimal.Dyadic

namespace WordScript.Decimal

/-- A double-precision value to one decimal place; only finite values are met. -/
def oneDecimal (x : Float) : String :=
  let v := Format.binary64.value x.toBits.toNat
  let sign := if v.negative then "-" else ""
  match v.magnitude with
  | .finite m q =>
    let tenths := roundQuotient (10 * m * pow2 q.toNat) (pow2 (-q).toNat)
    sign ++ toString (tenths / 10) ++ "." ++ toString (tenths % 10)
  | .infinite => sign ++ "inf"
  | .notANumber => "NaN"

end WordScript.Decimal
