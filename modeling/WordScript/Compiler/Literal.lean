/-
Number literals.

An integer is written in decimal, or in hexadecimal after `0x`; anything up to
`2 ^ 32 - 1` is a word.  Lengths and element numbers are written in decimal only.
A floating-point literal has digits on both sides of its point.

* `Literal.integer?` — the word of an integer literal;
* `Literal.natural?` — a decimal number up to a limit;
* `Literal.float` — the word of a floating-point literal.
-/
import WordScript.Decimal.Reading
import WordScript.Text.Alphabetic
import WordScript.Word

namespace WordScript.Literal

/-- The value of a hexadecimal digit. -/
def hexValue (c : Char) : Nat :=
  if Text.isDigit c then c.toNat - '0'.toNat
  else if 'a' ≤ c then c.toNat - 'a'.toNat + 10
  else c.toNat - 'A'.toNat + 10

/-- The number that hexadecimal digits stand for. -/
def ofHexDigits (ds : List Char) : Nat :=
  ds.foldl (fun n c => 16 * n + hexValue c) 0

/-- A decimal number up to a limit. -/
def natural? (limit : Nat) (text : String) : Option Nat :=
  let ds := text.toList
  if ds.isEmpty || !ds.all Text.isDigit then none
  else
    let n := Decimal.ofDigits ds
    if n ≤ limit then some n else none

/-- The word of an integer literal. -/
def integer? (text : String) : Option Word :=
  match text.toList with
  | '0' :: 'x' :: ds =>
    if ds.isEmpty || !ds.all Text.isHexDigit then none
    else
      let n := ofHexDigits ds
      if n < 4294967296 then some (UInt32.ofNat n) else none
  | _ => (natural? 4294967295 text).map UInt32.ofNat

/-- The word of a floating-point literal. -/
def float (text : String) : Word :=
  let ds := text.toList
  Decimal.read32 (ds.takeWhile (· ≠ '.')) ((ds.dropWhile (· ≠ '.')).drop 1)

end WordScript.Literal
