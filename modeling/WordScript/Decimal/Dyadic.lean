/-
Binary floating-point values as exact numbers.

A finite value is `mantissa · 2 ^ exponent`.  The format fixes how many bits the
stored mantissa has and which exponent the smallest values share; a bit pattern
is read by plain division, so nothing here depends on floating-point operations.

* `Format.binary32`, `Format.binary64` — the two formats in use;
* `Format.value` — the value of a bit pattern;
* `roundQuotient` — a quotient rounded to the nearest integer, a half to the even one.
-/
namespace WordScript.Decimal

/-- A power of two. -/
def pow2 (n : Nat) : Nat :=
  Nat.pow 2 n

/-- A power of ten. -/
def pow10 (n : Nat) : Nat :=
  Nat.pow 10 n

/-- A binary floating-point format: bits of the stored mantissa, bits of the stored exponent,
and the exponent of the last place of the smallest values. -/
structure Format where
  mantissaBits : Nat
  exponentBits : Nat
  leastExponent : Int

namespace Format

/-- Single precision. -/
def binary32 : Format := ⟨23, 8, -149⟩

/-- Double precision. -/
def binary64 : Format := ⟨52, 11, -1074⟩

end Format

/-- A value without its sign. -/
inductive Magnitude where
  | finite (mantissa : Nat) (exponent : Int)
  | infinite
  | notANumber
deriving Repr, DecidableEq

/-- A value with its sign. -/
structure Value where
  negative : Bool
  magnitude : Magnitude
deriving Repr, DecidableEq

/-- The value that a bit pattern stands for. -/
def Format.value (f : Format) (bits : Nat) : Value :=
  let fraction := bits % pow2 f.mantissaBits
  let stored := bits / pow2 f.mantissaBits % pow2 f.exponentBits
  let negative := bits / pow2 (f.mantissaBits + f.exponentBits) % 2 == 1
  if stored = pow2 f.exponentBits - 1 then
    ⟨negative, if fraction = 0 then .infinite else .notANumber⟩
  else if stored = 0 then
    ⟨negative, .finite fraction f.leastExponent⟩
  else
    ⟨negative, .finite (fraction + pow2 f.mantissaBits) (f.leastExponent + (stored - 1 : Int))⟩

/-- `num / den` rounded to the nearest integer; a half goes to the even neighbour. -/
def roundQuotient (num den : Nat) : Nat :=
  let q := num / den
  let r := num % den
  if 2 * r < den then q
  else if 2 * r = den then q + q % 2
  else q + 1

/-- The rounded quotient is within half a unit of the quotient. -/
theorem roundQuotient_near (num den : Nat) (h : 0 < den) :
    2 * num ≤ (2 * roundQuotient num den + 1) * den ∧
      2 * roundQuotient num den * den ≤ 2 * num + den := by
  have hd := Nat.div_add_mod num den
  have hr := Nat.mod_lt num h
  have hm : den * (num / den) = num / den * den := Nat.mul_comm _ _
  simp only [roundQuotient]
  split
  · constructor <;> simp only [Nat.add_mul, Nat.mul_assoc] <;> omega
  · split
    · rcases Nat.mod_two_eq_zero_or_one (num / den) with h2 | h2 <;> rw [h2] <;>
        constructor <;> simp only [Nat.add_mul, Nat.mul_add, Nat.mul_assoc] <;> omega
    · constructor <;> simp only [Nat.add_mul, Nat.mul_add, Nat.mul_assoc] <;> omega

end WordScript.Decimal
