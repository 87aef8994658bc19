/-
Machine words.

A word has 32 bits.  The machine stores integers in two's complement, truth
values as one and zero, floating-point numbers as their single-precision bit
patterns, and addresses, all in words.

* `Word.ofInt_toInt`, `Word.toInt_ofInt` — the signed reading and its inverse.
-/
namespace WordScript

/-- A machine word. -/
abbrev Word := UInt32

namespace Word

/-- The word read in two's complement. -/
def toInt (w : Word) : Int :=
  if w.toNat < 2147483648 then w.toNat else w.toNat - 4294967296

/-- The word that stands for an integer, modulo `2 ^ 32`. -/
def ofInt (i : Int) : Word :=
  UInt32.ofNat (i % 4294967296).toNat

/-- The word of a truth value. -/
def ofBool (b : Bool) : Word :=
  if b then 1 else 0

/-- Any word but zero is true. -/
def toBool (w : Word) : Bool :=
  w != 0

/-- The word read as a floating-point number. -/
def toFloat (w : Word) : Float32 :=
  Float32.ofBits w

/-- The word of a floating-point number. -/
def ofFloat (x : Float32) : Word :=
  x.toBits

/-- The four bytes of a word, the low one first. -/
def bytes (w : Word) : List UInt8 :=
  [w.toUInt8, (w >>> 8).toUInt8, (w >>> 16).toUInt8, (w >>> 24).toUInt8]

/-- The word of four bytes, the low one first. -/
def ofBytes (a b c d : UInt8) : Word :=
  UInt32.ofNat (a.toNat + 256 * b.toNat + 65536 * c.toNat + 16777216 * d.toNat)

theorem toNat_ofInt (i : Int) : ((ofInt i).toNat : Int) = i % 4294967296 := by
  have h₁ : 0 ≤ i % 4294967296 := Int.emod_nonneg _ (by decide)
  have h₂ : i % 4294967296 < 4294967296 := Int.emod_lt_of_pos _ (by decide)
  rw [ofInt, UInt32.toNat_ofNat', show (2 : Nat) ^ 32 = 4294967296 from rfl]
  generalize i % 4294967296 = j at *
  omega

@[simp] theorem ofInt_toInt (w : Word) : ofInt (toInt w) = w := by
  apply UInt32.toNat_inj.mp
  have hw : w.toNat < 4294967296 := by simpa using w.toNat_lt
  have h := toNat_ofInt (toInt w)
  simp only [toInt] at h ⊢
  split at h <;> split <;> omega

/-- Inside the signed range nothing is lost. -/
theorem toInt_ofInt (i : Int) (lo : -2147483648 ≤ i) (hi : i < 2147483648) :
    toInt (ofInt i) = i := by
  have h := toNat_ofInt i
  simp only [toInt]
  split <;> omega

end Word

end WordScript
