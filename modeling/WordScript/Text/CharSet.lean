/-
Sets of characters given by their boundaries.

A set is an increasing list of code points at which membership switches, the
first of them switching it on: `[0x41, 0x5b]` holds exactly the capital letters
of ASCII.  The tables of character properties in this folder are such lists.

* `CharSet.mem_nil` and `CharSet.mem_interval` — the two smallest sets;
* `CharSet.holds_of_lt` — before the first boundary nothing changes.
-/
namespace WordScript

/-- A set of code points by the increasing list of places where membership switches. -/
structure CharSet where
  bounds : List Nat

namespace CharSet

/-- Membership of `n` when it is `inside` before the first of the boundaries. -/
def holds (inside : Bool) : List Nat → Nat → Bool
  | [], _ => inside
  | b :: bs, n => if n < b then inside else holds (!inside) bs n

/-- Whether the character belongs to the set. -/
def mem (s : CharSet) (c : Char) : Bool :=
  holds false s.bounds c.toNat

theorem holds_of_lt {inside : Bool} {b n : Nat} {bs : List Nat} (h : n < b) :
    holds inside (b :: bs) n = inside := by
  simp [holds, h]

theorem holds_of_le {inside : Bool} {b n : Nat} {bs : List Nat} (h : b ≤ n) :
    holds inside (b :: bs) n = holds (!inside) bs n := by
  simp [holds, Nat.not_lt.mpr h]

@[simp] theorem mem_nil (c : Char) : mem ⟨[]⟩ c = false := rfl

/-- Two boundaries make a half-open interval. -/
theorem mem_interval (lo hi : Nat) (c : Char) :
    mem ⟨[lo, hi]⟩ c = true ↔ lo ≤ c.toNat ∧ c.toNat < hi := by
  unfold mem
  by_cases h₁ : c.toNat < lo
  · rw [holds_of_lt h₁]
    exact ⟨fun h => absurd h (by decide), fun h => absurd h.1 (by omega)⟩
  · rw [holds_of_le (Nat.le_of_not_lt h₁)]
    by_cases h₂ : c.toNat < hi
    · rw [holds_of_lt h₂]
      exact ⟨fun _ => ⟨Nat.le_of_not_lt h₁, h₂⟩, fun _ => rfl⟩
    · rw [holds_of_le (Nat.le_of_not_lt h₂), holds]
      exact ⟨fun h => absurd h (by decide), fun h => absurd h.2 h₂⟩

end CharSet

end WordScript
