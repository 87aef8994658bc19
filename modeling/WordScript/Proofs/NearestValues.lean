/-
Nearest values.

The bit patterns of positive single-precision values are in the order of the values, so
a number is nearest to a pattern if it lies between the midpoints on either side of it.
A decimal is scaled by the power of two of its last place and rounded to an integer;
that is such a pattern, also where the rounding carries into the exponent, and a decimal
past the largest finite value is nearest to the pattern behind it, the infinite one.

* `single` — the value of a bit pattern;
* `Nearest` — the pattern whose value is nearest, the even one of two;
* `Nearest.unique` — there is no other;
* `nearest_nearest32` — the pattern of a decimal is nearest to it.
-/
import Mathlib.Algebra.Order.Field.Basic
import Mathlib.Algebra.Order.Field.Power
import Mathlib.Data.Rat.Cast.Order
import Mathlib.Order.Monotone.Basic
import Mathlib.Tactic.Linarith
import Mathlib.Tactic.Ring
import WordScript.Decimal.Reading
import WordScript.Word

namespace WordScript.Decimal

/-! ### Bit patterns -/

/-- The value of a bit pattern without a sign.  The infinite pattern counts as the power of two behind
the largest finite value. -/
def single (n : ℕ) : ℚ :=
  if n < 2 ^ 23 then n * 2 ^ (-149 : ℤ)
  else ((n % 2 ^ 23 : ℕ) + 2 ^ 23) * 2 ^ ((n / 2 ^ 23 : ℕ) - 150 : ℤ)

/-- The pattern of the infinite value. -/
def infinite32 : ℕ :=
  0x7F800000

/-- The bit pattern has the value nearest to the number; of two it is the even one. -/
structure Nearest (x : ℚ) (w : Word) : Prop where
  within : w.toNat ≤ infinite32
  nearest : ∀ n ≤ infinite32, |x - single w.toNat| ≤ |x - single n|
  even : ∀ n ≤ infinite32, n ≠ w.toNat → |x - single n| = |x - single w.toNat| → w.toNat % 2 = 0

variable {s m n num den : ℕ} {x : ℚ}

/-- A finite pattern is read as its value. -/
theorem value_eq_single (h : n < infinite32) : ∃ (m : ℕ) (q : ℤ),
    Format.binary32.value n = ⟨false, .finite m q⟩ ∧ (m : ℚ) * 2 ^ q = single n := by
  have hn : n < 0x7F800000 := h
  have hsign : n / pow2 (23 + 8) % 2 = 0 := by
    show n / 2147483648 % 2 = 0
    omega
  have hstored : n / pow2 23 % pow2 8 = n / 2 ^ 23 := by
    show n / 8388608 % 256 = n / 8388608
    omega
  have hfinite : n / 2 ^ 23 ≠ pow2 8 - 1 := by
    show n / 8388608 ≠ 255
    omega
  simp only [Format.value, Format.binary32, hsign, hstored, if_neg hfinite]
  by_cases hsmall : n < 2 ^ 23
  · rw [if_pos (Nat.div_eq_of_lt hsmall), single, if_pos hsmall]
    exact ⟨_, _, rfl, by rw [show n % pow2 23 = n from Nat.mod_eq_of_lt hsmall]⟩
  · have hpos : n / 2 ^ 23 ≠ 0 := by omega
    rw [if_neg hpos, single, if_neg hsmall]
    refine ⟨_, _, rfl, ?_⟩
    rw [show (-149 + ((n / 2 ^ 23 : ℕ) - 1) : ℤ) = (n / 2 ^ 23 : ℕ) - 150 by omega]
    push_cast
    rfl

/-- A mantissa that is large enough, or the exponent the least one, is scaled by the exponent.  So is one
that carries into the exponent. -/
theorem single_place (hm : m ≤ 2 ^ 24) (hs : s = 0 ∨ 2 ^ 23 ≤ m) :
    single (s * 2 ^ 23 + m) = m * 2 ^ ((s : ℤ) - 149) := by
  rw [single]
  split
  · obtain rfl | hs := hs
    · simp
    · omega
  · obtain hlt | rfl := Nat.lt_or_eq_of_le hm
    · have hdiv : (s * 2 ^ 23 + m) / 2 ^ 23 = s + 1 := by omega
      have hmod : (((s * 2 ^ 23 + m) % 2 ^ 23 : ℕ) + 2 ^ 23 : ℚ) = m := by
        exact_mod_cast show (s * 2 ^ 23 + m) % 2 ^ 23 + 2 ^ 23 = m by omega
      rw [hdiv, hmod]
      push_cast
      rw [show ((s : ℤ) + 1 - 150) = s - 149 by ring]
    · have hdiv : (s * 2 ^ 23 + 2 ^ 24) / 2 ^ 23 = s + 2 := by omega
      have hmod : (s * 2 ^ 23 + 2 ^ 24) % 2 ^ 23 = 0 := by omega
      rw [hdiv, hmod]
      push_cast
      rw [show ((s : ℤ) + 2 - 150) = s - 149 + 1 by ring, zpow_add_one₀ two_ne_zero]
      ring

theorem single_lt_succ (n : ℕ) : single n < single (n + 1) := by
  obtain ⟨s, m, rfl, hm, hs⟩ : ∃ s m, n = s * 2 ^ 23 + m ∧ m < 2 ^ 24 ∧ (s = 0 ∨ 2 ^ 23 ≤ m) :=
    ⟨n / 2 ^ 23 - 1, n - (n / 2 ^ 23 - 1) * 2 ^ 23, by omega, by omega, by omega⟩
  rw [Nat.add_assoc, single_place hm.le hs, single_place hm (by omega)]
  push_cast
  linarith [zpow_pos (two_pos (α := ℚ)) ((s : ℤ) - 149)]

theorem strictMono_single : StrictMono single :=
  strictMono_nat_of_lt_succ single_lt_succ

/-! ### Midpoints -/

/-- The number lies between the midpoints on either side of the value, and on one of them only if the
pattern is even. -/
structure Between (x : ℚ) (n : ℕ) : Prop where
  below : ∀ k, k + 1 = n → single k + single n ≤ 2 * x
  above : 2 * x ≤ single n + single (n + 1)
  even : (2 * x = single n + single (n + 1) ∨ ∃ k, k + 1 = n ∧ single k + single n = 2 * x) → n % 2 = 0

/-- Of two values, the larger one is the nearer if the number is not below their midpoint. -/
theorem abs_sub_le_of_midpoint {a b : ℚ} (hab : a ≤ b) (h : a + b ≤ 2 * x) : |x - b| ≤ |x - a| := by
  rw [abs_of_nonneg (by linarith : 0 ≤ x - a)]
  exact abs_le.mpr ⟨by linarith, by linarith⟩

theorem abs_sub_le_of_le_midpoint {a b : ℚ} (hab : a ≤ b) (h : 2 * x ≤ a + b) : |x - a| ≤ |x - b| := by
  rw [abs_of_nonpos (by linarith : x - b ≤ 0)]
  exact abs_le.mpr ⟨by linarith, by linarith⟩

/-- A number that is as far from one value as from another is their midpoint. -/
theorem midpoint_of_abs_sub_eq {a b : ℚ} (hne : a ≠ b) (h : |x - a| = |x - b|) : a + b = 2 * x := by
  obtain h | h := abs_eq_abs.mp h
  · exact absurd (by linarith) hne
  · linarith

theorem Between.nearest (h : Between x n) (hn : n ≤ infinite32) : Nearest x (UInt32.ofNat n) := by
  have hw : (UInt32.ofNat n).toNat = n :=
    UInt32.toNat_ofNat_of_lt' (Nat.lt_of_le_of_lt hn (by decide))
  refine ⟨by rwa [hw], fun k _ => ?_, fun k _ hne hfar => ?_⟩ <;> rw [hw] at *
  · obtain hlt | rfl | hgt := lt_trichotomy k n
    · obtain ⟨j, rfl⟩ := Nat.exists_eq_add_one_of_ne_zero (Nat.ne_zero_of_lt hlt)
      have hk := strictMono_single.monotone (Nat.le_of_lt_succ hlt)
      exact abs_sub_le_of_midpoint (strictMono_single hlt).le (by linarith [h.below j rfl])
    · exact le_rfl
    · have hk := strictMono_single.monotone (Nat.succ_le_of_lt hgt)
      exact abs_sub_le_of_le_midpoint (strictMono_single hgt).le (by linarith [h.above])
  · have hmid := midpoint_of_abs_sub_eq (strictMono_single.injective.ne hne) hfar
    -- a value that is as near as this one is next to it
    refine h.even ?_
    obtain hlt | hgt := Nat.lt_or_gt_of_ne hne
    · obtain ⟨j, rfl⟩ := Nat.exists_eq_add_one_of_ne_zero (Nat.ne_zero_of_lt hlt)
      have hk := strictMono_single.monotone (Nat.le_of_lt_succ hlt)
      exact .inr ⟨j, rfl, le_antisymm (h.below j rfl) (by linarith)⟩
    · have hk := strictMono_single.monotone (Nat.succ_le_of_lt hgt)
      exact .inl (le_antisymm h.above (by linarith))

/-- There is one nearest pattern: between two even ones there would be a nearer one. -/
theorem Nearest.unique {v w : Word} (hv : Nearest x v) (hw : Nearest x w) : v = w := by
  by_contra hne
  wlog hlt : v.toNat < w.toNat generalizing v w
  · exact this hw hv (Ne.symm hne) (by
      have := mt UInt32.toNat_inj.mp hne
      omega)
  have hfar := le_antisymm (hv.nearest _ hw.within) (hw.nearest _ hv.within)
  have hmid := midpoint_of_abs_sub_eq (strictMono_single hlt).ne hfar
  have heven := hv.even _ hw.within hlt.ne' hfar.symm
  have heven' := hw.even _ hv.within hlt.ne hfar
  have hfirst := strictMono_single (Nat.lt_succ_self v.toNat)
  have hlast := strictMono_single (show v.toNat + 1 < w.toNat by omega)
  have hnear : |x - single (v.toNat + 1)| < |x - single v.toNat| := by
    rw [abs_of_nonneg (by linarith : 0 ≤ x - single v.toNat)]
    exact abs_lt.mpr ⟨by linarith, by linarith⟩
  exact absurd (hv.nearest (v.toNat + 1) (hlt.trans_le hw.within)) (not_le.mpr hnear)

/-! ### Rounding -/

theorem cast_pow2 (k : ℕ) : (pow2 k : ℚ) = 2 ^ k := by
  rw [show pow2 k = 2 ^ k from rfl]
  push_cast
  rfl

/-- A quotient is scaled by a power of two in its numerator or in its denominator. -/
theorem scaled_quotient (num den : ℕ) (k : ℤ) :
    ((num * pow2 (-k).toNat : ℕ) : ℚ) / (den * pow2 k.toNat : ℕ) = num / den / 2 ^ k := by
  push_cast
  rw [cast_pow2, cast_pow2]
  obtain ⟨j, rfl | rfl⟩ := k.eq_nat_or_neg
  · simp [div_div]
  · simp [mul_div_right_comm]

theorem quotient_lt_iff (hden : 0 < den) (k : ℤ) :
    num * pow2 (-k).toNat < den * pow2 k.toNat ↔ (num / den : ℚ) < 2 ^ k := by
  have hpow : 0 < den * pow2 k.toNat := Nat.mul_pos hden (Nat.pow_pos two_pos)
  rw [← div_lt_one (zpow_pos (two_pos (α := ℚ)) k), ← scaled_quotient,
    div_lt_one (by exact_mod_cast hpow)]
  exact Nat.cast_lt.symm

/-- Half a unit on either side is the even neighbour's. -/
theorem even_roundQuotient (hden : 0 < den) (h : 2 * num = (2 * roundQuotient num den + 1) * den ∨
    2 * roundQuotient num den * den = 2 * num + den) : roundQuotient num den % 2 = 0 := by
  have hd := Nat.div_add_mod num den
  have hr := Nat.mod_lt num hden
  have hm : den * (num / den) = num / den * den := Nat.mul_comm _ _
  simp only [roundQuotient] at h ⊢
  split at h
  · simp only [Nat.add_mul, Nat.mul_assoc] at h
    omega
  · split at h
    · rw [if_neg ‹_›, if_pos ‹_›]
      omega
    · simp only [Nat.add_mul, Nat.mul_add, Nat.mul_assoc] at h
      omega

/-- The rounded quotient is within half a unit. -/
theorem roundQuotient_spec (hden : 0 < den) (hx : (num / den : ℚ) = x) :
    2 * x ≤ 2 * roundQuotient num den + 1 ∧ 2 * roundQuotient num den ≤ 2 * x + 1 ∧
    (2 * x = 2 * roundQuotient num den + 1 ∨ 2 * roundQuotient num den = 2 * x + 1 →
      roundQuotient num den % 2 = 0) := by
  have hpos : (0 : ℚ) < den := by exact_mod_cast hden
  have hnum : (num : ℚ) = x * den := by rw [← hx, div_mul_cancel₀ _ hpos.ne']
  obtain ⟨habove, hbelow⟩ := roundQuotient_near num den hden
  have habove' : 2 * (num : ℚ) ≤ (2 * roundQuotient num den + 1) * den := by exact_mod_cast habove
  have hbelow' : 2 * (roundQuotient num den : ℚ) * den ≤ 2 * num + den := by exact_mod_cast hbelow
  rw [hnum] at habove' hbelow'
  refine ⟨le_of_mul_le_mul_right (by linarith) hpos, le_of_mul_le_mul_right (by linarith) hpos,
    fun h => even_roundQuotient hden ?_⟩
  refine h.imp (fun h => ?_) fun h => ?_
  · have hcast : 2 * (num : ℚ) = (2 * roundQuotient num den + 1) * den := by rw [hnum, ← h]; ring
    exact_mod_cast hcast
  · have hcast : 2 * (roundQuotient num den : ℚ) * den = 2 * num + den := by rw [hnum, h]; ring
    exact_mod_cast hcast

/-- A quotient lies between the powers of two that the lengths of its parts tell. -/
theorem quotient_log2 (hnum : 0 < num) (hden : 0 < den) :
    (2 : ℚ) ^ ((num.log2 : ℤ) - den.log2 - 1) ≤ num / den ∧
      (num / den : ℚ) < 2 ^ ((num.log2 : ℤ) - den.log2 + 1) := by
  have hn : (2 : ℚ) ^ num.log2 ≤ num := by exact_mod_cast Nat.log2_self_le hnum.ne'
  have hn' : (num : ℚ) < 2 ^ (num.log2 + 1) := by exact_mod_cast Nat.lt_log2_self
  have hd : (2 : ℚ) ^ den.log2 ≤ den := by exact_mod_cast Nat.log2_self_le hden.ne'
  have hd' : (den : ℚ) < 2 ^ (den.log2 + 1) := by exact_mod_cast Nat.lt_log2_self
  have hpos : (0 : ℚ) < den := by exact_mod_cast hden
  constructor
  · rw [le_div_iff₀ hpos]
    calc (2 : ℚ) ^ ((num.log2 : ℤ) - den.log2 - 1) * den
        ≤ 2 ^ ((num.log2 : ℤ) - den.log2 - 1) * 2 ^ (den.log2 + 1) :=
          mul_le_mul_of_nonneg_left hd'.le (zpow_pos two_pos _).le
      _ = 2 ^ num.log2 := by
          rw [← zpow_natCast, ← zpow_natCast, ← zpow_add₀ two_ne_zero]
          congr 1
          push_cast
          ring
      _ ≤ num := hn
  · rw [div_lt_iff₀ hpos]
    calc (num : ℚ) < 2 ^ (num.log2 + 1) := hn'
      _ = 2 ^ ((num.log2 : ℤ) - den.log2 + 1) * 2 ^ den.log2 := by
          rw [← zpow_natCast, ← zpow_natCast, ← zpow_add₀ two_ne_zero]
          congr 1
          push_cast
          ring
      _ ≤ 2 ^ ((num.log2 : ℤ) - den.log2 + 1) * den :=
          mul_le_mul_of_nonneg_left hd (zpow_pos two_pos _).le

/-- At the last place, the quotient has as many digits as the mantissa, or fewer if the exponent is the
least one. -/
theorem lastPlace_spec (hnum : 0 < num) (hden : 0 < den) :
    -149 ≤ lastPlace num den ∧ (num / den : ℚ) / 2 ^ lastPlace num den < 2 ^ 24 ∧
    (lastPlace num den = -149 ∨ 2 ^ 23 ≤ (num / den : ℚ) / 2 ^ lastPlace num den) := by
  obtain ⟨e, hle, hlt, hplace⟩ : ∃ e : ℤ, (2 : ℚ) ^ e ≤ num / den ∧ (num / den : ℚ) < 2 ^ (e + 1) ∧
      lastPlace num den = max (e - 23) (-149) := by
    obtain ⟨hle, hlt⟩ := quotient_log2 hnum hden
    simp only [lastPlace]
    split
    · next h => exact ⟨_, hle, (quotient_lt_iff hden _).mp h, rfl⟩
    · next h =>
      refine ⟨_, not_lt.mp (mt (quotient_lt_iff hden _).mpr h), ?_, rfl⟩
      rwa [show ((num.log2 : ℤ) - den.log2 - 1 + 1 + 1) = num.log2 - den.log2 + 1 by ring]
  have hq := zpow_pos (two_pos (α := ℚ)) (lastPlace num den)
  refine ⟨by omega, ?_, ?_⟩
  · rw [div_lt_iff₀ hq, ← zpow_natCast, ← zpow_add₀ two_ne_zero]
    exact hlt.trans_le (zpow_le_zpow_right₀ one_le_two (by push_cast; omega))
  · rw [le_div_iff₀ hq, ← zpow_natCast, ← zpow_add₀ two_ne_zero]
    by_cases hleast : lastPlace num den = -149
    · exact .inl hleast
    · refine .inr ((zpow_le_zpow_right₀ one_le_two ?_).trans hle)
      push_cast
      omega

section Place

variable {y : ℚ}

/-- The midpoint above a rounded mantissa; if the mantissa carries, the number is below the value. -/
theorem above_of_place (hm : m ≤ 2 ^ 24) (hs : s = 0 ∨ 2 ^ 23 ≤ m) (hlt : y < 2 ^ 24)
    (hy : 2 * y ≤ 2 * m + 1) :
    2 * (y * 2 ^ ((s : ℤ) - 149)) ≤ single (s * 2 ^ 23 + m) + single (s * 2 ^ 23 + m + 1) ∧
    (2 * (y * 2 ^ ((s : ℤ) - 149)) = single (s * 2 ^ 23 + m) + single (s * 2 ^ 23 + m + 1) →
      2 * y = 2 * m + 1) := by
  have hunit := zpow_pos (two_pos (α := ℚ)) ((s : ℤ) - 149)
  obtain hcarry | rfl := Nat.lt_or_eq_of_le hm
  · have hsum : single (s * 2 ^ 23 + m) + single (s * 2 ^ 23 + m + 1) =
        (2 * m + 1) * 2 ^ ((s : ℤ) - 149) := by
      rw [Nat.add_assoc, single_place hm hs, single_place hcarry (by omega)]
      push_cast
      ring
    rw [hsum, ← mul_assoc]
    exact ⟨mul_le_mul_of_nonneg_right hy hunit.le, mul_right_cancel₀ hunit.ne'⟩
  · have hbelow : y * 2 ^ ((s : ℤ) - 149) < single (s * 2 ^ 23 + 2 ^ 24) := by
      rw [single_place hm hs]
      exact mul_lt_mul_of_pos_right (by exact_mod_cast hlt) hunit
    have hnext := single_lt_succ (s * 2 ^ 23 + 2 ^ 24)
    exact ⟨by linarith, fun h => absurd h (by linarith)⟩

/-- The midpoint below a rounded mantissa; if there is a shorter mantissa below it, the number is not
below the value. -/
theorem below_of_place (hm : m ≤ 2 ^ 24) (hs : s = 0 ∨ 2 ^ 23 ≤ m) (hge : s = 0 ∨ 2 ^ 23 ≤ y)
    (hy : 2 * m ≤ 2 * y + 1) {k : ℕ} (hk : k + 1 = s * 2 ^ 23 + m) :
    single k + single (s * 2 ^ 23 + m) ≤ 2 * (y * 2 ^ ((s : ℤ) - 149)) ∧
    (single k + single (s * 2 ^ 23 + m) = 2 * (y * 2 ^ ((s : ℤ) - 149)) → 2 * m = 2 * y + 1) := by
  have hunit := zpow_pos (two_pos (α := ℚ)) ((s : ℤ) - 149)
  by_cases hleast : s ≠ 0 ∧ m = 2 ^ 23
  · obtain ⟨hpos, rfl⟩ := hleast
    have habove : single (s * 2 ^ 23 + 2 ^ 23) ≤ y * 2 ^ ((s : ℤ) - 149) := by
      rw [single_place hm (.inr le_rfl)]
      exact mul_le_mul_of_nonneg_right (by exact_mod_cast hge.resolve_left hpos) hunit.le
    have hnext := single_lt_succ k
    rw [hk] at hnext
    exact ⟨by linarith, fun h => absurd h (by linarith)⟩
  · obtain ⟨j, rfl⟩ : ∃ j, m = j + 1 := ⟨m - 1, by omega⟩
    obtain rfl : k = s * 2 ^ 23 + j := by omega
    have hsum : single (s * 2 ^ 23 + j) + single (s * 2 ^ 23 + (j + 1)) =
        (2 * (j + 1 : ℕ) - 1) * 2 ^ ((s : ℤ) - 149) := by
      rw [single_place hm hs, single_place (by omega) (by omega)]
      push_cast
      ring
    rw [hsum, ← mul_assoc]
    refine ⟨mul_le_mul_of_nonneg_right (by linarith) hunit.le, fun h => ?_⟩
    have := mul_right_cancel₀ hunit.ne' h
    linarith

/-- A rounded mantissa at its place, whether it carries or not. -/
theorem between_of_place (hlt : y < 2 ^ 24) (hge : s = 0 ∨ 2 ^ 23 ≤ y) (habove : 2 * y ≤ 2 * m + 1)
    (hbelow : 2 * m ≤ 2 * y + 1) (heven : 2 * y = 2 * m + 1 ∨ 2 * m = 2 * y + 1 → m % 2 = 0) :
    Between (y * 2 ^ ((s : ℤ) - 149)) (s * 2 ^ 23 + m) := by
  have hm : m ≤ 2 ^ 24 := by
    have : (m : ℚ) < 2 ^ 24 + 1 := by linarith
    exact Nat.le_of_lt_succ (by exact_mod_cast this)
  have hs : s = 0 ∨ 2 ^ 23 ≤ m := by
    refine hge.imp_right fun hy => ?_
    have : (2 ^ 23 : ℚ) < m + 1 := by linarith
    exact Nat.le_of_lt_succ (by exact_mod_cast this)
  have hup := above_of_place hm hs hlt habove
  have hdown := fun k hk => below_of_place (k := k) hm hs hge hbelow hk
  refine ⟨fun k hk => (hdown k hk).1, hup.1, fun h => ?_⟩
  have hparity : m % 2 = 0 := by
    refine heven (h.imp hup.2 ?_)
    rintro ⟨k, hk, heq⟩
    exact (hdown k hk).2 heq
  omega

end Place

/-- A number that is nearest to a pattern behind the infinite one is nearest to the infinite one. -/
theorem Between.infinite (h : Between x n) (hn : infinite32 < n) : Nearest x (UInt32.ofNat infinite32) := by
  obtain ⟨k, rfl⟩ := Nat.exists_eq_add_one_of_ne_zero (Nat.ne_zero_of_lt hn)
  have hk := strictMono_single.monotone (Nat.le_of_lt_succ hn)
  have hlast := single_lt_succ k
  have hx : single infinite32 < x := by linarith [h.below k rfl]
  have hw : (UInt32.ofNat infinite32).toNat = infinite32 := by decide
  refine ⟨hw.le, fun j hj => ?_, fun _ _ _ _ => by rw [hw]; decide⟩
  rw [hw]
  exact abs_sub_le_of_midpoint (strictMono_single.monotone hj)
    (by linarith [strictMono_single.monotone hj])

/-- The pattern of a decimal is nearest to it. -/
theorem nearest_nearest32 (num : ℕ) (hden : 0 < den) : Nearest (num / den) (nearest32 num den) := by
  obtain rfl | hnum := Nat.eq_zero_or_pos num
  · have hzero : Between 0 0 :=
      ⟨fun k hk => absurd hk k.succ_ne_zero, by norm_num [single], fun _ => rfl⟩
    rw [nearest32, if_pos rfl, Nat.cast_zero, zero_div]
    exact hzero.nearest (Nat.zero_le _)
  · obtain ⟨hq, hlt, hge⟩ := lastPlace_spec hnum hden
    rw [nearest32, if_neg hnum.ne']
    dsimp only
    generalize hm : roundQuotient _ _ = m
    generalize lastPlace num den = q at *
    obtain ⟨s, rfl⟩ : ∃ s : ℕ, q = s - 149 := ⟨(q + 149).toNat, by omega⟩
    have hpos : 0 < den * pow2 ((s : ℤ) - 149).toNat := Nat.mul_pos hden (Nat.pow_pos two_pos)
    obtain ⟨habove, hbelow, heven⟩ := roundQuotient_spec hpos (scaled_quotient num den (s - 149))
    rw [hm] at habove hbelow heven
    have hbetween := between_of_place (s := s) hlt (hge.imp_left fun h => by omega) habove hbelow heven
    rw [div_mul_cancel₀ _ (zpow_pos two_pos _).ne'] at hbetween
    have hs : ((s : ℤ) - 149 + 149).toNat = s := by omega
    rw [hs, show pow2 23 = 2 ^ 23 from rfl]
    split
    · next h => exact hbetween.nearest h.le
    · next h =>
      obtain heq | hgt := Nat.eq_or_lt_of_le (Nat.le_of_not_lt h)
      · rw [← heq] at hbetween
        exact hbetween.nearest le_rfl
      · exact hbetween.infinite hgt

end WordScript.Decimal
