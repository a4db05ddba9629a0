import Mathlib.Algebra.Order.Field.Power
import Mathlib.Tactic.FieldSimp
import Mathlib.Tactic.Linarith
import Mathlib.Tactic.Positivity
import Mathlib.Tactic.Ring
import TinyC.Number.Shortest

/-!
# Rounding into the interval of a double

`roundRatio` gives the pattern of the double nearest to a ratio. A finite pattern stands for
`m · 2 ^ q`, and the numbers that round to it form its `RoundingInterval`. The proof looks at the
ratio in units of `2 ^ q`:

* the unit that `roundRatio` chooses is `2 ^ q`, unless `m` is the least significand and the ratio
  lies below it, where it is half of that (`roundRatio_of_near`);
* in its unit the ratio is nearest to one whole number (`roundHalfEven_eq`), and counting units
  from the least double on gives the pattern (`toNat_eq`).

So every number of the interval is rounded back to its double
(`RoundingInterval.Holds.ofRatio?`).
-/

namespace TinyC.Number

/-- A power with a negative exponent is a quotient of powers. -/
theorem zpow_eq_div {b : ℚ} (hb : b ≠ 0) (e : ℤ) : b ^ e = b ^ e.toNat / b ^ (-e).toNat := by
  rw [← zpow_natCast, ← zpow_natCast, ← zpow_sub₀ hb]
  congr 1
  omega

namespace Binary64

variable {num den m : ℕ} {q : ℤ} {bits : UInt64}

/-- The whole number nearest to `x` is `m`; a half goes to the even one. -/
structure RoundsTo (x : ℚ) (m : ℕ) : Prop where
  low : (m : ℚ) - 1 / 2 ≤ x
  high : x ≤ m + 1 / 2
  odd : m % 2 = 1 → (m : ℚ) - 1 / 2 < x ∧ x < m + 1 / 2

/-- The same bounds between whole numbers. -/
theorem RoundsTo.bounds (hden : 0 < den) (h : RoundsTo (num / den) m) :
    2 * (m * den) ≤ 2 * num + den ∧ 2 * num ≤ 2 * (m * den) + den ∧
      (m % 2 = 1 → 2 * (m * den) < 2 * num + den ∧ 2 * num < 2 * (m * den) + den) := by
  have hd : (0 : ℚ) < den := by exact_mod_cast hden
  have hlow := (le_div_iff₀ hd).mp h.low
  have hhigh := (div_le_iff₀ hd).mp h.high
  have hlow' : (2 * (m * den) : ℚ) ≤ 2 * num + den := by linarith
  have hhigh' : (2 * num : ℚ) ≤ 2 * (m * den) + den := by linarith
  refine ⟨by exact_mod_cast hlow', by exact_mod_cast hhigh', fun hodd => ?_⟩
  obtain ⟨hlow, hhigh⟩ := h.odd hodd
  rw [lt_div_iff₀ hd] at hlow
  rw [div_lt_iff₀ hd] at hhigh
  have hlow' : (2 * (m * den) : ℚ) < 2 * num + den := by linarith
  have hhigh' : (2 * num : ℚ) < 2 * (m * den) + den := by linarith
  exact ⟨by exact_mod_cast hlow', by exact_mod_cast hhigh'⟩

theorem roundHalfEven_eq (hden : 0 < den) (h : RoundsTo (num / den) m) :
    roundHalfEven num den = m := by
  obtain ⟨hlow, hhigh, hodd⟩ := h.bounds hden
  have hdiv := Nat.div_add_mod' num den
  have hmod := Nat.mod_lt num hden
  unfold roundHalfEven
  generalize num / den = k at hdiv ⊢
  generalize num % den = r at hdiv hmod ⊢
  -- the quotient is the nearest whole number or the one below it
  have hle : k ≤ m := by
    by_contra hlt
    have hmul : (m + 1) * den ≤ k * den := Nat.mul_le_mul_right den (by omega)
    rw [Nat.add_mul] at hmul
    omega
  have hge : m ≤ k + 1 := by
    by_contra hlt
    have hmul : (k + 2) * den ≤ m * den := Nat.mul_le_mul_right den (by omega)
    rw [Nat.add_mul] at hmul
    omega
  obtain rfl | rfl : m = k ∨ m = k + 1 := by omega
  · rw [if_neg (by omega)]
  · rw [Nat.add_mul] at hlow hhigh hodd
    rw [if_pos (by omega)]

/-- Comparing with a power of two needs no fractions. -/
theorem reaches_iff (hden : 0 < den) (s : ℤ) :
    (if 0 ≤ s then decide (den * 2 ^ s.toNat ≤ num)
      else decide (den ≤ num * 2 ^ (-s).toNat)) = true ↔ (2 : ℚ) ^ s ≤ num / den := by
  rw [le_div_iff₀ (by exact_mod_cast hden), zpow_eq_div two_ne_zero]
  by_cases h : 0 ≤ s
  · have hz : (-s).toNat = 0 := by omega
    rw [if_pos h, decide_eq_true_iff, hz, pow_zero, div_one, mul_comm]
    exact_mod_cast Iff.rfl
  · have hz : s.toNat = 0 := by omega
    rw [if_neg h, decide_eq_true_iff, hz, pow_zero, one_div, inv_mul_le_iff₀ (by positivity),
      mul_comm (2 ^ _)]
    exact_mod_cast Iff.rfl

theorem floorLog2_spec (hnum : 0 < num) (hden : 0 < den) :
    (2 : ℚ) ^ floorLog2 num den ≤ num / den ∧ (num : ℚ) / den < 2 ^ (floorLog2 num den + 1) := by
  have hd : (0 : ℚ) < den := by exact_mod_cast hden
  have hnum_low : (2 : ℚ) ^ (num.log2 : ℤ) ≤ num := by
    exact_mod_cast Nat.log2_self_le hnum.ne'
  have hnum_high : (num : ℚ) < 2 ^ (num.log2 + 1 : ℤ) := by
    exact_mod_cast Nat.lt_log2_self (n := num)
  have hden_low : (2 : ℚ) ^ (den.log2 : ℤ) ≤ den := by
    exact_mod_cast Nat.log2_self_le hden.ne'
  have hden_high : (den : ℚ) < 2 ^ (den.log2 + 1 : ℤ) := by
    exact_mod_cast Nat.lt_log2_self (n := den)
  unfold floorLog2
  simp only [reaches_iff hden]
  generalize hs : (num.log2 : ℤ) - den.log2 = s
  -- the difference of the two logarithms is off by one at most
  have hlow : (2 : ℚ) ^ (s - 1) ≤ num / den := by
    rw [le_div_iff₀ hd]
    calc (2 : ℚ) ^ (s - 1) * den ≤ 2 ^ (s - 1) * 2 ^ (den.log2 + 1 : ℤ) := by gcongr
      _ = 2 ^ (num.log2 : ℤ) := by
        rw [← zpow_add₀ two_ne_zero]
        congr 1
        omega
      _ ≤ num := hnum_low
  have hhigh : (num : ℚ) / den < 2 ^ (s + 1) := by
    rw [div_lt_iff₀ hd]
    calc (num : ℚ) < 2 ^ (num.log2 + 1 : ℤ) := hnum_high
      _ = 2 ^ (s + 1) * 2 ^ (den.log2 : ℤ) := by
        rw [← zpow_add₀ two_ne_zero]
        congr 1
        omega
      _ ≤ 2 ^ (s + 1) * den := by gcongr
  by_cases h : (2 : ℚ) ^ s ≤ num / den
  · rw [if_pos h]
    exact ⟨h, hhigh⟩
  · rw [if_neg h, sub_add_cancel]
    exact ⟨hlow, not_le.mp h⟩

/-- The logarithm of a ratio, seen from the ratio in units of `2 ^ q`. -/
theorem floorLog2_lt_add_iff (hnum : 0 < num) (hden : 0 < den) (n : ℕ) :
    floorLog2 num den < q + n ↔ (num : ℚ) / den / 2 ^ q < 2 ^ n := by
  obtain ⟨hlow, hhigh⟩ := floorLog2_spec hnum hden
  rw [div_lt_iff₀ (by positivity), ← zpow_natCast, ← zpow_add₀ two_ne_zero, add_comm (n : ℤ)]
  constructor
  · intro h
    exact lt_of_lt_of_le hhigh (zpow_le_zpow_right₀ one_le_two (by omega))
  · intro h
    exact (zpow_lt_zpow_iff_right₀ one_lt_two).mp (lt_of_le_of_lt hlow h)

/-- The unit that a ratio is rounded in, and its multiple. -/
theorem roundRatio_of_roundsTo (hnum : 0 < num) (hden : 0 < den)
    (hq : max (floorLog2 num den - 52) (-1074) = q) (h : RoundsTo (num / den / 2 ^ q) m) :
    (roundRatio num den : ℤ) = (q + 1074) * 2 ^ 52 + m := by
  have hm : (if 0 ≤ q then roundHalfEven num (den * 2 ^ q.toNat)
      else roundHalfEven (num * 2 ^ (-q).toNat) den) = m := by
    rw [zpow_eq_div two_ne_zero] at h
    by_cases hpos : 0 ≤ q
    · have hz : (-q).toNat = 0 := by omega
      rw [if_pos hpos]
      apply roundHalfEven_eq (by positivity)
      rw [hz, pow_zero, div_one, div_div] at h
      exact_mod_cast h
    · have hz : q.toNat = 0 := by omega
      rw [if_neg hpos]
      apply roundHalfEven_eq hden
      rw [hz, pow_zero, one_div, div_inv_eq_mul, div_mul_eq_mul_div] at h
      exact_mod_cast h
  unfold roundRatio
  rw [if_neg hnum.ne']
  simp only [hq, hm]
  have hq' : -1074 ≤ q := by omega
  push_cast
  rw [Int.toNat_of_nonneg (by omega)]

/-- A ratio near to `m · 2 ^ q` gives the pattern of that double. Where `m` is the least
significand of its unit, the doubles below lie twice as dense, so there the ratio has to be nearer
from below. -/
theorem roundRatio_of_near (hnum : 0 < num) (hden : 0 < den) (hm : m < 2 ^ 53) (hq : -1074 ≤ q)
    (hnormal : -1074 < q → 2 ^ 52 ≤ m) (h : RoundsTo (num / den / 2 ^ q) m)
    (hdense : m = 2 ^ 52 → -1074 < q → (m : ℚ) - 1 / 4 ≤ num / den / 2 ^ q) :
    (roundRatio num den : ℤ) = (q + 1074) * 2 ^ 52 + m := by
  have hlog (n : ℕ) := floorLog2_lt_add_iff (q := q) hnum hden n
  have hhalf : (num : ℚ) / den / 2 ^ (q - 1) = 2 * (num / den / 2 ^ q) := by
    rw [zpow_sub₀ two_ne_zero, zpow_one]
    field_simp
  by_cases hsame : max (floorLog2 num den - 52) (-1074) = q
  · exact roundRatio_of_roundsTo hnum hden hsame h
  generalize (num : ℚ) / den / 2 ^ q = y at h hdense hlog hhalf
  -- the unit is never greater than that of the double
  have hupper : floorLog2 num den < q + 53 := by
    have hcast : (m : ℚ) + 1 ≤ 2 ^ 53 := by exact_mod_cast hm
    exact (hlog 53).mpr (by linarith [h.high])
  -- where it is smaller, the ratio lies below the least significand, close to it
  have hlt : y < 2 ^ 52 := (hlog 52).mp (by omega)
  have hmin : 2 ^ 52 ≤ m := hnormal (by omega)
  have hmax : m < 2 ^ 52 + 1 := by
    have hcast : (m : ℚ) < 2 ^ 52 + 1 := by linarith [h.low]
    exact_mod_cast hcast
  obtain rfl : m = 2 ^ 52 := by omega
  have hnear := hdense rfl (by omega)
  push_cast at hnear
  have hlower : ¬ floorLog2 num den < q + 51 := by
    intro hlt'
    linarith [(hlog 51).mp hlt']
  have hround : RoundsTo (num / den / 2 ^ (q - 1)) (2 ^ 53) := by
    rw [hhalf]
    refine ⟨?_, ?_, fun hodd => absurd hodd (by decide)⟩
    · push_cast
      linarith
    · push_cast
      linarith
  rw [roundRatio_of_roundsTo hnum hden (by omega) hround]
  push_cast
  ring

/-! ### The parts of a finite pattern -/

theorem toNat_lt_of_finite (h : bits < infinity) : bits.toNat < 2047 * 2 ^ 52 :=
  UInt64.lt_iff_toNat_lt.mp h

theorem magnitude_of_finite (h : bits < infinity) : magnitude bits = bits := by
  have hlt := toNat_lt_of_finite h
  apply UInt64.toNat_inj.mp
  have hmask : (0x7FFFFFFFFFFFFFFF : UInt64).toNat = 2 ^ 63 - 1 := by decide
  rw [magnitude, UInt64.toNat_and, hmask, Nat.and_two_pow_sub_one_eq_mod]
  exact Nat.mod_eq_of_lt (by omega)

theorem exponentField_of_finite (h : bits < infinity) :
    exponentField bits = bits.toNat / 2 ^ 52 := by
  rw [exponentField, magnitude_of_finite h]

/-- Patterns count the doubles: from the least unit on, each unit has as many as there are
fractions. -/
theorem toNat_eq (h : bits < infinity) :
    (bits.toNat : ℤ) = (scale bits + 1074) * 2 ^ 52 + significand bits := by
  have hdiv := Nat.div_add_mod bits.toNat (2 ^ 52)
  unfold scale significand fraction
  rw [exponentField_of_finite h]
  split
  · omega
  · push_cast
    omega

theorem le_scale (bits : UInt64) : -1074 ≤ scale bits := by
  unfold scale
  split <;> omega

theorem scale_le (h : bits < infinity) : scale bits ≤ 971 := by
  have hlt := toNat_lt_of_finite h
  unfold scale
  rw [exponentField_of_finite h]
  split <;> omega

theorem significand_lt (bits : UInt64) : significand bits < 2 ^ 53 := by
  unfold significand fraction
  split <;> omega

theorem le_significand (h : -1074 < scale bits) : 2 ^ 52 ≤ significand bits := by
  unfold scale at h
  unfold significand
  split at h
  · omega
  · rename_i hexp
    rw [if_neg hexp]
    omega

theorem significand_pos (h : bits < infinity) (hpos : 0 < bits) : 0 < significand bits := by
  have hnat : 0 < bits.toNat := UInt64.lt_iff_toNat_lt.mp hpos
  have heq := toNat_eq h
  have hscale := le_scale bits
  have hnormal : -1074 < scale bits → 2 ^ 52 ≤ significand bits := le_significand
  omega

/-- The condition under which the lower end of the interval is nearer. -/
theorem dense_iff (bits : UInt64) :
    (fraction bits = 0 ∧ 1 < exponentField bits) ↔
      significand bits = 2 ^ 52 ∧ -1074 < scale bits := by
  have hfraction : fraction bits < 2 ^ 52 := Nat.mod_lt _ (by decide)
  unfold significand scale
  split
  · omega
  · omega

end Binary64

/-! ### Numbers of the interval -/

namespace RoundingInterval

open Binary64 (significand infinity)

variable {i : RoundingInterval} {x : ℚ} {bits : UInt64}

/-- The number `x` lies in the interval. -/
structure Holds (i : RoundingInterval) (x : ℚ) : Prop where
  low : i.low * 2 ^ i.scale ≤ x
  high : x ≤ i.high * 2 ^ i.scale
  opened : i.closed = false → i.low * 2 ^ i.scale < x ∧ x < i.high * 2 ^ i.scale

/-- A number of the interval in units of the double. -/
theorem Holds.quarters (h : (ofBits bits).Holds x) :
    ((ofBits bits).low : ℚ) / 4 ≤ x / 2 ^ Binary64.scale bits ∧
      x / 2 ^ Binary64.scale bits ≤ significand bits + 1 / 2 ∧
      (significand bits % 2 = 1 →
        ((ofBits bits).low : ℚ) / 4 < x / 2 ^ Binary64.scale bits ∧
        x / 2 ^ Binary64.scale bits < significand bits + 1 / 2) := by
  obtain ⟨hlow, hhigh, hopen⟩ := h
  have hunit : (0 : ℚ) < 2 ^ Binary64.scale bits := by positivity
  have hscale : (2 : ℚ) ^ (ofBits bits).scale = 2 ^ Binary64.scale bits / 4 := by
    simp only [ofBits]
    rw [zpow_sub₀ two_ne_zero]
    norm_num
  have hend : ((ofBits bits).high : ℚ) = 4 * significand bits + 2 := by
    simp [ofBits]
  rw [hscale] at hlow hhigh hopen
  rw [hend] at hhigh hopen
  rw [le_div_iff₀ hunit, div_le_iff₀ hunit, lt_div_iff₀ hunit, div_lt_iff₀ hunit]
  refine ⟨by linarith, by linarith, fun hodd => ?_⟩
  obtain ⟨hl, hh⟩ := hopen (by simp [ofBits, hodd])
  exact ⟨by linarith, by linarith⟩

/-- The lower end in quarters of a unit. -/
theorem low_eq (hm : 0 < significand bits) :
    ((ofBits bits).low : ℚ) / 4 =
      if significand bits = 2 ^ 52 ∧ -1074 < Binary64.scale bits then
        (significand bits : ℚ) - 1 / 4
      else significand bits - 1 / 2 := by
  simp only [ofBits, Binary64.dense_iff]
  split
  · rw [Nat.cast_sub (by omega)]
    push_cast
    ring
  · rw [Nat.cast_sub (by omega)]
    push_cast
    ring

theorem Holds.pos (hm : 0 < significand bits) (h : (ofBits bits).Holds x) : 0 < x := by
  have hlow : 0 < (ofBits bits).low := by
    simp only [ofBits]
    split <;> omega
  exact lt_of_lt_of_le (by positivity) h.low

/-- Every ratio in the interval rounds to the double. -/
theorem Holds.ofRatio? {num den : ℕ} (hden : 0 < den) (hfinite : bits < infinity)
    (hpos : 0 < bits) (h : (ofBits bits).Holds (num / den)) :
    Binary64.ofRatio? num den = some bits := by
  obtain ⟨hlow, hhigh, hodd⟩ := h.quarters
  have hm := Binary64.significand_pos hfinite hpos
  have hnum : 0 < num := by
    have hratio := h.pos hm
    rw [div_pos_iff_of_pos_right (by exact_mod_cast hden)] at hratio
    exact_mod_cast hratio
  rw [low_eq hm] at hlow hodd
  have hdense : significand bits = 2 ^ 52 → -1074 < Binary64.scale bits →
      (significand bits : ℚ) - 1 / 4 ≤ num / den / 2 ^ Binary64.scale bits := by
    intro hmin hscale
    rwa [if_pos ⟨hmin, hscale⟩] at hlow
  have hround : Binary64.RoundsTo (num / den / 2 ^ Binary64.scale bits) (significand bits) := by
    by_cases hmin : significand bits = 2 ^ 52 ∧ -1074 < Binary64.scale bits
    · rw [if_pos hmin] at hlow hodd
      refine ⟨by linarith, hhigh, fun hm => ?_⟩
      exact ⟨by linarith [(hodd hm).1], (hodd hm).2⟩
    · rw [if_neg hmin] at hlow hodd
      exact ⟨hlow, hhigh, hodd⟩
  have hbits : Binary64.roundRatio num den = bits.toNat := by
    have hsum := Binary64.roundRatio_of_near hnum hden (Binary64.significand_lt bits)
      (Binary64.le_scale bits) Binary64.le_significand hround hdense
    rw [← Binary64.toNat_eq hfinite] at hsum
    exact_mod_cast hsum
  simp only [Binary64.ofRatio?, hbits]
  rw [if_pos (UInt64.lt_iff_toNat_lt.mp hfinite), Nat.toUInt64_eq, UInt64.ofNat_toNat]

/-- Every decimal of the interval is read as the double. -/
theorem Holds.ofScaled? {m : ℕ} {e : ℤ} (hfinite : bits < infinity) (hpos : 0 < bits)
    (h : (ofBits bits).Holds (m * 10 ^ e)) : Binary64.ofScaled? m 10 e = some bits := by
  rw [zpow_eq_div (by norm_num)] at h
  unfold Binary64.ofScaled?
  by_cases he : 0 ≤ e
  · have hz : (-e).toNat = 0 := by omega
    rw [if_pos he]
    apply Holds.ofRatio? one_pos hfinite hpos
    rw [hz, pow_zero, div_one] at h
    simpa using h
  · have hz : e.toNat = 0 := by omega
    rw [if_neg he]
    apply Holds.ofRatio? (by positivity) hfinite hpos
    rw [hz, pow_zero, mul_one_div] at h
    simpa using h

end RoundingInterval

end TinyC.Number
