import TinyC.Proofs.Number.Rounding

/-!
# The search for a decimal ends in the interval

The search goes through grids of decimals, from coarse to fine. Two facts make it work:

* a hit on a grid is a number of the interval (`onGrid?_holds`);
* a grid whose step is at most a quarter of a unit has a hit (`exists_onGrid?`), and the last of
  the grids is that fine (`coarsest_fine`).

So the decimal that is found lies in the interval of its double (`shortest_holds`).
-/

namespace TinyC.Number

namespace RoundingInterval

variable {i : RoundingInterval} {p : ℤ} {d a b : ℕ} {bits : UInt64}

/-- The value lies between the ends, at least one step above the lower one. -/
structure Proper (i : RoundingInterval) : Prop where
  low : i.low < i.value
  high : i.value < i.high

theorem proper_ofBits (h : 0 < Binary64.significand bits) : (ofBits bits).Proper := by
  constructor
  · simp only [ofBits]
    split <;> omega
  · simp only [ofBits]
    omega

theorem below_of_lt (h : a < b) : i.below a b = true := by
  simp [below, h]

theorem le_of_below (h : i.below a b = true) : a ≤ b ∧ (i.closed = false → a < b) := by
  simp only [below, Bool.or_eq_true, decide_eq_true_eq, Bool.and_eq_true, beq_iff_eq] at h
  obtain hlt | ⟨hclosed, heq⟩ := h
  · exact ⟨hlt.le, fun _ => hlt⟩
  · refine ⟨heq.le, fun hopen => ?_⟩
    rw [hclosed] at hopen
    cases hopen

/-- The step of a grid, in the unit that grid and interval are compared in. -/
def step (i : RoundingInterval) (p : ℤ) : ℕ :=
  10 ^ p.toNat * 2 ^ (-i.scale).toNat

/-- The unit of the interval, in the unit that grid and interval are compared in. -/
def unit (i : RoundingInterval) (p : ℤ) : ℕ :=
  2 ^ i.scale.toNat * 10 ^ (-p).toNat

theorem step_pos (i : RoundingInterval) (p : ℤ) : 0 < i.step p := by
  unfold step
  positivity

/-- What the two of them are in fractions. -/
theorem step_unit (i : RoundingInterval) (p : ℤ) :
    ∃ u : ℚ, 0 < u ∧ (i.step p : ℚ) = 10 ^ p * u ∧ (i.unit p : ℚ) = 2 ^ i.scale * u := by
  refine ⟨2 ^ (-i.scale).toNat * 10 ^ (-p).toNat, by positivity, ?_, ?_⟩
  · rw [step, zpow_eq_div (by norm_num : (10 : ℚ) ≠ 0)]
    push_cast
    field_simp
  · rw [unit, zpow_eq_div (by norm_num : (2 : ℚ) ≠ 0)]
    push_cast
    field_simp

theorem onGrid?_eq (i : RoundingInterval) (p : ℤ) :
    i.onGrid? p =
      let down := i.value * i.unit p / i.step p
      let downHits := i.below (i.low * i.unit p) (down * i.step p)
      let upHits := i.below ((down + 1) * i.step p) (i.high * i.unit p)
      if downHits && upHits then
        some (if prefersLower down (i.value * i.unit p - down * i.step p)
            ((down + 1) * i.step p - i.value * i.unit p) then down else down + 1)
      else if downHits then some down
      else if upHits then some (down + 1)
      else none := rfl

/-- A hit is one of the two neighbours of the value, and passed its own test. -/
theorem onGrid?_cases (h : i.onGrid? p = some d) :
    d = i.value * i.unit p / i.step p ∧ i.below (i.low * i.unit p) (d * i.step p) = true ∨
      d = i.value * i.unit p / i.step p + 1 ∧
        i.below (d * i.step p) (i.high * i.unit p) = true := by
  rw [onGrid?_eq] at h
  dsimp only at h
  split at h
  · rename_i hboth
    obtain ⟨hdown, hup⟩ := Bool.and_eq_true_iff.mp hboth
    cases h
    split
    · exact .inl ⟨rfl, hdown⟩
    · exact .inr ⟨rfl, hup⟩
  · split at h
    · rename_i hdown
      cases h
      exact .inl ⟨rfl, hdown⟩
    · split at h
      · rename_i hup
        cases h
        exact .inr ⟨rfl, hup⟩
      · cases h

/-- A number between the ends, compared in whole units, is in the interval. -/
theorem holds_of_between (hlow : i.low * i.unit p ≤ d * i.step p)
    (hhigh : d * i.step p ≤ i.high * i.unit p)
    (hopen : i.closed = false →
      i.low * i.unit p < d * i.step p ∧ d * i.step p < i.high * i.unit p) :
    i.Holds (d * 10 ^ p) := by
  obtain ⟨u, hu, hstep, hunit⟩ := step_unit i p
  have hleft : ((d * i.step p : ℕ) : ℚ) = d * 10 ^ p * u := by
    push_cast
    rw [hstep, mul_assoc]
  have hright (k : ℕ) : ((k * i.unit p : ℕ) : ℚ) = k * 2 ^ i.scale * u := by
    push_cast
    rw [hunit, mul_assoc]
  rw [← Nat.cast_le (α := ℚ), hleft, hright] at hlow hhigh
  rw [← Nat.cast_lt (α := ℚ), ← Nat.cast_lt (α := ℚ), hleft, hright, hright] at hopen
  refine ⟨le_of_mul_le_mul_right hlow hu, le_of_mul_le_mul_right hhigh hu, fun hclosed => ?_⟩
  obtain ⟨hl, hh⟩ := hopen hclosed
  exact ⟨lt_of_mul_lt_mul_right hl hu.le, lt_of_mul_lt_mul_right hh hu.le⟩

theorem onGrid?_holds (hi : i.Proper) (h : i.onGrid? p = some d) : i.Holds (d * 10 ^ p) := by
  have hstep := step_pos i p
  have hunit : 0 < i.unit p := by
    unfold unit
    positivity
  have hlow : i.low * i.unit p < i.value * i.unit p := Nat.mul_lt_mul_of_pos_right hi.low hunit
  have hhigh : i.value * i.unit p < i.high * i.unit p := Nat.mul_lt_mul_of_pos_right hi.high hunit
  have hdiv := Nat.div_mul_le_self (i.value * i.unit p) (i.step p)
  have hnext : i.value * i.unit p < (i.value * i.unit p / i.step p + 1) * i.step p := by
    rw [mul_comm (_ + 1)]
    exact Nat.lt_mul_div_succ _ hstep
  obtain ⟨rfl, htest⟩ | ⟨rfl, htest⟩ := onGrid?_cases h
  · obtain ⟨hle, hlt⟩ := le_of_below htest
    exact holds_of_between hle (by omega) (fun hopen => ⟨hlt hopen, by omega⟩)
  · obtain ⟨hle, hlt⟩ := le_of_below htest
    exact holds_of_between (by omega) hle (fun hopen => ⟨by omega, hlt hopen⟩)

/-- On a grid whose step is at most the unit, the lower neighbour of the value is a hit. -/
theorem exists_onGrid? (hi : i.Proper) (h : (10 : ℚ) ^ p ≤ 2 ^ i.scale) :
    ∃ d, i.onGrid? p = some d := by
  have hstep := step_pos i p
  have hle : i.step p ≤ i.unit p := by
    obtain ⟨u, hu, hs, hn⟩ := step_unit i p
    rw [← Nat.cast_le (α := ℚ), hs, hn]
    exact mul_le_mul_of_nonneg_right h hu.le
  have hnext := Nat.lt_div_mul_add hstep (a := i.value * i.unit p)
  have hlow : (i.low + 1) * i.unit p ≤ i.value * i.unit p := Nat.mul_le_mul_right _ hi.low
  rw [Nat.add_mul, Nat.one_mul] at hlow
  have hdown : i.below (i.low * i.unit p) (i.value * i.unit p / i.step p * i.step p) = true :=
    below_of_lt (by omega)
  rw [onGrid?_eq]
  dsimp only
  rw [hdown]
  split
  · exact ⟨_, rfl⟩
  · exact ⟨_, rfl⟩

/-- A search that passes a grid with a hit ends with one, on that grid or on a coarser one. -/
theorem search_spec (n : ℕ) (p : ℤ) {k : ℕ} (hk : k < n) (h : ∃ d, i.onGrid? (p - k) = some d) :
    ∃ d e, i.search n p = some ⟨d, e⟩ ∧ i.onGrid? e = some d ∧ p - k ≤ e ∧ e ≤ p := by
  induction n generalizing p k with
  | zero => omega
  | succ n ih =>
    rw [search]
    cases hgrid : i.onGrid? p with
    | some d => exact ⟨d, p, rfl, hgrid, by omega, le_rfl⟩
    | none =>
      cases k with
      | zero =>
        obtain ⟨d, hd⟩ := h
        rw [Nat.cast_zero, sub_zero, hgrid] at hd
        cases hd
      | succ k =>
        have hsub : p - 1 - (k : ℤ) = p - (k + 1 : ℕ) := by omega
        obtain ⟨d, e, hsearch, he, hle, hge⟩ := ih (p - 1) (k := k) (by omega) (hsub ▸ h)
        exact ⟨d, e, hsearch, he, by omega, by omega⟩

/-! ### The last grid is fine enough -/

/-- Powers of ten and of two in the range of the doubles, by the two ratios `3 / 10` and
`28 / 93` that enclose the logarithm of two. -/
theorem ten_zpow_le_two_zpow {s e : ℤ} (hlow : -1076 ≤ s) (hhigh : s ≤ 969)
    (h : 100000 * (e + 1) ≤ 30103 * s) : (10 : ℚ) ^ e ≤ 2 ^ s := by
  by_cases hs : 0 ≤ s
  · have hpow : ((10 : ℚ) ^ e) ^ 10 ≤ (2 ^ s) ^ 10 := by
      calc ((10 : ℚ) ^ e) ^ 10 = 10 ^ (e * 10) := by rw [zpow_mul]; norm_cast
        _ ≤ 10 ^ (3 * s) := zpow_le_zpow_right₀ (by norm_num) (by omega)
        _ = 1000 ^ s := by rw [zpow_mul]; norm_num
        _ ≤ 1024 ^ s := zpow_le_zpow_left₀ hs (by norm_num) (by norm_num)
        _ = (2 ^ s) ^ 10 := by rw [← zpow_natCast, zpow_comm]; norm_num
    exact le_of_pow_le_pow_left₀ (by norm_num) (by positivity) hpow
  · have hbase : ((2 : ℚ) ^ 93) ^ (-s) ≤ (10 ^ 28) ^ (-s) :=
      zpow_le_zpow_left₀ (by omega) (by positivity) (by norm_num)
    have hpow : ((10 : ℚ) ^ e) ^ 93 ≤ (2 ^ s) ^ 93 := by
      calc ((10 : ℚ) ^ e) ^ 93 = 10 ^ (e * 93) := by rw [zpow_mul]; norm_cast
        _ ≤ 10 ^ (28 * s) := zpow_le_zpow_right₀ (by norm_num) (by omega)
        _ = ((10 ^ 28) ^ (-s))⁻¹ := by rw [zpow_mul, zpow_neg, inv_inv]; norm_cast
        _ ≤ ((2 ^ 93) ^ (-s))⁻¹ := inv_anti₀ (by positivity) hbase
        _ = (2 ^ s) ^ 93 := by rw [zpow_neg, inv_inv, ← zpow_natCast, ← zpow_natCast, zpow_comm]
    exact le_of_pow_le_pow_left₀ (by norm_num) (by positivity) hpow

/-- How the first grid of a double is estimated. -/
theorem coarsest_bounds (hfinite : bits < Binary64.infinity) (hpos : 0 < bits) :
    -324 ≤ (ofBits bits).coarsest ∧
      100000 * ((ofBits bits).coarsest - 18) ≤ 30103 * (ofBits bits).scale := by
  have hm := Binary64.significand_pos hfinite hpos
  have hlow := Binary64.le_scale bits
  have hlog : (4 * Binary64.significand bits).log2 < 55 :=
    (Nat.log2_lt (by omega)).mpr (by have := Binary64.significand_lt bits; omega)
  simp only [coarsest, ofBits]
  rw [Int.fdiv_eq_ediv_of_nonneg _ (by norm_num)]
  omega

theorem coarsest_fine (hfinite : bits < Binary64.infinity) (hpos : 0 < bits) :
    (10 : ℚ) ^ ((ofBits bits).coarsest - (19 : ℕ)) ≤ 2 ^ (ofBits bits).scale := by
  obtain ⟨_, hhigh⟩ := coarsest_bounds hfinite hpos
  have hscale : (ofBits bits).scale = Binary64.scale bits - 2 := rfl
  have hmin := Binary64.le_scale bits
  have hmax := Binary64.scale_le hfinite
  apply ten_zpow_le_two_zpow
  · omega
  · omega
  · push_cast
    omega

end RoundingInterval

open RoundingInterval

variable {bits : UInt64} (hfinite : bits < Binary64.infinity) (hpos : 0 < bits)
include hfinite hpos

/-- The decimal that is found for a double lies in its interval. -/
theorem shortest_holds :
    (ofBits bits).Holds ((shortest bits).digits * 10 ^ (shortest bits).exponent) ∧
      -343 ≤ (shortest bits).exponent := by
  have hproper := proper_ofBits (Binary64.significand_pos hfinite hpos)
  obtain ⟨d, e, hsearch, hgrid, hle, _⟩ :=
    search_spec 20 (ofBits bits).coarsest (by norm_num)
      (exists_onGrid? hproper (coarsest_fine hfinite hpos))
  have heq : shortest bits = ⟨d, e⟩ := by
    simp only [shortest, hsearch, Option.getD_some]
  obtain ⟨hfirst, _⟩ := coarsest_bounds hfinite hpos
  rw [heq]
  refine ⟨onGrid?_holds hproper hgrid, ?_⟩
  change -343 ≤ e
  push_cast at hle
  omega

theorem shortest_digits_pos : 0 < (shortest bits).digits := by
  have hvalue := (shortest_holds hfinite hpos).1.pos (Binary64.significand_pos hfinite hpos)
  exact_mod_cast pos_of_mul_pos_left hvalue (by positivity)

/-- No digit of the decimal stands for a power of ten beyond the range of the doubles. -/
theorem shortest_power_le {k : ℕ} (hk : 10 ^ k ≤ (shortest bits).digits) :
    k + (shortest bits).exponent ≤ 1024 := by
  have hhigh : ((ofBits bits).high : ℚ) ≤ 2 ^ 55 := by
    have hm := Binary64.significand_lt bits
    have hle : (ofBits bits).high ≤ 2 ^ 55 := by
      simp only [ofBits]
      omega
    exact_mod_cast hle
  have hscale : (2 : ℚ) ^ (ofBits bits).scale ≤ 2 ^ (969 : ℤ) :=
    zpow_le_zpow_right₀ one_le_two (by
      have hmax := Binary64.scale_le hfinite
      simp only [ofBits]
      omega)
  rw [← zpow_le_zpow_iff_right₀ (by norm_num : (1 : ℚ) < 10)]
  calc (10 : ℚ) ^ (k + (shortest bits).exponent) = 10 ^ k * 10 ^ (shortest bits).exponent := by
        rw [zpow_add₀ (by norm_num), zpow_natCast]
    _ ≤ (shortest bits).digits * 10 ^ (shortest bits).exponent := by
        gcongr
        exact_mod_cast hk
    _ ≤ (ofBits bits).high * 2 ^ (ofBits bits).scale := (shortest_holds hfinite hpos).1.high
    _ ≤ 2 ^ (55 : ℤ) * 2 ^ (969 : ℤ) := by
        gcongr
        exact_mod_cast hhigh
    _ = 2 ^ (1024 : ℤ) := by rw [← zpow_add₀ two_ne_zero]; rfl
    _ ≤ 10 ^ (1024 : ℤ) := zpow_le_zpow_left₀ (by norm_num) (by norm_num) (by norm_num)

end TinyC.Number
