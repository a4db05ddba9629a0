import Mathlib.Data.Nat.Bitwise
import TinyC.Proofs.Number.Numeral
import TinyC.Proofs.Number.Shortest
import TinyC.Token

/-!
# Doubles are read back from their texts

A double is written as a numeral whose digits are the shortest decimal of the double
(`withFraction_scientific`), so what is read back is the double that this decimal rounds to, which
is the double itself (`exists_numeral`).
-/

namespace TinyC.Number

variable {c : Char} {n : ℕ} {first : Char} {rest : List Char}

/-- The digits of an exponent, at least two of them. -/
def exponentDigits (e : ℤ) : List Char :=
  List.replicate (2 - (Nat.toDigits 10 e.natAbs).length) '0' ++ Nat.toDigits 10 e.natAbs

theorem ofDigitChars_exponentDigits (e : ℤ) :
    Nat.ofDigitChars 10 (exponentDigits e) 0 = e.natAbs := by
  rw [exponentDigits, Nat.ofDigitChars_append, Nat.ofDigitChars_replicate_zero, Nat.mul_zero]
  exact Nat.ofDigitChars_ten_toDigits

theorem isDigit_of_mem_exponentDigits {e : ℤ} (h : c ∈ exponentDigits e) : c.isDigit = true := by
  obtain hzero | hdigit := List.mem_append.mp h
  · rw [List.eq_of_mem_replicate hzero]
    rfl
  · exact isDigit_of_mem_digits hdigit

theorem toList_exponentText (e : ℤ) :
    (exponentText e).toList = 'e' :: (if e < 0 then '-' else '+') :: exponentDigits e := by
  unfold exponentText exponentDigits
  split <;> simp

/-- A fraction that is not empty. -/
def padded (rest : List Char) : List Char :=
  if rest.isEmpty then ['0'] else rest

/-- The numeral with given digits and a given power of ten for the first of them. -/
def Numeral.ofDigits (first : Char) (rest : List Char) (e : ℤ)
    (h : ∀ c ∈ first :: rest, c.isDigit = true) : Numeral where
  whole := first
  fraction := padded rest
  negative := decide (e < 0)
  exponent := exponentDigits e
  isDigit_whole := h first List.mem_cons_self
  isDigit_fraction := by
    intro c hc
    unfold padded at hc
    split at hc
    · rw [List.mem_singleton.mp hc]
      rfl
    · exact h c (List.mem_cons_of_mem _ hc)
  isDigit_exponent := fun _ => isDigit_of_mem_exponentDigits
  fraction_ne_nil := by
    unfold padded
    split
    · simp
    · rename_i hne
      simpa using hne
  exponent_ne_nil := by
    simp [exponentDigits, Nat.toDigits_ne_nil]

theorem withFraction_eq {s : String} {front back : List Char} (hs : s.toList = front ++ 'e' :: back)
    (hfront : 'e' ∉ front) :
    Token.withFraction s =
      if front.contains '.' then s else String.ofList (front ++ ['.', '0'] ++ 'e' :: back) := by
  have hmark : ∀ c ∈ front, (c != 'e') = true := by
    intro c hc
    rw [bne_iff_ne]
    rintro rfl
    exact hfront hc
  have hspan : s.toList.span (· != 'e') = (front, 'e' :: back) := by
    rw [hs, List.span_eq_takeWhile_dropWhile, List.takeWhile_append_of_pos hmark,
      List.dropWhile_append_of_pos hmark]
    simp
  simp only [Token.withFraction, hspan]
  rfl

theorem toList_scientific (first : Char) (rest : List Char) (point : ℤ) :
    (DigitString.scientific ⟨first :: rest, point⟩).toList =
      first :: (if rest.isEmpty then [] else '.' :: rest) ++ (exponentText (point - 1)).toList := by
  unfold DigitString.scientific
  cases rest <;> simp

/-- Scientific form with a fraction is a numeral. -/
theorem withFraction_scientific (point : ℤ) (h : ∀ c ∈ first :: rest, c.isDigit = true) :
    Token.withFraction (DigitString.scientific ⟨first :: rest, point⟩) =
      String.ofList (Numeral.ofDigits first rest (point - 1) h).text := by
  have hmark : 'e' ∉ first :: rest := fun hmem => absurd (h _ hmem) (by decide)
  have hpoint : '.' ≠ first := (ne_of_isDigit (h first List.mem_cons_self) rfl).symm
  have htext := toList_scientific first rest point
  rw [toList_exponentText] at htext
  cases rest with
  | nil =>
    rw [withFraction_eq htext (by simpa using hmark)]
    simp [hpoint, Numeral.text, Numeral.ofDigits, Numeral.sign, padded]
  | cons d rest =>
    rw [withFraction_eq htext (by simpa using hmark)]
    apply String.toList_injective
    simp [htext, Numeral.text, Numeral.ofDigits, Numeral.sign, padded]

theorem power_ofDigits (e : ℤ) (h : ∀ c ∈ first :: rest, c.isDigit = true) :
    (Numeral.ofDigits first rest e h).power = e := by
  simp only [Numeral.power, Numeral.ofDigits, ofDigitChars_exponentDigits, decide_eq_true_eq]
  split <;> omega

/-- The value of a numeral does not depend on the digit that its fraction may be filled with. -/
theorem value_ofDigits (e : ℤ) (h : ∀ c ∈ first :: rest, c.isDigit = true) :
    ((Numeral.ofDigits first rest e h).mantissa : ℚ) * 10 ^ (e - (padded rest).length) =
      (Nat.ofDigitChars 10 (first :: rest) 0 : ℚ) * 10 ^ (e - rest.length) := by
  cases rest with
  | cons d rest => rfl
  | nil =>
    have hmantissa : (Numeral.ofDigits first [] e h).mantissa =
        Nat.ofDigitChars 10 [first] 0 * 10 := by
      simp [Numeral.mantissa, Numeral.ofDigits, padded, Nat.ofDigitChars]
      omega
    rw [hmantissa]
    simp only [padded, List.isEmpty_nil, if_true, List.length_singleton, List.length_nil,
      Nat.cast_mul, Nat.cast_ofNat, Nat.cast_one, Nat.cast_zero, sub_zero]
    rw [zpow_sub₀ (by norm_num), zpow_one]
    field_simp

theorem scientificText_of_finite {bits : UInt64} (hfinite : bits < Binary64.infinity) :
    scientificText bits = (DigitString.ofBits bits).scientific := by
  have hlt := Binary64.toNat_lt_of_finite hfinite
  have hspecial : specialText? bits = none := by
    have hnan : ¬ Binary64.infinity < bits := UInt64.not_lt.mpr (UInt64.le_of_lt hfinite)
    have hne : bits ≠ Binary64.infinity := UInt64.ne_of_lt hfinite
    simp [specialText?, Binary64.isNaN, Binary64.isInfinite, Binary64.magnitude_of_finite hfinite,
      hnan, hne]
  have hsign : bits &&& Binary64.signBit = 0 := by
    have hbit : Binary64.signBit.toNat = 2 ^ 63 := by decide
    apply UInt64.toNat_inj.mp
    rw [UInt64.toNat_and, hbit, Nat.and_two_pow, Nat.testBit_lt_two_pow (by omega)]
    rfl
  rw [scientificText, hspecial]
  simp [signText, Binary64.isNegative, hsign]

/-- The first digit of a number stands for a power of ten that is in the number. -/
theorem ten_pow_le_of_toDigits (hn : 0 < n) (h : Nat.toDigits 10 n = first :: rest) :
    10 ^ rest.length ≤ n := by
  by_contra hlt
  by_cases hrest : rest.length = 0
  · rw [hrest, pow_zero] at hlt
    omega
  · have hlength := (Nat.length_toDigits_le_iff (by norm_num) (Nat.pos_of_ne_zero hrest)).mpr
      (not_le.mp hlt)
    rw [h, List.length_cons] at hlength
    omega

section Positive

variable {bits : UInt64} {first : Char} {rest : List Char}
  (hdigits : Nat.toDigits 10 (shortest bits).digits = first :: rest)

include hdigits

theorem isDigit_of_shortest : ∀ c ∈ first :: rest, c.isDigit = true := by
  rw [← hdigits]
  exact fun _ => isDigit_of_mem_digits

/-- A positive double is written with the digits of its shortest decimal. -/
theorem withFraction_shortest (hfinite : bits < Binary64.infinity) (hpos : 0 < bits) :
    Token.withFraction (scientificText bits) =
      String.ofList (Numeral.ofDigits first rest (rest.length + (shortest bits).exponent)
        (isDigit_of_shortest hdigits)).text := by
  have hne : bits ≠ 0 := UInt64.pos_iff_ne_zero.mp hpos
  have hstring : DigitString.ofBits bits =
      ⟨first :: rest, (first :: rest).length + (shortest bits).exponent⟩ := by
    simp only [DigitString.ofBits, Binary64.magnitude_of_finite hfinite, if_neg hne, hdigits]
  have hpoint : ((first :: rest).length : ℤ) + (shortest bits).exponent - 1 =
      rest.length + (shortest bits).exponent := by
    rw [List.length_cons]
    push_cast
    ring
  rw [scientificText_of_finite hfinite, hstring,
    withFraction_scientific _ (isDigit_of_shortest hdigits), hpoint]

/-- These digits are read as a decimal of the interval, so as the double. -/
theorem readDouble_shortest (hfinite : bits < Binary64.infinity) (hpos : 0 < bits) :
    readDouble (Numeral.ofDigits first rest (rest.length + (shortest bits).exponent)
      (isDigit_of_shortest hdigits)).text = .ok bits := by
  obtain ⟨hholds, hlow⟩ := shortest_holds hfinite hpos
  have hvalue : Nat.ofDigitChars 10 (first :: rest) 0 = (shortest bits).digits := by
    rw [← hdigits]
    exact Nat.ofDigitChars_ten_toDigits
  have hhigh := shortest_power_le hfinite hpos
    (ten_pow_le_of_toDigits (shortest_digits_pos hfinite hpos) hdigits)
  apply readDouble_text
  · change Nat.ofDigitChars 10 (exponentDigits _) 0 < 10000
    rw [ofDigitChars_exponentDigits]
    omega
  · rw [power_ofDigits]
    apply RoundingInterval.Holds.ofScaled? hfinite hpos
    change (RoundingInterval.ofBits bits).Holds (_ * 10 ^ (_ - ((padded rest).length : ℤ)))
    rw [value_ofDigits, hvalue, add_sub_cancel_left]
    exact hholds

end Positive

/-- The text of a finite double without a sign is a numeral that is read as the double. -/
theorem exists_numeral {bits : UInt64} (hfinite : bits < Binary64.infinity) :
    ∃ n : Numeral, Token.withFraction (scientificText bits) = String.ofList n.text ∧
      readDouble n.text = .ok bits := by
  by_cases hzero : bits = 0
  · subst hzero
    refine ⟨.ofDigits '0' [] 0 (by simp), by decide +kernel, ?_⟩
    exact readDouble_text _ (by decide) (by decide)
  · have hpos : 0 < bits := UInt64.pos_iff_ne_zero.mpr hzero
    cases hdigits : Nat.toDigits 10 (shortest bits).digits with
    | nil => exact absurd hdigits Nat.toDigits_ne_nil
    | cons first rest =>
      exact ⟨_, withFraction_shortest hdigits hfinite hpos,
        readDouble_shortest hdigits hfinite hpos⟩

end TinyC.Number
