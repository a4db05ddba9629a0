import TinyC.Number.Numeral

/-!
# Reading digits

Program text has two forms of numbers: plain digits, and a `Numeral` with a fraction and an
exponent. Digits are read as the number that they were written for (`readDigits_toDigits`), and a
numeral as the double nearest to it (`readDouble_text`). Whatever is read from a text that starts
with a digit is finite and has no sign (`lt_infinity_of_readDouble`).
-/

namespace TinyC.Number

variable {c : Char} {ds cs : List Char} {n : Nat}

theorem digitValue?_of_isDigit (h : c.isDigit = true) :
    digitValue? c = some (c.toNat - '0'.toNat) := by
  simp [digitValue?, h]

theorem digit_lt_ten (h : c.isDigit = true) : c.toNat - '0'.toNat < 10 := by
  have hc : c.toNat ≤ 57 := by
    simp only [Char.isDigit, Bool.and_eq_true, decide_eq_true_eq] at h
    exact h.2
  have hzero : '0'.toNat = 48 := rfl
  omega

theorem ne_of_isDigit {d : Char} (h : c.isDigit = true) (hd : d.isDigit = false) : c ≠ d := by
  rintro rfl
  rw [h] at hd
  cases hd

theorem le_ofDigitChars (ds : List Char) (n : Nat) : n ≤ Nat.ofDigitChars 10 ds n := by
  rw [Nat.ofDigitChars_eq_ofDigitChars_zero]
  exact Nat.le_add_right_of_le (Nat.le_mul_of_pos_left n (Nat.pow_pos (by decide)))

/-- Digits whose value fits in a word are read as that value. -/
theorem readDigits_eq {gaps : Bool} (hds : ∀ c ∈ ds, c.isDigit = true)
    (h : Nat.ofDigitChars 10 ds n < 2 ^ 64) :
    readDigits 10 gaps n ds = .ok (Nat.ofDigitChars 10 ds n) := by
  induction ds generalizing n with
  | nil => rfl
  | cons c ds ih =>
    have hc := hds c List.mem_cons_self
    rw [Nat.ofDigitChars_cons, Nat.mul_comm 10] at h ⊢
    have hle := le_ofDigitChars ds (n * 10 + (c.toNat - '0'.toNat))
    have hunderscore := beq_eq_false_iff_ne.mpr (ne_of_isDigit hc (d := '_') rfl)
    rw [readDigits, digitValue?_of_isDigit hc]
    simp only [hunderscore, Bool.and_false, Bool.false_eq_true, if_false,
      Nat.not_le.mpr (digit_lt_ten hc)]
    rw [if_neg (by omega)]
    exact ih (fun d hd => hds d (List.mem_cons_of_mem _ hd)) h

theorem isDigit_of_mem_digits (h : c ∈ Nat.toDigits 10 n) : c.isDigit = true :=
  Nat.isDigit_of_mem_toDigits (by decide) (by decide) h

theorem readDigits_toDigits (gaps : Bool) (h : n < 2 ^ 64) :
    readDigits 10 gaps 0 (Nat.toDigits 10 n) = .ok n := by
  have hvalue : Nat.ofDigitChars 10 (Nat.toDigits 10 n) 0 = n := Nat.ofDigitChars_ten_toDigits
  rw [readDigits_eq (fun _ => isDigit_of_mem_digits) (by omega), hvalue]

/-! ### Numbers with a fraction and an exponent -/

/-- A number as program text: one digit before the point, a fraction, and an exponent with its
sign. -/
structure Numeral where
  whole : Char
  fraction : List Char
  negative : Bool
  exponent : List Char
  isDigit_whole : whole.isDigit = true
  isDigit_fraction : ∀ c ∈ fraction, c.isDigit = true
  isDigit_exponent : ∀ c ∈ exponent, c.isDigit = true
  fraction_ne_nil : fraction ≠ []
  exponent_ne_nil : exponent ≠ []

namespace Numeral

/-- The sign of the exponent. -/
def sign (n : Numeral) : Char :=
  if n.negative then '-' else '+'

def text (n : Numeral) : List Char :=
  n.whole :: '.' :: (n.fraction ++ 'e' :: n.sign :: n.exponent)

/-- All digits as one whole number. -/
def mantissa (n : Numeral) : Nat :=
  Nat.ofDigitChars 10 (n.whole :: n.fraction) 0

/-- The exponent as it is written. -/
def power (n : Numeral) : Int :=
  if n.negative then -(Nat.ofDigitChars 10 n.exponent 0 : Int) else Nat.ofDigitChars 10 n.exponent 0

end Numeral

theorem splitSign_of_isDigit (h : c.isDigit = true) : splitSign (c :: cs) = (false, c :: cs) := by
  have hminus := ne_of_isDigit h (d := '-') rfl
  have hplus := ne_of_isDigit h (d := '+') rfl
  unfold splitSign
  split <;> simp_all

/-- A text that starts with a digit is no word. -/
theorem specialWord?_of_isDigit (h : c.isDigit = true) : specialWord? (c :: cs) = none := by
  have hlower : c.toLower = c := by
    have hle : ¬ (65 ≤ c.val ∧ c.val ≤ 90) := by
      simp only [Char.isDigit, Bool.and_eq_true, decide_eq_true_eq] at h
      intro hup
      have h57 : c.val ≤ 57 := h.2
      have hbad : (65 : UInt32) ≤ 57 := UInt32.le_trans hup.1 h57
      exact absurd hbad (by decide)
    exact dif_neg hle
  have hne (word : String) (d : Char) (ds : List Char) (hword : word.toList = d :: ds)
      (hd : d.isDigit = false) : (String.ofList ((c :: cs).map Char.toLower) == word) = false := by
    rw [beq_eq_false_iff_ne]
    intro heq
    have hlist := congrArg String.toList heq
    rw [String.toList_ofList, List.map_cons, hlower, hword] at hlist
    exact ne_of_isDigit h hd (List.cons.inj hlist).1
  unfold specialWord?
  rw [splitSign_of_isDigit h]
  dsimp only
  rw [hne "inf" 'i' ['n', 'f'] rfl rfl, hne "infinity" 'i' "nfinity".toList rfl rfl,
    hne "nan" 'n' ['a', 'n'] rfl rfl]
  rfl

/-! ### What can be read -/

theorem lt_infinity_of_ofScaled? {m b : Nat} {e : Int} {bits : UInt64}
    (h : Binary64.ofScaled? m b e = some bits) : bits < Binary64.infinity := by
  have hratio {num den : Nat} (h : Binary64.ofRatio? num den = some bits) :
      bits < Binary64.infinity := by
    simp only [Binary64.ofRatio?] at h
    split at h
    · rename_i hlt
      cases h
      rw [UInt64.lt_iff_toNat_lt, Nat.toUInt64_eq, UInt64.toNat_ofNat_of_lt']
      · exact hlt
      · exact Nat.lt_trans hlt Binary64.infinity.toNat_lt
    · cases h
  unfold Binary64.ofScaled? at h
  split at h
  · exact hratio h
  · exact hratio h

/-- Whatever is read has the property `P`. -/
def Gives (P : UInt64 → Prop) (x : Except NumeralError UInt64) : Prop :=
  ∀ bits, x = .ok bits → P bits

section Gives

variable {P : UInt64 → Prop} {α : Type}

theorem Gives.bind {x : Except NumeralError α} {f : α → Except NumeralError UInt64}
    (h : ∀ a, Gives P (f a)) : Gives P (x >>= f) := by
  intro bits hbits
  cases x with
  | error e => cases hbits
  | ok a => exact h a bits hbits

theorem Gives.throw {e : NumeralError} {f : α → Except NumeralError UInt64} :
    Gives P (throw e >>= f) := by
  intro bits hbits
  cases hbits

theorem Gives.ite {c : Prop} [Decidable c] {x y : Except NumeralError UInt64} (hx : Gives P x)
    (hy : Gives P y) : Gives P (if c then x else y) := by
  split
  · exact hx
  · exact hy

end Gives

/-- The value of a number with its sign, if it is in range. -/
theorem gives_value {negative hex : Bool} {m b m' b' : Nat} {e e' : Int} :
    Gives (fun bits => ∃ b, b < Binary64.infinity ∧ bits = Binary64.withSign negative b)
      (match if hex = true then Binary64.ofScaled? m b e else Binary64.ofScaled? m' b' e' with
      | some bits => pure (Binary64.withSign negative bits)
      | none => MonadExcept.throw NumeralError.outOfRange) := by
  intro bits h
  split at h
  · rename_i b hb
    cases h
    refine ⟨b, ?_, rfl⟩
    split at hb
    · exact lt_infinity_of_ofScaled? hb
    · exact lt_infinity_of_ofScaled? hb
  · cases h

theorem gives_readFinite (cs : List Char) :
    Gives (fun bits => ∃ b, b < Binary64.infinity ∧ bits = Binary64.withSign (splitSign cs).1 b)
      (readFinite cs) := by
  unfold readFinite
  generalize splitSign cs = parts
  obtain ⟨negative, unsigned⟩ := parts
  dsimp only
  generalize readMantissa _ _ _ = found
  obtain ⟨m, rest⟩ := found
  dsimp only
  refine Gives.ite Gives.throw ?_
  cases rest with
  | nil =>
    refine Gives.ite Gives.throw (Gives.bind fun e => ?_)
    exact Gives.ite Gives.throw gives_value
  | cons c rest =>
    refine Gives.ite (Gives.bind fun e => ?_) Gives.throw
    exact Gives.ite Gives.throw gives_value

/-- What is read from a text that starts with a digit is finite and has no sign. -/
theorem lt_infinity_of_readDouble {bits : UInt64} (hc : c.isDigit = true)
    (h : readDouble (c :: cs) = .ok bits) : bits < Binary64.infinity := by
  rw [readDouble, specialWord?_of_isDigit hc] at h
  obtain ⟨b, hb, rfl⟩ := gives_readFinite _ bits h
  rw [splitSign_of_isDigit hc]
  exact hb

/-! ### Reading a numeral -/

/-- Digits go into the mantissa; behind the point they are counted as places. -/
theorem readMantissa_digits (hds : ∀ c ∈ ds, c.isDigit = true) (m : Mantissa) (cs : List Char) :
    readMantissa 10 m (ds ++ cs) =
      readMantissa 10
        { m with value := Nat.ofDigitChars 10 ds m.value, digits := m.digits || !ds.isEmpty,
                 places := if m.dot then m.places + ds.length else m.places } cs := by
  induction ds generalizing m with
  | nil => simp [Nat.ofDigitChars]
  | cons c ds ih =>
    have hc := hds c List.mem_cons_self
    have hunderscore := ne_of_isDigit hc (d := '_') rfl
    have hpoint := ne_of_isDigit hc (d := '.') rfl
    rw [List.cons_append, readMantissa, digitValue?_of_isDigit hc]
    simp only [beq_eq_false_iff_ne.mpr hunderscore, beq_eq_false_iff_ne.mpr hpoint, Bool.false_and,
      Bool.false_eq_true, if_false, digit_lt_ten hc, if_true]
    rw [ih (fun d hd => hds d (List.mem_cons_of_mem _ hd)), Nat.ofDigitChars_cons,
      Nat.mul_comm 10]
    cases m.dot with
    | false => simp
    | true => simp [Nat.add_assoc, Nat.add_comm 1]

/-- The exponent mark ends the mantissa. -/
theorem readMantissa_mark (m : Mantissa) (cs : List Char) :
    readMantissa 10 m ('e' :: cs) = (m, 'e' :: cs) := by
  have hmark : digitValue? 'e' = some 14 := by decide
  rw [readMantissa, hmark]
  rfl

theorem readMantissa_text (n : Numeral) :
    readMantissa 10 {} n.text =
      (⟨n.mantissa, n.fraction.length, true, true⟩, 'e' :: n.sign :: n.exponent) := by
  have hwhole : ∀ c ∈ [n.whole], c.isDigit = true := by
    intro c hc
    rw [List.mem_singleton.mp hc]
    exact n.isDigit_whole
  have hsplit : n.text = [n.whole] ++ '.' :: (n.fraction ++ 'e' :: n.sign :: n.exponent) := rfl
  rw [hsplit, readMantissa_digits hwhole, readMantissa]
  simp only [Bool.not_false, Bool.and_true]
  rw [if_neg (by decide), if_pos (by decide), readMantissa_digits n.isDigit_fraction,
    readMantissa_mark]
  simp [Numeral.mantissa, Nat.ofDigitChars]

/-- Small exponents are read exactly. -/
theorem exponentValue_eq (hds : ∀ c ∈ ds, c.isDigit = true)
    (h : Nat.ofDigitChars 10 ds 0 < 10000) : exponentValue ds = Nat.ofDigitChars 10 ds 0 := by
  unfold exponentValue
  generalize (0 : Nat) = e at h ⊢
  induction ds generalizing e with
  | nil => rfl
  | cons c ds ih =>
    have hunderscore := ne_of_isDigit (hds c List.mem_cons_self) (d := '_') rfl
    rw [Nat.ofDigitChars_cons, Nat.mul_comm 10] at h ⊢
    have hle := le_ofDigitChars ds (e * 10 + (c.toNat - '0'.toNat))
    have hsmall : ¬ 10000 ≤ e := by omega
    rw [List.foldl_cons, ← ih (fun d hd => hds d (List.mem_cons_of_mem _ hd)) _ h]
    simp [hunderscore, hsmall]

theorem readExponent_text (n : Numeral) (h : Nat.ofDigitChars 10 n.exponent 0 < 10000) :
    readExponent (n.sign :: n.exponent) = .ok n.power := by
  have hvalue := exponentValue_eq n.isDigit_exponent h
  have hall : n.exponent.all (fun d => d.isDigit || d == '_') = true := by
    rw [List.all_eq_true]
    intro c hc
    rw [n.isDigit_exponent c hc]
    rfl
  have hsplit : splitSign (n.sign :: n.exponent) = (n.negative, n.exponent) := by
    unfold Numeral.sign
    cases n.negative <;> rfl
  unfold readExponent Numeral.power
  rw [hsplit]
  dsimp only
  split
  · rename_i hnil
    exact absurd hnil n.exponent_ne_nil
  · rename_i c cs heq
    have hc := n.isDigit_exponent c (by rw [heq]; exact List.mem_cons_self)
    rw [if_pos (by rw [hc, hall]; rfl), hvalue]

theorem contains_underscore_text (n : Numeral) : n.text.contains '_' = false := by
  have hdigits {ds : List Char} (h : ∀ c ∈ ds, c.isDigit = true) : '_' ∉ ds :=
    fun hmem => absurd (h _ hmem) (by decide)
  have hwhole := ne_of_isDigit n.isDigit_whole (d := '_') rfl
  have hsign : '_' ≠ n.sign := by
    unfold Numeral.sign
    cases n.negative <;> decide
  simp [Numeral.text, hwhole.symm, hsign, hdigits n.isDigit_fraction, hdigits n.isDigit_exponent]

/-- A numeral with a small exponent is read as the double nearest to it. -/
theorem readDouble_text (n : Numeral) (h : Nat.ofDigitChars 10 n.exponent 0 < 10000) {bits : UInt64}
    (hbits : Binary64.ofScaled? n.mantissa 10 (n.power - n.fraction.length) = some bits) :
    readDouble n.text = .ok bits := by
  have hsign : splitSign n.text = (false, n.text) := splitSign_of_isDigit n.isDigit_whole
  have hword : specialWord? n.text = none := specialWord?_of_isDigit n.isDigit_whole
  have hhex : splitHex n.text = none := by
    unfold splitHex Numeral.text
    split
    · rename_i c d cs heq
      simp only [List.cons.injEq] at heq
      rw [← heq.2.1]
      rfl
    · rfl
  rw [readDouble, hword, readFinite, hsign]
  simp only [hhex, Option.isSome_none, Bool.false_eq_true, if_false, Option.getD_none,
    readMantissa_text, contains_underscore_text, readExponent_text n h]
  rw [if_neg (by decide), if_pos (by decide)]
  change (match Binary64.ofScaled? n.mantissa 10 (n.power - n.fraction.length) with
    | some bits => pure (Binary64.withSign false bits)
    | none => throw NumeralError.outOfRange) = Except.ok bits
  rw [hbits]
  rfl

end TinyC.Number
