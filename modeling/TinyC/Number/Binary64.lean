/-!
# Doubles as bit patterns

A double is a 64-bit word: a sign bit, eleven exponent bits and fifty-two fraction bits. A
finite pattern stands for `m · 2 ^ q`, with `m` and `q` given by `significand` and `scale`.
`ofRatio?` goes the other way: it rounds a ratio of natural numbers to the nearest pattern, a
tie going to the even one, and has no answer where the ratio is too great. All of it is exact
arithmetic on natural numbers.
-/

-- Powers are those of the core library, also beside an algebra that has its own.
attribute [instance (20000), default_instance 20000] instPowNat

namespace TinyC.Number.Binary64

/-- The bit that holds the sign. -/
def signBit : UInt64 := 0x8000000000000000

/-- The pattern of positive infinity, the least that is no finite magnitude. -/
def infinity : UInt64 := 0x7FF0000000000000

/-- The pattern of one not-a-number value. -/
def notANumber : UInt64 := 0x7FF8000000000001

/-- The sign bit is set. -/
def isNegative (bits : UInt64) : Bool :=
  bits &&& signBit != 0

/-- The pattern without its sign. -/
def magnitude (bits : UInt64) : UInt64 :=
  bits &&& 0x7FFFFFFFFFFFFFFF

/-- The pattern is not a number. -/
def isNaN (bits : UInt64) : Bool :=
  infinity < magnitude bits

/-- The pattern is an infinity. -/
def isInfinite (bits : UInt64) : Bool :=
  magnitude bits == infinity

/-- The eleven exponent bits. -/
def exponentField (bits : UInt64) : Nat :=
  (magnitude bits).toNat / 2 ^ 52

/-- The fifty-two fraction bits. -/
def fraction (bits : UInt64) : Nat :=
  bits.toNat % 2 ^ 52

/-- `m` of the value `m · 2 ^ q`. -/
def significand (bits : UInt64) : Nat :=
  if exponentField bits = 0 then fraction bits else fraction bits + 2 ^ 52

/-- `q` of the value `m · 2 ^ q`. -/
def scale (bits : UInt64) : Int :=
  if exponentField bits = 0 then -1074 else (exponentField bits : Int) - 1075

/-- The pattern with its sign changed. -/
def negate (bits : UInt64) : UInt64 :=
  bits ^^^ signBit

/-- The pattern with the sign bit set iff `negative`. -/
def withSign (negative : Bool) (bits : UInt64) : UInt64 :=
  if negative then bits ||| signBit else bits

/-- The quotient rounded to the nearest whole number, a half going to the even one. -/
def roundHalfEven (num den : Nat) : Nat :=
  let q := num / den
  let r := num % den
  if den < 2 * r ∨ (2 * r = den ∧ q % 2 = 1) then q + 1 else q

/-- The whole exponent `k` with `2 ^ k ≤ num / den < 2 ^ (k + 1)`, for positive arguments. -/
def floorLog2 (num den : Nat) : Int :=
  let s : Int := (num.log2 : Int) - (den.log2 : Int)
  let reaches : Bool :=
    if 0 ≤ s then den * 2 ^ s.toNat ≤ num else den ≤ num * 2 ^ (-s).toNat
  if reaches then s else s - 1

/-- The ratio `num / den` rounded to a pattern; a ratio too great gives a number that is no
finite pattern. A carry out of the fraction moves on into the exponent by itself. -/
def roundRatio (num den : Nat) : Nat :=
  if num = 0 then 0
  else
    let q : Int := max (floorLog2 num den - 52) (-1074)
    let m :=
      if 0 ≤ q then roundHalfEven num (den * 2 ^ q.toNat)
      else roundHalfEven (num * 2 ^ (-q).toNat) den
    (q + 1074).toNat * 2 ^ 52 + m

/-- The finite pattern nearest to the ratio `num / den`. -/
def ofRatio? (num den : Nat) : Option UInt64 :=
  let n := roundRatio num den
  if n < infinity.toNat then some n.toUInt64 else none

/-- The finite pattern nearest to `m · base ^ e`. -/
def ofScaled? (m base : Nat) (e : Int) : Option UInt64 :=
  if 0 ≤ e then ofRatio? (m * base ^ e.toNat) 1 else ofRatio? m (base ^ (-e).toNat)

/-- The value times `2 ^ n`, rounded once; a magnitude too great becomes an infinity, and one
below half the least becomes zero. Zeros, infinities and not-a-number values stay as they are.
The exponent is a word of 64 bits and wraps like one. -/
def scaleBy (bits : UInt64) (n : Int64) : UInt64 :=
  let m := significand bits
  if m = 0 || isNaN bits || isInfinite bits then bits
  else
    let top : Int := (n + Int64.ofInt (scale bits + m.log2)).toInt
    withSign (isNegative bits) <|
      if top < -1075 then 0
      else if 1023 < top then infinity
      else (ofScaled? m 2 (top - m.log2)).getD infinity

/-- The magnitude without its fraction. -/
def wholePart (bits : UInt64) : Nat :=
  if 0 ≤ scale bits then significand bits <<< (scale bits).toNat
  else significand bits >>> (-scale bits).toNat

/-- The value without its fraction, as an integer of 64 bits. What has no such integer becomes the
least one. -/
def truncate (bits : UInt64) : UInt64 :=
  let n := wholePart bits
  if isNaN bits || isInfinite bits || decide (2 ^ 63 ≤ n) then signBit
  else if isNegative bits then -n.toUInt64 else n.toUInt64

end TinyC.Number.Binary64
