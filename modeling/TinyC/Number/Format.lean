import TinyC.Number.Shortest

/-!
# Doubles as text

Two ways of writing a double with its shortest digits. The scientific form has one digit before
the point and an exponent of at least two digits. The general form is positional while the
exponent of the first digit is from −4 to 5 and scientific otherwise; it never ends in `.0`.
-/

namespace TinyC.Number

/-- The texts of values that have no digits. -/
def specialText? (bits : UInt64) : Option String :=
  if Binary64.isNaN bits then some "NaN"
  else if Binary64.isInfinite bits then
    some (if Binary64.isNegative bits then "-Inf" else "+Inf")
  else none

/-- Decimal digits with the place of the point: the value is `0.d₁d₂… · 10 ^ point`. -/
structure DigitString where
  digits : List Char
  point : Int

/-- The shortest digits of the magnitude of a finite pattern; zero has none. -/
def DigitString.ofBits (bits : UInt64) : DigitString :=
  let magnitude := Binary64.magnitude bits
  if magnitude = 0 then ⟨[], 0⟩
  else
    let d := shortest magnitude
    let digits := Nat.toDigits 10 d.digits
    ⟨digits, digits.length + d.exponent⟩

/-- The sign written before a value. -/
def signText (bits : UInt64) : String :=
  if Binary64.isNegative bits then "-" else ""

/-- An exponent with its sign and at least two digits. -/
def exponentText (e : Int) : String :=
  let digits := Nat.toDigits 10 e.natAbs
  (if e < 0 then "e-" else "e+") ++ String.ofList (List.replicate (2 - digits.length) '0' ++ digits)

namespace DigitString

/-- One digit, the others behind a point, and the exponent. -/
def scientific (d : DigitString) : String :=
  match d.digits with
  | [] => "0e+00"
  | first :: rest =>
    String.singleton first ++ (if rest.isEmpty then "" else "." ++ String.ofList rest)
      ++ exponentText (d.point - 1)

/-- All digits in their places, without an exponent. -/
def positional (d : DigitString) : String :=
  let whole := d.digits.take d.point.toNat
  let wholeText :=
    if d.point ≤ 0 then ['0'] else whole ++ List.replicate (d.point.toNat - whole.length) '0'
  let part := List.replicate (-d.point).toNat '0' ++ d.digits.drop d.point.toNat
  String.ofList wholeText ++
    (if (d.digits.length : Int) ≤ d.point || d.digits.isEmpty then ""
      else "." ++ String.ofList part)

/-- The exponent of the first digit is one that is written positionally. -/
def isPositional (d : DigitString) : Bool :=
  -4 ≤ d.point - 1 && d.point - 1 < 6

end DigitString

/-- A double in scientific form. -/
def scientificText (bits : UInt64) : String :=
  match specialText? bits with
  | some s => s
  | none => signText bits ++ (DigitString.ofBits bits).scientific

/-- A double in general form. -/
def generalText (bits : UInt64) : String :=
  match specialText? bits with
  | some s => s
  | none =>
    let d := DigitString.ofBits bits
    signText bits ++ (if d.isPositional then d.positional else d.scientific)

end TinyC.Number
