import TinyC.Number.Binary64

/-!
# Reading numbers

The rules by which texts are read as numbers, for literals of a program and for a running
program's input.

* A whole number (`readInt`) may have a sign; `0b`, `0o`, `0x` or a leading `0` choose base two,
  eight, sixteen or eight, and `_` may stand between digits or behind the base mark.
* A plain decimal (`readDecimal`) has a sign and digits only.
* A double (`readDouble`) is decimal, or hexadecimal behind `0x` with a binary exponent, or one
  of the words for infinity and not-a-number, in any case. It is rounded once, correctly.

A text outside the grammar is `malformed`; a value that does not fit is `outOfRange`.
-/

namespace TinyC.Number

/-- Why a text is not read as a number. -/
inductive NumeralError where
  | malformed
  | outOfRange
  deriving Repr, DecidableEq

/-- How the reason is worded. -/
def NumeralError.message : NumeralError → String
  | .malformed => "invalid syntax"
  | .outOfRange => "value out of range"

/-- The value of a digit or letter as a digit of some base up to thirty-six. -/
def digitValue? (c : Char) : Option Nat :=
  let n := c.toLower.toNat
  if c.isDigit then some (c.toNat - '0'.toNat)
  else if 'a'.toNat ≤ n && n ≤ 'z'.toNat then some (n - 'a'.toNat + 10)
  else none

/-- The text without its sign, and whether the sign was a minus. -/
def splitSign : List Char → Bool × List Char
  | '-' :: cs => (true, cs)
  | '+' :: cs => (false, cs)
  | cs => (false, cs)

/-- What stood just before a character of a number, as far as `_` is concerned. -/
inductive Neighbour where
  | start
  | digit
  | underscore
  | other
  deriving DecidableEq

/-- Every `_` stands between two digits; `hex` says whether letters to `f` are digits. -/
def underscoresFit (hex : Bool) : Neighbour → List Char → Bool
  | before, [] => before != .underscore
  | before, c :: cs =>
    if c.isDigit || (hex && (digitValue? c).any (· < 16)) then underscoresFit hex .digit cs
    else if c == '_' then before == .digit && underscoresFit hex .underscore cs
    else before != .underscore && underscoresFit hex .other cs

/-- The places of `_` in a whole number with its optional sign and base mark, which counts as a
digit. -/
def underscoresOk (cs : List Char) : Bool :=
  match (splitSign cs).2 with
  | '0' :: c :: rest =>
    if "bBoOxX".toList.contains c then underscoresFit (c == 'x' || c == 'X') .digit rest
    else underscoresFit false .start ('0' :: c :: rest)
  | rest => underscoresFit false .start rest

/-- The base that a number without its sign is written in, and its digits. -/
def splitBase : List Char → Nat × List Char
  | '0' :: c :: d :: rest =>
    if c == 'b' || c == 'B' then (2, d :: rest)
    else if c == 'o' || c == 'O' then (8, d :: rest)
    else if c == 'x' || c == 'X' then (16, d :: rest)
    else (8, c :: d :: rest)
  | '0' :: rest => (8, rest)
  | cs => (10, cs)

/-- The value of digits in a base, read from the left; the first fault decides. `_` is skipped
where `gaps` allows it. A value beyond 64 bits is out of range at once. -/
def readDigits (base : Nat) (gaps : Bool) : Nat → List Char → Except NumeralError Nat
  | n, [] => .ok n
  | n, c :: cs =>
    if gaps && c == '_' then readDigits base gaps n cs
    else
      match digitValue? c with
      | none => .error .malformed
      | some d =>
        if base ≤ d then .error .malformed
        else if 2 ^ 64 ≤ n * base + d then .error .outOfRange
        else readDigits base gaps (n * base + d) cs

/-- A magnitude with its sign as a 64-bit integer. -/
def signed? (negative : Bool) (n : Nat) : Except NumeralError Int64 :=
  if negative then
    if 2 ^ 63 < n then .error .outOfRange else .ok (Int64.ofInt (-(n : Int)))
  else
    if 2 ^ 63 ≤ n then .error .outOfRange else .ok (Int64.ofNat n)

/-- Reads a whole number in any base. -/
def readInt (cs : List Char) : Except NumeralError Int64 := do
  let (negative, unsigned) := splitSign cs
  if unsigned.isEmpty then throw .malformed
  let (base, digits) := splitBase unsigned
  let n ← readDigits base true 0 digits
  if unsigned.contains '_' && !underscoresOk unsigned then throw .malformed
  signed? negative n

/-- Reads a plain decimal. -/
def readDecimal (cs : List Char) : Except NumeralError Int64 := do
  let (negative, digits) := splitSign cs
  if digits.isEmpty then throw .malformed
  let n ← readDigits 10 false 0 digits
  signed? negative n

/-- The digits of a double before its exponent: their value, how many stand behind the point,
and what has been met. -/
structure Mantissa where
  value : Nat := 0
  places : Nat := 0
  dot : Bool := false
  digits : Bool := false

/-- Reads digits, at most one point, and `_`; the rest starts with another character. -/
def readMantissa (base : Nat) : Mantissa → List Char → Mantissa × List Char
  | m, [] => (m, [])
  | m, c :: cs =>
    if c == '_' then readMantissa base m cs
    else if c == '.' && !m.dot then readMantissa base { m with dot := true } cs
    else
      match digitValue? c with
      | some d =>
        if d < base then
          readMantissa base
            { m with value := m.value * base + d, digits := true,
                     places := if m.dot then m.places + 1 else m.places } cs
        else (m, c :: cs)
      | none => (m, c :: cs)

/-- The value of exponent digits. From ten thousand on further digits change nothing, as the
number is far out of range then. -/
def exponentValue (digits : List Char) : Nat :=
  digits.foldl (fun e c => if c == '_' || 10000 ≤ e then e else e * 10 + (c.toNat - '0'.toNat)) 0

/-- Reads the exponent behind its mark, which must be the last thing in the text. -/
def readExponent (cs : List Char) : Except NumeralError Int :=
  let (negative, digits) := splitSign cs
  match digits with
  | [] => .error .malformed
  | c :: _ =>
    if c.isDigit && digits.all (fun d => d.isDigit || d == '_') then
      let e : Int := exponentValue digits
      .ok (if negative then -e else e)
    else .error .malformed

/-- A word that is read as a double, in any case of its letters. -/
def specialWord? (cs : List Char) : Option UInt64 :=
  let (negative, rest) := splitSign cs
  let word := String.ofList (rest.map Char.toLower)
  if word == "inf" || word == "infinity" then
    some (Binary64.withSign negative Binary64.infinity)
  else if word == "nan" && rest.length == cs.length then some Binary64.notANumber
  else none

/-- The base mark of a hexadecimal double is there, with something behind it. -/
def splitHex : List Char → Option (List Char)
  | '0' :: c :: d :: rest => if c == 'x' || c == 'X' then some (d :: rest) else none
  | _ => none

/-- Reads a double that is no special word. -/
def readFinite (cs : List Char) : Except NumeralError UInt64 := do
  let (negative, unsigned) := splitSign cs
  let hex := splitHex unsigned
  let base := if hex.isSome then 16 else 10
  let (m, rest) := readMantissa base {} (hex.getD unsigned)
  if !m.digits then throw .malformed
  let mark := if hex.isSome then 'p' else 'e'
  let e ← match rest with
    | [] => if hex.isSome then throw .malformed else pure 0
    | c :: rest => if c.toLower == mark then readExponent rest else throw .malformed
  if cs.contains '_' && !underscoresOk cs then throw .malformed
  let value :=
    if hex.isSome then Binary64.ofScaled? m.value 2 (e - 4 * m.places)
    else Binary64.ofScaled? m.value 10 (e - m.places)
  match value with
  | some bits => return Binary64.withSign negative bits
  | none => throw .outOfRange

/-- Reads a double. -/
def readDouble (cs : List Char) : Except NumeralError UInt64 :=
  match specialWord? cs with
  | some bits => .ok bits
  | none => readFinite cs

end TinyC.Number
