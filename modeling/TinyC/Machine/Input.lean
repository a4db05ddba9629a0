import TinyC.Number.Numeral
import TinyC.Text.Blank
import TinyC.Text.Quoted

/-!
# Input of the machine

The bytes that a running program has not read yet. Reading a number skips white space, takes as
many characters as can belong to a number, and leaves the first other character unread. Which
characters those are is decided one at a time, so that the taken text need not be a number after
all.

Input can break: then an attempt to read behind its last byte fails, where sound input would
just be at its end.
-/

namespace TinyC

open Text (Glyph isBlank)
open Number (NumeralError Binary64.scaleBy readInt readDouble readDecimal)

/-- The bytes that have not been read, and whether reading fails behind them. -/
structure Input where
  rest : List UInt8
  broken : Bool := false
  deriving Repr, DecidableEq

/-- The kinds of numerals that are read. -/
inductive NumeralKind where
  | whole
  | real
  /-- The power of two behind a real. -/
  | power
  deriving Repr, DecidableEq

/-- The reader that a complaint about a numeral names. -/
def NumeralKind.reader : NumeralKind → String
  | whole => "strconv.ParseInt"
  | real => "strconv.ParseFloat"
  | power => "strconv.Atoi"

/-- Why no number can be read. -/
inductive InputError where
  /-- The input is at its end. -/
  | ended
  /-- Reading failed. -/
  | failed
  /-- A character that starts no integer. -/
  | notInteger
  /-- The text taken is no number. -/
  | numeral (kind : NumeralKind) (text : String) (e : NumeralError)
  deriving Repr, DecidableEq

/-- The wording of the reason. -/
def InputError.message : InputError → String
  | ended => "EOF"
  | failed => "input failed"
  | notInteger => "expected integer"
  | numeral kind text e => kind.reader ++ ": parsing " ++ Text.quoted text ++ ": " ++ e.message

/-- Reading from the input. -/
abbrev Scan (α : Type) := ExceptT InputError (StateM Input) α

namespace Input

/-- The bytes behind the white space at the front. -/
def dropBlanks : List UInt8 → List UInt8
  | [] => []
  | a :: rest =>
    if isBlank (Glyph.first a rest).1.char then dropBlanks (Glyph.first a rest).2 else a :: rest
termination_by bs => bs.length
decreasing_by exact Nat.lt_succ_of_le (Glyph.length_first_snd_le a rest)

/-- The byte is a character with the property. -/
def isChar (p : Char → Bool) (b : UInt8) : Bool :=
  b < 128 && p (Char.ofNat b.toNat)

/-- Fails where there is nothing left of broken input. -/
def probe : Scan Unit := do
  let i ← get
  if i.rest.isEmpty && i.broken then throw .failed

/-- Skips white space. -/
def skipBlanks : Scan Unit := do
  modify fun i => { i with rest := dropBlanks i.rest }
  probe

/-- Fails at the end. -/
def notEnded : Scan Unit := do
  probe
  if (← get).rest.isEmpty then throw .ended

/-- The next character has the property. -/
def ahead (p : Char → Bool) : Scan Bool := do
  probe
  return (← get).rest.head?.any (isChar p)

/-- Takes the next character if it has the property. -/
def accept (p : Char → Bool) : Scan (List Char) := do
  probe
  match (← get).rest with
  | b :: rest =>
    if isChar p b then
      modify fun i => { i with rest }
      return [Char.ofNat b.toNat]
    else return []
  | [] => return []

/-- Takes characters as long as they have the property. -/
def acceptAll (p : Char → Bool) : Scan (List Char) := do
  let taken := (← get).rest.takeWhile (isChar p)
  modify fun i => { i with rest := i.rest.dropWhile (isChar p) }
  probe
  return taken.map fun b => Char.ofNat b.toNat

/-- The character is one of a text. -/
def oneOf (s : String) (c : Char) : Bool :=
  s.toList.contains c

/-- Takes the base of an integer and the digits behind it. Behind a zero, digits may follow; else
there has to be one. -/
def magnitude : Scan (List Char) := do
  if ← ahead (· == '0') then
    let zero ← accept (· == '0')
    let mark ← accept (oneOf "bBoOxX")
    let digits ← acceptAll (oneOf (match mark with
      | ['b'] | ['B'] => "01_"
      | ['x'] | ['X'] => "0123456789aAbBcCdDeEfF_"
      | _ => "01234567_"))
    return zero ++ mark ++ digits
  else
    notEnded
    let digit ← accept (oneOf "0123456789_")
    if digit.isEmpty then throw .notInteger
    let digits ← acceptAll (oneOf "0123456789_")
    return digit ++ digits

/-- Takes the text of an integer. -/
def intText : Scan (List Char) := do
  skipBlanks
  notEnded
  let sign ← accept (oneOf "+-")
  let rest ← magnitude
  return sign ++ rest

/-- Reads a numeral; the complaint shows a text of its own. -/
def numeral {α : Type} (kind : NumeralKind) (shown : List Char) (r : Except NumeralError α) :
    Scan α :=
  match r with
  | .ok a => pure a
  | .error e => throw (.numeral kind (String.ofList shown) e)

/-- Reads an integer. -/
def readInteger : Scan Int64 := do
  let text ← intText
  numeral .whole text (readInt text)

/-- Takes a word of three letters, given in both cases, as far as it goes. -/
def acceptWord (a b c : String) : Scan (List Char) := do
  let x ← accept (oneOf a)
  if x.isEmpty then return []
  let y ← accept (oneOf b)
  if y.isEmpty then return x
  let z ← accept (oneOf c)
  return x ++ y ++ z

/-- Takes the fraction of a real. -/
def fraction (digits : String) : Scan (List Char) := do
  let point ← accept (· == '.')
  if point.isEmpty then return []
  let ds ← acceptAll (oneOf digits)
  return point ++ ds

/-- Takes the exponent of a real. -/
def exponent (marks : String) : Scan (List Char) := do
  let mark ← accept (oneOf marks)
  if mark.isEmpty then return []
  let sign ← accept (oneOf "+-")
  let ds ← acceptAll (oneOf "0123456789_")
  return mark ++ sign ++ ds

/-- Takes the digits, the fraction and the exponent of a real. -/
def realDigits : Scan (List Char) := do
  let zero ← accept (· == '0')
  let mark ← if zero.isEmpty then pure [] else accept (oneOf "xX")
  let (digits, marks) :=
    if mark.isEmpty then ("0123456789_", "eEpP") else ("0123456789aAbBcCdDeEfF_", "pP")
  let whole ← acceptAll (oneOf digits)
  let part ← fraction digits
  let power ← exponent marks
  return zero ++ mark ++ whole ++ part ++ power

/-- Takes the text of a real. -/
def realText : Scan (List Char) := do
  skipBlanks
  notEnded
  let nan ← acceptWord "nN" "aA" "nN"
  if nan.length = 3 then return nan
  let sign ← accept (oneOf "+-")
  let inf ← acceptWord "iI" "nN" "fF"
  if inf.length = 3 then return nan ++ sign ++ inf
  let rest ← realDigits
  return nan ++ sign ++ inf ++ rest

/-- The value of the text of a real. A decimal can be followed by a power of two that it is
multiplied with. -/
def realOf (text : List Char) : Scan UInt64 :=
  if text.contains 'p' && !text.any (oneOf "xX") then do
    let bits ← numeral .real text (readDouble (text.takeWhile (· != 'p')))
    let n ← numeral .power text (readDecimal ((text.dropWhile (· != 'p')).drop 1))
    return Number.Binary64.scaleBy bits n
  else numeral .real text (readDouble text)

/-- Reads a real. -/
def readReal : Scan UInt64 := do
  realOf (← realText)

/-- Reads a byte; nothing at the end. -/
def readByte : Scan (Option UInt8) := do
  probe
  match (← get).rest with
  | b :: rest =>
    modify fun i => { i with rest }
    return some b
  | [] => return none

end Input

end TinyC
