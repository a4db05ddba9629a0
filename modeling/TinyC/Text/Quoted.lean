import TinyC.Text.Glyph
import TinyC.Text.Printable

/-!
# Quoted text

Texts in messages stand in quotes. Printable characters are shown as themselves, the quote and
the backslash behind a backslash, the seven common control characters by a letter, other ASCII
control characters and undecodable bytes by two hexadecimal digits, and all remaining
characters by their code point in four or eight hexadecimal digits.
-/

namespace TinyC.Text

/-- `n` in base sixteen, filled up with zeros to `width` digits. -/
def hex (width n : Nat) : String :=
  let digits := Nat.toDigits 16 n
  String.ofList (List.replicate (width - digits.length) '0' ++ digits)

/-- The letter that stands for a common control character behind a backslash. -/
def controlLetter? (c : Char) : Option Char :=
  match c.toNat with
  | 0x07 => some 'a'
  | 0x08 => some 'b'
  | 0x0C => some 'f'
  | 0x0A => some 'n'
  | 0x0D => some 'r'
  | 0x09 => some 't'
  | 0x0B => some 'v'
  | _ => none

/-- One character of quoted text between two `quote` characters. -/
def escapeChar (quote c : Char) : String :=
  if c == quote || c == '\\' then String.ofList ['\\', c]
  else if isPrintable c then String.singleton c
  else
    match controlLetter? c with
    | some letter => String.ofList ['\\', letter]
    | none =>
      if c.toNat < 0x20 || c.toNat == 0x7F then "\\x" ++ hex 2 c.toNat
      else if c.toNat < 0x10000 then "\\u" ++ hex 4 c.toNat
      else "\\U" ++ hex 8 c.toNat

/-- One glyph of quoted text: an undecodable byte is shown as that byte. -/
def escapeGlyph (quote : Char) (g : Glyph) : String :=
  match g.raw with
  | [b] => if g.char == replacement then "\\x" ++ hex 2 b.toNat else escapeChar quote g.char
  | _ => escapeChar quote g.char

/-- A text in double quotes. -/
def quoted (s : String) : String :=
  "\"" ++ String.join (s.toList.map (escapeChar '"')) ++ "\""

/-- Bytes in double quotes. -/
def quotedBytes (bs : List UInt8) : String :=
  "\"" ++ String.join ((glyphs bs).map (escapeGlyph '"')) ++ "\""

/-- A character in single quotes. -/
def quotedChar (c : Char) : String :=
  "'" ++ escapeChar '\'' c ++ "'"

end TinyC.Text
