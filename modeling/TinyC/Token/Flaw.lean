import TinyC.Diagnostic
import TinyC.Text.Quoted

/-!
# Flaws of the program text

The reasons why a stretch of program text is no token, with their codes and messages.
-/

namespace TinyC

/-- Why a stretch of text is no token. -/
inductive Flaw where
  | unexpectedInput (c : Char)
  | exponentBeforeFraction (text : String)
  | missingFraction (text : String)
  | missingExponent (text : String)
  | badNumber (text : String)
  | integerTooLarge (text : String)
  | unknownCharEscape
  | unknownStringEscape
  | emptyChar
  | unterminatedChar (text : String)
  | unterminatedString (text : String)
  | rawInString (c : Char)
  deriving Repr, DecidableEq

namespace Flaw

/-- The code of a flaw. -/
def code : Flaw → Code
  | unexpectedInput _ => .invalidInput
  | exponentBeforeFraction _ => .invalidNumber
  | missingFraction _ => .invalidNumber
  | missingExponent _ => .invalidNumber
  | badNumber _ => .invalidNumber
  | integerTooLarge _ => .integerOverflow
  | unknownCharEscape => .invalidEscape
  | unknownStringEscape => .invalidEscape
  | emptyChar => .invalidChar
  | unterminatedChar _ => .invalidChar
  | unterminatedString _ => .unterminatedString
  | rawInString _ => .invalidString

/-- The wording of a flaw. -/
def message : Flaw → String
  | unexpectedInput c => "Unexpected input: " ++ Text.quotedChar c
  | exponentBeforeFraction s => "exponent before fraction in " ++ Text.quoted s
  | missingFraction s => "missing digits after '.' in " ++ Text.quoted s
  | missingExponent s => "missing exponent digits in " ++ Text.quoted s
  | badNumber s => "bad number " ++ Text.quoted s
  | integerTooLarge s => "integer literal " ++ s ++ " out of range"
  | unknownCharEscape => "unknown escape sequence in char literal"
  | unknownStringEscape => "unknown escape sequence in string literal"
  | emptyChar => "empty char literal"
  | unterminatedChar s => "unterminated char literal '" ++ s
  | unterminatedString s => "unterminated string literal: \"" ++ s
  | rawInString c => "raw " ++ Text.quotedChar c ++ " in string literal"

/-- Every flaw is lexical. -/
theorem family_code (f : Flaw) : f.code.family = .lexical := by
  cases f <;> rfl

/-- The diagnostic for a flaw at a position. -/
def diagnostic (f : Flaw) (pos : Position) : Diagnostic :=
  ⟨f.code, pos, f.message⟩

end Flaw

end TinyC
