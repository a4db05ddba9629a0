import TinyC.Position

/-!
# Diagnostics

What the compiler says about a program that it rejects: a code, a position and a message. Codes
form two families, lexical and semantic; the codes are numbered, lexical ones first.
-/

namespace TinyC

/-- The two families of codes, and numbers that name none. -/
inductive Family where
  | lexical
  | semantic
  | unlisted (number : Int)
  deriving Repr, DecidableEq

namespace Family

/-- The family with a number. -/
def ofNumber : Int → Family
  | 0 => lexical
  | 1 => semantic
  | n => unlisted n

/-- The name of a family. -/
def name : Family → String
  | lexical => "lexical"
  | semantic => "semantic"
  | unlisted n => "Family(" ++ toString n ++ ")"

end Family

/-- What is wrong with a program, in general terms. -/
inductive Code where
  /-- A character that starts no token. -/
  | invalidInput
  /-- A malformed number. -/
  | invalidNumber
  /-- A whole number of more than 64 bits. -/
  | integerOverflow
  /-- A malformed character literal. -/
  | invalidChar
  /-- An unknown escape sequence. -/
  | invalidEscape
  /-- A raw character that may not stand in a string literal. -/
  | invalidString
  /-- A string literal that the end of the program cuts off. -/
  | unterminatedString
  /-- A token where the grammar allows none of its kind. -/
  | expectedToken
  /-- A name declared twice in one table. -/
  | duplicateDeclaration
  /-- A name that no visible table holds. -/
  | notDeclared
  /-- Types that do not agree. -/
  | typeMismatch
  /-- An assignment to a constant. -/
  | assignToConstant
  /-- A local variable read before any assignment. -/
  | notInitialized
  /-- A constant declared without a value. -/
  | constantNeedsValue
  /-- A return with a value where none belongs, or without one where one belongs. -/
  | invalidReturn
  /-- A function that may end without returning its value. -/
  | missingReturn
  /-- A break outside any loop. -/
  | breakOutsideLoop
  /-- A continue outside any loop. -/
  | continueOutsideLoop
  /-- A call with too many or too few arguments. -/
  | argumentCount
  /-- A cast of something that is no number. -/
  | invalidCast
  /-- A name that stands for no variable. -/
  | notAVariable
  /-- A number that names no code. -/
  | unlisted (number : Int)
  deriving Repr, DecidableEq

namespace Code

/-- The number of a code. -/
def number : Code → Int
  | invalidInput => 0
  | invalidNumber => 1
  | integerOverflow => 2
  | invalidChar => 3
  | invalidEscape => 4
  | invalidString => 5
  | unterminatedString => 6
  | expectedToken => 7
  | duplicateDeclaration => 8
  | notDeclared => 9
  | typeMismatch => 10
  | assignToConstant => 11
  | notInitialized => 12
  | constantNeedsValue => 13
  | invalidReturn => 14
  | missingReturn => 15
  | breakOutsideLoop => 16
  | continueOutsideLoop => 17
  | argumentCount => 18
  | invalidCast => 19
  | notAVariable => 20
  | unlisted n => n

/-- The code with a number. -/
def ofNumber : Int → Code
  | 0 => invalidInput
  | 1 => invalidNumber
  | 2 => integerOverflow
  | 3 => invalidChar
  | 4 => invalidEscape
  | 5 => invalidString
  | 6 => unterminatedString
  | 7 => expectedToken
  | 8 => duplicateDeclaration
  | 9 => notDeclared
  | 10 => typeMismatch
  | 11 => assignToConstant
  | 12 => notInitialized
  | 13 => constantNeedsValue
  | 14 => invalidReturn
  | 15 => missingReturn
  | 16 => breakOutsideLoop
  | 17 => continueOutsideLoop
  | 18 => argumentCount
  | 19 => invalidCast
  | 20 => notAVariable
  | n => unlisted n

/-- The name of a code. -/
def name : Code → String
  | invalidInput => "invalid input"
  | invalidNumber => "invalid number"
  | integerOverflow => "integer overflow"
  | invalidChar => "invalid char literal"
  | invalidEscape => "invalid escape sequence"
  | invalidString => "invalid string literal"
  | unterminatedString => "unterminated string literal"
  | expectedToken => "unexpected token"
  | duplicateDeclaration => "duplicate declaration"
  | notDeclared => "not declared"
  | typeMismatch => "type mismatch"
  | assignToConstant => "assignment to constant"
  | notInitialized => "not initialized"
  | constantNeedsValue => "constant needs a value"
  | invalidReturn => "invalid return"
  | missingReturn => "missing return"
  | breakOutsideLoop => "break outside loop"
  | continueOutsideLoop => "continue outside loop"
  | argumentCount => "wrong argument count"
  | invalidCast => "invalid cast"
  | notAVariable => "not a variable"
  | unlisted n => "Code(" ++ toString n ++ ")"

/-- The numbers below that of the first semantic code are lexical. -/
def family (c : Code) : Family :=
  if c.number < expectedToken.number then .lexical else .semantic

/-- Reading the number of a code gives the code with that number. -/
@[simp] theorem number_ofNumber (n : Int) : (ofNumber n).number = n := by
  unfold ofNumber
  split <;> rfl

end Code

/-- A located message about a rejected program. -/
structure Diagnostic where
  code : Code
  pos : Position
  msg : String
  deriving Repr, DecidableEq

namespace Diagnostic

/-- The family of a diagnostic is that of its code. -/
def family (d : Diagnostic) : Family :=
  d.code.family

/-- The whole text: position, name of the code, message. -/
def text (d : Diagnostic) : String :=
  d.pos.text ++ ": " ++ d.code.name ++ ": " ++ d.msg

/-- The message for a token that is none of those wanted. -/
def expectedMessage (want : List String) (found : String) : String :=
  "expected " ++ String.intercalate " or " want ++ ", found " ++ found

/-- The diagnostic for a token that is none of those wanted. -/
def expected (pos : Position) (want : List String) (found : String) : Diagnostic :=
  ⟨.expectedToken, pos, expectedMessage want found⟩

end Diagnostic

end TinyC
