import TinyC.Diagnostic
import TinyC.Number.Format
import TinyC.Text.Quoted

/-!
# Tokens

A token is a word of a program: its kind, the text it was written as (quotes taken off and
escapes resolved), the value it stands for, and its position. `Token.source` writes a token as
program text again.
-/

namespace TinyC

/-- The kinds of tokens. `invalid` marks a stretch of the program that is no token, and
`unlisted` a number that names no kind. -/
inductive Kind where
  | invalid
  | eof
  | fnKw
  | letKw
  | constKw
  | asKw
  | whileKw
  | ifKw
  | elseKw
  | returnKw
  | breakKw
  | continueKw
  | intKw
  | voidKw
  | doubleKw
  | uintLiteral
  | doubleLiteral
  | charLiteral
  | stringLiteral
  | ident
  | plus
  | minus
  | mul
  | div
  | assign
  | eq
  | neq
  | lt
  | gt
  | le
  | ge
  | lParen
  | rParen
  | lBrace
  | rBrace
  | arrow
  | comma
  | colon
  | semicolon
  | unlisted (number : Int)
  deriving Repr, DecidableEq

namespace Kind

/-- The kinds in the order of their numbers. -/
def listed : List Kind :=
  [invalid, eof, fnKw, letKw, constKw, asKw, whileKw, ifKw, elseKw, returnKw, breakKw, continueKw,
   intKw, voidKw, doubleKw, uintLiteral, doubleLiteral, charLiteral, stringLiteral, ident, plus,
   minus, mul, div, assign, eq, neq, lt, gt, le, ge, lParen, rParen, lBrace, rBrace, arrow, comma,
   colon, semicolon]

/-- The kind with a number. -/
def ofNumber (n : Int) : Kind :=
  if 0 ≤ n then listed.getD n.toNat (unlisted n) else unlisted n

/-- The name of a kind. -/
def name : Kind → String
  | invalid => "INVALID"
  | eof => "EOF"
  | fnKw => "FN_KW"
  | letKw => "LET_KW"
  | constKw => "CONST_KW"
  | asKw => "AS_KW"
  | whileKw => "WHILE_KW"
  | ifKw => "IF_KW"
  | elseKw => "ELSE_KW"
  | returnKw => "RETURN_KW"
  | breakKw => "BREAK_KW"
  | continueKw => "CONTINUE_KW"
  | intKw => "INT_KW"
  | voidKw => "VOID_KW"
  | doubleKw => "DOUBLE_KW"
  | uintLiteral => "UINT_LITERAL"
  | doubleLiteral => "DOUBLE_LITERAL"
  | charLiteral => "CHAR_LITERAL"
  | stringLiteral => "STRING_LITERAL"
  | ident => "IDENT"
  | plus => "PLUS"
  | minus => "MINUS"
  | mul => "MUL"
  | div => "DIV"
  | assign => "ASSIGN"
  | eq => "EQ"
  | neq => "NEQ"
  | lt => "LT"
  | gt => "GT"
  | le => "LE"
  | ge => "GE"
  | lParen => "L_PAREN"
  | rParen => "R_PAREN"
  | lBrace => "L_BRACE"
  | rBrace => "R_BRACE"
  | arrow => "ARROW"
  | comma => "COMMA"
  | colon => "COLON"
  | semicolon => "SEMICOLON"
  | unlisted n => "Kind(" ++ toString n ++ ")"

end Kind

/-- What a token stands for: nothing beyond its kind, an integer or a character code, a double
as a bit pattern, a text, or the reason why it is no token. -/
inductive Value where
  | none
  | int (n : Int64)
  | bits (b : UInt64)
  | text (s : String)
  | fault (d : Diagnostic)
  deriving Repr, DecidableEq

/-- A word of a program. -/
structure Token where
  kind : Kind
  spelling : String
  value : Value
  pos : Position
  deriving Repr, DecidableEq

namespace Token

/-- The integer a token stands for; zero if it stands for none. -/
def int (t : Token) : Int64 :=
  match t.value with
  | .int n => n
  | _ => 0

/-- The bit pattern of the double a token stands for; that of zero if it stands for none. -/
def bits (t : Token) : UInt64 :=
  match t.value with
  | .bits b => b
  | _ => 0

/-- The text a token stands for; empty if it stands for none. -/
def text (t : Token) : String :=
  match t.value with
  | .text s => s
  | _ => ""

/-- A token as it appears in listings: its kind, its spelling in quotes, its position. -/
def describe (t : Token) : String :=
  t.kind.name ++ "(" ++ Text.quoted t.spelling ++ "," ++ t.pos.text ++ ")"

/-- One character of a literal between two `quote` characters, as program text. -/
def escapeIn (quote c : Char) : List Char :=
  match c with
  | '\\' => ['\\', '\\']
  | '\n' => ['\\', 'n']
  | '\r' => ['\\', 'r']
  | '\t' => ['\\', 't']
  | c => if c == quote then ['\\', c] else [c]

/-- A literal between two `quote` characters, as program text. -/
def enclose (quote : Char) (cs : List Char) : String :=
  String.ofList (quote :: cs.flatMap (escapeIn quote) ++ [quote])

/-- The character with the code point in the low 32 bits of a word, read with its sign; the
replacement character if there is none. -/
def charOf (n : Int64) : Char :=
  let code := n.toInt32.toInt
  if 0 ≤ code ∧ code.toNat.isValidChar then Char.ofNat code.toNat else Text.replacement

/-- A number in scientific form as program text, which needs a fraction before an exponent. -/
def withFraction (s : String) : String :=
  let (front, back) := s.toList.span (· != 'e')
  if back.isEmpty || front.contains '.' then s
  else String.ofList (front ++ ['.', '0'] ++ back)

/-- Program text for a token, of the same kind and value. -/
def source (t : Token) : String :=
  match t.kind with
  | .stringLiteral => enclose '"' t.text.toList
  | .charLiteral => enclose '\'' [charOf t.int]
  | .uintLiteral => toString t.int.toUInt64.toNat
  | .doubleLiteral => withFraction (Number.scientificText t.bits)
  | .eof => ""
  | _ => t.spelling

end Token

end TinyC
