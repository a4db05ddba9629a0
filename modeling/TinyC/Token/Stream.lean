import TinyC.Note
import TinyC.Token.Lexeme

/-!
# The token stream of a program

A `Cursor` stands at a place of a program and gives the tokens from there on, one at a time
(`Cursor.next`). The end of the program is a token of its own, and a cursor at the end gives it
again and again. A stretch that is no token is given as an `invalid` token that carries the
diagnostic, and the stream goes on behind it.

`Cursor.tokens` is the stream as analysis sees it: up to the first token that is `invalid` or
the end.

A token's position is the line on which it ends and the columns from its first byte to its last.
A program that breaks off because reading it failed ends in an `invalid` token that reports a
null character of no width.
-/

namespace TinyC

open Text (Glyph)

/-- The text of a program: the name of its file, its bytes, and whether reading failed behind
them. -/
structure Source where
  file : String
  bytes : List UInt8
  broken : Bool := false

/-- A place in a program. -/
structure Cursor where
  file : String
  broken : Bool
  line : Nat
  col : Nat
  rest : List Glyph

/-- A token with what reading it left on record: `overran` says that its end was sought behind
the place where reading the program failed. -/
structure Lexed where
  token : Token
  overran : Bool := false

namespace Lexed

/-- The notes on a token: that a failed reading could not be taken back, and the token itself. -/
def notes (t : Lexed) : List Note :=
  (if t.overran then [Note.info "bufio: invalid use of UnreadRune"] else []) ++
    (if t.token.kind == .invalid || t.token.kind == .eof then []
     else [Note.detail .lexer 2 ("Emitting " ++ t.token.kind.name ++ " spelled "
       ++ Text.quoted t.token.spelling ++ " at " ++ t.token.pos.text)])

/-- The stream of tokens goes on behind this one for analysis. -/
def goesOn (t : Lexed) : Bool :=
  t.token.kind != .invalid && t.token.kind != .eof

end Lexed

namespace Cursor

/-- The start of a program. -/
def start (s : Source) : Cursor :=
  ⟨s.file, s.broken, 0, 0, Text.glyphs s.bytes⟩

/-- The line and column behind a glyph. -/
def past (place : Nat × Nat) (g : Glyph) : Nat × Nat :=
  if g.char == '\n' then (place.1 + 1, 0) else (place.1, place.2 + g.width)

/-- The cursor behind some glyphs, with the text that follows them. -/
def advance (c : Cursor) (gs rest : List Glyph) : Cursor :=
  let (line, col) := gs.foldl past (c.line, c.col)
  { c with line, col, rest }

@[simp] theorem rest_advance (c : Cursor) (gs rest : List Glyph) :
    (c.advance gs rest).rest = rest := rfl

/-- The cursor behind the white space and comments at it. -/
def skip (c : Cursor) : Cursor :=
  let (skipped, rest) := trivia false c.rest
  c.advance skipped rest

theorem length_rest_skip_le (c : Cursor) : c.skip.rest.length ≤ c.rest.length :=
  length_trivia_snd_le false c.rest

/-- The position of a token that reaches from the cursor `c` to the cursor `d`. -/
def span (c d : Cursor) : Position :=
  ⟨c.file, d.line, c.col, (d.col : Int) - 1⟩

/-- The `invalid` token for a flaw. -/
def flawed (f : Flaw) (pos : Position) : Token :=
  let d := f.diagnostic pos
  ⟨.invalid, d.msg, .fault d, pos⟩

/-- The token at the end of the program. -/
def ending (c : Cursor) : Token :=
  if c.broken then flawed (.unexpectedInput '\x00') (c.span c)
  else ⟨.eof, "", .none, ⟨c.file, c.line, c.col, c.col⟩⟩

/-- The token of a lexeme at a position. -/
def tokenOf (l : Lexeme) (pos : Position) : Token :=
  match l.reading with
  | .ok (kind, value) => ⟨kind, l.spelling, value, pos⟩
  | .error f => flawed f pos

/-- The token right at the cursor, and the cursor behind it. -/
def read (c : Cursor) : Lexed × Cursor :=
  match c.rest with
  | [] => (⟨c.ending, false⟩, c)
  | g :: gs =>
    let l := Lexeme.scan c.broken g gs
    let d := c.advance l.glyphs l.rest
    (⟨tokenOf l (c.span d), l.probed && l.rest.isEmpty && c.broken⟩, d)

/-- The next token and the cursor behind it. -/
def next (c : Cursor) : Lexed × Cursor :=
  c.skip.read

/-- Where text is left, reading a token shortens it. -/
theorem length_rest_read_lt {c : Cursor} (h : c.rest ≠ []) :
    c.read.2.rest.length < c.rest.length := by
  unfold read
  split
  · contradiction
  · rename_i g gs hrest
    rw [hrest]
    exact Lexeme.length_scan_rest_lt c.broken g gs

/-- Where text is left behind white space and comments, the next token shortens it. -/
theorem length_rest_next_lt {c : Cursor} (h : c.skip.rest ≠ []) :
    c.next.2.rest.length < c.rest.length :=
  Nat.lt_of_lt_of_le (length_rest_read_lt h) c.length_rest_skip_le

/-- The tokens up to the first that is `invalid` or the end. -/
def tokens (c : Cursor) : List Lexed :=
  if c.skip.rest = [] then [c.next.1]
  else if c.next.1.goesOn then c.next.1 :: tokens c.next.2
  else [c.next.1]
termination_by c.rest.length
decreasing_by exact length_rest_next_lt (by assumption)

/-- All tokens up to the end, those that are `invalid` included, and then `extra` more. -/
def allTokens (c : Cursor) (extra : Nat) : List Lexed :=
  if c.skip.rest = [] then List.replicate (extra + 1) c.next.1
  else c.next.1 :: allTokens c.next.2 extra
termination_by c.rest.length
decreasing_by exact length_rest_next_lt (by assumption)

end Cursor

/-- The tokens of a program as analysis sees them. -/
def Source.tokens (s : Source) : List Lexed :=
  (Cursor.start s).tokens

end TinyC
