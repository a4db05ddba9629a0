/-!
# Positions in a program

A position is a stretch of one line of a file. Lines and columns count from zero here and from
one in texts, where they are words of 64 bits; columns count bytes. The end column is that of the
last byte.
-/

namespace TinyC

/-- Where something stands in a program. -/
structure Position where
  file : String := ""
  line : Int := 0
  startCol : Int := 0
  endCol : Int := 0
  deriving Repr, DecidableEq, Inhabited

/-- A line or column as a text counts it. -/
def Position.counted (n : Int) : String :=
  toString (Int64.ofInt (n + 1))

/-- The text of a position: `file:line:column`, with the last column where the stretch has more
than one. -/
def Position.text (p : Position) : String :=
  p.file ++ ":" ++ counted p.line ++ ":" ++ counted p.startCol ++
    (if p.startCol < p.endCol then "-" ++ counted p.endCol else "")

end TinyC
