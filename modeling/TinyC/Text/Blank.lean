import TinyC.Text.Ranges

/-!
# White space

The characters that separate tokens of a program and numbers of a program's input: those with
the Unicode property `White_Space`.
-/

namespace TinyC.Text

/-- The ranges of code points with the property `White_Space`. -/
def blankRanges : List (Nat × Nat) :=
  [(0x09, 0x0D), (0x20, 0x20), (0x85, 0x85), (0xA0, 0xA0), (0x1680, 0x1680), (0x2000, 0x200A),
   (0x2028, 0x2029), (0x202F, 0x202F), (0x205F, 0x205F), (0x3000, 0x3000)]

/-- `c` is white space. -/
def isBlank (c : Char) : Bool :=
  inRanges blankRanges c.toNat

end TinyC.Text
