/-!
# Reading characters from bytes

Program text and program input are bytes. A `Glyph` is one character read from the front of a
byte list together with the bytes it was read from. A byte that does not start a well-formed
UTF-8 sequence is a glyph of its own, showing the replacement character; so every byte list
splits into glyphs, and no byte is lost (`flatMap_raw_glyphs`).
-/

namespace TinyC.Text

/-- One character with the bytes that spell it. -/
structure Glyph where
  char : Char
  raw : List UInt8
  deriving Repr, DecidableEq

/-- The character shown for a byte that belongs to no well-formed sequence. -/
def replacement : Char := '�'

/-- The number of bytes of a glyph. -/
def Glyph.width (g : Glyph) : Nat := g.raw.length

/-- A single byte that could not be decoded. -/
def Glyph.isBroken (g : Glyph) : Bool :=
  g.char == replacement && g.raw.length == 1

/-- A byte that continues a sequence. -/
def isTail (b : UInt8) : Bool :=
  0x80 ≤ b && b ≤ 0xBF

/-- The character with code point `n`, unless it has a shorter spelling (`n < least`) or is no
scalar value. -/
def scalar? (least n : Nat) : Option Char :=
  if least ≤ n ∧ n.isValidChar then some (Char.ofNat n) else none

/-- The six low bits of a continuation byte. -/
def tailBits (b : UInt8) : Nat := b.toNat % 64

/-- The character spelled by the lead byte `a` and the bytes after it, with the number of
continuation bytes used. -/
def sequence? (a : UInt8) (rest : List UInt8) : Option (Char × Nat) :=
  if a < 0x80 then
    some (Char.ofNat a.toNat, 0)
  else if 0xC0 ≤ a && a ≤ 0xDF then
    match rest with
    | b :: _ =>
      if isTail b then
        (scalar? 0x80 (a.toNat % 32 * 64 + tailBits b)).map (·, 1)
      else none
    | _ => none
  else if 0xE0 ≤ a && a ≤ 0xEF then
    match rest with
    | b :: c :: _ =>
      if isTail b && isTail c then
        (scalar? 0x800 ((a.toNat % 16 * 64 + tailBits b) * 64 + tailBits c)).map (·, 2)
      else none
    | _ => none
  else if 0xF0 ≤ a && a ≤ 0xF7 then
    match rest with
    | b :: c :: d :: _ =>
      if isTail b && isTail c && isTail d then
        (scalar? 0x10000
          (((a.toNat % 8 * 64 + tailBits b) * 64 + tailBits c) * 64 + tailBits d)).map (·, 3)
      else none
    | _ => none
  else none

/-- The first glyph of a non-empty byte list and the bytes after it. -/
def Glyph.first (a : UInt8) (rest : List UInt8) : Glyph × List UInt8 :=
  match sequence? a rest with
  | some (c, n) => (⟨c, a :: rest.take n⟩, rest.drop n)
  | none => (⟨replacement, [a]⟩, rest)

/-- The first glyph and the rest, or nothing at the end. -/
def Glyph.next? : List UInt8 → Option (Glyph × List UInt8)
  | [] => none
  | a :: rest => some (Glyph.first a rest)

/-- Reading a glyph loses no byte. -/
theorem Glyph.first_raw_append (a : UInt8) (rest : List UInt8) :
    (Glyph.first a rest).1.raw ++ (Glyph.first a rest).2 = a :: rest := by
  unfold Glyph.first
  cases sequence? a rest with
  | none => rfl
  | some p => simp

/-- Reading a glyph leaves at most the bytes after the first. -/
theorem Glyph.length_first_snd_le (a : UInt8) (rest : List UInt8) :
    (Glyph.first a rest).2.length ≤ rest.length := by
  unfold Glyph.first
  cases sequence? a rest with
  | none => simp
  | some p => simp

/-- All glyphs of a byte list, in order. -/
def glyphs : List UInt8 → List Glyph
  | [] => []
  | a :: rest => (Glyph.first a rest).1 :: glyphs (Glyph.first a rest).2
termination_by bs => bs.length
decreasing_by
  have := Glyph.length_first_snd_le a rest
  simp only [List.length_cons]
  omega

/-- The glyphs of a byte list spell exactly that list. -/
theorem flatMap_raw_glyphs (bs : List UInt8) : (glyphs bs).flatMap Glyph.raw = bs := by
  fun_induction glyphs bs with
  | case1 => rfl
  | case2 a rest ih => simp [ih, Glyph.first_raw_append]

/-- The bytes of a text. -/
def bytesOf (s : String) : List UInt8 :=
  s.toUTF8.toList

end TinyC.Text
