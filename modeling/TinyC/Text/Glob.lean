/-!
# Patterns for names

A pattern stands for the names that it matches: `*` for any characters, `?` for one, and
characters in brackets for one of them, or behind `^` for one that is none of them; there
`a-z` is a range. A backslash takes away the meaning of the character behind it. A pattern that
is not well formed matches nothing.

`Glob.covers` reads the pattern from the front and keeps the ends of the name that are left to be
matched. There is at most one of each length and the longest comes first, so a star leaves just
the ends of the longest.
-/

namespace TinyC.Text

/-- The pieces of a pattern. -/
inductive Glob where
  | star
  | one
  | char (c : Char)
  | range (negated : Bool) (ranges : List (Char × Char))
  deriving Repr, DecidableEq

namespace Glob

/-- A character in brackets, and the text behind it, which cannot be at its end there. -/
def member? : List Char → Option (Char × List Char)
  | '\\' :: c :: d :: rest => some (c, d :: rest)
  | c :: d :: rest => if c == '-' || c == ']' || c == '\\' then none else some (c, d :: rest)
  | _ => none

/-- The ranges up to the closing bracket, of which there must be one, and the text behind it.
Every range takes a character, so the length of the text is enough for `fuel`. -/
def ranges? : Nat → List (Char × Char) → List Char → Option (List (Char × Char) × List Char)
  | 0, _, _ => none
  | fuel + 1, done, cs =>
    match cs, done with
    | ']' :: rest, _ :: _ => some (done.reverse, rest)
    | cs, done => do
      let (low, rest) ← member? cs
      match rest with
      | '-' :: rest =>
        let (high, rest) ← member? rest
        ranges? fuel ((low, high) :: done) rest
      | rest => ranges? fuel ((low, low) :: done) rest

/-- The pieces of a pattern; nothing if it is not well formed. Every piece takes a character, so
the length of the pattern is enough for `fuel`. -/
def pieces? : Nat → List Char → Option (List Glob)
  | _, [] => some []
  | 0, _ :: _ => none
  | fuel + 1, c :: cs =>
    match c, cs with
    | '*', cs => (pieces? fuel cs).map (star :: ·)
    | '?', cs => (pieces? fuel cs).map (one :: ·)
    | '\\', c :: cs => (pieces? fuel cs).map (char c :: ·)
    | '\\', [] => none
    | '[', '^' :: cs => do
      let (rs, rest) ← ranges? (cs.length + 1) [] cs
      (pieces? fuel rest).map (range true rs :: ·)
    | '[', cs => do
      let (rs, rest) ← ranges? (cs.length + 1) [] cs
      (pieces? fuel rest).map (range false rs :: ·)
    | c, cs => (pieces? fuel cs).map (char c :: ·)

/-- The piece stands for a character. -/
def admits : Glob → Char → Bool
  | star, _ => true
  | one, _ => true
  | char d, c => c == d
  | range negated rs, c => (rs.any fun r => r.1 ≤ c && c ≤ r.2) != negated

/-- The end of a name behind a piece that stands for its first character. -/
def take? (g : Glob) : List Char → Option (List Char)
  | c :: cs => if g.admits c then some cs else none
  | [] => none

/-- The ends of a name, the longest first. -/
def ends : List Char → List (List Char)
  | [] => [[]]
  | c :: cs => (c :: cs) :: ends cs

/-- What is left of a name behind a piece, where `left` was left before it. -/
def step (left : List (List Char)) (g : Glob) : List (List Char) :=
  match g, left with
  | star, cs :: _ => ends cs
  | star, [] => []
  | g, left => left.filterMap g.take?

/-- The pieces match the whole name. -/
def covers (gs : List Glob) (name : List Char) : Bool :=
  (gs.foldl step [name]).any List.isEmpty

end Glob

/-- The pattern matches the name. -/
def globMatches (pattern name : String) : Bool :=
  match Glob.pieces? pattern.length pattern.toList with
  | some gs => Glob.covers gs name.toList
  | none => false

/-- A star alone matches every name. -/
theorem Glob.covers_star (name : List Char) : Glob.covers [.star] name = true := by
  have h : ∀ cs : List Char, (Glob.ends cs).any List.isEmpty = true := by
    intro cs
    induction cs with
    | nil => rfl
    | cons c cs ih => simp [Glob.ends, ih]
  simpa [Glob.covers, Glob.step] using h name

end TinyC.Text
