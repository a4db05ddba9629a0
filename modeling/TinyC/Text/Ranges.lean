/-!
# Character classes as lists of ranges

A class of characters beyond ASCII is given by the ranges of code points that belong to it.
`inRanges` is membership in such a list. A long list is written down by lengths (`rangesFrom`): how
many code points are left out before a range, and how many are in it.
-/

namespace TinyC.Text

/-- The ranges from code point `n` on, told by the lengths of gaps and ranges in turns. -/
def rangesFrom (n : Nat) : List Nat → List (Nat × Nat)
  | gap :: length :: rest =>
    (n + gap, n + gap + length - 1) :: rangesFrom (n + gap + length) rest
  | _ => []

/-- The code point `n` lies in one of the closed ranges. -/
def inRanges (ranges : List (Nat × Nat)) (n : Nat) : Bool :=
  ranges.any fun r => r.1 ≤ n && n ≤ r.2

/-- Membership says that some range of the list holds the code point. -/
theorem inRanges_iff {ranges : List (Nat × Nat)} {n : Nat} :
    inRanges ranges n = true ↔ ∃ r ∈ ranges, r.1 ≤ n ∧ n ≤ r.2 := by
  simp [inRanges]

end TinyC.Text
