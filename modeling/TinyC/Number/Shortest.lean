import TinyC.Number.Binary64

/-!
# The shortest decimal of a double

Of all decimals that round to a given double, `shortest` finds one with the fewest digits, and
of those the nearest; of two that are equally near it takes the one whose last digit is even. The
decimals that round to `m · 2 ^ q` form an interval whose ends belong to it iff `m` is even.
Going from coarse grids `10 ^ p` to fine ones, the two neighbours of the value on the grid are
tested against the interval; the first grid with a hit wins.
-/

namespace TinyC.Number

/-- The number `digits · 10 ^ exponent`. -/
structure Decimal where
  digits : Nat
  exponent : Int
  deriving Repr, DecidableEq

/-- The positive numbers that round to one double, as multiples of `2 ^ scale`. -/
structure RoundingInterval where
  low : Nat
  value : Nat
  high : Nat
  scale : Int
  closed : Bool

namespace RoundingInterval

/-- The interval of a finite positive pattern. Below a power of two the doubles lie twice as
dense, so there the lower end is nearer. -/
def ofBits (bits : UInt64) : RoundingInterval :=
  let m := Binary64.significand bits
  let low :=
    if Binary64.fraction bits = 0 ∧ 1 < Binary64.exponentField bits then 4 * m - 1
    else 4 * m - 2
  ⟨low, 4 * m, 4 * m + 2, Binary64.scale bits - 2, m % 2 == 0⟩

/-- `a` lies below `b`, or meets it where the interval is closed. -/
def below (i : RoundingInterval) (a b : Nat) : Bool :=
  a < b || (i.closed && a == b)

/-- The lower of two neighbours on a grid, at the distance `below` from the value, goes before the
upper one at the distance `above`. -/
def prefersLower (lower below above : Nat) : Bool :=
  below < above || (below == above && lower % 2 == 0)

/-- The multiple of `10 ^ p` that is in the interval and nearest to the value, if one of the
value's two neighbours on that grid is in it. -/
def onGrid? (i : RoundingInterval) (p : Int) : Option Nat :=
  let a := 10 ^ p.toNat * 2 ^ (-i.scale).toNat
  let b := 2 ^ i.scale.toNat * 10 ^ (-p).toNat
  let down := i.value * b / a
  let up := down + 1
  let downHits := i.below (i.low * b) (down * a)
  let upHits := i.below (up * a) (i.high * b)
  if downHits && upHits then
    some (if prefersLower down (i.value * b - down * a) (up * a - i.value * b) then down else up)
  else if downHits then some down
  else if upHits then some up
  else none

/-- A grid so coarse that the value does not exceed its step. -/
def coarsest (i : RoundingInterval) : Int :=
  Int.fdiv ((i.scale + i.value.log2 + 1) * 30103) 100000 + 1

/-- The first hit among `n` grids, each ten times finer than the one before. -/
def search (i : RoundingInterval) : Nat → Int → Option Decimal
  | 0, _ => none
  | n + 1, p =>
    match i.onGrid? p with
    | some d => some ⟨d, p⟩
    | none => i.search n (p - 1)

end RoundingInterval

/-- The shortest decimal that rounds to a finite positive pattern. Seventeen digits are always
enough; the search allows for two grids more, which only the estimate of the first may need. -/
def shortest (bits : UInt64) : Decimal :=
  let i := RoundingInterval.ofBits bits
  (i.search 20 i.coarsest).getD ⟨0, 0⟩

end TinyC.Number
