import TinyC.Symbol.Builtin

/-!
# Memo of built-in functions

A machine remembers which built-in function the global at a slot names, for the eight slots that
were asked for most recently.
-/

namespace TinyC

/-- The remembered slots with their functions, the most recent one first. -/
structure Memo where
  rows : List (Int64 × Builtin) := []
  deriving Repr, DecidableEq

namespace Memo

/-- The number of slots that are remembered. -/
def capacity : Nat := 8

/-- The function remembered for a slot. -/
def find? (m : Memo) (slot : Int64) : Option Builtin :=
  m.rows.lookup slot

/-- The memo with the function of a slot as the most recent one. -/
def remember (m : Memo) (slot : Int64) (b : Builtin) : Memo :=
  ⟨((slot, b) :: m.rows.filter (·.1 != slot)).take capacity⟩

end Memo

end TinyC
