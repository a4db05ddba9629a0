import TinyC.Failure
import TinyC.Toolchain.Path

/-!
# Counters

The toolchain counts the programs it compiles and the failures on the way, by the name of the
program and by the family of the failure.
-/

namespace TinyC

/-- How often something happened, by name, in the order of the first time. -/
abbrev Counts := List (String × Nat)

/-- Counts one more. -/
def Counts.bump (name : String) : Counts → Counts
  | [] => [(name, 1)]
  | (n, k) :: rest => if n = name then (n, k + 1) :: rest else (n, k) :: Counts.bump name rest

/-- The counts of a toolchain. -/
structure Counters where
  /-- Programs compiled. -/
  compiles : Counts := []
  /-- Failures, by the name of the program. -/
  errors : Counts := []
  /-- Failures, by their family. -/
  families : Counts := []
  deriving Repr

/-- The name of the family that a failure is counted under. -/
def Failure.familyName (f : Failure) : String :=
  match f.diagnostic? with
  | some d => d.family.name
  | none => "io"

namespace Counters

/-- Counts a program that was compiled. -/
def success (c : Counters) (name : String) : Counters :=
  { c with compiles := c.compiles.bump (Path.base name) }

/-- Counts a failure. -/
def failure (c : Counters) (name : String) (f : Failure) : Counters :=
  { c with
    errors := c.errors.bump (Path.base name)
    families := c.families.bump f.familyName }

end Counters

end TinyC
