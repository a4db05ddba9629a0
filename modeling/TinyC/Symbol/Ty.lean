/-!
# Types

The types of a program. Numbers take one slot each; `void` is the type of a function without a
result, and `string` that of texts, which only ever are constants.
-/

namespace TinyC

/-- The type of a value, or of the result of a function. -/
inductive Ty where
  | void
  | int
  | double
  | string
  deriving Repr, DecidableEq, Inhabited

namespace Ty

/-- The name of a type. -/
def name : Ty → String
  | void => "void"
  | int => "int"
  | double => "double"
  | string => "string"

/-- The type takes part in arithmetic. -/
def isNumeric : Ty → Bool
  | int | double => true
  | _ => false

/-- The number of slots for a result of the type. -/
def slots : Ty → Nat
  | void => 0
  | _ => 1

/-- The type with a number. -/
def ofNumber? : Int → Option Ty
  | 0 => some void
  | 1 => some int
  | 2 => some double
  | 3 => some string
  | _ => none

end Ty

end TinyC
