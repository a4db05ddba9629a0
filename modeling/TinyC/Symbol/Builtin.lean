import TinyC.Symbol.Ty
import TinyC.Text.Glyph

/-!
# Built-in functions

The functions that every program can call: they read numbers and characters from the input, and
write numbers, characters and texts to the output. Their names are the first globals of every
program, in the order of `Builtin.all`, and a call names its function by the slot of that
global.
-/

namespace TinyC

/-- A function that every program can call. -/
inductive Builtin where
  | getint
  | getdouble
  | getchar
  | putint
  | putdouble
  | putchar
  | putstr
  | putln
  deriving Repr, DecidableEq

namespace Builtin

/-- The built-in functions, in the order of their global slots. -/
def all : List Builtin :=
  [getint, getdouble, getchar, putint, putdouble, putchar, putstr, putln]

/-- The name of a built-in function. -/
def name : Builtin → String
  | getint => "getint"
  | getdouble => "getdouble"
  | getchar => "getchar"
  | putint => "putint"
  | putdouble => "putdouble"
  | putchar => "putchar"
  | putstr => "putstr"
  | putln => "putln"

/-- The types of its parameters. -/
def paramTypes : Builtin → List Ty
  | getint | getdouble | getchar | putln => []
  | putint | putchar => [.int]
  | putdouble => [.double]
  | putstr => [.string]

/-- The type of its result. -/
def result : Builtin → Ty
  | getint | getchar => .int
  | getdouble => .double
  | putint | putdouble | putchar | putstr | putln => .void

/-- The global slot that holds its name. -/
def slot : Builtin → Nat
  | getint => 0
  | getdouble => 1
  | getchar => 2
  | putint => 3
  | putdouble => 4
  | putchar => 5
  | putstr => 6
  | putln => 7

/-- The built-in function with a name. -/
def ofName? (name : String) : Option Builtin :=
  all.find? (·.name == name)

/-- The built-in function whose name has the given bytes. -/
def ofBytes? (bytes : List UInt8) : Option Builtin :=
  all.find? (Text.bytesOf ·.name == bytes)

/-- Every built-in function is listed at its slot. -/
theorem all_slot (b : Builtin) : all[b.slot]? = some b := by
  cases b <;> rfl

/-- A built-in function is found by its name. -/
theorem ofName?_name (b : Builtin) : ofName? b.name = some b := by
  cases b <;> decide

end Builtin

end TinyC
