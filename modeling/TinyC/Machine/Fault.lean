import TinyC.Code.Listing
import TinyC.Machine.Input
import TinyC.Symbol.Builtin

/-!
# What can go wrong in a run

The reasons for which an instruction cannot be carried out. A `RuntimeError` is a reason together
with the function and the instruction at which it arose.
-/

namespace TinyC

/-- Why an instruction cannot be carried out. -/
inductive Trap where
  | stackUnderflow
  | address (addr : UInt64)
  | globalSlot (slot : Int64)
  | argumentSlot (slot : Int64)
  | localSlot (slot : Int64)
  | functionSlot (slot : Int64)
  | callUnderflow (slot : Int)
  | builtinUnderflow (name : List UInt8)
  | unknownBuiltin (name : List UInt8)
  | textSlot (slot : UInt64)
  | branchTarget (target : Int64)
  | divisionByZero
  | invalidOpcode (op : Opcode)
  | stepLimit (limit : Nat)
  /-- The code of a function that was called is at its end. -/
  | ranOff
  | input (b : Builtin) (e : InputError)
  | output
  /-- Memory cannot have a negative size. -/
  | memorySize (size : Int64)
  deriving Repr, DecidableEq

/-- The wording of the reason. -/
def Trap.message : Trap → String
  | stackUnderflow => "stack underflow"
  | address a => "address " ++ toString a ++ " out of range"
  | globalSlot n => "global slot " ++ toString n ++ " out of range"
  | argumentSlot n => "argument slot " ++ toString n ++ " out of range"
  | localSlot n => "local slot " ++ toString n ++ " out of range"
  | functionSlot n => "function slot " ++ toString n ++ " out of range"
  | callUnderflow n => "stack underflow calling function " ++ toString n
  | builtinUnderflow name => "stack underflow calling builtin " ++ Text.quotedBytes name
  | unknownBuiltin name => "unknown builtin " ++ Text.quotedBytes name
  | textSlot n => "putstr: global slot " ++ toString n ++ " out of range"
  | branchTarget n => "branch target " ++ toString n ++ " out of range"
  | divisionByZero => "integer division by zero"
  | invalidOpcode op => "invalid opcode " ++ op.name
  | stepLimit n => "step limit " ++ toString n ++ " exceeded"
  | ranOff => "ran off the end of the function"
  | input b e => b.name ++ ": " ++ e.message
  | output => "disk full"
  | memorySize n => "slice bounds out of range [:" ++ toString n ++ "]"

/-- A reason, and where it arose: the slot of the function, and the index of the instruction that
was fetched last in it, which is -1 if there was none. -/
structure RuntimeError where
  fn : Int
  pc : Int
  instr : Instr
  trap : Trap
  deriving Repr, DecidableEq

/-- The whole text of an error. -/
def RuntimeError.text (e : RuntimeError) : String :=
  "runtime error in function " ++ toString e.fn ++ " at instruction " ++ toString e.pc ++ " "
    ++ e.instr.text ++ ": " ++ e.trap.message

end TinyC
