import TinyC.Code.Instr

/-!
# Modules

A module is a program as the machine runs it: its globals, each with the bytes it starts from,
and its functions. Function slot zero is where a run begins.
-/

namespace TinyC

/-- A global of a module: eight bytes are the word it starts from, and any number of bytes can be
a text. -/
structure Global where
  constant : Bool
  data : List UInt8
  deriving Repr, DecidableEq, Inhabited

/-- A function of a module. -/
structure Routine where
  /-- The index in the table of functions. -/
  slot : Int
  /-- The number of slots for its result. -/
  returns : Nat
  /-- The number of slots for its parameters. -/
  params : Nat
  /-- The number of slots for its local variables. -/
  locals : Nat
  /-- Its code. -/
  code : Array Instr
  deriving Repr, DecidableEq, Inhabited

/-- The number of slots that a caller fills, as a word of 64 bits. -/
def Routine.argSlots (r : Routine) : Int64 :=
  Int64.ofNat r.returns + Int64.ofNat r.params

/-- A program as the machine runs it. -/
structure Module where
  magic : UInt32
  version : UInt32
  globals : Array Global
  functions : Array Routine
  deriving Repr, DecidableEq, Inhabited

namespace Module

/-- The number that every module file starts with. -/
def standardMagic : UInt32 := 0x72303b3e

/-- The version of the module format. -/
def standardVersion : UInt32 := 1

end Module

/-- The word that a global starts from. -/
def Global.word (g : Global) : UInt64 :=
  if g.data.length = 8 then (ofBigEndian g.data).toUInt64 else 0

end TinyC
