import TinyC.Module.Basic
import TinyC.Note
import TinyC.Symbol.Program

/-!
# Writing module files

`ProgramTables.encode` writes the tables of a program in the layout that module files have.
Entries must stand at their slots, and an operand that has four bytes must fit in them.
-/

namespace TinyC

/-- Why tables cannot be written. -/
inductive EncodeError where
  | globalSlot (name : String) (slot position : Nat)
  | functionSlot (name : String) (slot position : Nat)
  | operandRange (name : String) (index : Nat) (instr : Instr)
  deriving Repr, DecidableEq

/-- The wording of the reason. -/
def EncodeError.message : EncodeError → String
  | globalSlot name slot position =>
    "global " ++ Text.quoted name ++ " has slot " ++ toString slot ++ " at position "
      ++ toString position
  | functionSlot name slot position =>
    "function " ++ Text.quoted name ++ " has slot " ++ toString slot ++ " at position "
      ++ toString position
  | operandRange name index instr =>
    "function " ++ Text.quoted name ++ " instruction " ++ toString index ++ ": operand of "
      ++ instr.text ++ " out of range"

/-- A field of four bytes. -/
def fieldBytes (n : Nat) : List UInt8 :=
  bigEndian 4 n

/-- The bytes that a global starts from: its text, or its word. -/
def Entry.data {π : Type} (e : Entry π) : List UInt8 :=
  if e.type = .string then Text.bytesOf e.text else bigEndian 8 e.value.toNat

/-- The bytes of a global. -/
def Entry.bytes {π : Type} (e : Entry π) : List UInt8 :=
  (if e.isConstant then 1 else 0) :: fieldBytes e.data.length ++ e.data

/-- The operand can be written: where it has four bytes, it is at least the least number of 32
bits with a sign and at most the greatest without. -/
def Instr.fits (i : Instr) : Bool :=
  i.op.operandSize != 4 || (-2 ^ 31 ≤ i.operand.toInt && i.operand.toInt < 2 ^ 32)

/-- The bytes of the code of the function `name`, from an index on. -/
def codeBytes (name : String) : Nat → List Instr → Except EncodeError (List UInt8)
  | _, [] => .ok []
  | index, i :: is =>
    if i.fits then (codeBytes name (index + 1) is).map (i.bytes ++ ·)
    else .error (.operandRange name index i)

/-- The bytes of a function. -/
def Function.bytes {π : Type} (f : Function π) : Except EncodeError (List UInt8) :=
  (codeBytes f.name 0 f.code).map fun code =>
    fieldBytes f.slot ++ fieldBytes f.type.slots ++ fieldBytes f.paramCount
      ++ fieldBytes f.locals.count ++ fieldBytes f.code.length ++ code

/-- The bytes of globals, the first of them at a position. -/
def globalBytes {π : Type} : Nat → List (Entry π) → Except EncodeError (List UInt8)
  | _, [] => .ok []
  | position, e :: es =>
    if e.slot = position then (globalBytes (position + 1) es).map (e.bytes ++ ·)
    else .error (.globalSlot e.name e.slot position)

/-- The bytes of functions, the first of them at a position. -/
def functionBytes {π : Type} : Nat → List (Function π) → Except EncodeError (List UInt8)
  | _, [] => .ok []
  | position, f :: fs =>
    if f.slot = position then do
      let front ← f.bytes
      let back ← functionBytes (position + 1) fs
      return front ++ back
    else .error (.functionSlot f.name f.slot position)

namespace ProgramTables

/-- The module file of a program. -/
def encode {π : Type} (p : ProgramTables π) : Except EncodeError (List UInt8) := do
  let globals ← globalBytes 0 p.globals.rows
  let functions ← functionBytes 0 p.functions.rows
  return fieldBytes Module.standardMagic.toNat ++ fieldBytes Module.standardVersion.toNat
    ++ fieldBytes p.globals.rows.length ++ globals
    ++ fieldBytes p.functions.rows.length ++ functions

/-- The note on a module file that has been written. -/
def encodeNote {π : Type} (p : ProgramTables π) (bytes : List UInt8) : Note :=
  .detail .generator 1 ("encoded " ++ toString p.globals.rows.length ++ " globals, "
    ++ toString p.functions.rows.length ++ " functions in " ++ toString bytes.length ++ " bytes")

end ProgramTables

end TinyC
