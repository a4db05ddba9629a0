import TinyC.Module.Basic

/-!
# Reading module files

The layout of a module file, all numbers with the most significant byte first:

* the magic number and the version, four bytes each;
* the number of globals (four bytes), and for each a flag (one byte, zero for a variable), the
  number of its bytes (four bytes) and those bytes;
* the number of functions (four bytes), and for each its slot, the numbers of its result,
  parameter and local slots and of its instructions (four bytes each), and the instructions.

Nothing may stand behind the last function. `Module.decode` reads a file from the front; the
first thing that does not fit decides the error.
-/

namespace TinyC

/-- A field of a module file that may be cut off. -/
inductive Field where
  | magic
  | version
  | globalCount
  | globalFlag
  | globalLength
  | globalData
  | functionCount
  | functionSlot
  | returnSlots
  | paramCount
  | localCount
  | instructionCount
  deriving Repr, DecidableEq

/-- The name of a field. -/
def Field.name : Field → String
  | magic => "magic"
  | version => "version"
  | globalCount => "global count"
  | globalFlag => "global flag"
  | globalLength => "global length"
  | globalData => "global data"
  | functionCount => "function count"
  | functionSlot => "function slot"
  | returnSlots => "return slots"
  | paramCount => "param count"
  | localCount => "local count"
  | instructionCount => "instruction count"

/-- Why bytes are no module file. -/
inductive DecodeError where
  | truncated (field : Field) (offset : Nat)
  | badMagic (found : UInt32)
  | badVersion (found : UInt32)
  | badInstr (slot : Nat) (index : Nat) (reason : InstrError)
  | trailing (count : Nat)
  deriving Repr, DecidableEq

/-- The wording of the reason. -/
def DecodeError.message : DecodeError → String
  | truncated field offset =>
    "module truncated reading " ++ field.name ++ " at offset " ++ toString offset
  | badMagic n => "bad magic 0x" ++ Text.hex 8 n.toNat
  | badVersion n => "unsupported module version " ++ toString n.toNat
  | badInstr slot index reason =>
    "function " ++ toString slot ++ " instruction " ++ toString index ++ ": " ++ reason.message
  | trailing n => toString n ++ " trailing bytes after module"

/-- The bytes of a file from an offset on. -/
structure Tape where
  offset : Nat
  rest : List UInt8
  deriving Repr, DecidableEq

/-- A reader of the front of a tape. -/
abbrev Reader := StateT Tape (Except DecodeError)

namespace Module

/-- Reads the bytes of a field. -/
def take (n : Nat) (field : Field) : Reader (List UInt8) := fun tape =>
  let front := tape.rest.take n
  if front.length < n then .error (.truncated field tape.offset)
  else .ok (front, ⟨tape.offset + n, tape.rest.drop n⟩)

/-- Reads a field of four bytes. -/
def word (field : Field) : Reader Nat := do
  return ofBigEndian (← take 4 field)

/-- Reads a global. -/
def readGlobal : Reader Global := do
  let flag ← take 1 .globalFlag
  let size ← word .globalLength
  let data ← take size .globalData
  return ⟨flag != [0], data⟩

/-- Reads the instruction with an index in the function at a slot. -/
def readInstr (slot index : Nat) : Reader Instr := fun tape =>
  match Instr.decode tape.rest with
  | .ok (i, rest) => .ok (i, ⟨tape.offset + i.size, rest⟩)
  | .error e => .error (.badInstr slot index e)

/-- Reads so many instructions, the first of them at an index. -/
def readCode (slot : Nat) : Nat → Nat → Reader (List Instr)
  | 0, _ => return []
  | n + 1, index => do
    let i ← readInstr slot index
    let is ← readCode slot n (index + 1)
    return i :: is

/-- Reads a function. -/
def readRoutine : Reader Routine := do
  let slot ← word .functionSlot
  let returns ← word .returnSlots
  let params ← word .paramCount
  let locals ← word .localCount
  let count ← word .instructionCount
  let code ← readCode slot count 0
  return ⟨slot, returns, params, locals, code.toArray⟩

/-- Reads so many things of one kind. -/
def readMany {α : Type} (one : Reader α) : Nat → Reader (List α)
  | 0 => return []
  | n + 1 => do
    let a ← one
    let as ← readMany one n
    return a :: as

/-- Reads the front of a tape as a module. -/
def read : Reader Module := do
  let magic := (← word .magic).toUInt32
  if magic ≠ standardMagic then throw (.badMagic magic)
  let version := (← word .version).toUInt32
  if version ≠ standardVersion then throw (.badVersion version)
  let globals ← readMany readGlobal (← word .globalCount)
  let functions ← readMany readRoutine (← word .functionCount)
  return ⟨magic, version, globals.toArray, functions.toArray⟩

/-- The module of a file. -/
def decode (bytes : List UInt8) : Except DecodeError Module := do
  let (m, tape) ← read.run ⟨0, bytes⟩
  if tape.rest.isEmpty then return m else throw (.trailing tape.rest.length)

end Module

end TinyC
