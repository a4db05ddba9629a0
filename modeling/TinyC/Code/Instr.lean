import TinyC.Code.Opcode
import TinyC.Number.Binary64

/-!
# Instructions

An instruction is an operation with an operand. In code it takes one byte for the operation and
none, four or eight for the operand, the most significant first. A four-byte operand is read
with its sign.
-/

namespace TinyC

/-- The lowest `n` bytes of a number, the most significant first. -/
def bigEndian (n v : Nat) : List UInt8 :=
  match n with
  | 0 => []
  | k + 1 => (v / 256 ^ k).toUInt8 :: bigEndian k v

@[simp] theorem length_bigEndian (n v : Nat) : (bigEndian n v).length = n := by
  induction n with
  | zero => rfl
  | succ k ih => simp [bigEndian, ih]

/-- The number that bytes stand for, the most significant first. -/
def ofBigEndian (bs : List UInt8) : Nat :=
  bs.foldl (fun n b => n * 256 + b.toNat) 0

/-- An operation with its operand. -/
structure Instr where
  op : Opcode
  operand : Int64 := 0
  deriving Repr, DecidableEq, Inhabited

/-- Why bytes are no instruction. -/
inductive InstrError where
  | empty
  | unknown (byte : UInt8)
  | truncated (op : Opcode)
  deriving Repr, DecidableEq

/-- The wording of the reason. -/
def InstrError.message : InstrError → String
  | empty => "empty instruction stream"
  | unknown b => "unknown opcode 0x" ++ Text.hex 2 b.toNat
  | truncated op => "truncated operand for " ++ op.name

namespace Instr

/-- The text of an instruction; the operand shows only where it takes part. -/
def text (i : Instr) : String :=
  "\x7b" ++ i.op.name ++
    (if i.op.operandSize = 0 then "" else " " ++ toString i.operand.toInt) ++ "\x7d"

/-- The number of bytes of an instruction. -/
def size (i : Instr) : Nat :=
  1 + i.op.operandSize

/-- The bytes of an instruction. -/
def bytes (i : Instr) : List UInt8 :=
  i.op.byte :: bigEndian i.op.operandSize i.operand.toUInt64.toNat

@[simp] theorem length_bytes (i : Instr) : i.bytes.length = i.size := by
  simp [bytes, size, Nat.add_comm]

/-- The operand that operand bytes stand for: eight bytes are a word, four are read with their
sign. -/
def operandOf (bs : List UInt8) : Int64 :=
  let n := ofBigEndian bs
  if bs.length = 4 then n.toUInt32.toInt32.toInt64 else n.toUInt64.toInt64

/-- The instruction at the front of some bytes and the bytes behind it. -/
def decode : List UInt8 → Except InstrError (Instr × List UInt8)
  | [] => .error .empty
  | b :: bs =>
    let op := Opcode.ofByte b
    let operand := bs.take op.operandSize
    if !op.isListed then .error (.unknown b)
    else if operand.length < op.operandSize then .error (.truncated op)
    else .ok (⟨op, operandOf operand⟩, bs.drop op.operandSize)

end Instr

end TinyC
