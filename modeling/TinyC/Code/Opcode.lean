import TinyC.Text.Quoted

/-!
# Opcodes

The operations of the stack machine, their byte values, names and operand widths. A byte that
is no operation is `unlisted`: it can stand in code, and running it is an error.
-/

namespace TinyC

/-- An operation of the machine. -/
inductive Opcode where
  /-- Do nothing. -/
  | nop
  /-- Push the operand. -/
  | push
  /-- Drop the top of the stack. -/
  | pop
  /-- Double the top of the stack. -/
  | dup
  /-- Push the address of a local slot. -/
  | loca
  /-- Push the address of an argument slot. -/
  | arga
  /-- Push the address of a global slot. -/
  | globa
  /-- Pop an address and push the word there. -/
  | load64
  /-- Pop a word and an address and store the word there. -/
  | store64
  /-- Push as many zeros as the operand says. -/
  | stackalloc
  | addi
  | subi
  | muli
  | divi
  | addf
  | subf
  | mulf
  | divf
  /-- Compare two integers: push -1, 0 or 1. -/
  | cmpi
  /-- Compare two doubles: push -1, 0 or 1. -/
  | cmpf
  | negi
  | negf
  /-- Integer to double. -/
  | itof
  /-- Double to integer. -/
  | ftoi
  /-- Push whether the popped word is negative. -/
  | setlt
  /-- Push whether the popped word is positive. -/
  | setgt
  /-- Branch. -/
  | br
  /-- Branch if the popped word is zero. -/
  | brfalse
  /-- Branch if the popped word is not zero. -/
  | brtrue
  /-- Call a function by its slot. -/
  | call
  /-- Return from a function. -/
  | ret
  /-- Call the built-in whose name a global slot holds. -/
  | callname
  /-- A byte that is no operation. -/
  | unlisted (byte : UInt8)
  deriving Repr, DecidableEq, Inhabited

namespace Opcode

/-- The byte of an operation. -/
def byte : Opcode → UInt8
  | nop => 0x00
  | push => 0x01
  | pop => 0x02
  | dup => 0x04
  | loca => 0x0a
  | arga => 0x0b
  | globa => 0x0c
  | load64 => 0x13
  | store64 => 0x17
  | stackalloc => 0x1a
  | addi => 0x20
  | subi => 0x21
  | muli => 0x22
  | divi => 0x23
  | addf => 0x24
  | subf => 0x25
  | mulf => 0x26
  | divf => 0x27
  | cmpi => 0x30
  | cmpf => 0x32
  | negi => 0x34
  | negf => 0x35
  | itof => 0x36
  | ftoi => 0x37
  | setlt => 0x39
  | setgt => 0x3a
  | br => 0x41
  | brfalse => 0x42
  | brtrue => 0x43
  | call => 0x48
  | ret => 0x49
  | callname => 0x4a
  | unlisted b => b

/-- The operation of a byte. -/
def ofByte (b : UInt8) : Opcode :=
  match b.toNat with
  | 0x00 => nop
  | 0x01 => push
  | 0x02 => pop
  | 0x04 => dup
  | 0x0a => loca
  | 0x0b => arga
  | 0x0c => globa
  | 0x13 => load64
  | 0x17 => store64
  | 0x1a => stackalloc
  | 0x20 => addi
  | 0x21 => subi
  | 0x22 => muli
  | 0x23 => divi
  | 0x24 => addf
  | 0x25 => subf
  | 0x26 => mulf
  | 0x27 => divf
  | 0x30 => cmpi
  | 0x32 => cmpf
  | 0x34 => negi
  | 0x35 => negf
  | 0x36 => itof
  | 0x37 => ftoi
  | 0x39 => setlt
  | 0x3a => setgt
  | 0x41 => br
  | 0x42 => brfalse
  | 0x43 => brtrue
  | 0x48 => call
  | 0x49 => ret
  | 0x4a => callname
  | _ => unlisted b

/-- The name of an operation. -/
def name : Opcode → String
  | nop => "nop"
  | push => "push"
  | pop => "pop"
  | dup => "dup"
  | loca => "loca"
  | arga => "arga"
  | globa => "globa"
  | load64 => "load64"
  | store64 => "stroe64"
  | stackalloc => "stackalloc"
  | addi => "addi"
  | subi => "subi"
  | muli => "muli"
  | divi => "divi"
  | addf => "addf"
  | subf => "subf"
  | mulf => "mulf"
  | divf => "divf"
  | cmpi => "cmpi"
  | cmpf => "cmpf"
  | negi => "negi"
  | negf => "negf"
  | itof => "itof"
  | ftoi => "ftoi"
  | setlt => "setlt"
  | setgt => "setgt"
  | br => "br"
  | brfalse => "brfalse"
  | brtrue => "brtrue"
  | call => "call"
  | ret => "ret"
  | callname => "callname"
  | unlisted b => "bad(0x" ++ Text.hex 2 b.toNat ++ ")"

/-- The byte is that of an operation. -/
def isListed : Opcode → Bool
  | unlisted _ => false
  | _ => true

/-- The number of operand bytes behind the byte of an operation. -/
def operandSize : Opcode → Nat
  | push => 8
  | loca | arga | globa | stackalloc | br | brfalse | brtrue | call | callname => 4
  | _ => 0

/-- The operation is a branch. -/
def isBranch : Opcode → Bool
  | br | brfalse | brtrue => true
  | _ => false

/-- An operation is told by its byte. -/
theorem ofByte_byte {op : Opcode} (h : op.isListed) : ofByte op.byte = op := by
  cases op <;> first | rfl | simp [isListed] at h

/-- The byte of the operation of a byte is that byte. -/
@[simp] theorem byte_ofByte (b : UInt8) : (ofByte b).byte = b := by
  unfold ofByte
  split <;> rename_i h <;> first | rfl | exact (UInt8.toNat_inj.1 h).symm

end Opcode

end TinyC
