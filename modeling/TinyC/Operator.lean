import TinyC.Code.Instr
import TinyC.Symbol.Ty

/-!
# Operators

The arithmetic operators and the comparisons of the language, with the instructions that carry
them out. A comparison leaves its truth in the flow of control: the instruction behind it is
skipped when it holds.
-/

namespace TinyC

/-- An arithmetic operator. -/
inductive ArithOp where
  | add
  | sub
  | mul
  | div
  deriving Repr, DecidableEq

namespace ArithOp

/-- The operator as it is written. -/
def symbol : ArithOp → String
  | add => "+"
  | sub => "-"
  | mul => "*"
  | div => "/"

/-- The instruction for operands of a type. -/
def instr (op : ArithOp) (type : Ty) : Instr :=
  match op, type with
  | add, .double => ⟨.addf, 0⟩
  | sub, .double => ⟨.subf, 0⟩
  | mul, .double => ⟨.mulf, 0⟩
  | div, .double => ⟨.divf, 0⟩
  | add, _ => ⟨.addi, 0⟩
  | sub, _ => ⟨.subi, 0⟩
  | mul, _ => ⟨.muli, 0⟩
  | div, _ => ⟨.divi, 0⟩

end ArithOp

/-- A comparison. -/
inductive RelOp where
  | lt
  | le
  | ge
  | gt
  | neq
  | eq
  deriving Repr, DecidableEq

namespace RelOp

/-- The comparison as it is written. -/
def symbol : RelOp → String
  | lt => "<"
  | le => "<="
  | ge => ">="
  | gt => ">"
  | neq => "!="
  | eq => "=="

/-- The instructions behind the one that compares: the last one skips the next instruction when
the comparison holds. -/
def test : RelOp → List Instr
  | lt => [⟨.setlt, 0⟩, ⟨.brtrue, 1⟩]
  | le => [⟨.setgt, 0⟩, ⟨.brfalse, 1⟩]
  | ge => [⟨.setlt, 0⟩, ⟨.brfalse, 1⟩]
  | gt => [⟨.setgt, 0⟩, ⟨.brtrue, 1⟩]
  | neq => [⟨.brtrue, 1⟩]
  | eq => [⟨.brfalse, 1⟩]

/-- The instructions for operands of a type. -/
def instrs (op : RelOp) (type : Ty) : List Instr :=
  (if type = .double then ⟨.cmpf, 0⟩ else ⟨.cmpi, 0⟩) :: op.test

end RelOp

namespace Ty

/-- The instruction that negates a number of a type. -/
def negation (type : Ty) : Instr :=
  if type = .double then ⟨.negf, 0⟩ else ⟨.negi, 0⟩

/-- The instructions that turn a number of one type into one of another. -/
def conversion (source target : Ty) : List Instr :=
  match source, target with
  | int, double => [⟨.itof, 0⟩]
  | double, int => [⟨.ftoi, 0⟩]
  | _, _ => []

end Ty

end TinyC
