import TinyC.Code.Instr

/-!
# Listings

A listing is code under construction: instructions are emitted at its end, and the target of a
branch that was emitted earlier can be set once it is known. Branches are relative to the
instruction behind them.
-/

namespace TinyC

/-- The operand of a branch at index `source` that leads to index `target`. -/
def branchOffset (source target : Int) : Int64 :=
  Int64.ofInt (target - (source + 1))

/-- A place outside a sequence. -/
structure IndexError where
  index : Int
  length : Nat
  deriving Repr, DecidableEq

/-- The wording; a negative index is out of range whatever the length. -/
def IndexError.message (e : IndexError) : String :=
  "runtime error: index out of range [" ++ toString e.index ++ "]" ++
    (if e.index < 0 then "" else " with length " ++ toString e.length)

/-- Why the target of an instruction cannot be set. -/
inductive PatchError where
  | missing (e : IndexError)
  | notBranch (op : Opcode) (index : Int)
  deriving Repr, DecidableEq

/-- The wording of the reason. -/
def PatchError.message : PatchError → String
  | missing e => e.message
  | notBranch op i => "patching non-branch " ++ op.name ++ " at " ++ toString i

/-- Code under construction. -/
structure Listing where
  instrs : List Instr := []
  deriving Repr, DecidableEq

namespace Listing

/-- The number of instructions. -/
def length (l : Listing) : Nat :=
  l.instrs.length

/-- The number of bytes of the code. -/
def size (l : Listing) : Nat :=
  l.instrs.foldl (fun n i => n + i.size) 0

/-- The listing with one more instruction at its end, whose index is the old length. -/
def emit (l : Listing) (i : Instr) : Listing :=
  ⟨l.instrs ++ [i]⟩

/-- The last instruction. -/
def last? (l : Listing) : Option Instr :=
  l.instrs.getLast?

/-- The instruction at an index. -/
def get (l : Listing) (i : Int) : Except IndexError Instr :=
  match if 0 ≤ i then l.instrs[i.toNat]? else none with
  | some instr => .ok instr
  | none => .error ⟨i, l.length⟩

/-- The listing in which the branch at index `i` leads to index `target`. -/
def patch (l : Listing) (i target : Int) : Except PatchError Listing :=
  match l.get i with
  | .error e => .error (.missing e)
  | .ok instr =>
    if instr.op.isBranch then
      .ok ⟨l.instrs.set i.toNat { instr with operand := branchOffset i target }⟩
    else .error (.notBranch instr.op i)

end Listing

end TinyC
