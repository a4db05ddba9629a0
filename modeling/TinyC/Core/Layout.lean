import TinyC.Code.Listing
import TinyC.Core.Basic

/-!
# Code layout

The instructions for a core program. Expressions and conditions are laid out without regard to
where they stand. A statement is laid out from a given index on, for its branches lead to
indices: an `if` branches over the blocks that do not run, and a loop is laid out as

        br test
    test:
        <condition>
        br exit
        <body>
        br test
    exit:

The last instruction of a condition skips the one behind it when the condition holds, so the
branch behind a condition is taken when it fails.
-/

namespace TinyC.Core

/-- The instruction that pushes the address of a place. -/
def Place.address (p : Place) : Instr :=
  match p.location with
  | .global => ⟨.globa, Int64.ofNat p.slot⟩
  | .param => ⟨.arga, Int64.ofNat p.slot⟩
  | .local => ⟨.loca, Int64.ofNat p.slot⟩

/-- The instruction that makes room for the result of a call. -/
def Callee.room (c : Callee) : Instr :=
  ⟨.stackalloc, Int64.ofNat c.result.slots⟩

/-- The instruction that makes a call. -/
def Callee.invoke : Callee → Instr
  | builtin b => ⟨.callname, Int64.ofNat b.slot⟩
  | function slot _ => ⟨.call, Int64.ofNat slot⟩

mutual

/-- The code of an expression leaves its value on the stack. -/
def Expr.code : Expr → List Instr
  | .int word => [⟨.push, word.toInt64⟩]
  | .double bits => [⟨.push, bits.toInt64⟩]
  | .text slot => [⟨.push, Int64.ofNat slot⟩]
  | .load place _ => [place.address, ⟨.load64, 0⟩]
  | .arith op type left right => left.code ++ right.code ++ [op.instr type]
  | .negate type e => e.code ++ [type.negation]
  | .convert source target e => e.code ++ source.conversion target
  | .call callee args => callee.room :: (args.code ++ [callee.invoke])

/-- The code of arguments leaves their values on the stack, that of the last one on top. -/
def Args.code : Args → List Instr
  | .nil => []
  | .cons e rest => e.code ++ rest.code

end

/-- The code of a condition skips the instruction behind it when the condition holds. -/
def Cond.code : Cond → List Instr
  | .nonzero e => e.code ++ [⟨.brtrue, 1⟩]
  | .compare op type left right => left.code ++ right.code ++ op.instrs type

/-- The number of instructions of a condition. -/
def Cond.size (c : Cond) : Nat :=
  c.code.length

/-- The branch at index `source` that leads to index `target`. -/
def branch (source target : Nat) : Instr :=
  ⟨.br, branchOffset source target⟩

/-- The code that stores a value in a place. -/
def Place.store (p : Place) (e : Expr) : List Instr :=
  p.address :: (e.code ++ [⟨.store64, 0⟩])

/-- The code of a return. -/
def returnCode : Option Expr → List Instr
  | none => [⟨.ret, 0⟩]
  | some e => ⟨.arga, 0⟩ :: (e.code ++ [⟨.store64, 0⟩, ⟨.ret, 0⟩])

/-- The code of a call whose result, if any, is dropped. -/
def callCode (callee : Callee) (args : Args) : List Instr :=
  callee.room :: (args.code ++ callee.invoke ::
    (if callee.result = .void then [] else [⟨.pop, 0⟩]))

mutual

/-- The number of instructions of a statement. -/
def Stmt.size : Stmt → Nat
  | .skip => 0
  | .assign place e => (place.store e).length
  | .call callee args => (callCode callee args).length
  | .ret e => (returnCode e).length
  | .ifThen c body => c.size + 1 + body.size
  | .ifElse c body alternative => c.size + 1 + body.size + 1 + alternative.size
  | .loop c body => 1 + c.size + 1 + body.size + 1
  | .brk => 1
  | .cont => 1

/-- The number of instructions of a block. -/
def Block.size : Block → Nat
  | .nil => 0
  | .cons s rest => s.size + rest.size

end

/-- The indices that the branches of a loop lead to: its condition, and what stands behind it. -/
structure Loop where
  test : Nat
  exit : Nat
  deriving Repr, DecidableEq

mutual

/-- The code of a statement that starts at an index, inside a loop. -/
def Stmt.code (start : Nat) (loop : Loop) : Stmt → List Instr
  | .skip => []
  | .assign place e => place.store e
  | .call callee args => callCode callee args
  | .ret e => returnCode e
  | .ifThen c body =>
    c.code ++ branch (start + c.size) (start + c.size + 1 + body.size)
      :: body.code (start + c.size + 1) loop
  | .ifElse c body alternative =>
    c.code ++ branch (start + c.size) (start + c.size + 1 + body.size + 1)
      :: (body.code (start + c.size + 1) loop
        ++ branch (start + c.size + 1 + body.size)
            (start + c.size + 1 + body.size + 1 + alternative.size)
          :: alternative.code (start + c.size + 1 + body.size + 1) loop)
  | .loop c body =>
    branch start (start + 1)
      :: (c.code ++ branch (start + 1 + c.size) (start + 1 + c.size + 1 + body.size + 1)
        :: (body.code (start + 1 + c.size + 1)
            ⟨start + 1, start + 1 + c.size + 1 + body.size + 1⟩
          ++ [branch (start + 1 + c.size + 1 + body.size) (start + 1)]))
  | .brk => [branch start loop.exit]
  | .cont => [branch start loop.test]

/-- The code of a block that starts at an index, inside a loop. -/
def Block.code (start : Nat) (loop : Loop) : Block → List Instr
  | .nil => []
  | .cons s rest => s.code start loop ++ rest.code (start + s.size) loop

end

/-- The code of a block outside any loop. -/
def Block.outerCode (b : Block) : List Instr :=
  b.code 0 ⟨0, 0⟩

/-- A return has to follow the code of the body: where the function has no result, and where the
body does not end in a return. -/
def Fn.needsReturn (f : Fn) : Bool :=
  f.type == .void || f.body.outerCode.getLast?.map Instr.op != some .ret

/-- The code of a function. -/
def Fn.code (f : Fn) : List Instr :=
  f.body.outerCode ++ (if f.needsReturn then [⟨.ret, 0⟩] else [])

/-- The code that gives a global its initial value. -/
def Init.code (i : Init) : List Instr :=
  Place.store ⟨.global, i.slot⟩ i.value

/-- The code that calls a main function. -/
def mainCode : Option (Nat × Ty) → List Instr
  | none => []
  | some (slot, type) => [(Callee.function slot type).room, (Callee.function slot type).invoke]

/-- The code of the entry function: it sets the globals and calls the main function. -/
def Program.entryCode (p : Program) : List Instr :=
  p.inits.flatMap Init.code ++ mainCode p.main

/-- The code of all functions in the order of their slots. -/
def Program.codes (p : Program) : List (List Instr) :=
  p.entryCode :: p.functions.map Fn.code

mutual

/-- A statement's code has its size. -/
theorem Stmt.length_code (start : Nat) (loop : Loop) (s : Stmt) :
    (s.code start loop).length = s.size := by
  cases s with
  | ifThen c body =>
    simp [Stmt.code, Stmt.size, Block.length_code, Cond.size]
    omega
  | ifElse c body alternative =>
    simp [Stmt.code, Stmt.size, Block.length_code, Cond.size]
    omega
  | loop c body =>
    simp [Stmt.code, Stmt.size, Block.length_code, Cond.size]
    omega
  | _ => simp [Stmt.code, Stmt.size]

/-- A block's code has its size. -/
theorem Block.length_code (start : Nat) (loop : Loop) (b : Block) :
    (b.code start loop).length = b.size := by
  cases b with
  | nil => rfl
  | cons s rest => simp [Block.code, Block.size, Stmt.length_code, Block.length_code]

end

end TinyC.Core
