import TinyC.Operator
import TinyC.Symbol.Builtin
import TinyC.Symbol.Scope

/-!
# Core programs

A core program is what is left of a program once every name has been replaced by the place it
stands for and every operator by the operation on its operands' type. Nothing in it can be
wrong: that it comes from an accepted program is the only condition on it.

A condition is of its own kind and not a value. Its truth is never on the stack; it decides
which instruction comes next.
-/

namespace TinyC.Core

/-- The place of a variable: which part of memory it lives in, and its slot there. The slots of
parameters start behind the slot of the result. -/
structure Place where
  location : Location
  slot : Nat
  deriving Repr, DecidableEq

/-- What a call runs: a built-in function, or the function at a slot with the type of its
result. -/
inductive Callee where
  | builtin (b : Builtin)
  | function (slot : Nat) (result : Ty)
  deriving Repr, DecidableEq

/-- The type of what a call gives. -/
def Callee.result : Callee → Ty
  | builtin b => b.result
  | function _ result => result

mutual

/-- An expression. -/
inductive Expr where
  | int (word : UInt64)
  | double (bits : UInt64)
  | text (slot : Nat)
  | load (place : Place) (type : Ty)
  | arith (op : ArithOp) (type : Ty) (left right : Expr)
  | negate (type : Ty) (e : Expr)
  | convert (source target : Ty) (e : Expr)
  | call (callee : Callee) (args : Args)
  deriving Repr

/-- The arguments of a call, the first one outermost. -/
inductive Args where
  | nil
  | cons (e : Expr) (rest : Args)
  deriving Repr

end

/-- The type of an expression. -/
def Expr.type : Expr → Ty
  | int _ => .int
  | double _ => .double
  | text _ => .string
  | load _ type => type
  | arith _ type _ _ => type
  | negate type _ => type
  | convert _ target _ => target
  | call callee _ => callee.result

/-- A condition: that a number is not zero, or that two numbers compare as they should. -/
inductive Cond where
  | nonzero (e : Expr)
  | compare (op : RelOp) (type : Ty) (left right : Expr)
  deriving Repr

mutual

/-- A statement. -/
inductive Stmt where
  | skip
  | assign (place : Place) (e : Expr)
  | call (callee : Callee) (args : Args)
  | ret (e : Option Expr)
  | ifThen (c : Cond) (body : Block)
  | ifElse (c : Cond) (body alternative : Block)
  | loop (c : Cond) (body : Block)
  | brk
  | cont
  deriving Repr

/-- Statements in order. -/
inductive Block where
  | nil
  | cons (s : Stmt) (rest : Block)
  deriving Repr

end

mutual

/-- Every way through the statement returns from the function. -/
def Stmt.terminates : Stmt → Bool
  | .ret _ => true
  | .ifElse _ body alternative => body.terminates && alternative.terminates
  | _ => false

/-- Every way through the block returns from the function. -/
def Block.terminates : Block → Bool
  | .nil => false
  | .cons s rest => s.terminates || rest.terminates

end

/-- A function: the type of its result, and its body. -/
structure Fn where
  type : Ty
  body : Block
  deriving Repr

/-- The initial value of a global. -/
structure Init where
  slot : Nat
  value : Expr
  deriving Repr

/-- A program: the initial values of its globals in the order of their declarations, its
functions in the order of their slots (the first has slot one), and the slot of its main function
with the type of the result. -/
structure Program where
  inits : List Init
  functions : List Fn
  main : Option (Nat × Ty)
  deriving Repr

end TinyC.Core
