import TinyC.Machine.Step
import TinyC.Proofs.Core.Structured

/-!
# What programs compute

The meaning of expressions, conditions and statements in terms of the values of variables, without
a machine. Integers are words read with their sign: results are computed exactly and wrapped to 64
bits, and division truncates. Operations on doubles are taken as functions on their bits. Operands
and arguments are evaluated from left to right; a call gives its function fresh variables and keeps
those of its caller.

Three things can go wrong: an integer is divided by zero, the input has not what is asked for, and
the output is refused.
-/

namespace TinyC

/-! ## Numbers -/

/-- The integer that a word is read as. -/
def signed (x : UInt64) : Int :=
  x.toInt64.toInt

/-- The word of an integer, wrapped to 64 bits. -/
def wrap (n : Int) : UInt64 :=
  (Int64.ofInt n).toUInt64

/-- The function reads from the input. -/
def Builtin.reads : Builtin → Bool
  | getint | getdouble | getchar => true
  | putint | putdouble | putchar | putstr | putln => false

namespace Core

/-- What can go wrong when a program computes. -/
inductive Mishap where
  | division
  | input (b : Builtin) (reads : b.reads = true) (e : InputError)
  | output
  deriving Repr, DecidableEq

section

variable {σ : Type}

/-- The operator on integers. -/
def onIntegers (op : ArithOp) (a b : UInt64) : Act Mishap σ UInt64 :=
  match op with
  | .add => pure (wrap (signed a + signed b))
  | .sub => pure (wrap (signed a - signed b))
  | .mul => pure (wrap (signed a * signed b))
  | .div =>
    if signed b = 0 then throw (.trap .division) else pure (wrap ((signed a).tdiv (signed b)))

/-- The operator on doubles. -/
def onReals (op : ArithOp) (a b : UInt64) : UInt64 :=
  match op with
  | .add => onDoubles (fun x y => x + y) a b
  | .sub => onDoubles (fun x y => x - y) a b
  | .mul => onDoubles (fun x y => x * y) a b
  | .div => onDoubles (fun x y => x / y) a b

/-- The operator on numbers of a type. -/
def arithmetic (op : ArithOp) (type : Ty) (a b : UInt64) : Act Mishap σ UInt64 :=
  if type = .double then pure (onReals op a b) else onIntegers op a b

end

/-- The negation of a number of a type. -/
def negated (type : Ty) (x : UInt64) : UInt64 :=
  if type = .double then Number.Binary64.negate x else wrap (-signed x)

/-- A number of one type as one of another. -/
def converted (source target : Ty) (x : UInt64) : UInt64 :=
  match source, target with
  | .int, .double => doubleOfInteger x
  | .double, .int => Number.Binary64.truncate x
  | _, _ => x

/-- The comparison of integers. -/
def comparesIntegers (op : RelOp) (a b : UInt64) : Bool :=
  match op with
  | .lt => signed a < signed b
  | .le => signed a ≤ signed b
  | .gt => signed b < signed a
  | .ge => signed b ≤ signed a
  | .eq => signed a = signed b
  | .neq => signed a ≠ signed b

/-- The comparison of doubles. Doubles without an order count as equal. -/
def comparesReals (op : RelOp) (a b : UInt64) : Bool :=
  match op with
  | .lt => Float.ofBits a < Float.ofBits b
  | .le => !(Float.ofBits b < Float.ofBits a)
  | .gt => Float.ofBits b < Float.ofBits a
  | .ge => !(Float.ofBits a < Float.ofBits b)
  | .eq => !(Float.ofBits a < Float.ofBits b) && !(Float.ofBits b < Float.ofBits a)
  | .neq => Float.ofBits a < Float.ofBits b || Float.ofBits b < Float.ofBits a

/-- The comparison of numbers of a type. -/
def compares (op : RelOp) (type : Ty) (a b : UInt64) : Bool :=
  if type = .double then comparesReals op a b else comparesIntegers op a b

/-! ## Variables -/

/-- The values of the variables that code can name, and what is left of input and output. The
slot of the result stands before the parameters. -/
structure Store where
  globals : List UInt64
  args : List UInt64
  locals : List UInt64
  input : Input
  output : Output

namespace Store

/-- The value of the variable at a place. -/
def read (st : Store) (p : Place) : UInt64 :=
  match p.location with
  | .global => (st.globals[p.slot]?).getD 0
  | .param => (st.args[p.slot]?).getD 0
  | .local => (st.locals[p.slot]?).getD 0

/-- The store with another value of the variable at a place. -/
def write (st : Store) (p : Place) (x : UInt64) : Store :=
  match p.location with
  | .global => { st with globals := st.globals.set p.slot x }
  | .param => { st with args := st.args.set p.slot x }
  | .local => { st with locals := st.locals.set p.slot x }

end Store

/-- An action on variables. -/
abbrev Calc (α : Type) := Act Mishap Store α

/-! ## Built-in functions -/

/-- Reads from the input. -/
def receive {α : Type} (b : Builtin) (reads : b.reads = true) (scan : Scan α)
    (word : α → UInt64) : Calc UInt64 := do
  let st ← get
  match scan.run.run st.input with
  | (.ok a, input) =>
    set { st with input }
    pure (word a)
  | (.error e, input) =>
    set { st with input }
    throw (.trap (.input b reads e))

/-- Writes to the output. -/
def send (write : Output → Output) : Calc UInt64 := do
  let st ← get
  set { st with output := write st.output }
  if (write st.output).failed then throw (.trap .output) else pure 0

/-- Carries out a built-in function; the texts are those of the program. -/
def runBuiltin (texts : Nat → List UInt8) (b : Builtin) (args : List UInt64) : Calc UInt64 :=
  let x := args.headD 0
  match b with
  | .getint => receive .getint rfl Input.readInteger Int64.toUInt64
  | .getdouble => receive .getdouble rfl Input.readReal id
  | .getchar => receive .getchar rfl Input.readByte Machine.charWord
  | .putint => send (·.write (Machine.textBytes (toString x.toInt64)))
  | .putdouble => send (·.write (Machine.textBytes (Number.generalText x)))
  | .putchar => send (·.put x.toUInt8)
  | .putstr => send (·.write (texts x.toNat).toArray)
  | .putln => send (·.put 10)

/-! ## Expressions and conditions -/

/-- What a program gives its expressions: its texts, and its functions by their slots. -/
structure Meaning where
  texts : Nat → List UInt8
  call : Nat → List UInt64 → Calc UInt64

/-- What a call does with its arguments. -/
def Callee.run (M : Meaning) : Callee → List UInt64 → Calc UInt64
  | .builtin b, args => runBuiltin M.texts b args
  | .function slot _, args => M.call slot args

mutual

/-- The value of an expression. A text is its slot; a call without a result has an arbitrary
value. -/
def Expr.eval (M : Meaning) : Expr → Calc UInt64
  | .int word => pure word
  | .double bits => pure bits
  | .text slot => pure (UInt64.ofNat slot)
  | .load place _ => do return (← get).read place
  | .arith op type left right => do
    let a ← left.eval M
    let b ← right.eval M
    arithmetic op type a b
  | .negate type e => do return negated type (← e.eval M)
  | .convert source target e => do return converted source target (← e.eval M)
  | .call g args => do
    let xs ← args.eval M
    g.run M xs

/-- The values of arguments. -/
def Args.eval (M : Meaning) : Args → Calc (List UInt64)
  | .nil => pure []
  | .cons e rest => do
    let x ← e.eval M
    let xs ← rest.eval M
    pure (x :: xs)

end

/-- Whether a condition holds. -/
def Cond.eval (M : Meaning) : Cond → Calc Bool
  | .nonzero e => do return (← e.eval M) != 0
  | .compare op type left right => do
    let a ← left.eval M
    let b ← right.eval M
    return compares op type a b

/-! ## Statements and functions -/

/-- Single statements compute with variables. A return leaves its value in the slot of the
result. -/
def storeLeaves (M : Meaning) : Leaves Mishap Store where
  mark _ := pure ()
  perform _ st :=
    match st with
    | .assign place e => do
      let x ← e.eval M
      modify (·.write place x)
    | .call g args => do
      let _ ← (Expr.call g args).eval M
    | .ret (some e) => do
      let x ← e.eval M
      modify (·.write ⟨.param, 0⟩ x)
    | _ => pure ()
  test _ c := c.eval M

/-- What a program is made of, as far as calls go: its functions with the numbers of their local
variables, and its texts. -/
structure Library where
  functions : List Fn
  locals : Nat → Nat
  texts : Nat → List UInt8

/-- Comes back to a caller, whose variables are as they were, with the result of the function. -/
def comeBack (caller : Store) : Calc UInt64 := do
  let callee ← get
  set { callee with args := caller.args, locals := caller.locals }
  pure (callee.args.headD 0)

/-- Runs the function at a slot with arguments, in variables of its own. -/
def Library.call (P : Library) (rounds : Nat) : Nat → Nat → List UInt64 → Calc UInt64
  | 0, _, _ => throw .timeout
  | depth + 1, slot, args => do
    match P.functions[slot - 1]? with
    | none => pure 0
    | some f =>
      let caller ← get
      set { caller with
        args := List.replicate f.type.slots 0 ++ args
        locals := List.replicate (P.locals slot) 0 }
      let _ ← f.body.exec (storeLeaves ⟨P.texts, P.call rounds depth⟩) rounds 0
      comeBack caller

/-- The meaning of expressions in a program whose calls may go so deep. -/
def Library.meaning (P : Library) (rounds depth : Nat) : Meaning :=
  ⟨P.texts, P.call rounds depth⟩

end Core

end TinyC
