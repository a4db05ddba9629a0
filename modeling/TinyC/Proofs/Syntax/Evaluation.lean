import TinyC.Proofs.Core.Evaluation
import TinyC.Syntax.Tree

/-!
# What syntax trees compute

The meaning of a program read off the tree that the grammar assigns to it. There is no analysis in
it: values know which kind of number they are, so no operator has to be chosen beforehand, and a
name is looked up among the declarations when it is used. Signs apply to the result of the casts,
operands and arguments are evaluated from left to right, and a comparison gives a truth that only a
condition can use. A tree that analysis would not accept has some meaning as well, of which nothing
is said.

A local variable is known from the end of its declaration on to the end of the function. So what a
name stands for depends on how many variables have been declared in the text before it.
-/

namespace TinyC.Syntax

open Core (Calc Signal iterate)

/-! ## Values -/

/-- A value: a number, the bytes of a text, or the truth of a comparison. A call of a function
without a result gives nothing. -/
inductive Datum where
  | int (word : UInt64)
  | double (bits : UInt64)
  | text (bytes : List UInt8)
  | truth (b : Bool)
  | nothing
  deriving Repr, DecidableEq

namespace Datum

/-- The number of a type that a word stands for. -/
def ofWord : Ty → UInt64 → Datum
  | .int, x => int x
  | .double, x => double x
  | _, _ => nothing

/-- The word that stands for a number. -/
def word : Datum → UInt64
  | int x => x
  | double x => x
  | _ => 0

/-- The bytes of a text. -/
def bytes : Datum → List UInt8
  | text bs => bs
  | _ => []

/-- The operator on two numbers of one kind. -/
def arithmetic (op : ArithOp) : Datum → Datum → Calc Datum
  | int a, int b => int <$> Core.onIntegers op a b
  | double a, double b => pure (double (Core.onReals op a b))
  | _, _ => pure nothing

/-- The negation of a number. -/
def negate : Datum → Datum
  | int a => int (wrap (-signed a))
  | double a => double (Number.Binary64.negate a)
  | _ => nothing

/-- A value behind signs, each a minus or not. -/
def behind (signs : List Bool) (d : Datum) : Datum :=
  signs.foldr (fun minus d => if minus then d.negate else d) d

/-- A number as one of a type. -/
def cast (target : Ty) : Datum → Datum
  | int a => if target = .double then double (doubleOfInteger a) else int a
  | double a => if target = .int then int (Number.Binary64.truncate a) else double a
  | _ => nothing

/-- The comparison of two numbers of one kind. -/
def compare (op : RelOp) : Datum → Datum → Datum
  | int a, int b => truth (Core.comparesIntegers op a b)
  | double a, double b => truth (Core.comparesReals op a b)
  | _, _ => nothing

/-- The value holds as a condition: a number does unless its word is zero. -/
def holds : Datum → Bool
  | truth b => b
  | d => d.word != 0

end Datum

/-- Carries out a built-in function on values. -/
def applyBuiltin (b : Builtin) (ds : List Datum) : Calc Datum :=
  Datum.ofWord b.result <$>
    Core.runBuiltin (fun _ => (ds.headD .nothing).bytes) b (ds.map Datum.word)

/-! ## Expressions -/

/-- What names stand for: variables for their places, functions for what they do. -/
structure Bindings where
  place : String → Option (Core.Place × Ty)
  call : String → List Datum → Calc Datum

mutual

/-- The value of a sum. -/
def Expr.eval (B : Bindings) : Expr → Calc Datum
  | .term t => t.eval B
  | .sum l op r => do
    let a ← l.eval B
    let b ← r.eval B
    Datum.arithmetic op a b

/-- The value of a product. -/
def Term.eval (B : Bindings) : Term → Calc Datum
  | .factor f => f.eval B
  | .product l op r => do
    let a ← l.eval B
    let b ← r.eval B
    Datum.arithmetic op a b

/-- The value of what stands behind signs. -/
def Factor.eval (B : Bindings) : Factor → Calc Datum
  | .mk _ signs body => Datum.behind signs <$> body.eval B

/-- The value of a primary with its casts. -/
def Casted.eval (B : Bindings) : Casted → Calc Datum
  | .primary p => p.eval B
  | .cast body _ target => Datum.cast target <$> body.eval B
  | .untyped _ _ _ => pure .nothing

/-- The value of a primary. -/
def Primary.eval (B : Bindings) : Primary → Calc Datum
  | .name x =>
    match B.place x.text with
    | some (p, type) => do return Datum.ofWord type ((← get).read p)
    | none => pure .nothing
  | .call f as => do
    let ds ← as.eval B
    B.call f.text ds
  | .int word _ => pure (.int word)
  | .double bits _ => pure (.double bits)
  | .text s _ => pure (.text (Text.bytesOf s))
  | .paren _ inner _ => inner.eval B
  | .gap _ => pure .nothing

/-- The value of an expression or comparison. -/
def Relational.eval (B : Bindings) : Relational → Calc Datum
  | .value e => e.eval B
  | .compare l op r => do
    let a ← l.eval B
    let b ← r.eval B
    return Datum.compare op a b

/-- The values of arguments. -/
def Args.eval (B : Bindings) : Args → Calc (List Datum)
  | .done _ => pure []
  | .more e rest => do
    let d ← e.eval B
    let ds ← rest.eval B
    pure (d :: ds)
  | .gap _ => pure []

end

/-- Whether a condition holds. -/
def Relational.holds (B : Bindings) (r : Relational) : Calc Bool :=
  Datum.holds <$> r.eval B

/-! ## Declarations -/

/-- The variable that is declared. -/
def Decl.declares : Decl → List (String × Ty)
  | .mk _ x type _ _ => [(x.text, type)]
  | .gap _ => []

mutual

/-- The variables that a statement declares, in the order of the text. -/
def Stmt.declares : Stmt → List (String × Ty)
  | .declare d => d.declares
  | .branch i => i.declares
  | .loop _ _ body => body.declares
  | _ => []

/-- The variables that are declared in the blocks of a condition. -/
def If.declares : If → List (String × Ty)
  | .mk _ body alternative => body.declares ++ alternative.declares

/-- The variables that are declared behind the block of a condition. -/
def Else.declares : Else → List (String × Ty)
  | .block b => b.declares
  | .branch i => i.declares
  | _ => []

/-- The variables that a block declares. -/
def Block.declares : Block → List (String × Ty)
  | .stmts ss => ss.declares
  | .gap _ => []

/-- The variables that statements declare. -/
def Stmts.declares : Stmts → List (String × Ty)
  | .done _ => []
  | .more s rest => s.declares ++ rest.declares

end

/-- The number and the type of the first declaration of a name. -/
def seek (x : String) : List (String × Ty) → Option (Nat × Ty)
  | [] => none
  | (y, type) :: rest =>
    if y = x then some (0, type) else (seek x rest).map fun (i, type) => (i + 1, type)

/-- The variables that a function can name: the globals, its parameters, and its local variables
in the order of the text. -/
structure Declared where
  globals : List (String × Ty)
  result : Ty
  params : List (String × Ty)
  locals : List (String × Ty)

/-- What the name of a variable stands for where `n` local variables have been declared. The
globals come behind the names of the built-in functions, and the parameters behind the slot of the
result. -/
def Declared.place (D : Declared) (n : Nat) (x : String) : Option (Core.Place × Ty) :=
  match seek x (D.locals.take n), seek x D.params, seek x D.globals with
  | some (i, type), _, _ => some (⟨.local, i⟩, type)
  | none, some (i, type), _ => some (⟨.param, i + D.result.slots⟩, type)
  | none, none, some (i, type) => some (⟨.global, Builtin.all.length + i⟩, type)
  | none, none, none => none

/-! ## Statements -/

mutual

/-- Runs a statement before which `n` local variables have been declared. -/
def Stmt.run (B : Nat → Bindings) (rounds n : Nat) : Stmt → Calc Signal
  | .declare (.mk _ _ _ (some e) _) => do
    let d ← e.eval (B n)
    modify (·.write ⟨.local, n⟩ d.word)
    pure .normal
  | .branch i => i.run B rounds n
  | .loop _ cond body =>
    iterate (do
      if ← cond.holds (B n) then
        let signal ← body.run B rounds n
        pure signal.afterBody
      else pure (some .normal)) rounds
  | .ret _ (some e) _ => do
    let d ← e.eval (B n)
    modify (·.write ⟨.param, 0⟩ d.word)
    pure .ret
  | .ret _ none _ => pure .ret
  | .brk _ _ => pure .brk
  | .cont _ _ => pure .cont
  | .call f as _ => do
    let _ ← (Primary.call f as).eval (B n)
    pure .normal
  | .assign x e _ => do
    let d ← e.eval (B n)
    match (B n).place x.text with
    | some (p, _) => modify (·.write p d.word)
    | none => pure ()
    pure .normal
  | _ => pure .normal

/-- Runs the block that a condition picks. -/
def If.run (B : Nat → Bindings) (rounds n : Nat) : If → Calc Signal
  | .mk cond body alternative => do
    if ← cond.holds (B n) then body.run B rounds n
    else alternative.run B rounds (n + body.declares.length)

/-- Runs what stands behind the block of a condition. -/
def Else.run (B : Nat → Bindings) (rounds n : Nat) : Else → Calc Signal
  | .block b => b.run B rounds n
  | .branch i => i.run B rounds n
  | _ => pure .normal

/-- Runs a block. -/
def Block.run (B : Nat → Bindings) (rounds n : Nat) : Block → Calc Signal
  | .stmts ss => ss.run B rounds n
  | .gap _ => pure .normal

/-- Runs statements in order. -/
def Stmts.run (B : Nat → Bindings) (rounds n : Nat) : Stmts → Calc Signal
  | .done _ => pure .normal
  | .more s rest => do
    match ← s.run B rounds n with
    | .normal => rest.run B rounds (n + s.declares.length)
    | signal => pure signal

end

/-! ## Programs -/

/-- The function has a name. -/
def Fn.named (x : String) : Fn → Bool
  | .mk f _ _ => f.text == x
  | .gap _ => false

namespace Program

/-- The globals of a program. -/
def globals (p : Program) : List (String × Ty) :=
  p.decls.flatMap Decl.declares

/-- The variables that the initial values of the globals can name. -/
def outside (p : Program) : Declared :=
  ⟨p.globals, .void, [], []⟩

/-- The variables that a function can name. -/
def inside (p : Program) (params : List Param) (type : Ty) (body : Block) : Declared :=
  ⟨p.globals, type, params.map fun a => (a.x.text, a.type), body.declares⟩

/-- Calls the function of a name, in variables of its own. Calls may go `depth` deep. -/
def call (p : Program) (rounds depth : Nat) (f : String) (ds : List Datum) : Calc Datum :=
  match Builtin.ofName? f with
  | some b => applyBuiltin b ds
  | none =>
    match depth with
    | 0 => throw .timeout
    | depth + 1 =>
      match p.functions.find? (Fn.named f) with
      | some (.mk _ params (.ok (type, body))) => do
        let caller ← get
        set { caller with
          args := List.replicate type.slots 0 ++ ds.map Datum.word
          locals := List.replicate body.declares.length 0 }
        let _ ← body.run (fun n => ⟨(p.inside params type body).place n, p.call rounds depth⟩)
          rounds 0
        Datum.ofWord type <$> Core.comeBack caller
      | _ => pure .nothing

/-- What names stand for where `n` local variables have been declared. -/
def bindings (p : Program) (rounds depth : Nat) (D : Declared) (n : Nat) : Bindings :=
  ⟨D.place n, p.call rounds depth⟩

end Program

end TinyC.Syntax
