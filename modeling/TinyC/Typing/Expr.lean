import TinyC.Core.Layout
import TinyC.Typing.State

/-!
# Analysis of expressions

What an expression means where it stands. A phrase in parentheses can be a comparison; such a
phrase has no value, and can only be used as a condition.
-/

namespace TinyC.Typing

open Syntax (Name)

/-- What a phrase stands for: a value, or a condition. -/
inductive Operand where
  | value (e : Core.Expr)
  | test (c : Core.Cond)

/-- The type of an operand; a condition has the type of what has no value. -/
def Operand.type : Operand → Ty
  | value e => e.type
  | test _ => .void

/-- The value of an operand that is a number. -/
def Operand.number? : Operand → Option Core.Expr
  | value e => if e.type.isNumeric then some e else none
  | test _ => none

/-- The value of an operand of a type. -/
def Operand.valueOf? (type : Ty) : Operand → Option Core.Expr
  | value e => if e.type = type then some e else none
  | test _ => none

/-- The values of two operands that are numbers of one type. -/
def Operand.numbers? (l r : Operand) : Option (Core.Expr × Core.Expr) :=
  match l.number?, r.number? with
  | some a, some b => if a.type = b.type then some (a, b) else none
  | _, _ => none

/-- The entry that a variable's name stands for, and where it lives. -/
def resolve (c : Context) (x : Name) : Walk (Entry Nat × Location) := do
  match ((← get).scope c).resolve Table.find? x.text with
  | none => reject (.notDeclared x.text) x.ord
  | some (e, l) => if e.type.isNumeric then pure (e, l) else reject (.notVariable x.text) x.ord

/-- The place of an entry. -/
def placeOf (c : Context) (e : Entry Nat) (l : Location) : Core.Place :=
  match l, c.owner with
  | .param, some (_, type) => ⟨.param, e.slot + type.slots⟩
  | l, _ => ⟨l, e.slot⟩

/-- The value of a variable. -/
def load (c : Context) (x : Name) : Walk Operand := do
  let (e, l) ← resolve c x
  if l = .local ∧ e.initialized = false then
    reject (.notInitialized x.text) x.ord
  else
    emit (placeOf c e l).address
    emit ⟨.load64, 0⟩
    pure (.value (.load (placeOf c e l) e.type))

/-- What a call runs, and the types of its parameters. -/
def callee (f : Name) : Walk (Core.Callee × List Ty) := do
  match Builtin.ofName? f.text with
  | some b => pure (.builtin b, b.paramTypes)
  | none =>
    match (← get).functions.find? f.text with
    | some g => pure (.function g.slot g.type, g.paramTypes)
    | none => reject (.functionNotDeclared f.text) f.ord

/-- Joins the operands of an arithmetic operator; `ord` is the number of the first token. -/
def combine (ord : Nat) (op : ArithOp) (l r : Operand) : Walk Operand :=
  match l.numbers? r with
  | some (a, b) => do
    emit (op.instr a.type)
    pure (.value (.arith op a.type a b))
  | none => reject (.operandTypes l.type op r.type) ord

/-- Compares two operands; `ord` is the number of the first token. -/
def compare (ord : Nat) (op : RelOp) (l r : Operand) : Walk Operand :=
  match l.numbers? r with
  | some (a, b) => do
    emitAll (op.instrs a.type)
    pure (.test (.compare op a.type a b))
  | none => reject (.comparedTypes l.type op r.type) ord

/-- Converts an operand; `ord` is the number of the `as`. -/
def convert (ord : Nat) (target : Ty) (v : Operand) : Walk Operand :=
  match v.number? with
  | some e => do
    emitAll (e.type.conversion target)
    pure (.value (.convert e.type target e))
  | none => reject (.castTypes v.type target) ord

/-- Negates a number as often as there are signs that are minus. -/
def negateAll (e : Core.Expr) : List Bool → Walk Core.Expr
  | [] => pure e
  | false :: ss => negateAll e ss
  | true :: ss => do
    emit e.type.negation
    negateAll (.negate e.type e) ss

/-- Applies signs to an operand; `ord` is the number of the first token. -/
def sign (ord : Nat) (ss : List Bool) (v : Operand) : Walk Operand :=
  if ss.any id then
    match v.number? with
    | some e => return .value (← negateAll e ss)
    | none => reject (.negatedType v.type) ord
  else pure v

/-- Takes an operand for the argument of a number; `ord` is the number of its first token. -/
def argument (f : Name) (number : Nat) (type : Ty) (ord : Nat) (v : Operand) :
    Walk Core.Expr :=
  match v.valueOf? type with
  | some e => pure e
  | none => reject (.argumentType number f.text v.type type) ord

mutual

/-- Analyses a sum. -/
def expr (c : Context) : Syntax.Expr → Walk Operand
  | .term t => term c t
  | .sum l op r => do
    let a ← expr c l
    let b ← term c r
    combine l.start op a b

/-- Analyses a product. -/
def term (c : Context) : Syntax.Term → Walk Operand
  | .factor f => factor c f
  | .product l op r => do
    let a ← term c l
    let b ← factor c r
    combine l.start op a b

/-- Analyses signs and what they stand before. -/
def factor (c : Context) : Syntax.Factor → Walk Operand
  | .mk ord ss body => do
    look ord
    let v ← casted c body
    sign ord ss v

/-- Analyses a primary and its casts. -/
def casted (c : Context) : Syntax.Casted → Walk Operand
  | .primary p => do
    let v ← primary c p
    look p.stop
    pure v
  | .cast body ord target => do
    let v ← casted c body
    look (ord + 1)
    let v ← convert ord target v
    look (ord + 2)
    pure v
  | .untyped body _ g => do
    let _ ← casted c body
    stuck g

/-- Analyses a primary. -/
def primary (c : Context) : Syntax.Primary → Walk Operand
  | .name x => do
    look (x.ord + 1)
    load c x
  | .call f as => do
    look (f.ord + 1)
    let (g, types) ← callee f
    emit g.room
    let es ← args c f types.length 1 types as
    emit g.invoke
    pure (.value (.call g es))
  | .int word ord => do
    look ord
    emit ⟨.push, word.toInt64⟩
    pure (.value (.int word))
  | .double bits ord => do
    look ord
    emit ⟨.push, bits.toInt64⟩
    pure (.value (.double bits))
  | .text s ord => do
    look ord
    let slot := (← get).globals.count
    modify fun st => { st with globals := (st.globals.add? (Entry.ofText "" s)).getD st.globals }
    emit ⟨.push, Int64.ofNat slot⟩
    pure (.value (.text slot))
  | .paren ord inner cl => do
    look ord
    let v ← relational c inner
    close cl
    pure v
  | .gap g => stuck g

/-- Analyses an expression or comparison. -/
def relational (c : Context) : Syntax.Relational → Walk Operand
  | .value e => expr c e
  | .compare l op r => do
    let a ← expr c l
    let b ← expr c r
    compare l.start op a b

/-- Analyses arguments for parameters of the given types; the first of them has a number, and the
function has `want` parameters in all. -/
def args (c : Context) (f : Name) (want number : Nat) (types : List Ty) :
    Syntax.Args → Walk Core.Args
  | .done ord => do
    look ord
    if types.isEmpty then pure .nil else reject (.notEnoughArguments f.text want) ord
  | .more e rest => do
    look e.start
    match types with
    | [] => reject (.tooManyArguments f.text want) e.start
    | type :: types =>
      let v ← expr c e
      let a ← argument f number type e.start v
      let as ← args c f want (number + 1) types rest
      pure (.cons a as)
  | .gap g => stuck g

end

/-- Analyses the condition of an `if` or a loop. -/
def condition (c : Context) (r : Syntax.Relational) : Walk Core.Cond := do
  look r.start
  match ← relational c r with
  | .test t => pure t
  | .value e =>
    if e.type.isNumeric then
      emit ⟨.brtrue, 1⟩
      pure (.nonzero e)
    else reject (.conditionType e.type) r.start

end TinyC.Typing
