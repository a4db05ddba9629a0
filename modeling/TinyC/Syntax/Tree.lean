import TinyC.Operator
import TinyC.Token

/-!
# Syntax trees

The tree that the grammar assigns to a row of tokens. Each category of the grammar is a type:

    program    := declaration* function* EOF
    declaration := ("let" | "const") IDENT ":" type ("=" expression)? ";"
    function   := "fn" IDENT "(" (param ("," param)*)? ")" "->" ("int" | "double" | "void") block
    param      := "const"? IDENT ":" type
    block      := "{" statement* "}"
    statement  := if | while | return | break | continue | ";" | call ";" | assignment ";"
                | declaration
    if         := "if" relational block ("else" (block | if))?
    while      := "while" relational block
    return     := "return" expression? ";"
    relational := expression (relop expression)?
    expression := term (("+" | "-") term)*
    term       := factor (("*" | "/") factor)*
    factor     := ("+" | "-")* primary ("as" type)*
    primary    := IDENT | call | literal | "(" relational ")"
    call       := IDENT "(" (expression ("," expression)*)? ")"

A row of tokens outside the grammar has a tree as well. Where the grammar allows none of the
tokens it meets, the tree has a *gap* that says which kinds were wanted and which token stands
there instead; nothing behind the gap belongs to the tree. So analysis, which walks the tree in
the order of the tokens, finds the first thing that is wrong with a program, be it a gap or not.

Trees mention tokens by their number in the row, never by their position.
-/

namespace TinyC.Syntax

/-- A token as the grammar sees it: its kind, its value, and its number in the row. -/
structure Word where
  kind : Kind
  value : Value
  ord : Nat
  deriving Repr, DecidableEq

/-- A place where the grammar wants one of some kinds, and the number of the token there. -/
structure Gap where
  want : List Kind
  ord : Nat
  deriving Repr, DecidableEq

/-- A token that closes a phrase, or the gap where it is missing. -/
inductive Close where
  | word (ord : Nat)
  | gap (g : Gap)
  deriving Repr, DecidableEq

/-- An identifier. -/
structure Name where
  text : String
  ord : Nat
  deriving Repr, DecidableEq

mutual

/-- A sum, associating to the left. -/
inductive Expr where
  | term (t : Term)
  | sum (left : Expr) (op : ArithOp) (right : Term)

/-- A product, associating to the left. -/
inductive Term where
  | factor (f : Factor)
  | product (left : Term) (op : ArithOp) (right : Factor)

/-- Signs before a primary with its casts; a sign is a minus or not. The signs apply to the
result of the casts. `ord` is the number of the first token. -/
inductive Factor where
  | mk (ord : Nat) (signs : List Bool) (body : Casted)

/-- A primary with the casts behind it, each told by the number of its `as`. -/
inductive Casted where
  | primary (p : Primary)
  | cast (body : Casted) (ord : Nat) (target : Ty)
  | untyped (body : Casted) (ord : Nat) (g : Gap)

/-- A variable, a call, a literal or a phrase in parentheses. -/
inductive Primary where
  | name (x : Name)
  | call (f : Name) (args : Args)
  | int (value : UInt64) (ord : Nat)
  | double (bits : UInt64) (ord : Nat)
  | text (s : String) (ord : Nat)
  | paren (ord : Nat) (inner : Relational) (close : Close)
  | gap (g : Gap)

/-- An expression, or a comparison of two. -/
inductive Relational where
  | value (e : Expr)
  | compare (left : Expr) (op : RelOp) (right : Expr)

/-- The arguments of a call and the parenthesis behind them. -/
inductive Args where
  | done (ord : Nat)
  | more (e : Expr) (rest : Args)
  | gap (g : Gap)

end

/-- A declaration. -/
inductive Decl where
  | mk (constant : Bool) (x : Name) (type : Ty) (init : Option Expr) (close : Close)
  | gap (g : Gap)

mutual

/-- A statement. -/
inductive Stmt where
  | empty
  | declare (d : Decl)
  | branch (i : If)
  | loop (ord : Nat) (cond : Relational) (body : Block)
  | ret (ord : Nat) (value : Option Expr) (close : Close)
  | brk (ord : Nat) (close : Close)
  | cont (ord : Nat) (close : Close)
  | call (f : Name) (args : Args) (close : Close)
  | assign (x : Name) (e : Expr) (close : Close)
  | unfinished (x : Name) (g : Gap)
  | gap (g : Gap)

/-- A condition with the block for it and what stands behind that. -/
inductive If where
  | mk (cond : Relational) (body : Block) (alternative : Else)

/-- What stands behind the block of a condition. -/
inductive Else where
  | none
  | block (b : Block)
  | branch (i : If)
  | gap (g : Gap)

/-- Statements in braces. -/
inductive Block where
  | stmts (ss : Stmts)
  | gap (g : Gap)

/-- Statements up to the closing brace. -/
inductive Stmts where
  | done (ord : Nat)
  | more (s : Stmt) (rest : Stmts)

end

/-- A parameter of a function. -/
structure Param where
  constant : Bool
  x : Name
  type : Ty
  deriving Repr, DecidableEq

/-- A function: its name, its parameters as far as they are complete, and the type of its result
with its body, unless there is a gap before. -/
inductive Fn where
  | mk (name : Name) (params : List Param) (body : Except Gap (Ty × Block))
  | gap (g : Gap)

/-- A program: declarations, functions, and its end. -/
structure Program where
  decls : List Decl
  functions : List Fn
  close : Close

/-! ## Where phrases start and stop -/

mutual

/-- The number of the token behind an expression. -/
def Expr.stop : Expr → Nat
  | .term t => t.stop
  | .sum _ _ r => r.stop

/-- The number of the token behind a term. -/
def Term.stop : Term → Nat
  | .factor f => f.stop
  | .product _ _ r => r.stop

/-- The number of the token behind a factor. -/
def Factor.stop : Factor → Nat
  | .mk _ _ body => body.stop

/-- The number of the token behind a primary and its casts. -/
def Casted.stop : Casted → Nat
  | .primary p => p.stop
  | .cast _ ord _ => ord + 2
  | .untyped _ _ g => g.ord

/-- The number of the token behind a primary. -/
def Primary.stop : Primary → Nat
  | .name x => x.ord + 1
  | .call _ args => args.stop
  | .int _ ord => ord + 1
  | .double _ ord => ord + 1
  | .text _ ord => ord + 1
  | .paren _ _ (.word ord) => ord + 1
  | .paren _ _ (.gap g) => g.ord
  | .gap g => g.ord

/-- The number of the token behind the arguments of a call. -/
def Args.stop : Args → Nat
  | .done ord => ord + 1
  | .more _ rest => rest.stop
  | .gap g => g.ord

end

/-- The number of the first token of a term. -/
def Term.start : Term → Nat
  | .factor (.mk ord _ _) => ord
  | .product l _ _ => l.start

/-- The number of the first token of an expression. -/
def Expr.start : Expr → Nat
  | .term t => t.start
  | .sum l _ _ => l.start

/-- The number of the first token of an expression or comparison. -/
def Relational.start : Relational → Nat
  | .value e => e.start
  | .compare l _ _ => l.start

/-- The number of the token behind the last statement's closing brace. -/
def Stmts.stop : Stmts → Nat
  | .done ord => ord + 1
  | .more _ rest => rest.stop

/-- The number of the token behind a block. -/
def Block.stop : Block → Nat
  | .stmts ss => ss.stop
  | .gap g => g.ord

end TinyC.Syntax
