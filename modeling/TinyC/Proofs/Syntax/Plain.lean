import TinyC.Syntax.Parser

/-!
# What every tree of the grammar has

Trees can mention any type and any name, but the grammar writes only some of them: a cast, a
variable and a parameter have the type of a number, no function has a text for its result, and
the name of a function is never empty.

A gap of a tree tells which kinds of tokens could have stood there. It would tell none where the
budget of calls is used up, and the semicolon behind a `break` or a `continue` could be one that
comes earlier. Neither happens in the tree of a row. A tree that has all this is `Plain`, and the
tree of a row of tokens is plain, whether or not it has gaps (`Program.ofWords_row`).
-/

namespace TinyC.Syntax

/-- The gap tells what could have stood there. -/
def Gap.Definite (g : Gap) : Prop :=
  g.want ≠ []

/-- The end of a phrase, if it is a gap, tells what could have stood there. -/
def Close.Definite : Close → Prop
  | .word _ => True
  | .gap g => g.Definite

/-- The token that closes a phrase comes behind another one. -/
def Close.Behind (ord : Nat) : Close → Prop
  | .word o => ord < o
  | .gap _ => True

mutual

/-- The types that a sum mentions are those of numbers, and its gaps are definite. -/
def Expr.Plain : Expr → Prop
  | .term t => t.Plain
  | .sum l _ r => l.Plain ∧ r.Plain

def Term.Plain : Term → Prop
  | .factor f => f.Plain
  | .product l _ r => l.Plain ∧ r.Plain

def Factor.Plain : Factor → Prop
  | .mk _ _ body => body.Plain

def Casted.Plain : Casted → Prop
  | .primary p => p.Plain
  | .cast body _ target => body.Plain ∧ target.isNumeric = true
  | .untyped body _ g => body.Plain ∧ g.Definite

def Primary.Plain : Primary → Prop
  | .name _ | .int _ _ | .double _ _ | .text _ _ => True
  | .call _ as => as.Plain
  | .paren _ inner close => inner.Plain ∧ close.Definite
  | .gap g => g.Definite

def Relational.Plain : Relational → Prop
  | .value e => e.Plain
  | .compare l _ r => l.Plain ∧ r.Plain

def Args.Plain : Args → Prop
  | .done _ => True
  | .more e rest => e.Plain ∧ rest.Plain
  | .gap g => g.Definite

end

/-- The value, if there is one, is plain. -/
def ValuePlain (value : Option Expr) : Prop :=
  ∀ e, value = some e → e.Plain

/-- A declared variable has a name, and its type is that of a number. -/
def Decl.Plain : Decl → Prop
  | .mk _ x type init close =>
    (x.text ≠ "" ∧ type.isNumeric = true) ∧ ValuePlain init ∧ close.Definite
  | .gap g => g.Definite

mutual

/-- The types that a statement mentions are those of numbers, its gaps are definite, and semicolons
come behind what they close. -/
def Stmt.Plain : Stmt → Prop
  | .empty => True
  | .declare d => d.Plain
  | .branch i => i.Plain
  | .loop _ cond body => cond.Plain ∧ body.Plain
  | .ret _ value close => ValuePlain value ∧ close.Definite
  | .brk ord close | .cont ord close => close.Definite ∧ close.Behind ord
  | .call _ as close => as.Plain ∧ close.Definite
  | .assign _ e close => e.Plain ∧ close.Definite
  | .unfinished _ g | .gap g => g.Definite

def If.Plain : If → Prop
  | .mk cond body alternative => cond.Plain ∧ body.Plain ∧ alternative.Plain

def Else.Plain : Else → Prop
  | .none => True
  | .block b => b.Plain
  | .branch i => i.Plain
  | .gap g => g.Definite

def Block.Plain : Block → Prop
  | .stmts ss => ss.Plain
  | .gap g => g.Definite

def Stmts.Plain : Stmts → Prop
  | .done _ => True
  | .more s rest => s.Plain ∧ rest.Plain

end

/-- The result of a function is no text, and its body is plain. -/
def BodyPlain : Except Gap (Ty × Block) → Prop
  | .ok (type, body) => type ≠ .string ∧ body.Plain
  | .error g => g.Definite

/-- The function has a name, its parameters are numbers with names, and its result is no text. -/
def Fn.Plain : Fn → Prop
  | .mk x ps rest =>
    x.text ≠ "" ∧ (∀ p ∈ ps, p.x.text ≠ "" ∧ p.type.isNumeric = true) ∧ BodyPlain rest
  | .gap g => g.Definite

/-- The declarations and functions of the program are plain. -/
structure Program.Plain (p : Program) : Prop where
  decls : ∀ d ∈ p.decls, d.Plain
  functions : ∀ f ∈ p.functions, f.Plain
  close : p.close.Definite

theorem variableType?_isNumeric {k : Kind} {t : Ty} (h : variableType? k = some t) :
    t.isNumeric = true := by
  cases k <;> simp [variableType?] at h <;> subst h <;> rfl

theorem resultType?_ne_string {k : Kind} {t : Ty} (h : resultType? k = some t) : t ≠ .string := by
  cases k <;> simp [resultType?, variableType?] at h <;> subst h <;> decide

end TinyC.Syntax
