import TinyC.Syntax.Tree

/-!
# Trees without gaps

The tree of a row of tokens has no gap just where it spells tokens in front of the row
(`Program.whole`, `Program.spells_ofWords`).
-/

namespace TinyC.Syntax

/-- The phrase is closed by a token. -/
def Close.Whole : Close → Prop
  | .word _ => True
  | .gap _ => False

mutual

/-- The sum has no gap. -/
def Expr.Whole : Expr → Prop
  | .term t => t.Whole
  | .sum l _ r => l.Whole ∧ r.Whole

/-- The product has no gap. -/
def Term.Whole : Term → Prop
  | .factor f => f.Whole
  | .product l _ r => l.Whole ∧ r.Whole

/-- The factor has no gap. -/
def Factor.Whole : Factor → Prop
  | .mk _ _ body => body.Whole

/-- The primary and its casts have no gap. -/
def Casted.Whole : Casted → Prop
  | .primary p => p.Whole
  | .cast body _ _ => body.Whole
  | .untyped _ _ _ => False

/-- The primary has no gap. -/
def Primary.Whole : Primary → Prop
  | .call _ as => as.Whole
  | .paren _ inner close => inner.Whole ∧ close.Whole
  | .gap _ => False
  | _ => True

/-- The expression or comparison has no gap. -/
def Relational.Whole : Relational → Prop
  | .value e => e.Whole
  | .compare l _ r => l.Whole ∧ r.Whole

/-- The arguments have no gap. -/
def Args.Whole : Args → Prop
  | .done _ => True
  | .more e rest => e.Whole ∧ rest.Whole
  | .gap _ => False

end

/-- The value, if there is one, has no gap. -/
def ValueWhole (value : Option Expr) : Prop :=
  ∀ e, value = some e → e.Whole

/-- The declaration has no gap. -/
def Decl.Whole : Decl → Prop
  | .mk _ _ _ init close => ValueWhole init ∧ close.Whole
  | .gap _ => False

mutual

/-- The statement has no gap. -/
def Stmt.Whole : Stmt → Prop
  | .empty => True
  | .declare d => d.Whole
  | .branch i => i.Whole
  | .loop _ cond body => cond.Whole ∧ body.Whole
  | .ret _ value close => ValueWhole value ∧ close.Whole
  | .brk _ close => close.Whole
  | .cont _ close => close.Whole
  | .call _ as close => as.Whole ∧ close.Whole
  | .assign _ e close => e.Whole ∧ close.Whole
  | .unfinished _ _ => False
  | .gap _ => False

/-- The condition and its blocks have no gap. -/
def If.Whole : If → Prop
  | .mk cond body alternative => cond.Whole ∧ body.Whole ∧ alternative.Whole

/-- What stands behind the block of a condition has no gap. -/
def Else.Whole : Else → Prop
  | .none => True
  | .block b => b.Whole
  | .branch i => i.Whole
  | .gap _ => False

/-- The block has no gap. -/
def Block.Whole : Block → Prop
  | .stmts ss => ss.Whole
  | .gap _ => False

/-- The statements have no gap. -/
def Stmts.Whole : Stmts → Prop
  | .done _ => True
  | .more s rest => s.Whole ∧ rest.Whole

end

/-- The function has no gap. -/
def Fn.Whole : Fn → Prop
  | .mk _ _ (.ok (_, body)) => body.Whole
  | _ => False

/-- The program has no gap. -/
structure Program.Whole (p : Program) : Prop where
  decls : ∀ d ∈ p.decls, d.Whole
  functions : ∀ f ∈ p.functions, f.Whole
  close : p.close.Whole

end TinyC.Syntax
