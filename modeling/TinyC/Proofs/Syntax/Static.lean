import TinyC.Proofs.Syntax.Derived
import TinyC.Proofs.Syntax.Plain
import TinyC.Symbol.Builtin
import TinyC.Symbol.Scope

/-!
# Static semantics

Which programs are right, said of the tree alone: `Program.Valid`. The rules speak of what stands
before a phrase in the text of the program (`Known`), never of tables or of the order in which
something is checked.

A global is known behind its declaration, a function from its own body on. A local variable is
known behind its declaration to the end of the function, in whatever block it was declared; it
hides a parameter of its name, which hides a global. It can be read once the text before has given
it a value: in its declaration, or in an assignment behind that, whether or not the assignment is
ever carried out.
-/

namespace TinyC.Syntax

/-! ## What is known at a point -/

/-- A variable as its declaration has it. -/
structure Var where
  name : String
  constant : Bool
  type : Ty
  deriving Repr, DecidableEq

/-- A function as its calls see it. -/
structure Heading where
  name : String
  params : List Ty
  result : Ty
  deriving Repr, DecidableEq

/-- What the text of a function does with names: a local variable is declared, with an initial value
or without, or some variable is assigned to. -/
inductive Event where
  | declared (v : Var) (valued : Bool)
  | assigned (x : String)
  deriving Repr, DecidableEq

/-- The variable that is declared, if one is. -/
def Event.var? : Event → Option Var
  | declared v _ => some v
  | assigned _ => none

/-- The variables that are declared in some text. -/
def declaredIn (es : List Event) : List Var :=
  es.filterMap Event.var?

/-- The text declares a variable of the name and gives it a value, either there or in an assignment
behind its declaration. -/
def ValuedIn (x : String) (es : List Event) : Prop :=
  ∃ earlier v valued later, es = earlier ++ Event.declared v valued :: later ∧ v.name = x ∧
    (valued = true ∨ Event.assigned x ∈ later)

@[simp] theorem declaredIn_append (es fs : List Event) :
    declaredIn (es ++ fs) = declaredIn es ++ declaredIn fs :=
  List.filterMap_append

theorem mem_declaredIn {v : Var} {valued : Bool} {es : List Event} (h : .declared v valued ∈ es) :
    v ∈ declaredIn es :=
  List.mem_filterMap.mpr ⟨_, h, rfl⟩

/-- Only what is declared has a value. -/
theorem ValuedIn.declared {x : String} {es : List Event} (h : ValuedIn x es) :
    ∃ v ∈ declaredIn es, v.name = x := by
  obtain ⟨earlier, v, valued, later, rfl, hname, -⟩ := h
  exact ⟨v, mem_declaredIn (List.mem_append_right _ List.mem_cons_self), hname⟩

/-- What comes last gives a value to what it declares with one, or to what it assigns to, if that
has been declared. -/
theorem valuedIn_concat {x : String} {es : List Event} {e : Event} :
    ValuedIn x (es ++ [e]) ↔ ValuedIn x es ∨ (∃ v, e = .declared v true ∧ v.name = x) ∨
      (e = .assigned x ∧ ∃ v ∈ declaredIn es, v.name = x) := by
  constructor
  · rintro ⟨earlier, v, valued, later, heq, hname, hvalue⟩
    rcases List.eq_nil_or_concat later with rfl | ⟨later, d, rfl⟩
    · obtain ⟨-, hlast⟩ := List.append_inj' heq rfl
      cases hlast
      rcases hvalue with rfl | hmem
      · exact .inr (.inl ⟨v, rfl, hname⟩)
      · cases hmem
    · have hsplit : es ++ [e] = (earlier ++ Event.declared v valued :: later) ++ [d] := by
        simpa using heq
      obtain ⟨rfl, hlast⟩ := List.append_inj' hsplit rfl
      cases hlast
      rcases hvalue with hvalued | hmem
      · exact .inl ⟨earlier, v, valued, later, rfl, hname, .inl hvalued⟩
      · rw [List.concat_eq_append] at hmem
        rcases List.mem_append.mp hmem with hmem | hmem
        · exact .inl ⟨earlier, v, valued, later, rfl, hname, .inr hmem⟩
        · have hd := List.mem_singleton.mp hmem
          refine .inr (.inr ⟨hd.symm, v, ?_, hname⟩)
          exact mem_declaredIn (List.mem_append_right _ List.mem_cons_self)
  · rintro (⟨earlier, v, valued, later, rfl, hname, hvalue⟩ | ⟨v, rfl, hname⟩ | ⟨rfl, v, hv, hname⟩)
    · refine ⟨earlier, v, valued, later ++ [e], by simp, hname, ?_⟩
      exact hvalue.imp id fun hmem => List.mem_append_left _ hmem
    · exact ⟨es, v, true, [], rfl, hname, .inl rfl⟩
    · obtain ⟨d, hd, hvar⟩ := List.mem_filterMap.mp hv
      cases d with
      | assigned y => cases hvar
      | declared w valued =>
        cases hvar
        obtain ⟨earlier, later, rfl⟩ := List.append_of_mem hd
        refine ⟨earlier, v, valued, later ++ [.assigned x], by simp, hname, .inr ?_⟩
        exact List.mem_append_right _ List.mem_cons_self

/-- What can be named at a point of a program: the globals that were declared before, the functions
that can be called, the parameters of the function at hand, and the text of its body up to there. -/
structure Known where
  globals : List Var
  functions : List Heading
  params : List Var
  before : List Event
  deriving Repr, DecidableEq

namespace Known

/-- The local variables that are known. -/
def locals (K : Known) : List Var :=
  declaredIn K.before

/-- The variable that a name stands for, and where it lives. The names of the built-in functions are
no variables. -/
def var? (K : Known) (x : String) : Option (Location × Var) :=
  match K.locals.find? (·.name == x), K.params.find? (·.name == x) with
  | some v, _ => some (.local, v)
  | none, some v => some (.param, v)
  | none, none => (K.globals.find? (·.name == x)).map (.global, ·)

/-- The function that a name stands for. -/
def heading? (K : Known) (f : String) : Option Heading :=
  match Builtin.ofName? f with
  | some b => some ⟨b.name, b.paramTypes, b.result⟩
  | none => K.functions.find? (·.name == f)

/-- What is known behind some more text. -/
def after (K : Known) (es : List Event) : Known :=
  { K with before := K.before ++ es }

@[simp] theorem after_nil (K : Known) : K.after [] = K := by
  simp [after]

theorem after_append (K : Known) (es fs : List Event) :
    K.after (es ++ fs) = (K.after es).after fs := by
  simp [after]

@[simp] theorem locals_after (K : Known) (es : List Event) :
    (K.after es).locals = K.locals ++ declaredIn es :=
  declaredIn_append K.before es

end Known

/-! ## Expressions -/

/-- What a phrase gives: a value of a type, or the truth of a comparison. -/
inductive Form where
  | value (type : Ty)
  | truth
  deriving Repr, DecidableEq

mutual

/-- The terms of a sum are numbers of one type. -/
def Expr.Gives (K : Known) : Expr → Form → Prop
  | .term t, v => t.Gives K v
  | .sum l _ r, v => ∃ type : Ty, type.isNumeric = true ∧ l.Gives K (.value type) ∧
    r.Gives K (.value type) ∧ v = .value type

/-- The factors of a product are numbers of one type. -/
def Term.Gives (K : Known) : Term → Form → Prop
  | .factor f, v => f.Gives K v
  | .product l _ r, v => ∃ type : Ty, type.isNumeric = true ∧ l.Gives K (.value type) ∧
    r.Gives K (.value type) ∧ v = .value type

/-- Only a number can be negated. -/
def Factor.Gives (K : Known) : Factor → Form → Prop
  | .mk _ signs body, v => body.Gives K v ∧
    (true ∈ signs → ∃ type : Ty, type.isNumeric = true ∧ v = .value type)

/-- Only a number can be cast. -/
def Casted.Gives (K : Known) : Casted → Form → Prop
  | .primary p, v => p.Gives K v
  | .cast body _ target, v => (∃ type : Ty, type.isNumeric = true ∧ body.Gives K (.value type)) ∧
    v = .value target
  | .untyped _ _ _, _ => False

/-- A name stands for a variable, which has a value if it is a local one. A call names a function
that is known and has arguments of the types of its parameters. -/
def Primary.Gives (K : Known) : Primary → Form → Prop
  | .name x, v => ∃ l y, K.var? x.text = some (l, y) ∧
    (l = .local → ValuedIn x.text K.before) ∧ v = .value y.type
  | .call f as, v => ∃ g, K.heading? f.text = some g ∧ as.Give K g.params ∧ v = .value g.result
  | .int _ _, v => v = .value .int
  | .double _ _, v => v = .value .double
  | .text _ _, v => v = .value .string
  | .paren _ inner _, v => inner.Gives K v
  | .gap _, _ => False

/-- The sides of a comparison are numbers of one type. -/
def Relational.Gives (K : Known) : Relational → Form → Prop
  | .value e, v => e.Gives K v
  | .compare l _ r, v => (∃ type : Ty, type.isNumeric = true ∧ l.Gives K (.value type) ∧
    r.Gives K (.value type)) ∧ v = .truth

/-- The arguments are values of these types. -/
def Args.Give (K : Known) : Args → List Ty → Prop
  | .done _, types => types = []
  | .more e rest, types => ∃ type others, types = type :: others ∧ e.Gives K (.value type) ∧
    rest.Give K others
  | .gap _, _ => False

end

/-- A condition is a comparison or a number. -/
def Relational.Tests (K : Known) (r : Relational) : Prop :=
  r.Gives K .truth ∨ ∃ type : Ty, type.isNumeric = true ∧ r.Gives K (.value type)

/-! ## Declarations and statements -/

/-- The variable that is declared. -/
def Decl.vars : Decl → List Var
  | .mk constant x type _ _ => [⟨x.text, constant, type⟩]
  | .gap _ => []

/-- A constant has an initial value, and an initial value is of the type of the variable. -/
def Decl.Valid (K : Known) : Decl → Prop
  | .mk constant _ type init _ => (constant = true → init.isSome = true) ∧
    ∀ e, init = some e → e.Gives K (.value type)
  | .gap _ => False

mutual

/-- What a statement does with names, in the order of the text. -/
def Stmt.events : Stmt → List Event
  | .declare (.mk constant x type init _) => [.declared ⟨x.text, constant, type⟩ init.isSome]
  | .branch i => i.events
  | .loop _ _ body => body.events
  | .assign x _ _ => [.assigned x.text]
  | _ => []

/-- What the blocks of a condition do with names. -/
def If.events : If → List Event
  | .mk _ body alternative => body.events ++ alternative.events

/-- What stands behind the block of a condition does with names. -/
def Else.events : Else → List Event
  | .block b => b.events
  | .branch i => i.events
  | _ => []

/-- What a block does with names. -/
def Block.events : Block → List Event
  | .stmts ss => ss.events
  | .gap _ => []

/-- What statements do with names. -/
def Stmts.events : Stmts → List Event
  | .done _ => []
  | .more s rest => s.events ++ rest.events

end

mutual

/-- Every way through the statement returns: it is a `return`, or a condition whose blocks both
return. -/
def Stmt.returns : Stmt → Bool
  | .ret _ _ _ => true
  | .branch i => i.returns
  | _ => false

/-- Both blocks of the condition return. -/
def If.returns : If → Bool
  | .mk _ body alternative => body.returns && alternative.returns

/-- There is a block behind that of the condition, and it returns. -/
def Else.returns : Else → Bool
  | .block b => b.returns
  | .branch i => i.returns
  | _ => false

/-- A statement of the block returns. -/
def Block.returns : Block → Bool
  | .stmts ss => ss.returns
  | .gap _ => false

/-- One of the statements returns. -/
def Stmts.returns : Stmts → Bool
  | .done _ => false
  | .more s rest => s.returns || rest.returns

end

mutual

/-- The statement is right in a function of a result, within a loop or not. What is assigned to is
no constant and gets a value of its type; a value is returned if the function has a result, and
then of its type; loops are left and gone on with only from within. -/
def Stmt.Valid (K : Known) (result : Ty) (inLoop : Bool) : Stmt → Prop
  | .empty => True
  | .declare d => d.Valid K
  | .branch i => i.Valid K result inLoop
  | .loop _ cond body => cond.Tests K ∧ body.Valid K result true
  | .ret _ none _ => result = .void
  | .ret _ (some e) _ => result ≠ .void ∧ e.Gives K (.value result)
  | .brk _ _ => inLoop = true
  | .cont _ _ => inLoop = true
  | .call f as _ => ∃ g, K.heading? f.text = some g ∧ as.Give K g.params
  | .assign x e _ => ∃ l y, K.var? x.text = some (l, y) ∧ y.constant = false ∧
    e.Gives K (.value y.type)
  | .unfinished _ _ => False
  | .gap _ => False

/-- The condition and its blocks are right. -/
def If.Valid (K : Known) (result : Ty) (inLoop : Bool) : If → Prop
  | .mk cond body alternative => cond.Tests K ∧ body.Valid K result inLoop ∧
    alternative.Valid (K.after body.events) result inLoop

/-- What stands behind the block of a condition is right. -/
def Else.Valid (K : Known) (result : Ty) (inLoop : Bool) : Else → Prop
  | .none => True
  | .block b => b.Valid K result inLoop
  | .branch i => i.Valid K result inLoop
  | .gap _ => False

/-- The block is right. -/
def Block.Valid (K : Known) (result : Ty) (inLoop : Bool) : Block → Prop
  | .stmts ss => ss.Valid K result inLoop
  | .gap _ => False

/-- The statements are right, each behind those before it. -/
def Stmts.Valid (K : Known) (result : Ty) (inLoop : Bool) : Stmts → Prop
  | .done _ => True
  | .more s rest => s.Valid K result inLoop ∧ rest.Valid (K.after s.events) result inLoop

end

/-! ## Functions and programs -/

/-- The parameter as a variable. -/
def Param.var (p : Param) : Var :=
  ⟨p.x.text, p.constant, p.type⟩

/-- The function as its calls see it. -/
def Fn.headings : Fn → List Heading
  | .mk x ps (.ok (type, _)) => [⟨x.text, ps.map Param.type, type⟩]
  | _ => []

/-- The function is right behind these globals and functions. Its parameters have different names,
and so have its local variables. It can call itself. If it has a result, every way through it
returns. -/
def Fn.Valid (globals : List Var) (earlier : List Heading) : Fn → Prop
  | .mk x ps (.ok (type, body)) =>
    ((ps.map Param.var).map Var.name).Nodup ∧ ((declaredIn body.events).map Var.name).Nodup ∧
      body.Valid ⟨globals, earlier ++ [⟨x.text, ps.map Param.type, type⟩], ps.map Param.var, []⟩
        type false ∧
      (type ≠ .void → body.returns = true)
  | _ => False

/-- The names of the built-in functions. -/
def builtinNames : List String :=
  Builtin.all.map Builtin.name

/-- The program is right. Its globals have different names, none of them that of a built-in
function, and so have its functions. An initial value can use the globals before it and call
built-in functions; a function can use all globals and call the functions up to itself. -/
structure Program.Valid (p : Program) : Prop where
  globals_distinct : (builtinNames ++ (p.decls.flatMap Decl.vars).map Var.name).Nodup
  functions_distinct : (builtinNames ++ (p.functions.flatMap Fn.headings).map Heading.name).Nodup
  decls : ∀ (earlier : List Decl) (d : Decl) later, p.decls = earlier ++ d :: later →
    d.Valid ⟨earlier.flatMap Decl.vars, [], [], []⟩
  functions : ∀ (earlier : List Fn) (f : Fn) later, p.functions = earlier ++ f :: later →
    f.Valid (p.decls.flatMap Decl.vars) (earlier.flatMap Fn.headings)

/-! ## Declarations that are spelled -/

/-- The variables have names, and are numbers. -/
def Decent (vs : List Var) : Prop :=
  ∀ v ∈ vs, v.name ≠ "" ∧ v.type.isNumeric = true

theorem decent_append {vs ws : List Var} : Decent (vs ++ ws) ↔ Decent vs ∧ Decent ws :=
  List.forall_mem_append

mutual

theorem Stmt.decent {s : Stmt} (h : s.Plain) : Decent (declaredIn s.events) := by
  match s with
  | .declare (.mk _ _ _ _ _) => exact List.forall_mem_singleton.mpr h.1
  | .branch _ => exact If.decent h
  | .loop _ _ _ => exact Block.decent h.2
  | .declare (.gap _) | .empty | .ret _ _ _ | .brk _ _ | .cont _ _ | .call _ _ _ | .assign _ _ _
  | .unfinished _ _ | .gap _ => exact nofun

theorem If.decent {i : If} (h : i.Plain) : Decent (declaredIn i.events) := by
  match i with
  | .mk _ _ _ =>
    have hboth := decent_append.mpr ⟨Block.decent h.2.1, Else.decent h.2.2⟩
    rw [← declaredIn_append] at hboth
    exact hboth

theorem Else.decent {a : Else} (h : a.Plain) : Decent (declaredIn a.events) := by
  match a with
  | .block _ => exact Block.decent h
  | .branch _ => exact If.decent h
  | .none | .gap _ => exact nofun

theorem Block.decent {b : Block} (h : b.Plain) : Decent (declaredIn b.events) := by
  match b with
  | .stmts _ => exact Stmts.decent h
  | .gap _ => exact nofun

theorem Stmts.decent {ss : Stmts} (h : ss.Plain) : Decent (declaredIn ss.events) := by
  match ss with
  | .done _ => exact nofun
  | .more _ _ =>
    have hboth := decent_append.mpr ⟨Stmt.decent h.1, Stmts.decent h.2⟩
    rw [← declaredIn_append] at hboth
    exact hboth

end

/-- The declarations of a plain program are decent. -/
theorem Program.decent {p : Program} (h : p.Plain) : Decent (p.decls.flatMap Decl.vars) := by
  intro v hv
  obtain ⟨d, hd, hv⟩ := List.mem_flatMap.mp hv
  have hdecl : Decent (declaredIn (Stmt.declare d).events) := Stmt.decent (h.decls d hd)
  match d with
  | .mk _ _ _ _ _ => exact hdecl v hv
  | .gap _ => cases hv

end TinyC.Syntax
