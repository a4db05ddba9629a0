import TinyC.Typing.Expr

/-!
# Analysis of declarations and statements

A declared name is known from the end of its declaration on, to the end of the function or
program: blocks have no names of their own. A local variable can be read once an initial value
or an assignment stands before in the text of the program.
-/

namespace TinyC.Typing

open Syntax (Name)

/-- The word that a global starts from before its initial value is computed: the value itself, if
it is a literal or a negated literal. -/
def literalWord (code : List Instr) : UInt64 :=
  match code with
  | [⟨.push, v⟩] => v.toUInt64
  | [⟨.push, v⟩, ⟨.negi, _⟩] => -v.toUInt64
  | [⟨.push, v⟩, ⟨.negf, _⟩] => Number.Binary64.negate v.toUInt64
  | _ => 0

/-- Analyses an initial value for a variable. -/
def initial (c : Context) (x : Name) (type : Ty) (e : Syntax.Expr) : Walk Core.Expr := do
  look e.start
  let v ← expr c e
  match v.valueOf? type with
  | some a => pure a
  | none => reject (.initialType type x.text v.type) e.start

/-- Puts a declared variable into its table, with the initial value that it has, if any. -/
def declared (c : Context) (e : Entry Nat) (init : Option Core.Expr) : Walk Unit :=
  modify fun s =>
    let word := match init with
      | some a => if c.isTop then literalWord a.code else 0
      | none => 0
    let entry := { e with initialized := init.isSome, value := word }
    s.setTable c (((s.table c).insert? entry).getD (s.table c))

/-- The slot and the initial value of a declaration. -/
def declaration (c : Context) : Syntax.Decl → Walk (Nat × Option Core.Expr)
  | .gap g => stuck g
  | .mk constant x type init cl => do
    look (x.ord + 2)
    if ((← get).table c).has x.text then
      reject (.alreadyDeclared x.text) x.ord
    else
      let kind : EntryKind := if constant then .constant else .variable
      let (e, t) := ((← get).table c).reserve
        { name := x.text, kind, type, pos := some x.ord }
      modify fun s => s.setTable c t
      look (x.ord + 3)
      match init with
      | some i =>
        emit (Core.Place.address ⟨if c.isTop then .global else .local, e.slot⟩)
        let a ← initial c x type i
        emit ⟨.store64, 0⟩
        close cl
        declared c e (some a)
        pure (e.slot, some a)
      | none =>
        if constant then reject (.constantNeedsValue x.text) x.ord
        else
          close cl
          declared c e none
          pure (e.slot, none)

/-- Analyses a return. -/
def returned (c : Context) (ord : Nat) (value : Option Syntax.Expr) : Walk Core.Stmt := do
  look (ord + 1)
  let (name, type) := c.owner.getD ("", .void)
  match value with
  | none =>
    if type = .void then
      emit ⟨.ret, 0⟩
      pure (.ret none)
    else reject (.mustReturn name type) ord
  | some e =>
    if type = .void then reject (.returnsVoid name) ord
    else
      emit ⟨.arga, 0⟩
      let v ← expr c e
      match v.valueOf? type with
      | some a =>
        emit ⟨.store64, 0⟩
        emit ⟨.ret, 0⟩
        pure (.ret (some a))
      | none => reject (.returnedType v.type name type) e.start

/-- Analyses an assignment. -/
def assignment (c : Context) (x : Name) (e : Syntax.Expr) : Walk Core.Stmt := do
  look (x.ord + 1)
  let (entry, l) ← resolve c x
  if entry.isConstant then reject (.assignedConstant x.text) x.ord
  else
    emit (placeOf c entry l).address
    let v ← expr c e
    match v.valueOf? entry.type with
    | some a =>
      emit ⟨.store64, 0⟩
      modify fun s => s.markAssigned l x.text
      pure (.assign (placeOf c entry l) a)
    | none => reject (.assignedType v.type entry.type x.text) e.start

/-- Analyses a call whose result, if any, is dropped. -/
def dropped (c : Context) (f : Name) (as : Syntax.Args) : Walk Core.Stmt := do
  look (f.ord + 1)
  let (g, types) ← callee f
  emit g.room
  let es ← args c f types.length 1 types as
  emit g.invoke
  unless g.result = .void do emit ⟨.pop, 0⟩
  pure (.call g es)

mutual

/-- Analyses a statement. -/
def stmt (c : Context) : Syntax.Stmt → Walk Core.Stmt
  | .empty => pure .skip
  | .declare d => do
    match ← declaration c d with
    | (slot, some a) => pure (.assign ⟨.local, slot⟩ a)
    | (_, none) => pure .skip
  | .branch i => branch c i
  | .loop ord cond body => do
    look ord
    emitBranch
    let t ← condition c cond
    emitBranch
    let b ← block { c with inLoop := true } body
    emitBranch
    pure (.loop t b)
  | .ret ord value cl => do
    let s ← returned c ord value
    close cl
    pure s
  | .brk ord cl => do
    close cl
    if c.inLoop then
      emitBranch
      pure .brk
    else reject .breakOutsideLoop ord
  | .cont ord cl => do
    close cl
    if c.inLoop then
      emitBranch
      pure .cont
    else reject .continueOutsideLoop ord
  | .call f as cl => do
    let s ← dropped c f as
    close cl
    pure s
  | .assign x e cl => do
    let s ← assignment c x e
    close cl
    pure s
  | .unfinished _ g => stuck g
  | .gap g => stuck g

/-- Analyses a condition with its blocks. -/
def branch (c : Context) : Syntax.If → Walk Core.Stmt
  | .mk cond body alternative => do
    let t ← condition c cond
    emitBranch
    let b ← block c body
    look body.stop
    match ← otherwise c alternative with
    | some a => pure (.ifElse t b a)
    | none => pure (.ifThen t b)

/-- Analyses what stands behind the block of a condition. -/
def otherwise (c : Context) : Syntax.Else → Walk (Option Core.Block)
  | .none => pure none
  | .block b => do
    emitBranch
    return some (← block c b)
  | .branch i => do
    emitBranch
    return some (.cons (← branch c i) .nil)
  | .gap g => do
    emitBranch
    stuck g

/-- Analyses a block. -/
def block (c : Context) : Syntax.Block → Walk Core.Block
  | .stmts ss => stmts c ss
  | .gap g => stuck g

/-- Analyses statements up to the closing brace. -/
def stmts (c : Context) : Syntax.Stmts → Walk Core.Block
  | .done ord => do
    look ord
    pure .nil
  | .more s rest => do
    let a ← stmt c s
    return .cons a (← stmts c rest)

end

end TinyC.Typing
