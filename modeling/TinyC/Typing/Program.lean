import TinyC.Typing.Stmt

/-!
# Analysis of programs

A program declares its globals first and then its functions. A function can be called from its
own body on, by itself and by the functions behind it.
-/

namespace TinyC.Typing

/-- Declares the parameters of a function. -/
def parameters : Function Nat → List Syntax.Param → Walk (Function Nat)
  | f, [] => pure f
  | f, p :: ps => do
    look (p.x.ord + 2)
    let kind : EntryKind := if p.constant then .constant else .variable
    match f.addParam?
        { name := p.x.text, kind, type := p.type, initialized := true, pos := some p.x.ord } with
    | some f => parameters f ps
    | none => reject (.alreadyDeclared p.x.text) p.x.ord

/-- Starts on the body of a function, which can be called from here on. -/
def enter (f : Function Nat) : Walk Unit :=
  modify fun s =>
    { s with
      functions := (s.functions.add? f).getD s.functions
      main := if f.name = "main" then some s.functions.count else s.main
      params := f.params
      locals := {}
      emitted := 0 }

/-- Ends a function: its local variables and its code go into the table of functions. -/
def leave (name : String) (code : List Instr) : Walk Unit :=
  modify fun s =>
    { s with
      functions := s.functions.modify name fun f =>
        { f with params := s.params, locals := s.locals, code } }

/-- Analyses a function. -/
def function : Syntax.Fn → Walk Core.Fn
  | .gap g => stuck g
  | .mk x ps rest => do
    look x.ord
    if (Builtin.ofName? x.text).isSome || (← get).functions.has x.text then
      reject (.functionDeclared x.text) x.ord
    else
      let f ← parameters (Function.start x.text .void (some x.ord)) ps
      match rest with
      | .error g => stuck g
      | .ok (type, body) =>
        enter { f with type }
        let b ← block ⟨some (x.text, type), false⟩ body
        let fn : Core.Fn := ⟨type, b⟩
        if type ≠ .void ∧ b.terminates = false then
          reject (.missingReturn x.text) x.ord
        else
          if fn.needsReturn then emit ⟨.ret, 0⟩
          leave x.text fn.code
          pure fn

/-- Analyses the declarations of globals: the initial values, in order. -/
def globals : List Syntax.Decl → Walk (List Core.Init)
  | [] => pure []
  | d :: ds => do
    match ← declaration ⟨none, false⟩ d with
    | (slot, some a) => return ⟨slot, a⟩ :: (← globals ds)
    | (_, none) => globals ds

/-- Analyses functions in order. -/
def functions : List Syntax.Fn → Walk (List Core.Fn)
  | [] => pure []
  | f :: fs => do
    let g ← function f
    return g :: (← functions fs)

/-- The slot of the main function and the type of its result. -/
def mainOf (s : State) : Option (Nat × Ty) :=
  s.main.bind fun slot => (s.functions.rows[slot]?).map fun f => (slot, f.type)

/-- Analyses a program. -/
def program (p : Syntax.Program) : Walk Core.Program := do
  let inits ← globals p.decls
  let fns ← functions p.functions
  close p.close
  return ⟨inits, fns, mainOf (← get)⟩

/-- The tables at the end of the walk, the code of the entry function included. -/
def tables (s : State) (p : Core.Program) : ProgramTables Nat :=
  { globals := s.globals
    functions := { s.functions with
      rows := s.functions.rows.modifyHead fun f => { f with code := p.entryCode } }
    main := s.main }

end TinyC.Typing
