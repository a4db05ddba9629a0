import TinyC.Core.Basic
import TinyC.Symbol.Program
import TinyC.Syntax.Tree
import TinyC.Typing.Fault

/-!
# The state of analysis

Analysis walks through a syntax tree once, in the order of the tokens, and stops at the first
fault. Its state holds the tables as far as they are known. It also keeps the journal: every
instruction when it is settled on, and how many tokens had to be looked at by then. The journal
has no influence on the result.
-/

namespace TinyC.Typing

open Syntax (Gap Close)

/-- An instruction, its index in the code of its function, and the number of tokens that had been
looked at when it was settled on. The target of a branch is not yet known then. -/
structure Emission where
  seen : Nat
  instr : Instr
  index : Nat
  deriving Repr, DecidableEq

/-- What is known at a point of the walk. -/
structure State where
  globals : Table (Entry Nat) := ProgramTables.initialGlobals
  functions : Table (Function Nat) := ProgramTables.initialFunctions
  /-- The slot of the main function. -/
  main : Option Nat := none
  /-- The parameters of the function at hand. -/
  params : Option (Table (Entry Nat)) := none
  /-- The local variables of the function at hand. -/
  locals : Table (Entry Nat) := {}
  /-- The number of tokens that have been looked at. -/
  seen : Nat := 0
  /-- The number of instructions of the function at hand. -/
  emitted : Nat := 0
  /-- The journal, newest first. -/
  journal : List Emission := []

/-- A step of the walk. -/
abbrev Walk (α : Type) := ExceptT Fault (StateM State) α

/-- What is at hand: outside all functions, or in the function of a name and a result type; and
whether a loop encloses the point. -/
structure Context where
  owner : Option (String × Ty)
  inLoop : Bool := false
  deriving Repr, DecidableEq

/-- The point is outside all functions. -/
def Context.isTop (c : Context) : Bool :=
  c.owner.isNone

/-- The tables that are visible. -/
def State.scope (s : State) (c : Context) : Scope (Table (Entry Nat)) Location :=
  let outer : Scope (Table (Entry Nat)) Location := Scope.push {} (some s.globals) .global
  if c.isTop then outer else (outer.push s.params .param).push (some s.locals) .local

/-- The table that declarations go into. -/
def State.table (s : State) (c : Context) : Table (Entry Nat) :=
  if c.isTop then s.globals else s.locals

/-- The state with another table for declarations. -/
def State.setTable (s : State) (c : Context) (t : Table (Entry Nat)) : State :=
  if c.isTop then { s with globals := t } else { s with locals := t }

/-- The state in which a variable has been assigned to. -/
def State.markAssigned (s : State) (l : Location) (name : String) : State :=
  let done (t : Table (Entry Nat)) := t.modify name fun e => { e with initialized := true }
  match l with
  | .global => { s with globals := done s.globals }
  | .param => { s with params := s.params.map done }
  | .local => { s with locals := done s.locals }

/-- Stops the walk. -/
def reject {α : Type} (cause : Cause) (ord : Nat) : Walk α :=
  throw ⟨cause, ord⟩

/-- Looks at a token, and so at all before it. -/
def look (ord : Nat) : Walk Unit :=
  modify fun s => { s with seen := max s.seen (ord + 1) }

/-- Enters an instruction in the journal. -/
def emit (i : Instr) : Walk Unit :=
  modify fun s =>
    { s with emitted := s.emitted + 1, journal := ⟨s.seen, i, s.emitted⟩ :: s.journal }

/-- Enters instructions in the journal. -/
def emitAll (is : List Instr) : Walk Unit :=
  is.forM emit

/-- Enters a branch in the journal, whose target is not yet known. -/
def emitBranch : Walk Unit :=
  emit ⟨.br, 0⟩

/-- Stops the walk at a gap of the tree. -/
def stuck {α : Type} (g : Gap) : Walk α := do
  look g.ord
  reject (.expected g.want) g.ord

/-- Passes the token that closes a phrase. -/
def close : Close → Walk Unit
  | .word ord => look ord
  | .gap g => stuck g

end TinyC.Typing
