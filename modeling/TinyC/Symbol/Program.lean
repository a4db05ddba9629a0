import TinyC.Symbol.Builtin
import TinyC.Symbol.Scope
import TinyC.Text.Columns

/-!
# The tables of a program

What is known of a program once it has been analysed: its globals and its functions. The first
globals are the names of the built-in functions, and function slot zero is the entry function,
which has no name; it sets the globals and then calls `main`, if there is one.
-/

namespace TinyC

/-- The tables of a program; `main` is the slot of its main function. -/
structure ProgramTables (π : Type) where
  globals : Table (Entry π)
  functions : Table (Function π)
  main : Option Nat := none
  deriving Repr, DecidableEq

namespace ProgramTables

variable {π : Type}

/-- The globals of a program that declares none. -/
def initialGlobals : Table (Entry π) :=
  ⟨Builtin.all.map fun b => { Entry.ofText b.name b.name with slot := b.slot }, Builtin.all.length⟩

/-- The functions of a program that declares none: the entry function. -/
def initialFunctions : Table (Function π) :=
  ⟨[Function.start "" .void none], 1⟩

/-- The tables of a program that declares nothing. -/
def initial : ProgramTables π :=
  ⟨initialGlobals, initialFunctions, none⟩

/-- The tables with their places changed. -/
def mapPos {ρ : Type} (g : π → ρ) (p : ProgramTables π) : ProgramTables ρ :=
  ⟨p.globals.map (Entry.mapPos g), p.functions.map (Function.mapPos g), p.main⟩

/-- The tables as a listing. -/
def listing (p : ProgramTables π) : String :=
  let globals := p.globals.rows.map fun e =>
    (["  " ++ toString e.slot, e.kind.name, e.type.name], Text.quoted e.name)
  let functions := p.functions.rows.map fun f =>
    (["  " ++ toString f.slot, f.type.name, Text.quoted f.name, "params " ++ toString f.paramCount,
      "locals " ++ toString f.locals.count], "instrs " ++ toString f.code.length)
  "globals\n" ++ Text.alignLeft globals ++ "functions\n" ++ Text.alignLeft functions

end ProgramTables

end TinyC
