import TinyC.Toolchain.Compiler

/-!
# A workbench for symbol tables

On a workbench, tables, entries and scopes are made and put together one step at a time, by
numbers. An entry can be in several tables; its slot is the one that it was given last.

What a step shows of the workbench is numbered from zero in the order in which it is first shown,
entries and tables apart. Later steps tell entries and tables by these numbers; minus one stands
for no table. The scopes are numbered in the order in which they are made, starting with the
empty scope. Besides, there are the tables of a program that declares nothing.
-/

namespace TinyC

/-- An entry of the workbench by its index there, with the name it has. -/
structure EntryRef where
  index : Nat
  name : String
  deriving Repr, DecidableEq

instance : Symbol EntryRef where
  name := EntryRef.name
  slot := EntryRef.index
  seat r _ := r

/-- An entry; that of a function has local variables and code, and may have parameters. -/
structure BenchEntry where
  entry : Entry Position
  params : Option Nat := none
  locals : Option Nat := none
  code : Option (List Instr) := none

/-- A table, and the one that names are looked up in when they are not in this one. -/
structure BenchTable where
  table : Table EntryRef := {}
  fallback : Option Nat := none

/-- Why a step cannot be taken. -/
inductive BenchError where
  | duplicate (d : Diagnostic)
  | unexpectedKind
  | unexpectedType
  | unexpectedLocation
  | noScope
  /-- Something is needed that is not there. -/
  | absent
  deriving Repr, DecidableEq

/-- The wording of the reason. -/
def BenchError.message : BenchError → String
  | duplicate d => d.text
  | unexpectedKind => "unexpected symbolkind"
  | unexpectedType => "unexpected type"
  | unexpectedLocation => "unexpected location"
  | noScope => (IndexError.mk (-1) 0).message
  | absent => "runtime error: invalid memory address or nil pointer dereference"

/-- The workbench. -/
structure Workbench where
  entries : Array BenchEntry
  tables : Array BenchTable
  scopes : Array (Scope Nat Int) := #[{}]
  /-- The entries that have been shown, in order. -/
  shownEntries : Array Nat := #[]
  /-- The tables that have been shown, in order. -/
  shownTables : Array Nat := #[]

/-- A step: what it gives, or why it cannot be taken. What was changed before stays changed. -/
abbrev Bench (α : Type) := ExceptT BenchError (StateM Workbench) α

/-- What is shown of an entry. -/
structure EntryView where
  number : Nat
  entry : Entry Position
  paramCount : Nat
  params : Int
  locals : Int

/-- What is shown of a table: how many slots it has handed out, whether it is without a fallback,
and its entries. -/
structure TableView where
  count : Nat
  isRoot : Bool
  entries : List Nat

namespace Workbench

/-- The table of the globals. -/
def globals : Nat := 0

/-- The table of the functions. -/
def functions : Nat := 1

/-- The workbench at the start. -/
def initial : Workbench :=
  let builtins := Builtin.all.map fun b =>
    ({ entry := { Entry.ofText b.name b.name with slot := b.slot } } : BenchEntry)
  let start : BenchEntry :=
    { entry := (Function.start "" .void none).toEntry, locals := some 2, code := some [] }
  { entries := (builtins ++ [start]).toArray
    tables := #[
      { table := ⟨Builtin.all.map fun b => ⟨b.slot, b.name⟩, Builtin.all.length⟩ },
      { table := ⟨[⟨Builtin.all.length, ""⟩], 1⟩ },
      {}] }

/-- The entry function. -/
def start : Nat := Builtin.all.length

/-! ## Numbers -/

/-- The number under which an entry is shown. -/
def showEntry (index : Nat) : Bench Nat := do
  let w ← get
  match w.shownEntries.findIdx? (· == index) with
  | some n => return n
  | none =>
    set { w with shownEntries := w.shownEntries.push index }
    return w.shownEntries.size

/-- The number under which a table is shown. -/
def showTable (index : Nat) : Bench Nat := do
  let w ← get
  match w.shownTables.findIdx? (· == index) with
  | some n => return n
  | none =>
    set { w with shownTables := w.shownTables.push index }
    return w.shownTables.size

/-- The number under which a table is shown, or minus one for none. -/
def showTable? : Option Nat → Bench Int
  | some index => return (← showTable index : Nat)
  | none => return -1

/-- The entry shown under a number. -/
def entryOf (number : Int) : Bench Nat := do
  let w ← get
  match if 0 ≤ number then w.shownEntries[number.toNat]? else none with
  | some index => return index
  | none => throw .absent

/-- The table shown under a number. -/
def tableOf? (number : Int) : Bench (Option Nat) := do
  let w ← get
  return if 0 ≤ number then w.shownTables[number.toNat]? else none

/-- The table shown under a number, which is needed. -/
def tableOf (number : Int) : Bench Nat := do
  match ← tableOf? number with
  | some index => return index
  | none => throw .absent

/-- The scope of a number. -/
def scopeOf (number : Int) : Bench (Scope Nat Int) := do
  let w ← get
  return (if 0 ≤ number then w.scopes[number.toNat]? else none).getD {}

/-! ## Entries and tables -/

/-- The entry at an index. -/
def entryAt (w : Workbench) (index : Nat) : BenchEntry :=
  (w.entries[index]?).getD { entry := Entry.ofText "" "" }

/-- The table at an index. -/
def tableAt (w : Workbench) (index : Nat) : BenchTable :=
  (w.tables[index]?).getD {}

/-- Changes the entry at an index. -/
def modifyEntry (index : Nat) (f : BenchEntry → BenchEntry) : Bench Unit :=
  modify fun w => { w with entries := w.entries.modify index f }

/-- Changes the table at an index. -/
def modifyTable (index : Nat) (f : BenchTable → BenchTable) : Bench Unit :=
  modify fun w => { w with tables := w.tables.modify index f }

/-- Makes an entry. -/
def newEntry (e : BenchEntry) : Bench Nat := do
  let w ← get
  set { w with entries := w.entries.push e }
  return w.entries.size

/-- Makes a table. -/
def newTable (fallback : Option Nat) : Bench Nat := do
  let w ← get
  set { w with tables := w.tables.push { fallback } }
  return w.tables.size

/-- The number of parameter slots. -/
def paramCount (w : Workbench) (e : BenchEntry) : Nat :=
  (e.params.map fun t => (w.tableAt t).table.count).getD 0

/-- What is shown of an entry. -/
def describe (index : Nat) : Bench EntryView := do
  let e := (← get).entryAt index
  let number ← showEntry index
  let params ← showTable? e.params
  let locals ← showTable? e.locals
  return ⟨number, e.entry, (← get).paramCount e, params, locals⟩

/-- The type with a number. -/
def typeOf (number : Int) : Bench Ty :=
  match Ty.ofNumber? number with
  | some type => pure type
  | none => throw .unexpectedType

/-- Makes a variable or constant of the kind and type with the given numbers. -/
def makeVariable (name : String) (kind type : Int) (pos : Option Position) : Bench EntryView := do
  match EntryKind.ofNumber? kind with
  | none => throw .unexpectedKind
  | some kind =>
    let type ← typeOf type
    describe (← newEntry { entry := { name, kind, type, pos } })

/-- Makes a text. -/
def text (name s : String) : Bench EntryView := do
  describe (← newEntry { entry := Entry.ofText name s })

/-- Makes a function without parameters. -/
def function (name : String) (type : Int) (pos : Option Position) : Bench EntryView := do
  let type ← typeOf type
  let locals ← newTable none
  describe (← newEntry
    { entry := (Function.start name type pos).toEntry, locals := some locals, code := some [] })

/-- Shows an entry. -/
def view (e : Int) : Bench EntryView := do
  describe (← entryOf e)

/-- Sets the word of an entry. -/
def setValue (e : Int) (value : UInt64) : Bench Unit := do
  modifyEntry (← entryOf e) fun b => { b with entry := { b.entry with value } }

/-- Makes a table. -/
def table (fallback : Int) : Bench Nat := do
  showTable (← newTable (← tableOf? fallback))

/-- Shows the tables of the program and its entry function. -/
def program : Bench (Nat × Nat × Nat) := do
  let g ← showTable globals
  let f ← showTable functions
  let e ← showEntry start
  return (g, f, e)

/-! ## Slots -/

/-- The reference to an entry. -/
def refTo (w : Workbench) (index : Nat) : EntryRef :=
  ⟨index, (w.entryAt index).entry.name⟩

/-- The slot of an entry. -/
def slotAt (index : Nat) : Bench Nat := do
  return ((← get).entryAt index).entry.slot

/-- Gives an entry a slot. -/
def seat (index slot : Nat) : Bench Unit :=
  modifyEntry index fun b => { b with entry := { b.entry with slot } }

/-- Reports an entry whose name is taken. -/
def duplicate {α : Type} (index : Nat) : Bench α := do
  let e := ((← get).entryAt index).entry
  throw (.duplicate ⟨.duplicateDeclaration, e.pos.getD ⟨"", 0, 0, 0⟩,
    Text.quoted e.name ++ " is already declared"⟩)

/-- Adds an entry to a table. -/
def addTo (t e : Nat) : Bench Nat := do
  let b := (← get).tableAt t
  match b.table.add? ((← get).refTo e) with
  | none => duplicate e
  | some table =>
    modifyTable t fun b => { b with table }
    seat e b.table.count
    return b.table.count

/-- Adds an entry to a table and gives its slot. -/
def add (t e : Int) : Bench Nat := do
  let t ← tableOf t
  addTo t (← entryOf e)

/-- Hands out a slot of a table. -/
def next (t : Int) : Bench Nat := do
  let t ← tableOf t
  let (slot, table) := ((← get).tableAt t).table.allot
  modifyTable t fun b => { b with table }
  return slot

/-- Reserves a slot of a table for an entry. -/
def reserve (t e : Int) : Bench Nat := do
  let slot ← next t
  seat (← entryOf e) slot
  return slot

/-- Inserts an entry into a table and gives the slot that it has. -/
def insert (t e : Int) : Bench Nat := do
  let t ← tableOf t
  let e ← entryOf e
  match ((← get).tableAt t).table.insert? ((← get).refTo e) with
  | none => duplicate e
  | some table =>
    modifyTable t fun b => { b with table }
    slotAt e

/-- Makes the table of parameters of a function, where its local variables are looked up when
they are not among these. -/
def makeParams (f : Nat) : Bench Nat := do
  let t ← newTable none
  modifyEntry f fun b => { b with params := some t }
  match ((← get).entryAt f).locals with
  | some l =>
    modifyTable l fun b => { b with fallback := some t }
    return t
  | none => throw .absent

/-- The table of parameters of a function. -/
def paramsOf (f : Nat) : Bench Nat := do
  match ((← get).entryAt f).params with
  | some t => return t
  | none => makeParams f

/-- Adds a parameter to a function: its slot, the table of parameters, and their number. -/
def param (f e : Int) : Bench (Nat × Nat × Nat) := do
  let f ← entryOf f
  let t ← paramsOf f
  let slot ← addTo t (← entryOf e)
  return (slot, ← showTable t, ((← get).tableAt t).table.count)

/-- The argument slot of a function for a parameter slot, as a word of 64 bits. -/
def argSlot (e slot : Int) : Bench Int := do
  let slots := ((← get).entryAt (← entryOf e)).entry.type.slots
  return (Int64.ofInt (slot + slots)).toInt

/-! ## Names -/

/-- The entry of a name in a table itself. -/
def findIn (w : Workbench) (t : Nat) (name : String) : Option Nat :=
  ((w.tableAt t).table.find? name).map EntryRef.index

/-- The entry of a name in a table or the tables behind it, at most a number of them. -/
def findFrom (w : Workbench) (name : String) : Nat → Option Nat → Option Nat
  | _, none => none
  | 0, some _ => none
  | n + 1, some t => w.findIn t name <|> w.findFrom name n (w.tableAt t).fallback

/-- Shows an entry, if there is one. -/
def view? : Option Nat → Bench (Option EntryView)
  | some e => return some (← describe e)
  | none => return none

/-- Looks a name up in a table and those behind it. -/
def lookup (t : Int) (name : String) : Bench (Option EntryView) := do
  let t ← tableOf? t
  let w ← get
  view? (w.findFrom name (w.tables.size + 1) t)

/-- Looks a name up in a table itself. -/
def lookupLocal (t : Int) (name : String) : Bench (Option EntryView) := do
  let t ← tableOf t
  view? ((← get).findIn t name)

/-- A name is in a table itself. -/
def has (t : Int) (name : String) : Bench Bool := do
  let t ← tableOf t
  return ((← get).findIn t name).isSome

/-- Shows a table. -/
def info (t : Int) : Bench TableView := do
  let b := (← get).tableAt (← tableOf t)
  let entries ← b.table.rows.mapM fun r => showEntry r.index
  return ⟨b.table.count, b.fallback.isNone, entries⟩

/-- The listing of a table and those behind it, at most a number of them. -/
def listing (w : Workbench) : Nat → Option Nat → String
  | _, none => "table PTR \x7b\x7d\n"
  | 0, some _ => ""
  | n + 1, some t =>
    let b := w.tableAt t
    let rows := b.table.rows.map fun r =>
      let e := (w.entryAt r.index).entry
      "\t" ++ toString e.slot ++ ": " ++ e.kind.name ++ " " ++ Text.quoted e.name ++ " "
        ++ e.type.name ++ "\n"
    let behind := if b.fallback.isNone then "" else w.listing n b.fallback
    "table PTR \x7b\n" ++ String.join rows ++ behind ++ "\x7d\n"

/-- Prints a table and those behind it. -/
def print (t : Int) : Bench String := do
  let t ← tableOf? t
  let w ← get
  return w.listing (w.tables.size + 1) t

/-! ## Scopes -/

/-- Makes a scope out of another and a table at a location: its number, and its depth. -/
def push (s t location : Int) : Bench (Nat × Nat) := do
  let scope := (← scopeOf s).push (← tableOf? t) location
  let w ← get
  set { w with scopes := w.scopes.push scope }
  return (w.scopes.size, scope.depth)

/-- The number of tables of a scope. -/
def depth (s : Int) : Bench Nat := do
  return (← scopeOf s).depth

/-- The name of the location with a number. -/
def locationName (number : Int) : Bench String :=
  match Location.ofNumber? number with
  | some l => pure l.name
  | none => throw .unexpectedLocation

/-- The entry that a name stands for in a scope, and where it lives. -/
def resolve (s : Int) (name : String) : Bench (Option (Nat × String)) := do
  let w ← get
  match (← scopeOf s).resolve w.findIn name with
  | none => return none
  | some (e, l) =>
    let number ← showEntry e
    return some (number, ← locationName l)

/-- The innermost table of a scope and its location. -/
def innermost (s : Int) : Bench (Nat × String) := do
  match (← scopeOf s).innermost? with
  | none => throw .noScope
  | some (t, l) =>
    let number ← showTable t
    return (number, ← locationName l)

/-! ## Code -/

/-- Adds an instruction to the code of a function and gives its index. -/
def emit (e : Int) (i : Instr) : Bench Nat := do
  let e ← entryOf e
  match ((← get).entryAt e).code with
  | none => throw .absent
  | some code =>
    modifyEntry e fun b => { b with code := some (code ++ [i]) }
    return code.length

/-- An entry as a function of a program. -/
def functionAt (w : Workbench) (index : Nat) : Function Position :=
  let b := w.entryAt index
  let slots (t : Option Nat) : Nat := (t.map fun t => (w.tableAt t).table.count).getD 0
  { b.entry with
    params := b.params.map fun _ => ⟨[], slots b.params⟩
    locals := ⟨[], slots b.locals⟩
    code := b.code.getD [] }

/-- The tables of the program with the given functions. -/
def programTables (w : Workbench) (functions : List Nat) : ProgramTables Position :=
  { globals :=
      ⟨(w.tableAt globals).table.rows.map fun r => (w.entryAt r.index).entry,
        (w.tableAt globals).table.count⟩
    functions := ⟨functions.map w.functionAt, functions.length⟩ }

/-- Writes the module file of the program to a receiver that takes a number of bytes. What is in
the table of functions must have code. -/
def generate (limit : Option Nat) : Bench Written := do
  let w ← get
  let fns := (w.tableAt functions).table.rows.map EntryRef.index
  let hasCode (index : Nat) : Bool := (w.entryAt index).code.isSome
  let coded := fns.takeWhile hasCode
  let bare := (fns.dropWhile hasCode).take 1
  let (written, _) := (w.programTables (coded ++ bare)).generate limit
  if bare.isEmpty then return written
  else
    match (w.programTables (coded ++ bare)).encode with
    | .error _ => return written
    | .ok _ => throw .absent

end Workbench

end TinyC
