import TinyC.Code.Instr
import TinyC.Symbol.Table
import TinyC.Symbol.Ty

/-!
# Entries

What the tables of a program hold: variables, constants, texts and functions. An entry may say
where it was declared; the type `π` of that place is left open, so that nothing can depend on
it.
-/

namespace TinyC

/-- The kinds of entries. -/
inductive EntryKind where
  | function
  | variable
  | constant
  deriving Repr, DecidableEq, Inhabited

namespace EntryKind

/-- The name of a kind. -/
def name : EntryKind → String
  | function => "function"
  | .variable => "variable"
  | constant => "constant"

/-- The kind with a number. -/
def ofNumber? : Int → Option EntryKind
  | 0 => some function
  | 1 => some .variable
  | 2 => some constant
  | _ => none

end EntryKind

/-- A named or nameless object of a program. -/
structure Entry (π : Type) where
  /-- The name, empty for an object that cannot be named. -/
  name : String
  kind : EntryKind
  /-- The type of a variable or constant, or of the result of a function. -/
  type : Ty
  /-- The slot in the table that holds the entry. -/
  slot : Nat := 0
  /-- A value has been assigned. -/
  initialized : Bool := false
  /-- Where it was declared. -/
  pos : Option π := none
  /-- The word that a global number starts from. -/
  value : UInt64 := 0
  /-- The characters of a text. -/
  text : String := ""
  deriving Repr, DecidableEq, Inhabited

namespace Entry

variable {π : Type}

/-- A text. -/
def ofText (name text : String) : Entry π :=
  { name, kind := .constant, type := .string, initialized := true, text }

/-- The entry can never be assigned to. -/
def isConstant (e : Entry π) : Bool :=
  e.kind == .constant

/-- The entry with its place changed. -/
def mapPos {ρ : Type} (f : π → ρ) (e : Entry π) : Entry ρ :=
  { name := e.name, kind := e.kind, type := e.type, slot := e.slot, initialized := e.initialized
    pos := e.pos.map f, value := e.value, text := e.text }

end Entry

instance {π : Type} : Symbol (Entry π) where
  name := Entry.name
  slot := Entry.slot
  seat e n := { e with slot := n }

/-- A function with its parameters and local variables. The table of parameters comes into being
with the first parameter. -/
structure Function (π : Type) extends Entry π where
  params : Option (Table (Entry π)) := none
  locals : Table (Entry π) := {}
  code : List Instr := []
  deriving Repr, DecidableEq, Inhabited

namespace Function

variable {π : Type}

/-- A function without parameters, local variables and code. -/
def start (name : String) (type : Ty) (pos : Option π) : Function π :=
  { name, kind := .function, type, pos, initialized := true }

/-- The number of parameter slots. -/
def paramCount (f : Function π) : Nat :=
  (f.params.map Table.count).getD 0

/-- The types of the parameters. -/
def paramTypes (f : Function π) : List Ty :=
  (f.params.map fun t => t.rows.map Entry.type).getD []

/-- The argument slot of the parameter at a slot; the result, if any, comes before. -/
def argSlot (f : Function π) (slot : Nat) : Nat :=
  slot + f.type.slots

/-- The function with one more parameter; nothing if its name is taken. -/
def addParam? (f : Function π) (e : Entry π) : Option (Function π) :=
  ((f.params.getD {}).add? e).map fun t => { f with params := some t }

/-- The local variable or else the parameter of a name. -/
def lookup (f : Function π) (name : String) : Option (Entry π) :=
  f.locals.find? name <|> f.params.bind (·.find? name)

/-- The function with its places changed. -/
def mapPos {ρ : Type} (g : π → ρ) (f : Function π) : Function ρ :=
  { f.toEntry.mapPos g with
    params := f.params.map (·.map (Entry.mapPos g))
    locals := f.locals.map (Entry.mapPos g)
    code := f.code }

end Function

instance {π : Type} : Symbol (Function π) where
  name f := f.name
  slot f := f.slot
  seat f n := { f with slot := n }

end TinyC
