/-!
# Tables

A table holds symbols in the order in which they were put into it and hands out slots. A symbol
is either added at once, or its slot is reserved first and the symbol inserted later; between
the two it cannot be found. No table holds two symbols of one name, except that any number of
them can have the empty name; those are never found by name.
-/

namespace TinyC

/-- What a table needs to know of its symbols. -/
class Symbol (α : Type) where
  /-- The name, empty for a symbol that cannot be named. -/
  name : α → String
  /-- The slot. -/
  slot : α → Nat
  /-- The symbol in another slot. -/
  seat : α → Nat → α

/-- Symbols in the order of their insertion, and the number of slots handed out. -/
structure Table (α : Type) where
  rows : List α := []
  count : Nat := 0
  deriving Repr, DecidableEq, Inhabited

namespace Table

variable {α : Type} [Symbol α]

/-- The symbol of a name. -/
def find? (t : Table α) (name : String) : Option α :=
  if name = "" then none else t.rows.find? (Symbol.name · == name)

/-- A symbol has the name. -/
def has (t : Table α) (name : String) : Bool :=
  (t.find? name).isSome

/-- Hands out a slot. -/
def allot (t : Table α) : Nat × Table α :=
  (t.count, { t with count := t.count + 1 })

/-- Hands out a slot for a symbol, without putting the symbol in. -/
def reserve (t : Table α) (a : α) : α × Table α :=
  (Symbol.seat a t.allot.1, t.allot.2)

/-- Puts a symbol in that has its slot; nothing if the name is taken. -/
def insert? (t : Table α) (a : α) : Option (Table α) :=
  if t.has (Symbol.name a) then none else some { t with rows := t.rows ++ [a] }

/-- Hands out a slot for a symbol and puts it in; nothing if the name is taken. -/
def add? (t : Table α) (a : α) : Option (Table α) :=
  let (a, t) := t.reserve a
  t.insert? a

/-- The table with the symbol of a name changed. -/
def modify (t : Table α) (name : String) (f : α → α) : Table α :=
  { t with rows := t.rows.map fun a => if Symbol.name a == name then f a else a }

/-- The table with every symbol changed. -/
def map {β : Type} (f : α → β) (t : Table α) : Table β :=
  ⟨t.rows.map f, t.count⟩

omit [Symbol α] in
@[simp] theorem rows_map {β : Type} (f : α → β) (t : Table α) : (t.map f).rows = t.rows.map f := rfl

@[simp] theorem has_reserve (t : Table α) (a : α) (name : String) :
    (t.reserve a).2.has name = t.has name := rfl

/-- An insertion fails exactly when the name is taken. -/
theorem insert?_eq_none_iff (t : Table α) (a : α) :
    t.insert? a = none ↔ t.has (Symbol.name a) = true := by
  unfold insert?
  split <;> simp_all

/-- A symbol without a name can always be inserted. -/
theorem insert?_of_name_empty {t : Table α} {a : α} (h : Symbol.name a = "") :
    t.insert? a = some { t with rows := t.rows ++ [a] } := by
  simp [insert?, has, find?, h]

end Table

end TinyC
