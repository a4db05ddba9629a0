import TinyC.Symbol.Entry

/-!
# Scopes

A scope is the stack of tables that are visible at a point of a program, the innermost first,
each with the place of memory that its variables live in. A name means the entry that the
innermost table with that name holds. Putting a table on a scope makes a new scope.
-/

namespace TinyC

/-- Where the variables of a table live. -/
inductive Location where
  | global
  | param
  | local
  deriving Repr, DecidableEq, Inhabited

namespace Location

/-- The name of a location. -/
def name : Location → String
  | global => "global"
  | param => "param"
  | .local => "local"

/-- The location with a number. -/
def ofNumber? : Int → Option Location
  | 0 => some global
  | 1 => some param
  | 2 => some .local
  | _ => none

end Location

/-- Tables of type `τ` with their locations of type `κ`, the innermost first. -/
structure Scope (τ κ : Type) where
  frames : List (τ × κ) := []
  deriving Repr, DecidableEq

namespace Scope

variable {τ κ α : Type}

/-- The scope with one more table, the new innermost. A table that is not there is passed over. -/
def push (s : Scope τ κ) (t : Option τ) (k : κ) : Scope τ κ :=
  match t with
  | some t => ⟨(t, k) :: s.frames⟩
  | none => s

/-- The entry of a name and the location of the table that holds it; `find?` looks into one
table. -/
def resolve (s : Scope τ κ) (find? : τ → String → Option α) (name : String) : Option (α × κ) :=
  s.frames.findSome? fun (t, k) => (find? t name).map (·, k)

/-- The innermost table and its location. -/
def innermost? (s : Scope τ κ) : Option (τ × κ) :=
  s.frames.head?

/-- The number of tables. -/
def depth (s : Scope τ κ) : Nat :=
  s.frames.length

end Scope

end TinyC
