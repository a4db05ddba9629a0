/-!
# Notes

While it works, the toolchain keeps a record of notes. Most of them are always shown. The others
are details of some level that a part of the toolchain takes; they are shown where the verbosity
of that part reaches the level.
-/

namespace TinyC

/-- The parts of the toolchain that take notes of details. -/
inductive Part where
  | lexer
  | parser
  | generator
  | vm
  deriving Repr, DecidableEq

/-- The name of a part. -/
def Part.name : Part → String
  | lexer => "lexer"
  | parser => "parser"
  | generator => "generator"
  | vm => "vm"

/-- The level up to which the details of each part are shown. -/
abbrev Verbosity := Part → Int32

/-- The same level for all parts; levels are words of 32 bits. -/
def Verbosity.uniform (level : Int) : Verbosity :=
  fun _ => Int32.ofInt level

/-- A message for the record. -/
inductive Note where
  | info (text : String)
  | detail (part : Part) (level : Int32) (text : String)
  deriving Repr, DecidableEq

namespace Note

/-- The text of a note. -/
def text : Note → String
  | info s => s
  | detail _ _ s => s

/-- The text as a line of the record, whose end ends the line. -/
def line (n : Note) : String :=
  if n.text.endsWith "\n" then String.ofList n.text.toList.dropLast else n.text

/-- The note is shown at a verbosity. -/
def isShown (v : Verbosity) : Note → Bool
  | info _ => true
  | detail part level _ => level ≤ v part

/-- The lines shown at a verbosity. -/
def shown (v : Verbosity) (notes : List Note) : List String :=
  (notes.filter (isShown v)).map line

end Note

end TinyC
