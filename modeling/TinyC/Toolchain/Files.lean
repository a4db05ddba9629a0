import TinyC.Failure
import TinyC.Toolchain.Path

/-!
# Files

A store of files in memory. Every path can be written, and the directories on the way come into
being with it; they read as empty.
-/

namespace TinyC

/-- A store of files in memory, by their clean paths. -/
structure Files where
  rows : List (String × List UInt8) := [("/", [])]
  deriving Repr

namespace Files

/-- The path under which a file is stored. -/
def normal (path : String) : String :=
  let p := Path.clean path
  if p = "." ∨ p = ".." then "/" else p

/-- The bytes of a file. -/
def find? (fs : Files) (path : String) : Option (List UInt8) :=
  fs.rows.lookup (normal path)

/-- Reads a file. -/
def read (fs : Files) (path : String) : Except FileError (List UInt8) :=
  match fs.find? path with
  | some bytes => .ok bytes
  | none => .error (.missing (normal path))

/-- The store with a file under a clean path. -/
def set (fs : Files) (path : String) (bytes : List UInt8) : Files :=
  if (fs.rows.lookup path).isSome then
    ⟨fs.rows.map fun (p, bs) => if p == path then (p, bytes) else (p, bs)⟩
  else ⟨fs.rows ++ [(path, bytes)]⟩

/-- The directories above a clean path, at most a number of them. -/
def above : Nat → String → List String
  | 0, _ => []
  | n + 1, path =>
    let d := normal (Path.dir path)
    if d = "/" then [] else d :: above n d

/-- The store in which a directory exists. -/
def ensure (fs : Files) (path : String) : Files :=
  if (fs.rows.lookup path).isSome then fs else fs.set path []

/-- Writes a file. -/
def write (fs : Files) (path : String) (bytes : List UInt8) : Files :=
  let p := normal path
  ((above p.length p).foldl ensure fs).set p bytes

end Files

end TinyC
