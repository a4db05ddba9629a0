import TinyC.Failure
import TinyC.Toolchain.Path

/-!
# Directories

A directory of a larger store, as a command that works in it sees it. A path is followed part by
part: every part but the last must lead to a directory, and a file is written where a directory
exists for it. What lies outside of the directory is not known: nothing is found there, and
everything can be written there.
-/

namespace TinyC

/-- The files of a directory, by their clean paths from there. -/
structure Disk where
  files : List (String × List UInt8) := []
  deriving Repr

/-- Where a directory is. -/
inductive Place where
  /-- In the directory of the command, under the parts of a path. -/
  | inside (parts : List String)
  | outside
  deriving Repr, DecidableEq

/-- What a path leads to. -/
inductive DiskNode where
  | file (path : String) (bytes : List UInt8)
  | directory (place : Place)
  /-- A name that is free, in a directory; it has a path if that is inside. -/
  | free (path : Option String)
  deriving Repr

namespace Disk

/-- The longest name of a file, in bytes. -/
def maxName : Nat := 255

/-- The longest path, in bytes. -/
def maxPath : Nat := 4095

/-- The file that is always empty. -/
def sink : String := "/dev/null"

/-- The directory with some files. -/
def ofFiles (rows : List (String × List UInt8)) : Disk :=
  ⟨rows.map fun (path, bytes) => (Path.clean ("./" ++ path), bytes)⟩

/-- The parts of a path name a directory. -/
def isDirectory (d : Disk) (ps : List String) : Bool :=
  ps.isEmpty || d.files.any fun (p, _) => p.startsWith (String.intercalate "/" ps ++ "/")

/-- What a name leads to. -/
def entry (d : Disk) (name : String) : Place → DiskNode
  | .outside => if name = "." ∨ name = ".." then .directory .outside else .free none
  | .inside ps =>
    if name = "." then .directory (.inside ps)
    else if name = ".." then .directory (if ps.isEmpty then .outside else .inside ps.dropLast)
    else
      let path := String.intercalate "/" (ps ++ [name])
      match d.files.lookup path with
      | some bytes => .file path bytes
      | none =>
        if d.isDirectory (ps ++ [name]) then .directory (.inside (ps ++ [name]))
        else .free (some path)

/-- Follows names from what a path led to so far. -/
def follow (d : Disk) (path : String) : DiskNode → List String → Except FileError DiskNode
  | node, [] => .ok node
  | .file _ _, _ :: _ => .error (.notDirectory path)
  | .free _, _ :: _ => .error (.noEntry path)
  | .directory place, name :: names =>
    if maxName < name.utf8ByteSize then .error (.nameTooLong path)
    else d.follow path (d.entry name place) names

/-- Where a path starts. -/
def start (path : String) : DiskNode :=
  .directory (if Path.isRooted path then .outside else .inside [])

/-- The names in a path. -/
def names (path : String) : List String :=
  (Path.parts path).filter (· ≠ "")

/-- The path can only be that of a directory. -/
def endsInSlash (path : String) : Bool :=
  path.endsWith "/"

/-- Follows names from the start of a path. -/
def find (d : Disk) (path : String) (names : List String) : Except FileError DiskNode :=
  if path = "" then .error (.noEntry path)
  else if maxPath < path.utf8ByteSize then .error (.nameTooLong path)
  else d.follow path (start path) names

/-- Opens a file to read it; nothing stands for a directory, which can be opened but not read. -/
def read (d : Disk) (path : String) : Except FileError (Option (List UInt8)) :=
  if path = sink then .ok (some [])
  else
    match d.find path (names path) with
    | .ok (.file _ bytes) =>
      if endsInSlash path then .error (.notDirectory path) else .ok (some bytes)
    | .ok (.directory _) => .ok none
    | .ok (.free _) => .error (.noEntry path)
    | .error e => .error e

/-- Writes a file to where a path led. -/
def put (d : Disk) (path : String) (bytes : List UInt8) : DiskNode → Except FileError Disk
  | .file name _ => .ok ⟨d.files.map fun (p, bs) => if p == name then (p, bytes) else (p, bs)⟩
  | .free (some name) => .ok ⟨d.files ++ [(name, bytes)]⟩
  | .free none => .ok d
  | .directory _ => .error (.isDirectory path)

/-- Writes a file. The directory for it must exist, before it counts whether the path can be that
of a file. -/
def write (d : Disk) (path : String) (bytes : List UInt8) : Except FileError Disk := do
  if path = sink then return d
  let parent ← d.find path (names path).dropLast
  match parent, (names path).getLast? with
  | .directory _, some name =>
    if endsInSlash path then throw (.isDirectory path)
    d.put path bytes (← d.follow path parent [name])
  | node, last => d.put path bytes (← d.follow path node last.toList)

end Disk

end TinyC
