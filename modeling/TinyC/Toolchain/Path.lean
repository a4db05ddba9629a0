/-!
# Paths

Names of files: parts divided by slashes. The part `.` stands for the directory itself and `..`
for the one above.
-/

namespace TinyC.Path

/-- The parts of a path. -/
def parts (path : String) : List String :=
  path.splitOn "/"

/-- The path starts at the top. -/
def isRooted (path : String) : Bool :=
  path.startsWith "/"

/-- Takes one part after others, which are given last first. -/
def walk (rooted : Bool) (done : List String) (part : String) : List String :=
  if part = "" ∨ part = "." then done
  else if part = ".." then
    match done with
    | [] => if rooted then [] else [".."]
    | p :: ps => if p = ".." then ".." :: p :: ps else ps
  else part :: done

/-- The shortest path that names the same file. -/
def clean (path : String) : String :=
  let ps := ((parts path).foldl (walk (isRooted path)) []).reverse
  if isRooted path then "/" ++ String.intercalate "/" ps
  else if ps.isEmpty then "." else String.intercalate "/" ps

/-- The last part of a path. -/
def base (path : String) : String :=
  if path = "" then "."
  else ((parts path).filter (· ≠ "")).getLast?.getD "/"

/-- The directory that a path is in. -/
def dir (path : String) : String :=
  let ps := (parts path).dropLast
  clean (if ps = [""] then "/" else String.intercalate "/" ps)

end TinyC.Path
