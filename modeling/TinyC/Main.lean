import TinyC.Toolchain.CommandLine

/-!
# The command

Reads what a command needs, and carries out what comes of it.
-/

namespace TinyC

/-- The reason why a file cannot be opened. -/
def fileError (path : String) : IO.Error → FileError
  | .noFileOrDirectory .. => .noEntry path
  | .inappropriateType .. => .isDirectory path
  | .invalidArgument .. => .nameTooLong path
  | _ => .notDirectory path

/-- Reads a file. -/
def readFile (path : String) : IO (Except FileError (Option (List UInt8))) := do
  try
    let bytes ← IO.FS.readBinFile path
    return .ok (some bytes.toList)
  catch e =>
    match fileError path e with
    | .isDirectory _ => return .ok none
    | e => return .error e

/-- Writes the file of a result. -/
def writeFile (r : CommandResult) : IO CommandResult :=
  match r.file with
  | none => pure r
  | some (path, bytes) => do
    try
      IO.FS.writeBinFile path ⟨bytes.toArray⟩
      return r
    catch e => return r.unwritten path (fileError path e)

/-- The standard input, if a command reads it. -/
def readInput (f : Flags) : IO (List UInt8) := do
  if f.stdin || f.mode == "run" then
    return (← (← IO.getStdin).readBinToEnd).toList
  else return []

end TinyC

open TinyC

/-- Runs the command. -/
def main (args : List String) : IO UInt32 := do
  let flags := ((Flags.parse {} args).toOption.map Prod.fst).getD {}
  let file ← if flags.stdin || flags.program == "" then pure (.ok none) else readFile flags.program
  let (flags, r) := CommandLine.run args (fun _ => file) (← readInput flags)
  let r ← writeFile r
  let stdout ← IO.getStdout
  stdout.write ⟨r.stdout.toArray⟩
  stdout.flush
  for line in CommandLine.messages flags r do
    IO.eprintln line
  return r.exit.toUInt32
