import TinyC.Toolchain.Compiler
import TinyC.Toolchain.Disk
import TinyC.Toolchain.Recording

/-!
# The command line

The compiler as a command. It prints the tokens of a program, or its tables, or its module file,
or runs it. `CommandLine.run` says what a command does: what it prints, what it notes, and which
file it writes; `CommandLine.runIn` does it in a directory with some files.
-/

namespace TinyC

/-- The settings of a command. -/
structure Flags where
  program : String := ""
  stdin : Bool := false
  mode : String := "generate"
  output : String := ""
  maxSteps : Int := Options.defaultMaxSteps
  dumpTokens : Bool := false
  dumpModule : Bool := false
  trace : Bool := false
  /-- The command is only asked which version it is. -/
  version : Bool := false
  recording : Recording := {}
  deriving Repr

/-- The settings with another way to show the record. -/
def Flags.record (f : Flags) (change : Recording → Recording) : Flags :=
  { f with recording := change f.recording }

/-- A setting and how its value changes the settings; nothing if the value makes no sense. -/
inductive Setting where
  | switch (set : Flags → Bool → Flags)
  | value (set : Flags → String → Option Flags)

/-- Reads an integer. -/
def wholeNumber? (s : String) : Option Int :=
  match Number.readInt s.toList with
  | .ok n => some n.toInt
  | .error _ => none

/-- The settings by name. -/
def Setting.named? (name : String) : Option Setting :=
  match name with
  | "prog" => some (.value fun f v => some { f with program := v })
  | "stdin" => some (.switch fun f b => { f with stdin := b })
  | "mode" => some (.value fun f v => some { f with mode := v })
  | "o" => some (.value fun f v => some { f with output := v })
  | "max_steps" => some (.value fun f v => (wholeNumber? v).map fun n => { f with maxSteps := n })
  | "dump_tokens" => some (.switch fun f b => { f with dumpTokens := b })
  | "dump_bytecode" => some (.switch fun f b => { f with dumpModule := b })
  | "trace" => some (.switch fun f b => { f with trace := b })
  | "version" => some (.switch fun f b => { f with version := b })
  | "logtostderr" => some (.switch fun f b => f.record ({ · with toStderr := b }))
  | "alsologtostderr" => some (.switch fun f b => f.record ({ · with alsoToStderr := b }))
  | "stderrthreshold" =>
    some (.value fun f v => (Severity.parse? v).map fun s => f.record ({ · with threshold := s }))
  | "v" => some (.value fun f v => (level? v).map fun n => f.record ({ · with level := n }))
  | "vmodule" =>
    some (.value fun f v => (LevelRule.parseAll? v).map fun rs => f.record ({ · with rules := rs }))
  | "log_backtrace_at" => some (.value fun f v => if isLines v then some f else none)
  | "logbuflevel" => some (.value fun f v => (wholeNumber? v).map fun _ => f)
  | "log_dir" | "log_link" => some (.value fun f _ => some f)
  | _ => none

/-- Reads a truth value. -/
def truth? (s : String) : Option Bool :=
  if s ∈ ["1", "t", "T", "true", "TRUE", "True"] then some true
  else if s ∈ ["0", "f", "F", "false", "FALSE", "False"] then some false
  else none

/-- The name of a setting and the value behind an equals sign, if the argument is a setting. -/
def splitFlag? (arg : String) : Option (String × Option String) :=
  match arg.toList with
  | '-' :: '-' :: cs => if cs.isEmpty then none else some (split cs)
  | '-' :: cs => if cs.isEmpty then none else some (split cs)
  | _ => none
where
  /-- Splits at the first equals sign. -/
  split (cs : List Char) : String × Option String :=
    match cs.span (· != '=') with
    | (name, _ :: value) => (String.ofList name, some (String.ofList value))
    | (name, []) => (String.ofList name, none)

/-- Why arguments do not make a command. -/
inductive UsageStop where
  /-- The arguments ask for help. -/
  | help
  /-- A setting is unknown, or its value makes no sense. -/
  | mistake
  deriving Repr, DecidableEq

/-- The exit code. -/
def UsageStop.exit : UsageStop → Nat
  | help => 0
  | mistake => 2

/-- Changes the settings by a value that may make no sense. -/
def Flags.take (f : Flags) (set : Flags → String → Option Flags) (v : String) :
    Except UsageStop Flags :=
  match set f v with
  | some f => .ok f
  | none => .error .mistake

/-- Reads arguments: the settings, and the arguments behind them. -/
def Flags.parse (f : Flags) : List String → Except UsageStop (Flags × List String)
  | [] => .ok (f, [])
  | "--" :: args => .ok (f, args)
  | arg :: args =>
    match splitFlag? arg with
    | none => .ok (f, arg :: args)
    | some (name, value) =>
      match Setting.named? name, value, args with
      | none, _, _ => .error (if name = "help" ∨ name = "h" then .help else .mistake)
      | some (.switch set), none, args => Flags.parse (set f true) args
      | some (.switch set), some v, args => do
        let f ← f.take (fun f v => (truth? v).map (set f)) v
        Flags.parse f args
      | some (.value set), some v, args => do
        let f ← f.take set v
        Flags.parse f args
      | some (.value set), none, v :: args => do
        let f ← f.take set v
        Flags.parse f args
      | some (.value _), none, [] => .error .mistake

/-- What came of a command. A module file that is to be written is part of it. -/
structure CommandResult where
  exit : Nat := 0
  stdout : List UInt8 := []
  notes : List Note := []
  /-- The reason of a failure. -/
  reason : Option String := none
  /-- The path and the bytes of a file that is to be written. -/
  file : Option (String × List UInt8) := none

/-- How a command reads a file; nothing stands for a directory, which can be opened but not
read. -/
abbrev FileReader := String → Except FileError (Option (List UInt8))

namespace CommandResult

/-- A command that fails. -/
def failed (reason : String) (notes : List Note) (stdout : List UInt8) : CommandResult :=
  { exit := 1, stdout, notes, reason := some reason }

/-- A command whose file could not be written. -/
def unwritten (r : CommandResult) (path : String) (e : FileError) : CommandResult :=
  failed (Failure.within ("failed to write module " ++ Text.quoted path) (.file e)).text r.notes
    r.stdout

end CommandResult

namespace CommandLine

open CommandResult (failed)

/-- The options of the compiler. -/
def compilerOptions (f : Flags) : CompilerOptions :=
  ⟨f.dumpTokens, f.dumpModule⟩

/-- The program under a path. -/
def openFile (read : FileReader) (path : String) : Except Failure Program :=
  match read path with
  | .ok (some bytes) => .ok ⟨path, bytes, false⟩
  | .ok none => .ok ⟨path, [], true⟩
  | .error e => .error (.within ("failed to open program " ++ Text.quoted path) (.file e))

/-- The program that a command is about. -/
def openProgram (f : Flags) (read : FileReader) (stdin : List UInt8) : Except Failure Program :=
  if f.stdin then .ok ⟨"<stdin>", stdin, false⟩
  else if f.program = "" then .error (.plain "no -prog given")
  else openFile read f.program

/-- Prints the tokens of a program. -/
def tokenize (f : Flags) (p : Program) : CommandResult :=
  let r := p.tokenize (compilerOptions f) none
  let stdout := Text.bytesOf (String.join (r.tokens.map fun t => t.describe ++ "\n"))
  match r.failure with
  | some e => failed e.text r.notes stdout
  | none => { stdout, notes := r.notes }

/-- Prints the tables of a program. -/
def analyse (p : Program) : CommandResult :=
  match p.analyse with
  | ⟨.error e, notes⟩ => failed e.text notes []
  | ⟨.ok a, notes⟩ => { stdout := Text.bytesOf a.tables.listing, notes }

/-- Writes the module file of a program, or prints it. -/
def generate (f : Flags) (p : Program) : CommandResult :=
  match p.compile (compilerOptions f) with
  | ⟨.error e, notes⟩ => failed e.text notes []
  | ⟨.ok bytes, notes⟩ =>
    if f.output = "" then { stdout := bytes, notes } else { notes, file := some (f.output, bytes) }

/-- Compiles a file to a file. -/
def compileFile (f : Flags) (read : FileReader) : CommandResult :=
  match openFile read f.program with
  | .error e => failed e.text [] []
  | .ok p =>
    match p.compile (compilerOptions f) with
    | ⟨.error e, notes⟩ =>
      failed (Failure.within ("compile failed for " ++ f.program) e).text notes []
    | ⟨.ok bytes, notes⟩ => { notes, file := some (f.output, bytes) }

/-- Runs a program on some input. -/
def execute (f : Flags) (p : Program) (stdin : List UInt8) : CommandResult :=
  match p.load (compilerOptions f) with
  | ⟨.error e, notes⟩ => failed e.text notes []
  | ⟨.ok m, notes⟩ =>
    let trace := f.trace || 2 ≤ f.recording.verbosity .vm
    match Setup.make p.name m { maxSteps := f.maxSteps, trace } with
    | .error e => failed e.message notes []
    | .ok s =>
      let (machine, error) := Machine.run s { input := ⟨stdin, false⟩ }
      let stdout := machine.output.delivered.toList
      let notes := notes ++ machine.notes.reverse
      match error with
      | some e => failed e.text notes stdout
      | none => { stdout, notes }

/-- What a command does in a mode. -/
def perform (f : Flags) (stdin : List UInt8) (p : Program) : CommandResult :=
  match f.mode with
  | "tokenize" => tokenize f p
  | "analyse" => analyse p
  | "generate" => generate f p
  | "run" =>
    if f.stdin then
      failed "-stdin cannot be used in run mode, the program reads standard input" [] []
    else execute f p stdin
  | mode => failed ("Unknown mode " ++ Text.quoted mode) [] []

/-- What a command does with its settings. -/
def command (f : Flags) (read : FileReader) (stdin : List UInt8) : CommandResult :=
  if f.mode = "generate" ∧ f.program ≠ "" ∧ f.stdin = false ∧ f.output ≠ "" then compileFile f read
  else
    match openProgram f read stdin with
    | .error e => failed e.text [] []
    | .ok p => perform f stdin p

/-- The settings and the result of a command. -/
def run (args : List String) (read : FileReader) (stdin : List UInt8) : Flags × CommandResult :=
  match Flags.parse {} args with
  | .error e => ({}, { exit := e.exit })
  | .ok (f, rest) =>
    if f.version then (f, {})
    else if rest.isEmpty then (f, command f read stdin)
    else
      (f, failed ("Too many extra arguments specified: ["
        ++ String.intercalate " " (rest.map Text.quoted) ++ "]") [] [])

/-- The settings and the result of a command in a directory, and the files it leaves there. -/
def runIn (disk : Disk) (args : List String) (stdin : List UInt8) :
    Flags × CommandResult × Disk :=
  let (f, r) := run args disk.read stdin
  match r.file with
  | none => (f, r, disk)
  | some (path, bytes) =>
    match disk.write path bytes with
    | .ok disk => (f, r, disk)
    | .error e => (f, r.unwritten path e, disk)

/-- The messages that a command shows. -/
def messages (f : Flags) (r : CommandResult) : List String :=
  (if f.recording.shows .info then Note.shown f.recording.verbosity r.notes else [])
    ++ (r.reason.map fun reason => (Note.info reason).line).toList

end CommandLine

end TinyC
