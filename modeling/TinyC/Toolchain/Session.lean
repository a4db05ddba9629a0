import TinyC.Toolchain.Compiler
import TinyC.Toolchain.Counters
import TinyC.Toolchain.Files

/-!
# Sessions

A compiler at work on a store of files, with its counters.
-/

namespace TinyC

/-- A compiler with its files and counters. -/
structure Session where
  files : Files := {}
  options : CompilerOptions := {}
  /-- The compiler cannot write files. -/
  readonly : Bool := false
  /-- The measurements are registered. -/
  registered : Bool := false
  counters : Counters := {}

namespace Session

/-- The session with a failure counted. -/
def countFailure (s : Session) (name : String) (f : Failure) : Session :=
  { s with counters := s.counters.failure name f }

/-- The session with a compiled program counted. -/
def countSuccess (s : Session) (name : String) : Session :=
  { s with counters := s.counters.success name }

/-- Registers the measurements; nothing if they are registered already. -/
def register? (s : Session) : Option Session :=
  if s.registered then none else some { s with registered := true }

/-- Hands on the tokens of a program. A refused token is no failure of the program. -/
def tokenize (s : Session) (limit : Option Nat) (p : Program) : Tokenized × Session :=
  let r := p.tokenize s.options limit
  match r.failure with
  | some (.diagnostic d) => (r, s.countFailure p.name (.diagnostic d))
  | _ => (r, s)

/-- Analyses a program. -/
def analyse (s : Session) (p : Program) : Report Analysis × Session :=
  let r := p.analyse
  match r.result with
  | .error f => (r, s.countFailure p.name f)
  | .ok _ => (r, s)

/-- Compiles a program and writes its module file to a receiver. -/
def compile (s : Session) (limit : Option Nat) (p : Program) : Written × List Note × Session :=
  let (w, notes) := p.compileTo s.options limit
  match w.failure with
  | some f => (w, notes, s.countFailure p.name f)
  | none => (w, notes, s.countSuccess p.name)

/-- Writes a module file to the store. -/
def store (s : Session) (path target : String) (bytes : List UInt8) : Option Failure × Session :=
  if s.readonly then
    (some (.within ("failed to write module " ++ Text.quoted target) (.file .readonly)),
      s.countFailure path (.file .readonly))
  else (none, { s with files := s.files.write target bytes })

/-- Compiles a file to a module file. -/
def compileFile (s : Session) (path target : String) : Option Failure × List Note × Session :=
  match s.files.read path with
  | .error e =>
    (some (.within ("failed to open program " ++ Text.quoted path) (.file e)), [],
      s.countFailure path (.file e))
  | .ok bytes =>
    match s.compile none ⟨path, bytes, false⟩ with
    | (⟨_, some f⟩, notes, s) => (some (.within ("compile failed for " ++ path) f), notes, s)
    | (⟨bytes, none⟩, notes, s) =>
      let (f, s) := s.store path target bytes
      (f, notes, s)

/-- The names of the measurements that have a value. -/
def measurements (s : Session) : List String :=
  if s.registered then
    "c0c_compiler_compile_duration_seconds" ::
      (if s.counters.families.isEmpty then [] else ["c0c_compiler_compile_errors_total"])
  else []

end Session

end TinyC
