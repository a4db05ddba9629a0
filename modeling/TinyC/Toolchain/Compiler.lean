import TinyC.Analysis
import TinyC.Failure
import TinyC.Toolchain.Path

/-!
# The compiler

From the text of a program to its tokens, its tables or its module file. Positions name a program
by the last part of its path.

A module file is written at once, when it is complete: a program that is rejected leaves nothing
behind.
-/

namespace TinyC

/-- The text of a program under its path. -/
structure Program where
  name : String
  bytes : List UInt8
  /-- Reading it failed behind these bytes. -/
  broken : Bool := false

/-- The program as its tokens are told. -/
def Program.source (p : Program) : Source :=
  ⟨Path.base p.name, p.bytes, p.broken⟩

/-- How a compiler is set up. -/
structure CompilerOptions where
  /-- Every token is noted. -/
  dumpTokens : Bool := false
  /-- Every module is noted. -/
  dumpModule : Bool := false

/-- What came of a task: a result, or a failure; and the notes taken on the way. -/
structure Report (α : Type) where
  result : Except Failure α
  notes : List Note := []

/-- The tokens that were handed on, the failure that ended it, and the notes. -/
structure Tokenized where
  tokens : List Token
  failure : Option Failure
  notes : List Note

/-- The failure that an `invalid` token stands for. -/
def Token.failure? (t : Token) : Option Failure :=
  match t.kind, t.value with
  | .invalid, .fault d => some (.diagnostic d)
  | _, _ => none

/-- Hands on tokens up to the first that is invalid, or until `limit` have been taken and one more
is refused. -/
def handOn (o : CompilerOptions) : Option Nat → List Lexed → Tokenized
  | _, [] => ⟨[], none, []⟩
  | limit, t :: ts =>
    match t.token.failure? with
    | some f => ⟨[], some f, t.notes⟩
    | none =>
      let notes := t.notes ++ (if o.dumpTokens then [Note.info t.token.describe] else [])
      if limit = some 0 then ⟨[], some (.plain "stopped"), notes⟩
      else
        let r := handOn o (limit.map (· - 1)) ts
        ⟨t.token :: r.tokens, r.failure, notes ++ r.notes⟩

/-- The tokens of a program up to its end or its first flaw; `limit` is the number of tokens that
are taken. -/
def Program.tokenize (o : CompilerOptions) (limit : Option Nat) (p : Program) : Tokenized :=
  handOn o limit p.source.tokens

/-- The tables of a program. -/
def Program.analyse (p : Program) : Report Analysis :=
  match TinyC.analyse p.source with
  | ⟨.ok a, notes⟩ => ⟨.ok a, notes⟩
  | ⟨.error d, notes⟩ => ⟨.error (.diagnostic d), notes⟩

/-- Bytes that were written to a receiver, and the failure if it did not take all. -/
structure Written where
  bytes : List UInt8 := []
  failure : Option Failure := none

/-- Writes a module file to a receiver that takes a number of bytes. -/
def writeModule (limit : Option Nat) (bytes : List UInt8) : Written :=
  match limit with
  | none => ⟨bytes, none⟩
  | some l =>
    if bytes.length ≤ l then ⟨bytes, none⟩
    else ⟨bytes.take l, some (.within "failed to write module" .full)⟩

/-- Writes the module file of some tables to a receiver. -/
def ProgramTables.generate {π : Type} (limit : Option Nat) (t : ProgramTables π) :
    Written × List Note :=
  match t.encode with
  | .error e => (⟨[], some (.encode e)⟩, [])
  | .ok bytes => (writeModule limit bytes, [t.encodeNote bytes])

/-- The note on a module, or the failure to read it. -/
def moduleNote (bytes : List UInt8) : Except Failure Note :=
  match Module.decode bytes with
  | .ok m => .ok (Note.info ("Dumping module and bytecode\n" ++ m.listing))
  | .error e => .error (.decode e)

/-- Notes a module that has been written, if the compiler is to do so. -/
def CompilerOptions.dump (o : CompilerOptions) (w : Written) : Written × List Note :=
  if w.failure.isNone && o.dumpModule then
    match moduleNote w.bytes with
    | .ok n => (w, [n])
    | .error f => (⟨w.bytes, some f⟩, [])
  else (w, [])

/-- Compiles a program and writes its module file to a receiver that takes a number of bytes. -/
def Program.compileTo (o : CompilerOptions) (limit : Option Nat) (p : Program) :
    Written × List Note :=
  match p.analyse with
  | ⟨.error f, notes⟩ => (⟨[], some f⟩, notes)
  | ⟨.ok a, notes⟩ =>
    let (w, encoded) := a.tables.generate limit
    let (w, dumped) := o.dump w
    let last := if w.failure.isNone then [Note.info ("Compiled program " ++ p.name)] else []
    (w, notes ++ encoded ++ dumped ++ last)

/-- Compiles a program to its module file. -/
def Program.compile (o : CompilerOptions) (p : Program) : Report (List UInt8) :=
  match p.compileTo o none with
  | (⟨_, some f⟩, notes) => ⟨.error f, notes⟩
  | (⟨bytes, none⟩, notes) => ⟨.ok bytes, notes⟩

/-- Compiles a program to the module that the machine runs. -/
def Program.load (o : CompilerOptions) (p : Program) : Report Module :=
  match p.compile o with
  | ⟨.error f, notes⟩ => ⟨.error f, notes⟩
  | ⟨.ok bytes, notes⟩ =>
    match Module.decode bytes with
    | .ok m => ⟨.ok m, notes⟩
    | .error e => ⟨.error (.decode e), notes⟩

end TinyC
