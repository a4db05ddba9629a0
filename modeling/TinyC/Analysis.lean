import TinyC.Syntax.Parser
import TinyC.Token.Stream
import TinyC.Typing.Program

/-!
# Analysis

`analyse` takes the text of a program to its tables and its core program, or to the one
diagnostic that says why there are none. What a program means depends on the kinds and values of
its tokens alone; positions come in at the very end, for the tables and for diagnostics.
-/

namespace TinyC

open Syntax (Word)

/-- What is known of an accepted program. -/
structure Analysis where
  tables : ProgramTables Position
  core : Core.Program

/-- What came of analysing a program: the analysis or a diagnostic, and the notes taken on the
way. -/
structure Analysed where
  outcome : Except Diagnostic Analysis
  notes : List Note

/-- The tokens as the grammar sees them. -/
def wordsOf (ts : List Token) : List Word :=
  ts.mapIdx fun i t => ⟨t.kind, t.value, i⟩

/-- The core program and the tables of a row of tokens, or the fault in it, with the state in
which the walk ended. -/
def check (ws : List Word) : Except Typing.Fault Core.Program × Typing.State :=
  (Typing.program (Syntax.Program.ofWords ws)).run.run {}

/-- The notes of a walk that looked at `seen` tokens: those on the tokens, as they are looked at,
and those on the instructions. Of the tokens, `done` have been looked at before; `ts` are the
others. -/
def journalNotes (seen : Nat) : Nat → List Lexed → List Typing.Emission → List Note
  | done, ts, [] => (ts.take (seen - done)).flatMap Lexed.notes
  | done, ts, e :: es =>
    (ts.take (e.seen - done)).flatMap Lexed.notes
      ++ .detail .parser 2 ("emitting " ++ e.instr.text ++ " at " ++ toString e.index)
      :: journalNotes seen (max done e.seen) (ts.drop (e.seen - done)) es

/-- The note on an accepted program. -/
def analysedNote (globals functions : Nat) : Note :=
  Note.info ("analysed " ++ toString globals ++ " globals and " ++ toString functions
    ++ " functions")

/-- The token of a number. -/
def tokenAt (ts : Array Lexed) (ord : Nat) : Token :=
  ((ts[ord]?).map Lexed.token).getD ⟨.eof, "", .none, ⟨"", 0, 0, 0⟩⟩

/-- Analyses the text of a program. -/
def analyse (s : Source) : Analysed :=
  let lexed := s.tokens
  let row := lexed.toArray
  let (outcome, state) := check (wordsOf (lexed.map Lexed.token))
  let notes := journalNotes state.seen 0 lexed state.journal.reverse
  match outcome with
  | .error f => ⟨.error (f.diagnostic (tokenAt row f.ord)), notes⟩
  | .ok core =>
    let tables := (Typing.tables state core).mapPos fun ord => (tokenAt row ord).pos
    ⟨.ok ⟨tables, core⟩, notes ++ [analysedNote tables.globals.count tables.functions.count]⟩

end TinyC
