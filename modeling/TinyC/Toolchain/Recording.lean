import TinyC.Note
import TinyC.Number.Numeral
import TinyC.Text.Glob

/-!
# What a command shows of its record

The record of a command goes to its error output if that is asked for, and so does every message
that is grave enough. Which details are part of the record is said by one level for all parts, or
by rules for the parts whose names match a pattern; of two rules for a part the first one counts.
-/

namespace TinyC

/-- How grave a message is. -/
inductive Severity where
  | info
  | warning
  | error
  | fatal
  deriving Repr, DecidableEq

namespace Severity

/-- The severities, from the least on. -/
def all : List Severity := [info, warning, error, fatal]

/-- The name of a severity. -/
def name : Severity → String
  | info => "INFO"
  | warning => "WARNING"
  | error => "ERROR"
  | fatal => "FATAL"

/-- The number of a severity. -/
def number : Severity → Nat
  | info => 0
  | warning => 1
  | error => 2
  | fatal => 3

/-- The capital of a letter, where it is an ASCII letter: two of them are also the capitals of
letters beyond ASCII. -/
def capital (c : Char) : Char :=
  if c == 'ı' then 'I' else if c == 'ſ' then 'S' else c.toUpper

/-- The severity with a number, of which only the lowest eight bits count. -/
def ofNumber? (n : Int64) : Option Severity :=
  all.find? fun s => (s.number : Int) == n.toInt8.toInt

/-- Reads a severity: a name in any case, or else a number. -/
def parse? (s : String) : Option Severity :=
  match all.find? (·.name == s.map capital) with
  | some severity => some severity
  | none => (Number.readDecimal s.toList).toOption.bind ofNumber?

end Severity

/-- Reads a level of details: a decimal, of which only the lowest 32 bits count. -/
def level? (s : String) : Option Int32 :=
  (Number.readDecimal s.toList).toOption.map Int64.toInt32

/-- A level for the parts whose names match a pattern. -/
structure LevelRule where
  pattern : String
  level : Int32
  deriving Repr, DecidableEq

namespace LevelRule

/-- The rule is about a part. A pattern with a slash is about places and not about names. -/
def governs (r : LevelRule) (part : Part) : Bool :=
  !r.pattern.contains '/' && Text.globMatches r.pattern part.name

/-- Reads a rule. -/
def parse? (s : String) : Option LevelRule :=
  match s.splitOn "=" with
  | [pattern, level] =>
    if pattern = "" ∨ level = "" then none else (level? level).map fun level => ⟨pattern, level⟩
  | _ => none

/-- Reads rules with commas between them. -/
def parseAll? (s : String) : Option (List LevelRule) :=
  ((s.splitOn ",").filter (· ≠ "")).mapM parse?

end LevelRule

/-- The text names a line of a file. -/
def isLine (s : String) : Bool :=
  match s.splitOn ":" with
  | [file, line] =>
    file.contains '.' && ((Number.readDecimal line.toList).toOption.any fun n => 0 ≤ n.toInt)
  | _ => false

/-- The text names lines of files, with commas between them. -/
def isLines (s : String) : Bool :=
  ((s.splitOn ",").filter (· ≠ "")).all isLine

/-- What a command shows of its record. -/
structure Recording where
  /-- The record goes to the error output. -/
  toStderr : Bool := false
  /-- The record goes to the error output besides. -/
  alsoToStderr : Bool := false
  /-- The severity from which on messages go to the error output in any case. -/
  threshold : Severity := .error
  /-- The level of details for the parts that no rule is about. -/
  level : Int32 := 0
  rules : List LevelRule := []
  deriving Repr

namespace Recording

/-- Messages of a severity are shown. -/
def shows (r : Recording) (s : Severity) : Bool :=
  r.toStderr || r.alsoToStderr || r.threshold.number ≤ s.number

/-- The levels of details of the parts. -/
def verbosity (r : Recording) : Verbosity := fun part =>
  match r.rules.find? (·.governs part) with
  | some rule => rule.level
  | none => r.level

/-- The gravest messages are always shown. -/
theorem shows_fatal (r : Recording) : r.shows .fatal = true := by
  have h : r.threshold.number ≤ Severity.fatal.number := by
    cases r.threshold <;> decide
  simp [shows, h]

end Recording

end TinyC
