import TinyC.Diagnostic
import TinyC.Machine.Run
import TinyC.Module.Decode
import TinyC.Module.Encode

/-!
# Failures

Why the toolchain could not do what it was asked: a diagnostic about the program, an error in a
run, or something about files and modules. A failure can be put into the context of a larger
task; its cause stays the same.
-/

namespace TinyC

/-- Why a file cannot be read or written. -/
inductive FileError where
  /-- There is no such file. -/
  | missing (path : String)
  /-- There is no such file or directory on the way to it. -/
  | noEntry (path : String)
  | isDirectory (path : String)
  | notDirectory (path : String)
  | nameTooLong (path : String)
  /-- Nothing can be written. -/
  | readonly
  deriving Repr, DecidableEq

/-- The wording of the reason. -/
def FileError.message : FileError → String
  | missing path => "open " ++ path ++ ": file does not exist"
  | noEntry path => "open " ++ path ++ ": no such file or directory"
  | isDirectory path => "open " ++ path ++ ": is a directory"
  | notDirectory path => "open " ++ path ++ ": not a directory"
  | nameTooLong path => "open " ++ path ++ ": file name too long"
  | readonly => "operation not permitted"

/-- Why a task failed. -/
inductive Failure where
  | diagnostic (d : Diagnostic)
  | runtime (e : RuntimeError)
  /-- A run was given up. -/
  | canceled
  /-- The machine broke down. -/
  | crashed (size : Int64)
  | encode (e : EncodeError)
  | decode (e : DecodeError)
  | setup (e : SetupError)
  | file (e : FileError)
  /-- A receiver did not take all bytes. -/
  | full
  /-- Nothing is known but the text. -/
  | plain (text : String)
  /-- A failure in the context of a larger task. -/
  | within (context : String) (cause : Failure)
  deriving Repr

namespace Failure

/-- The whole text of a failure. -/
def text : Failure → String
  | diagnostic d => d.text
  | runtime e => e.text
  | canceled => "context canceled"
  | crashed size => (RunError.stopped (.crashed size)).text
  | encode e => e.message
  | decode e => e.message
  | setup e => e.message
  | file e => e.message
  | full => "disk full"
  | plain s => s
  | within context cause => context ++ ": " ++ cause.text

/-- The failure without its contexts. -/
def cause : Failure → Failure
  | within _ c => c.cause
  | f => f

/-- The diagnostic behind a failure. -/
def diagnostic? (f : Failure) : Option Diagnostic :=
  match f.cause with
  | diagnostic d => some d
  | _ => none

/-- The code of the diagnostic behind a failure. -/
def code? (f : Failure) : Option Code :=
  f.diagnostic?.map Diagnostic.code

/-- The failure for the error of a run. -/
def ofRun : RunError → Failure
  | .stopped (.error e) => runtime e
  | .stopped .canceled => canceled
  | .stopped (.crashed size) => crashed size
  | .flush => within "failed to flush output" full

/-- A context leaves the code as it is. -/
@[simp] theorem code?_within (context : String) (f : Failure) :
    (within context f).code? = f.code? := rfl

end Failure

end TinyC
