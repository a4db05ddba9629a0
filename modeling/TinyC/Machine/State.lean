import TinyC.Machine.Fault
import TinyC.Machine.Memo
import TinyC.Machine.Output
import TinyC.Module.Listing
import TinyC.Note

/-!
# The machine

A machine runs a module. Its memory is one array of words: the globals first, then the stack. A
frame is a window on the stack: room for the result and the arguments, which the caller pushes,
and behind them the local variables. The operands of a frame lie behind its local variables, and
addresses are indices into memory.
-/

namespace TinyC

/-- A call in progress. -/
structure Frame where
  routine : Routine
  /-- The index of the next instruction. -/
  pc : Nat
  /-- The address of the first argument slot. -/
  args : Nat
  /-- The address of the first local slot. -/
  locals : Nat
  deriving Repr, DecidableEq

/-- The address of the first operand. -/
def Frame.floor (f : Frame) : Nat :=
  f.locals + f.routine.locals

/-- What a machine is set up with. -/
structure Setup where
  /-- The name of the program, for notes. -/
  name : String
  module : Module
  /-- The number of instructions that a run may carry out. -/
  maxSteps : Nat
  /-- Every instruction is noted. -/
  trace : Bool := false
  /-- The run is to be given up. -/
  cancelled : Bool := false

/-- The state of a machine. -/
structure Machine where
  memory : Array UInt64 := #[]
  /-- The calls in progress, the innermost first. -/
  frames : List Frame := []
  /-- The number of instructions of this run. -/
  steps : Nat := 0
  input : Input
  output : Output := {}
  memo : Memo := {}
  /-- The notes, newest first. -/
  notes : List Note := []

namespace Machine

/-- Pushes a word. -/
def push (m : Machine) (x : UInt64) : Machine :=
  { m with memory := m.memory.push x }

/-- Pushes zeros. -/
def reserve (m : Machine) (n : Nat) : Machine :=
  { m with memory := m.memory ++ Array.replicate n 0 }

/-- The machine behind a call of a function whose arguments start at an address. -/
def enter (m : Machine) (r : Routine) (args : Nat) : Machine :=
  { m.reserve r.locals with frames := ⟨r, 0, args, m.memory.size⟩ :: m.frames }

/-- The machine with another innermost frame. -/
def setFrame (m : Machine) (f : Frame) : Machine :=
  { m with frames := f :: m.frames.tail }

/-- The machine with one more note. -/
def note (m : Machine) (n : Note) : Machine :=
  { m with notes := n :: m.notes }

end Machine

/-- What an instruction leads to: the machine behind it, and the reason if it could not be carried
out. -/
abbrev Effect := Machine × Option Trap

namespace Machine

/-- The instruction has been carried out. -/
@[inline] def done (m : Machine) : Effect := (m, none)

/-- The instruction cannot be carried out. -/
@[inline] def trapped (m : Machine) (t : Trap) : Effect := (m, some t)

/-- Pops an operand of a frame. -/
@[inline] def withTop (m : Machine) (f : Frame) (k : UInt64 → Machine → Effect) : Effect :=
  if h : f.floor < m.memory.size then
    k (m.memory[m.memory.size - 1]) { m with memory := m.memory.pop }
  else m.trapped .stackUnderflow

/-- Pops two operands of a frame; the first one was pushed first. -/
@[inline] def withTwo (m : Machine) (f : Frame) (k : UInt64 → UInt64 → Machine → Effect) :
    Effect :=
  m.withTop f fun b m => m.withTop f fun a m => k a b m

/-- Replaces an operand by what a function makes of it. -/
@[inline] def unary (m : Machine) (f : Frame) (op : UInt64 → UInt64) : Effect :=
  m.withTop f fun x m => (m.push (op x)).done

/-- Replaces two operands by what a function makes of them. -/
@[inline] def binary (m : Machine) (f : Frame) (op : UInt64 → UInt64 → UInt64) : Effect :=
  m.withTwo f fun a b m => (m.push (op a b)).done

end Machine

end TinyC
