import TinyC.Machine.Step

/-!
# Runs of the machine

A run starts from the entry function with fresh globals and ends with the output delivered.
Machines can run again: the input goes on where the last run left it.
-/

namespace TinyC

/-- How a machine is to be set up. -/
structure Options where
  maxSteps : Int
  trace : Bool := false
  cancelled : Bool := false
  /-- How many times its measurements are registered. -/
  registrations : Nat := 0

/-- The number of instructions that a run may carry out if nothing else is said. -/
def Options.defaultMaxSteps : Int := 100000000

/-- Why a machine cannot be set up. -/
inductive SetupError where
  | maxSteps (n : Int)
  /-- Measurements were registered twice. -/
  | registeredTwice
  | noEntry (name : String)
  | wrongSlot (name : String) (index : Nat) (slot : Int)
  deriving Repr, DecidableEq

/-- The wording of the reason. -/
def SetupError.message : SetupError → String
  | maxSteps n => "max steps must be positive, not " ++ toString n
  | registeredTwice => "duplicate metrics collector registration attempted"
  | noEntry name => "module " ++ name ++ " has no entry function"
  | wrongSlot name i slot =>
    "module " ++ name ++ ": function " ++ toString i ++ " has slot " ++ toString slot

/-- The first function that is not at its slot. -/
def misplaced? (routines : List Routine) : Option (Nat × Int) :=
  (routines.mapIdx fun i r => (i, r.slot)).find? fun (i, slot) => slot != i

/-- Sets up a machine for a module. -/
def Setup.make (name : String) (module : Module) (o : Options) : Except SetupError Setup :=
  if o.maxSteps ≤ 0 then .error (.maxSteps o.maxSteps)
  else if 1 < o.registrations then .error .registeredTwice
  else if module.functions.isEmpty then .error (.noEntry name)
  else
    match misplaced? module.functions.toList with
    | some (i, slot) => .error (.wrongSlot name i slot)
    | none =>
      .ok { name, module, maxSteps := o.maxSteps.toNat, trace := o.trace, cancelled := o.cancelled }

/-- Why a run failed. -/
inductive RunError where
  | stopped (s : Stop)
  /-- The output could not be delivered at the end. -/
  | flush
  deriving Repr, DecidableEq

/-- The whole text of an error. -/
def RunError.text : RunError → String
  | stopped (.error e) => e.text
  | stopped .canceled => "context canceled"
  | stopped (.crashed size) => "runtime error: " ++ (Trap.memorySize size).message
  | flush => "failed to flush output: disk full"

namespace Machine

/-- The machine at the start of a run. -/
def start (s : Setup) (m : Machine) : Machine :=
  let m := { m with memory := s.module.globals.map Global.word, frames := [], steps := 0 }
  match s.module.functions[0]? with
  | some r => m.enter r m.memory.size
  | none => m

/-- Takes steps until the run ends, at most a number of them. -/
def advance (s : Setup) : Nat → Machine → Machine × Option Stop
  | 0, m => (m, none)
  | n + 1, m =>
    match m.step s with
    | .next m => advance s n m
    | .halt m stop => (m, stop)

/-- Runs a machine. Every step but the last is counted against the limit, so that the run ends
within one step more than it allows. -/
def run (s : Setup) (m : Machine) : Machine × Option RunError :=
  let (m, stop) := advance s (s.maxSteps + 1) (m.start s)
  let m := { m with output := m.output.flush }
  match stop with
  | some stop => (m, some (.stopped stop))
  | none => (m, if m.output.failed then some .flush else none)

end Machine

end TinyC
