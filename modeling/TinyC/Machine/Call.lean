import TinyC.Machine.State

/-!
# Calls of built-in functions

A built-in function is called by the slot of a global that holds its name. Its arguments are
popped, and its result goes into the slot that the caller left for it below them.
-/

namespace TinyC.Machine

/-- The built-in function that the global at a slot names. -/
def builtinAt (module : Module) (slot : Int64) : Except Trap Builtin :=
  if slot.toInt < 0 ∨ module.globals.size ≤ slot.toInt.toNat then .error (.globalSlot slot)
  else
    let data := (module.globals[slot.toInt.toNat]?.map Global.data).getD []
    match Builtin.ofBytes? data with
    | some b => .ok b
    | none => .error (.unknownBuiltin data)

/-- The built-in function for a slot, by the memo or else by the global; it is remembered. -/
def resolve (s : Setup) (slot : Int64) (m : Machine) : Except Trap Builtin × Machine :=
  match m.memo.find? slot with
  | some b => (.ok b, { m with memo := m.memo.remember slot b })
  | none =>
    match builtinAt s.module slot with
    | .ok b => (.ok b, { m with memo := m.memo.remember slot b })
    | .error t => (.error t, m)

/-- Puts the result of a call into its slot. -/
def answer (m : Machine) (x : UInt64) : Effect :=
  { m with memory := m.memory.pop.push x }.done

/-- Reads from the input and answers with what was read. -/
def receive {α : Type} (m : Machine) (b : Builtin) (scan : Scan α) (word : α → UInt64) : Effect :=
  match scan.run.run m.input with
  | (.ok a, input) => { m with input }.answer (word a)
  | (.error e, input) => { m with input }.trapped (.input b e)

/-- Pops the argument and writes to the output. -/
def send (m : Machine) (write : Output → Output) : Effect :=
  let output := write m.output
  if output.failed then { m with output }.trapped .output else { m with output }.done

/-- The word for a byte of the input; minus one stands for the end. -/
def charWord : Option UInt8 → UInt64
  | some b => b.toUInt64
  | none => -1

/-- The bytes of a text. -/
def textBytes (s : String) : Array UInt8 :=
  s.toUTF8.data

/-- Carries out a built-in function; `x` is its argument, which has been popped. -/
def perform (s : Setup) (b : Builtin) (x : UInt64) (m : Machine) : Effect :=
  match b with
  | .getint => m.receive b Input.readInteger Int64.toUInt64
  | .getdouble => m.receive b Input.readReal id
  | .getchar => m.receive b Input.readByte charWord
  | .putint => m.send (·.write (textBytes (toString x.toInt64)))
  | .putdouble => m.send (·.write (textBytes (Number.generalText x)))
  | .putchar => m.send (·.put x.toUInt8)
  | .putstr =>
    match s.module.globals[x.toNat]? with
    | some g => m.send (·.write g.data.toArray)
    | none => m.trapped (.textSlot x)
  | .putln => m.send (·.put 10)

/-- Pops the argument of a built-in function, if it has one. -/
def popArgument (b : Builtin) (m : Machine) : UInt64 × Machine :=
  if b.paramTypes.isEmpty then (0, m)
  else (m.memory.back?.getD 0, { m with memory := m.memory.pop })

/-- Calls the built-in function that the global at a slot names. -/
def callBuiltin (s : Setup) (f : Frame) (slot : Int64) (m : Machine) : Effect :=
  match m.resolve s slot with
  | (.error t, m) => m.trapped t
  | (.ok b, m) =>
    if m.memory.size < f.floor + b.paramTypes.length + b.result.slots then
      m.trapped (.builtinUnderflow
        ((s.module.globals[slot.toInt.toNat]?.map Global.data).getD []))
    else
      let (x, m) := m.popArgument b
      m.perform s b x

end TinyC.Machine
