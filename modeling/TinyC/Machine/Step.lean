import TinyC.Machine.Call

/-!
# Steps of the machine

One step of a machine carries out one instruction: `Machine.execute` says what each of them does.
A run ends when the code of the entry function is at its end, when the entry function returns,
when the run is to be given up, and with the first instruction that cannot be carried out.
-/

namespace TinyC

/-- The order of two words as integers: -1, 0 or 1. -/
def compareIntegers (a b : UInt64) : UInt64 :=
  if a.toInt64 < b.toInt64 then -1 else if b.toInt64 < a.toInt64 then 1 else 0

/-- The order of two words as doubles: -1, 0 or 1; zero where they have no order. -/
def compareDoubles (a b : UInt64) : UInt64 :=
  if Float.ofBits a < Float.ofBits b then -1
  else if Float.ofBits b < Float.ofBits a then 1 else 0

/-- The word for a truth value. -/
def truthWord (b : Bool) : UInt64 :=
  if b then 1 else 0

/-- The operation of doubles on words. -/
@[inline] def onDoubles (op : Float → Float → Float) (a b : UInt64) : UInt64 :=
  (op (Float.ofBits a) (Float.ofBits b)).toBits

/-- The double nearest to an integer. -/
def doubleOfInteger (x : UInt64) : UInt64 :=
  x.toInt64.toFloat.toBits

/-- The operand names one of so many slots. -/
def Instr.names (i : Instr) (count : Int64) : Bool :=
  decide (0 ≤ i.operand) && decide (i.operand < count)

namespace Machine

/-- Moves on by an offset from the next instruction. -/
def jump (f : Frame) (offset : Int64) (m : Machine) : Effect :=
  let target := Int64.ofNat f.pc + offset
  if target < 0 ∨ f.routine.code.size < target.toUInt64.toNat then
    m.trapped (.branchTarget target)
  else (m.setFrame { f with pc := target.toUInt64.toNat }).done

/-- Calls the function that the operand names. -/
def callRoutine (s : Setup) (f : Frame) (i : Instr) (m : Machine) : Effect :=
  match if i.names (Int64.ofNat s.module.functions.size) then
      s.module.functions[i.operand.toUInt64.toNat]? else none with
  | none => m.trapped (.functionSlot i.operand)
  | some r =>
    let args := Int64.ofNat m.memory.size - r.argSlots
    if args < Int64.ofNat f.floor then m.trapped (.callUnderflow r.slot)
    else (m.enter r args.toNatClampNeg).done

/-- Returns from a function: memory ends behind the slots of the result. -/
def leave (f : Frame) (m : Machine) : Effect :=
  let size := Int64.ofNat f.args + Int64.ofNat f.routine.returns
  if size < 0 then m.trapped (.memorySize size)
  else { m with memory := m.memory.shrink size.toNatClampNeg, frames := m.frames.tail }.done

/-- Pushes the word at an address. -/
def load (addr : UInt64) (m : Machine) : Effect :=
  if h : addr.toNat < m.memory.size then (m.push m.memory[addr.toNat]).done
  else m.trapped (.address addr)

/-- Stores a word at an address. -/
def store (addr x : UInt64) (m : Machine) : Effect :=
  if addr.toNat < m.memory.size then
    { m with memory := m.memory.setIfInBounds addr.toNat x }.done
  else m.trapped (.address addr)

/-- Carries out an instruction in a frame, whose next instruction is already the one behind. -/
def execute (s : Setup) (f : Frame) (i : Instr) (m : Machine) : Effect :=
  match i.op with
  | .nop => m.done
  | .push => (m.push i.operand.toUInt64).done
  | .pop => m.withTop f fun _ m => m.done
  | .dup => m.withTop f fun x m => ((m.push x).push x).done
  | .globa =>
    if i.names (Int64.ofNat s.module.globals.size) then (m.push i.operand.toUInt64).done
    else m.trapped (.globalSlot i.operand)
  | .arga =>
    if i.names f.routine.argSlots then
      (m.push (f.args.toUInt64 + i.operand.toUInt64)).done
    else m.trapped (.argumentSlot i.operand)
  | .loca =>
    if i.names (Int64.ofNat f.routine.locals) then
      (m.push (f.locals.toUInt64 + i.operand.toUInt64)).done
    else m.trapped (.localSlot i.operand)
  | .load64 => m.withTop f load
  | .store64 => m.withTwo f store
  | .stackalloc => (m.reserve i.operand.toInt.toNat).done
  | .addi => m.binary f fun a b => a + b
  | .subi => m.binary f fun a b => a - b
  | .muli => m.binary f fun a b => a * b
  | .divi =>
    m.withTwo f fun a b m =>
      if b = 0 then m.trapped .divisionByZero
      else (m.push (a.toInt64 / b.toInt64).toUInt64).done
  | .addf => m.binary f (onDoubles fun a b => a + b)
  | .subf => m.binary f (onDoubles fun a b => a - b)
  | .mulf => m.binary f (onDoubles fun a b => a * b)
  | .divf => m.binary f (onDoubles fun a b => a / b)
  | .cmpi => m.binary f compareIntegers
  | .cmpf => m.binary f compareDoubles
  | .negi => m.unary f fun x => -x
  | .negf => m.unary f Number.Binary64.negate
  | .itof => m.unary f doubleOfInteger
  | .ftoi => m.unary f Number.Binary64.truncate
  | .setlt => m.unary f fun x => truthWord (x.toInt64 < 0)
  | .setgt => m.unary f fun x => truthWord (0 < x.toInt64)
  | .br => m.jump f i.operand
  | .brtrue => m.withTop f fun x m => if x = 0 then m.done else m.jump f i.operand
  | .brfalse => m.withTop f fun x m => if x = 0 then m.jump f i.operand else m.done
  | .call => m.callRoutine s f i
  | .ret => m.leave f
  | .callname => m.callBuiltin s f i.operand
  | .unlisted b => m.trapped (.invalidOpcode (.unlisted b))

end Machine

/-- Why a run ended before its time. -/
inductive Stop where
  | error (e : RuntimeError)
  /-- The run was given up. -/
  | canceled
  /-- The machine itself broke down: memory was to be cut to a negative size. -/
  | crashed (size : Int64)
  deriving Repr, DecidableEq

/-- Where a step leads: to the next one, or to the end of the run. -/
inductive Step where
  | next (m : Machine)
  | halt (m : Machine) (stop : Option Stop)

namespace Machine

/-- The error for a reason that arose in a frame. -/
def errorAt (f : Frame) (t : Trap) : RuntimeError :=
  ⟨f.routine.slot, (f.pc : Int) - 1,
    if f.pc = 0 then ⟨.nop, 0⟩ else (f.routine.code[f.pc - 1]?).getD ⟨.nop, 0⟩, t⟩

/-- Ends a run for a reason that arose in a frame. -/
def fail (s : Setup) (f : Frame) (t : Trap) (m : Machine) : Step :=
  match t with
  | .memorySize size => .halt m (some (.crashed size))
  | t =>
    .halt ((m.note (.detail .vm 1 (s.name ++ ": " ++ (errorAt f t).text))).note
      (.detail .vm 2 ("Dumping vm state\n" ++ s.module.listing))) (some (.error (errorAt f t)))

/-- The note on an instruction of a frame, with the stack before it. -/
def traceNote (s : Setup) (f : Frame) (i : Instr) (m : Machine) : Note :=
  let stack := (m.memory.toList.drop s.module.globals.size).map toString
  Note.info (s.name ++ ": fn " ++ toString f.routine.slot ++ " pc " ++ toString f.pc ++ " "
    ++ i.text ++ " stack [" ++ String.intercalate " " stack ++ "]")

/-- The number of steps after which a machine looks whether the run is to be given up. -/
def cancelPeriod : Nat := 4096

/-- Carries out the next instruction of a frame, behind which the others stand. -/
@[inline] def fetch (s : Setup) (f : Frame) (outer : List Frame) (i : Instr) (m : Machine) :
    Step :=
  let m := if s.trace then m.note (m.traceNote s f i) else m
  let f := { f with pc := f.pc + 1 }
  match { m with frames := f :: outer }.execute s f i with
  | (m, none) => .next m
  | (m, some t) => m.fail s f t

/-- Takes a step. -/
@[inline] def step (s : Setup) (m : Machine) : Step :=
  match m.frames with
  | [] => .halt m none
  | f :: outer =>
    match f.routine.code[f.pc]? with
    | none => if outer.isEmpty then .halt m none else m.fail s f .ranOff
    | some i =>
      let m := { m with steps := m.steps + 1 }
      if s.maxSteps < m.steps then m.fail s f (.stepLimit s.maxSteps)
      else if s.cancelled = true ∧ m.steps % cancelPeriod = 0 then .halt m (some .canceled)
      else m.fetch s f outer i

end Machine

end TinyC
