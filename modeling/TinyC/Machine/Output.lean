/-!
# Output of the machine

What a running program writes is gathered in a buffer, which goes to the receiver when it is full
and at the end of a run. The receiver may take only so many bytes. If it does not take all that
it is given, the output has failed; from then on nothing more is delivered.
-/

namespace TinyC

/-- The output of a machine. -/
structure Output where
  /-- What the receiver takes in all; nothing stands for no limit. -/
  limit : Option Nat := none
  /-- What the receiver has taken. -/
  delivered : Array UInt8 := #[]
  /-- What waits to be delivered. -/
  buffer : Array UInt8 := #[]
  /-- The receiver has refused something. -/
  failed : Bool := false
  deriving Repr, DecidableEq

namespace Output

/-- The number of bytes that the buffer holds. -/
def capacity : Nat := 4096

/-- The number of bytes that the receiver still takes of `n`. -/
def accepted (o : Output) (n : Nat) : Nat :=
  match o.limit with
  | none => n
  | some l => min n (l - o.delivered.size)

/-- The room left in the buffer. -/
def room (o : Output) : Nat :=
  capacity - o.buffer.size

/-- Hands bytes to the receiver. -/
def deliver (o : Output) (bs : Array UInt8) : Output :=
  { o with
    delivered := o.delivered ++ bs.extract 0 (o.accepted bs.size)
    failed := o.accepted bs.size < bs.size }

/-- Delivers the buffer; what is refused stays in it. -/
def flush (o : Output) : Output :=
  if o.failed || o.buffer.isEmpty then o
  else { o.deliver o.buffer with
    buffer := o.buffer.extract (o.accepted o.buffer.size) o.buffer.size }

/-- Writes a byte. -/
def put (o : Output) (b : UInt8) : Output :=
  let o := if o.room = 0 then o.flush else o
  if o.failed then o else { o with buffer := o.buffer.push b }

/-- Writes bytes. The buffer is filled before it is delivered, but what is longer than an empty
buffer is delivered as it is. -/
def write (o : Output) (bs : Array UInt8) : Output :=
  if o.failed then o
  else if bs.size ≤ o.room then { o with buffer := o.buffer ++ bs }
  else if o.buffer.isEmpty then o.deliver bs
  else
    let full := { o with buffer := o.buffer ++ bs.extract 0 o.room }.flush
    let rest := bs.extract o.room bs.size
    if full.failed then full
    else if rest.size ≤ capacity then { full with buffer := full.buffer ++ rest }
    else full.deliver rest

end Output

end TinyC
