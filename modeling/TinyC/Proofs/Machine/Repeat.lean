import TinyC.Proofs.Machine.Windows

/-!
# Runs that follow one another

A machine that has run can run again. It begins with the globals of its module and with the entry
function, but what it has delivered and what it remembers of built-in functions are still there, and
the run before may have stopped in the middle of a call. Nothing of this has an influence: a machine
that has run before and a new one with the same input left are in step from the first instruction to
the last (`Follows`, `follows_step`, `follows_runUnder`). Their memos may differ, but both say what
the globals say; their outputs differ by what was delivered before.

Whether a run is to be given up is asked from time to time, and the answer may change. So runs are
taken under a `Context`, which says it for each number of steps; the runs of a setup, where it is
settled from the start, are among them (`runUnder_const`).

Memory that was given up may still hold its words behind the end of memory. They do not come back: a
return cuts memory to a size that it has (`ReturnsWithin`). This needs an entry function without
slots for a result, since nobody has made room for them.
-/

namespace TinyC

/-! ## Output behind earlier output -/

namespace Output

/-- The receiver takes everything, and nothing has been refused. -/
structure Open (o : Output) : Prop where
  limit : o.limit = none
  failed : o.failed = false

/-- The output of a receiver that has taken some bytes before. -/
def behind (d : Array UInt8) (o : Output) : Output :=
  { o with delivered := d ++ o.delivered }

/-- What is done to an open output does not depend on what has been delivered before. -/
def Blind (g : Output → Output) : Prop :=
  ∀ o : Output, o.Open → (g o).Open ∧ ∀ d, g (o.behind d) = (g o).behind d

section

variable {o : Output}

theorem Open.accepted (h : o.Open) (n : Nat) : o.accepted n = n := by
  simp [Output.accepted, h.limit]

theorem Open.behind (h : o.Open) (d : Array UInt8) : (o.behind d).Open :=
  ⟨h.limit, h.failed⟩

theorem Open.deliver (h : o.Open) (bs : Array UInt8) :
    o.deliver bs = { o with delivered := o.delivered ++ bs } := by
  simp [Output.deliver, h.accepted, h.failed]

theorem Open.flush (h : o.Open) :
    o.flush = { o with delivered := o.delivered ++ o.buffer, buffer := #[] } := by
  unfold Output.flush
  by_cases hempty : o.buffer.isEmpty = true
  · have hbuffer : o.buffer = #[] := by simpa using hempty
    rw [if_pos (by simp [hempty]), hbuffer, Array.append_empty, ← hbuffer]
  · rw [if_neg (by simp [h.failed, hempty]), h.deliver, h.accepted]
    simp

theorem blind_flush : Blind flush := by
  intro o h
  rw [h.flush]
  refine ⟨⟨h.limit, h.failed⟩, fun d => ?_⟩
  rw [(h.behind d).flush]
  simp [Output.behind, Array.append_assoc]

/-- A byte goes into the buffer, which is delivered first if it is full. -/
theorem Open.put (h : o.Open) (b : UInt8) :
    o.put b =
      if o.room = 0 then { o with delivered := o.delivered ++ o.buffer, buffer := #[b] }
      else { o with buffer := o.buffer.push b } := by
  unfold Output.put
  by_cases hfull : o.room = 0
  · simp [hfull, h.flush, h.failed]
  · simp [hfull, h.failed]

/-- Bytes go into the buffer, which is delivered as often as they fill it; more than a buffer is
delivered as it is. -/
theorem Open.write (h : o.Open) (bs : Array UInt8) :
    o.write bs =
      if bs.size ≤ o.room then { o with buffer := o.buffer ++ bs }
      else if o.buffer.isEmpty then { o with delivered := o.delivered ++ bs }
      else if (bs.extract o.room bs.size).size ≤ capacity then
        { o with
          delivered := o.delivered ++ (o.buffer ++ bs.extract 0 o.room)
          buffer := bs.extract o.room bs.size }
      else
        { o with
          delivered := o.delivered ++ (o.buffer ++ bs.extract 0 o.room) ++
            bs.extract o.room bs.size
          buffer := #[] } := by
  have hfilled : ({ o with buffer := o.buffer ++ bs.extract 0 o.room } : Output).Open :=
    ⟨h.limit, h.failed⟩
  have hflushed : ({ o with
      delivered := o.delivered ++ (o.buffer ++ bs.extract 0 o.room), buffer := #[] } :
      Output).Open := ⟨h.limit, h.failed⟩
  unfold Output.write
  rw [if_neg (by simp [h.failed])]
  split
  · rfl
  split
  · exact h.deliver bs
  dsimp only
  rw [hfilled.flush, if_neg (by simp [h.failed])]
  split
  · rw [Array.empty_append]
  · exact hflushed.deliver _

theorem blind_put (b : UInt8) : Blind fun o => o.put b := by
  intro o h
  refine ⟨?_, fun d => ?_⟩
  · dsimp only
    rw [h.put]
    split <;> exact ⟨h.limit, h.failed⟩
  · dsimp only
    rw [(h.behind d).put, h.put, show (o.behind d).room = o.room from rfl]
    split <;> simp [Output.behind, Array.append_assoc]

theorem blind_write (bs : Array UInt8) : Blind fun o => o.write bs := by
  intro o h
  refine ⟨?_, fun d => ?_⟩
  · dsimp only
    rw [h.write]
    (repeat' split) <;> exact ⟨h.limit, h.failed⟩
  · dsimp only
    rw [(h.behind d).write, h.write, show (o.behind d).room = o.room from rfl,
      show (o.behind d).buffer = o.buffer from rfl]
    (repeat' split) <;> simp [Output.behind, Array.append_assoc]

end

end Output

namespace Machine

/-! ## Machines in step -/

/-- A machine that has run before is in step with a new one: they are equal but for the notes and
the bytes that were there before, and for what they remember. -/
structure Follows (module : Module) (d : Array UInt8) (ns : List Note) (m y : Machine) : Prop where
  memory : m.memory = y.memory
  frames : m.frames = y.frames
  steps : m.steps = y.steps
  input : m.input = y.input
  output : m.output = y.output.behind d
  opened : y.output.Open
  notes : m.notes = y.notes ++ ns
  memo : m.memo.Sound module
  fresh : y.memo.Sound module

/-- Effects after which machines are in step. -/
def FollowsEffect (module : Module) (d : Array UInt8) (ns : List Note) (e r : Effect) : Prop :=
  Follows module d ns e.1 r.1 ∧ e.2 = r.2

/-- Steps after which machines are in step. -/
def FollowsStep (module : Module) (d : Array UInt8) (ns : List Note) : Step → Step → Prop
  | .next m, .next y => Follows module d ns m y
  | .halt m stop, .halt y stop' => Follows module d ns m y ∧ stop = stop'
  | _, _ => False

section

variable {s : Setup} {d : Array UInt8} {ns : List Note} {m y : Machine}

variable (h : Follows s.module d ns m y)
include h

/-- What the globals say is found, whatever is remembered. -/
theorem follows_resolve (slot : Int64) :
    (m.resolve s slot).1 = (y.resolve s slot).1 ∧
      Follows s.module d ns (m.resolve s slot).2 (y.resolve s slot).2 := by
  obtain ⟨memo, hm, hmemo⟩ := resolve_eq h.memo slot
  obtain ⟨memo', hy, hmemo'⟩ := resolve_eq h.fresh slot
  rw [hm, hy]
  exact ⟨rfl, h.memory, h.frames, h.steps, h.input, h.output, h.opened, h.notes, hmemo, hmemo'⟩

theorem follows_receive {α : Type} (b : Builtin) (scan : Scan α) (word : α → UInt64) :
    FollowsEffect s.module d ns (m.receive b scan word) (y.receive b scan word) := by
  unfold receive
  rw [h.input]
  split
  · refine ⟨⟨?_, h.frames, h.steps, rfl, h.output, h.opened, h.notes, h.memo, h.fresh⟩, rfl⟩
    simp only [answer, done, h.memory]
  · exact ⟨⟨h.memory, h.frames, h.steps, rfl, h.output, h.opened, h.notes, h.memo, h.fresh⟩, rfl⟩

theorem follows_send {write : Output → Output} (hwrite : Output.Blind write) :
    FollowsEffect s.module d ns (m.send write) (y.send write) := by
  obtain ⟨hopen, hbehind⟩ := hwrite _ h.opened
  have hm : (write m.output).failed = false := by
    rw [h.output, hbehind]
    exact (hopen.behind d).failed
  unfold send
  dsimp only
  rw [if_neg (by simp [hm]), if_neg (by simp [hopen.failed])]
  refine ⟨⟨h.memory, h.frames, h.steps, h.input, ?_, hopen, h.notes, h.memo, h.fresh⟩, rfl⟩
  simp only [done, h.output, hbehind]

theorem follows_perform (b : Builtin) (x : UInt64) :
    FollowsEffect s.module d ns (m.perform s b x) (y.perform s b x) := by
  cases b with
  | getint | getdouble | getchar => exact follows_receive h _ _ _
  | putint | putdouble =>
    simp only [perform]
    exact follows_send h (Output.blind_write _)
  | putchar | putln =>
    simp only [perform]
    exact follows_send h (Output.blind_put _)
  | putstr =>
    simp only [perform]
    split
    · exact follows_send h (Output.blind_write _)
    · exact ⟨h, rfl⟩

theorem follows_popArgument (b : Builtin) :
    (m.popArgument b).1 = (y.popArgument b).1 ∧
      Follows s.module d ns (m.popArgument b).2 (y.popArgument b).2 := by
  unfold popArgument
  split
  · exact ⟨rfl, h⟩
  · rw [h.memory]
    exact ⟨rfl, rfl, h.frames, h.steps, h.input, h.output, h.opened, h.notes, h.memo, h.fresh⟩

theorem follows_callBuiltin (f : Frame) (slot : Int64) :
    FollowsEffect s.module d ns (m.callBuiltin s f slot) (y.callBuiltin s f slot) := by
  obtain ⟨heq, hresolve⟩ := follows_resolve h slot
  unfold callBuiltin
  generalize m.resolve s slot = r at heq hresolve ⊢
  generalize y.resolve s slot = r' at heq hresolve ⊢
  obtain ⟨found, y'⟩ := r'
  obtain ⟨t | b, m'⟩ := r
  · cases heq
    exact ⟨hresolve, rfl⟩
  · cases heq
    dsimp only at hresolve ⊢
    rw [hresolve.memory]
    split
    · exact ⟨hresolve, rfl⟩
    · obtain ⟨hx, hpop⟩ := follows_popArgument hresolve b
      rw [hx]
      exact follows_perform hpop b _

/-- An instruction keeps machines in step. -/
theorem follows_execute (f : Frame) (i : Instr) :
    FollowsEffect s.module d ns (m.execute s f i) (y.execute s f i) := by
  by_cases hi : i.op = .callname
  · obtain ⟨op, operand⟩ := i
    cases hi
    exact follows_callBuiltin h f operand
  · have hm : m = y.within m := by
      rw [within, ← h.memory, ← h.frames]
    have hy : y.execute s f i = confine y (y.execute s f i) := execute_within s f hi y
    rw [hm, execute_within s f hi y, hy]
    exact ⟨⟨rfl, rfl, h.steps, h.input, h.output, h.opened, h.notes, h.memo, h.fresh⟩, rfl⟩

theorem follows_note (n : Note) : Follows s.module d ns (m.note n) (y.note n) :=
  ⟨h.memory, h.frames, h.steps, h.input, h.output, h.opened,
    congrArg (List.cons n) h.notes, h.memo, h.fresh⟩

theorem follows_fail (f : Frame) (t : Trap) :
    FollowsStep s.module d ns (m.fail s f t) (y.fail s f t) := by
  unfold fail
  split
  · exact ⟨h, rfl⟩
  · exact ⟨follows_note (follows_note h _) _, rfl⟩

theorem follows_fetch (f : Frame) (outer : List Frame) (i : Instr) :
    FollowsStep s.module d ns (m.fetch s f outer i) (y.fetch s f outer i) := by
  have hnoted : Follows s.module d ns (if s.trace then m.note (m.traceNote s f i) else m)
      (if s.trace then y.note (y.traceNote s f i) else y) := by
    have htrace : m.traceNote s f i = y.traceNote s f i := by
      unfold traceNote
      rw [h.memory]
    rw [htrace]
    split
    · exact follows_note h _
    · exact h
  unfold fetch
  dsimp only
  generalize (if s.trace then m.note (m.traceNote s f i) else m) = m' at hnoted ⊢
  generalize (if s.trace then y.note (y.traceNote s f i) else y) = y' at hnoted ⊢
  have hframed : Follows s.module d ns { m' with frames := f.next :: outer }
      { y' with frames := f.next :: outer } :=
    ⟨hnoted.memory, rfl, hnoted.steps, hnoted.input, hnoted.output, hnoted.opened, hnoted.notes,
      hnoted.memo, hnoted.fresh⟩
  obtain ⟨hexec, heq⟩ := follows_execute hframed f.next i
  unfold Frame.next at hexec heq
  generalize execute s _ i _ = e at hexec heq ⊢
  generalize execute s _ i _ = r at hexec heq ⊢
  obtain ⟨m₁, _ | t⟩ := e
  · obtain ⟨y₁, _ | _⟩ := r
    · exact hexec
    · cases heq
  · obtain ⟨y₁, _ | _⟩ := r
    · cases heq
    · cases heq
      exact follows_fail hexec _ t

/-- A step keeps machines in step. -/
theorem follows_step : FollowsStep s.module d ns (m.step s) (y.step s) := by
  unfold step
  rw [h.frames]
  split
  · exact ⟨h, rfl⟩
  · rename_i f outer _
    split
    · split
      · exact ⟨h, rfl⟩
      · exact follows_fail h f _
    · rename_i i _
      have hcounted : Follows s.module d ns { m with frames := y.frames, steps := y.steps + 1 }
          { y with steps := y.steps + 1 } :=
        ⟨h.memory, rfl, rfl, h.input, h.output, h.opened, h.notes, h.memo, h.fresh⟩
      dsimp only
      rw [h.steps]
      split
      · exact follows_fail hcounted f _
      · split
        · exact ⟨hcounted, rfl⟩
        · exact follows_fetch hcounted f outer i

end

/-! ## Runs under a context -/

/-- Whether a run is to be given up when it has taken so many steps. -/
abbrev Context := Nat → Bool

/-- Takes steps until the run ends, at most a number of them. -/
def advanceUnder (s : Setup) (c : Context) : Nat → Machine → Machine × Option Stop
  | 0, m => (m, none)
  | n + 1, m =>
    match m.step { s with cancelled := c (m.steps + 1) } with
    | .next m => advanceUnder s c n m
    | .halt m stop => (m, stop)

/-- Runs a machine under a context. -/
def runUnder (s : Setup) (c : Context) (m : Machine) : Machine × Option RunError :=
  let (m, stop) := advanceUnder s c (s.maxSteps + 1) (m.start s)
  let m := { m with output := m.output.flush }
  match stop with
  | some stop => (m, some (.stopped stop))
  | none => (m, if m.output.failed then some .flush else none)

/-- The machine after runs under contexts, one after the other. -/
def runs (s : Setup) (cs : List Context) (m : Machine) : Machine :=
  cs.foldl (fun m c => (m.runUnder s c).1) m

theorem advanceUnder_const (s : Setup) (n : Nat) (m : Machine) :
    advanceUnder s (fun _ => s.cancelled) n m = advance s n m := by
  induction n generalizing m with
  | zero => rfl
  | succ n ih =>
    unfold advanceUnder advance
    cases m.step s with
    | next m => exact ih m
    | halt m stop => rfl

/-- Where it is settled from the start whether a run is to be given up, it is a run of the setup. -/
theorem runUnder_const (s : Setup) (m : Machine) :
    m.runUnder s (fun _ => s.cancelled) = m.run s := by
  unfold runUnder
  rw [advanceUnder_const]
  rfl

section

variable {s : Setup} {d : Array UInt8} {ns : List Note} {m y : Machine}

/-- What a machine between two runs has to be like: the output has been delivered, and what it
remembers is true. -/
structure AtRest (module : Module) (m : Machine) : Prop where
  opened : m.output.Open
  buffer : m.output.buffer = #[]
  memo : m.memo.Sound module

theorem atRest_fresh (module : Module) (input : Input) : AtRest module { input } :=
  ⟨⟨rfl, rfl⟩, rfl, fun _ hrow => nomatch hrow⟩

/-- Machines are in step at the start, whatever memory, frames and steps are left. -/
theorem follows_start (h : AtRest s.module m) :
    Follows s.module m.output.delivered m.notes (m.start s)
      (start s { input := m.input }) := by
  have houtput : m.output = ({} : Output).behind m.output.delivered := by
    obtain ⟨⟨hlimit, hfailed⟩, hbuffer, -⟩ := h
    generalize m.output = o at hlimit hfailed hbuffer
    cases o
    dsimp only at hlimit hfailed hbuffer
    subst hlimit hfailed hbuffer
    simp [Output.behind]
  have hnil : ({} : Memo).Sound s.module := fun _ hrow => nomatch hrow
  unfold start
  dsimp only
  split
  · exact ⟨rfl, rfl, rfl, rfl, houtput, ⟨rfl, rfl⟩, rfl, h.memo, hnil⟩
  · exact ⟨rfl, rfl, rfl, rfl, houtput, ⟨rfl, rfl⟩, rfl, h.memo, hnil⟩

theorem follows_advanceUnder (c : Context) (n : Nat) (h : Follows s.module d ns m y) :
    Follows s.module d ns (advanceUnder s c n m).1 (advanceUnder s c n y).1 ∧
      (advanceUnder s c n m).2 = (advanceUnder s c n y).2 := by
  induction n generalizing m y with
  | zero => exact ⟨h, rfl⟩
  | succ n ih =>
    have hstep := follows_step (s := { s with cancelled := c (y.steps + 1) }) h
    unfold advanceUnder
    rw [h.steps]
    generalize m.step { s with cancelled := c (y.steps + 1) } = a at hstep ⊢
    generalize y.step { s with cancelled := c (y.steps + 1) } = b at hstep ⊢
    cases a with
    | next m' =>
      cases b with
      | next y' => exact ih hstep
      | halt y' stop => exact hstep.elim
    | halt m' stop =>
      cases b with
      | next y' => exact hstep.elim
      | halt y' stop' => exact hstep

/-- A machine that has run before and a new one end a run in step, and with the same outcome. -/
theorem follows_runUnder (h : AtRest s.module m) (c : Context) :
    Follows s.module m.output.delivered m.notes (m.runUnder s c).1
        (runUnder s c { input := m.input }).1 ∧
      (m.runUnder s c).2 = (runUnder s c { input := m.input }).2 ∧
      (m.runUnder s c).1.output.buffer = #[] := by
  obtain ⟨hend, hstop⟩ := follows_advanceUnder c (s.maxSteps + 1) (follows_start h)
  unfold runUnder
  generalize advanceUnder s c (s.maxSteps + 1) (m.start s) = a at hend hstop ⊢
  generalize advanceUnder s c (s.maxSteps + 1) (start s { input := m.input }) = b at hend hstop ⊢
  obtain ⟨m', stop⟩ := a
  obtain ⟨y', stop'⟩ := b
  cases hstop
  obtain ⟨hopen, hflush⟩ := Output.blind_flush _ hend.opened
  have houtput : m'.output.flush = y'.output.flush.behind m.output.delivered := by
    rw [hend.output, hflush]
  have hbuffer : m'.output.flush.buffer = #[] := by
    rw [houtput, hend.opened.flush]
    rfl
  have hfollows : Follows s.module m.output.delivered m.notes
      { m' with output := m'.output.flush } { y' with output := y'.output.flush } :=
    ⟨hend.memory, hend.frames, hend.steps, hend.input, houtput, hopen, hend.notes, hend.memo,
      hend.fresh⟩
  cases stop with
  | some stop => exact ⟨hfollows, rfl, hbuffer⟩
  | none =>
    refine ⟨hfollows, ?_, hbuffer⟩
    dsimp only
    rw [houtput]
    rfl

theorem atRest_runUnder (h : AtRest s.module m) (c : Context) :
    AtRest s.module (m.runUnder s c).1 := by
  obtain ⟨hfollows, -, hbuffer⟩ := follows_runUnder h c
  refine ⟨?_, hbuffer, hfollows.memo⟩
  rw [hfollows.output]
  exact hfollows.opened.behind _

/-- A machine is ready after any number of runs. -/
theorem atRest_runs (cs : List Context) (h : AtRest s.module m) :
    AtRest s.module (m.runs s cs) := by
  induction cs generalizing m with
  | nil => exact h
  | cons c cs ih => exact ih (atRest_runUnder h c)

end

end Machine

/-! ## Memory that was given up -/

/-- The slots for the result and the parameters of a function are counted by words. -/
def Routine.Counted (r : Routine) : Prop :=
  r.returns < 2 ^ 63 ∧ r.params < 2 ^ 63

instance (r : Routine) : Decidable r.Counted :=
  inferInstanceAs (Decidable (_ ∧ _))

/-- The size that a return from a frame cuts memory to. -/
def Frame.cut (f : Frame) : Int64 :=
  Int64.ofNat f.args + Int64.ofNat f.routine.returns

/-- A return from the frame finds all of the memory that it is to leave, or it breaks the machine
down. -/
def Frame.ReturnsWithin (f : Frame) (size : Nat) : Prop :=
  0 ≤ f.cut → f.cut.toNatClampNeg ≤ size

/-- Returns from frames, the innermost first, find what they are to leave, and they leave the local
variables of the caller. -/
def Nested : List Frame → Prop
  | [] => True
  | [f] => f.ReturnsWithin f.locals
  | f :: g :: outer => f.ReturnsWithin f.locals ∧ (0 ≤ f.cut → g.floor ≤ f.cut.toNatClampNeg) ∧
    Nested (g :: outer)

section

variable {f : Frame} {outer : List Frame}

theorem Nested.at (h : Nested (f :: outer)) (p : Nat) : Nested (f.at p :: outer) := by
  cases outer with
  | nil => exact h
  | cons g outer => exact h

theorem Nested.returnsWithin (h : Nested (f :: outer)) : f.ReturnsWithin f.locals := by
  cases outer with
  | nil => exact h
  | cons g outer => exact h.1

end

namespace Machine

section

variable {s : Setup} {f : Frame} {outer : List Frame} {m m₁ : Machine} {i : Instr}

/-- The frames of a machine are nested, and its memory does not end below the innermost one. -/
structure Cuttable (m : Machine) : Prop where
  nested : Nested m.frames
  floor : ∀ f outer, m.frames = f :: outer → f.floor ≤ m.memory.size

theorem cuttable_of_stays {e : Effect} (h : Nested (f :: outer)) (he : Stays f outer e) :
    Cuttable e.1 := by
  obtain ⟨p, hp⟩ := he.frames
  exact ⟨hp ▸ h.at p, he.floor_le⟩

/-- A call counts back from the end of memory. If there are not that many words, a return breaks the
machine down. -/
theorem cuttable_callRoutine (h : Nested (f :: outer)) (hm : Inside f outer m)
    (hlong : m.memory.size < 2 ^ 63) (hcounts : ∀ r ∈ s.module.functions, r.Counted) :
    Cuttable (m.callRoutine s f i).1 := by
  have hfloor := hm.floor
  obtain ⟨t, heq, ht⟩ | ⟨r, hr, args, hargs, hlt, heq⟩ := callRoutine_cases s f i m
  · rw [heq]
    exact cuttable_of_stays h (hm.stays_trapped ht)
  rw [heq]
  obtain ⟨hreturns, hparams⟩ := hcounts r hr
  rw [Int64.lt_iff_toInt_lt, Int64.toInt_ofNat_of_lt (by omega)] at hlt
  have hnonneg : 0 ≤ args := by
    rw [Int64.le_iff_toInt_le, Int64.toInt_zero]
    omega
  -- what a return leaves is memory at the call without the parameters
  have hcut : Frame.cut ⟨r, 0, args.toNatClampNeg, m.memory.size⟩ =
      Int64.ofNat m.memory.size - Int64.ofNat r.params := by
    rw [Frame.cut, Int64.ofNat_toNatClampNeg _ hnonneg, hargs, Routine.argSlots]
    grind
  have hsize := toInt_ofNat_sub hlong (Nat.le_of_lt hparams)
  have hclamp : 0 ≤ Frame.cut ⟨r, 0, args.toNatClampNeg, m.memory.size⟩ →
      r.params + f.floor ≤ m.memory.size ∧
      (Frame.cut ⟨r, 0, args.toNatClampNeg, m.memory.size⟩).toNatClampNeg =
        m.memory.size - r.params := by
    intro hpos
    rw [hcut, Int64.le_iff_toInt_le, hsize, Int64.toInt_zero] at hpos
    rw [hcut, Int64.toNatClampNeg, hsize]
    have hrest : args.toInt = (m.memory.size - r.params : Nat) - r.returns := by
      rw [← toInt_ofNat_sub (by omega) (Nat.le_of_lt hreturns), Int64.ofNat_sub _ _ (by omega),
        hargs, Routine.argSlots]
      congr 1
      grind
    omega
  refine ⟨?_, floor_enter m r _⟩
  simp only [enter, done, hm.frames]
  refine ⟨fun hpos => ?_, fun hpos => ?_, h⟩
  · rw [(hclamp hpos).2]
    exact Nat.sub_le _ _
  · rw [(hclamp hpos).2]
    have hle := (hclamp hpos).1
    omega

theorem cuttable_leave (h : Nested (f :: outer)) (hm : Inside f outer m) :
    Cuttable (m.leave f).1 := by
  have hfloor := hm.floor
  rw [Frame.floor] at hfloor
  unfold leave
  dsimp only
  by_cases hneg : Int64.ofNat f.args + Int64.ofNat f.routine.returns < 0
  · rw [if_pos hneg]
    exact cuttable_of_stays (e := m.done) h (stays_done (p := f.pc) hm.frames hm.floor)
  rw [if_neg hneg]
  have hpos : 0 ≤ f.cut := Int64.not_lt.mp hneg
  have hcut := h.returnsWithin hpos
  rw [hm.frames]
  cases outer with
  | nil => exact ⟨trivial, by simp [done]⟩
  | cons g outer =>
    refine ⟨h.2.2, fun g' rest hg => ?_⟩
    cases hg
    have hle := h.2.1 hpos
    change g.floor ≤ (m.memory.shrink f.cut.toNatClampNeg).size
    rw [Array.size_shrink]
    omega

theorem cuttable_execute (h : Nested (f :: outer)) (hm : Inside f outer m)
    (hlong : m.memory.size < 2 ^ 63) (hcounts : ∀ r ∈ s.module.functions, r.Counted) :
    Cuttable (m.execute s f i).1 := by
  by_cases hcall : i.op = .call
  · obtain ⟨op, operand⟩ := i
    cases hcall
    exact cuttable_callRoutine h hm hlong hcounts
  by_cases hret : i.op = .ret
  · obtain ⟨op, operand⟩ := i
    cases hret
    exact cuttable_leave h hm
  · exact cuttable_of_stays h (hm.stays_execute hcall hret)

theorem cuttable_step (h : Cuttable m) (hlong : m.memory.size < 2 ^ 63)
    (hcounts : ∀ r ∈ s.module.functions, r.Counted) (hstep : m.step s = .next m₁) :
    Cuttable m₁ := by
  obtain ⟨f, outer, i, y, hframes, -, hexec, hy⟩ := step_eq_next hstep
  have hnested := h.nested
  rw [hframes] at hnested
  have hcuttable := cuttable_execute (s := s) (i := i) (m := { m with frames := f.next :: outer })
    (hnested.at (f.pc + 1)) ⟨rfl, h.floor f outer hframes⟩ hlong hcounts
  change Cuttable (execute s f.next i _).1 at hcuttable
  rw [hexec] at hcuttable
  refine ⟨?_, ?_⟩
  · rw [hy.frames]
    exact hcuttable.nested
  · rw [hy.frames, hy.memory]
    exact hcuttable.floor

/-- The entry function begins where memory ends. -/
theorem cuttable_start (m : Machine) {entry : Routine}
    (hfirst : s.module.functions[0]? = some entry) (hentry : entry.returns = 0) :
    Cuttable (m.start s) := by
  refine ⟨?_, (framed_start m hfirst).floor⟩
  rw [frames_start m hfirst]
  intro hpos
  have hcut : Frame.cut ⟨entry, 0, s.module.globals.size, s.module.globals.size⟩ =
      Int64.ofNat s.module.globals.size := by
    rw [Frame.cut, ← Int64.ofNat_add, hentry, Nat.add_zero]
  rw [hcut, Int64.toNatClampNeg, ← Int64.ofInt_eq_ofNat, Int64.toInt_ofInt, Int.bmod_def]
  dsimp only
  have hmod : (s.module.globals.size : Int) % Int64.size ≤ s.module.globals.size :=
    Int.ofNat_le.mpr (Nat.mod_le _ _)
  have hwords : Int64.size = 2 ^ 64 := rfl
  split <;> omega

/-- Returns cut memory to a size that it has, in every state of a run. -/
theorem returnsWithin_passes {z : Machine} (hz : Passes s m z) (hm : Cuttable m)
    (hcounts : ∀ r ∈ s.module.functions, r.Counted) (hframes : z.frames = f :: outer) :
    f.ReturnsWithin z.memory.size := by
  have hcuttable : Cuttable z :=
    hz.induct hm fun _ _ _ hlong hx hstep => cuttable_step hx hlong hcounts hstep
  have hnested := hcuttable.nested
  have hfloor := hcuttable.floor f outer hframes
  rw [hframes] at hnested
  rw [Frame.floor] at hfloor
  intro hpos
  have hcut := hnested.returnsWithin hpos
  omega

end

/-! ## Repeated runs -/

/-- A run of a machine under a context is like that of a new machine with the same input: it has the
same outcome, delivers the same bytes behind those of earlier runs, leaves the same input unread and
the same notes, and nothing that was given up comes back into memory. -/
structure RunsAfresh (s : Setup) (c : Context) (m : Machine) : Prop where
  outcome : (m.runUnder s c).2 = (runUnder s c { input := m.input }).2
  delivered : (m.runUnder s c).1.output.delivered =
    m.output.delivered ++ (runUnder s c { input := m.input }).1.output.delivered
  buffer : (m.runUnder s c).1.output.buffer = #[]
  input : (m.runUnder s c).1.input = (runUnder s c { input := m.input }).1.input
  notes : (m.runUnder s c).1.notes = (runUnder s c { input := m.input }).1.notes ++ m.notes
  returns : ∀ z f outer, Passes { s with cancelled := false } (m.start s) z →
    z.frames = f :: outer → f.ReturnsWithin z.memory.size

end Machine

open Machine

/-- A module that doubles a global and writes it. -/
def doubling : Module :=
  ⟨Module.standardMagic, Module.standardVersion,
    #[⟨false, [0, 0, 0, 0, 0, 0, 0, 1]⟩, ⟨true, [112, 117, 116, 105, 110, 116]⟩],
    #[⟨0, 0, 0, 0, #[⟨.globa, 0⟩, ⟨.globa, 0⟩, ⟨.load64, 0⟩, ⟨.push, 2⟩, ⟨.muli, 0⟩, ⟨.store64, 0⟩,
      ⟨.globa, 0⟩, ⟨.load64, 0⟩, ⟨.callname, 1⟩]⟩]⟩

/-- A machine for it. -/
def doublingSetup : Setup :=
  ⟨"doubling", doubling, 100, false, false⟩

end TinyC
