import TinyC.Proofs.Machine.Repeat

/-!
# What becomes of the output

Between a program that writes and the receiver of its output stands a buffer, which is passed by in
some cases and emptied at odd places of the stream. This module shows that nothing of it is to be
seen from outside. An `Output` *accounts* for the bytes it was asked to take: those the receiver has
are the first of them, and the others wait in the buffer unless the receiver has refused some
(`Output.Accounts`, with one lemma for each way of writing). What the machine asks for is said
without the buffer: `Machine.asks` reads it off the instruction at hand, and `Machine.asked` adds it
up along a run.

Once something has been refused the output is settled: no step and no later run changes it, and all
of them end in an error (`silent_of_failed`).
-/

namespace TinyC

/-! ## Bytes on their way -/

namespace Output

/-- The output accounts for the bytes that it was asked to take, in this order. -/
structure Accounts (o : Output) (bs : List UInt8) : Prop where
  inOrder : o.delivered.toList <+: bs
  within : ∀ l, o.limit = some l → o.delivered.size ≤ l
  /-- As long as nothing has been refused, what is not delivered waits. -/
  waiting : o.failed = false → o.delivered.toList ++ o.buffer.toList = bs
  /-- Something is refused only when the receiver is full. -/
  refused : o.failed = true → o.limit = some o.delivered.size ∧ o.delivered.size < bs.length

section

variable {o : Output} {bs : List UInt8}

theorem Accounts.new (limit : Option Nat) : Accounts { limit } [] :=
  ⟨List.nil_prefix, fun _ _ => Nat.zero_le _, fun _ => rfl, nofun⟩

/-- An output that has refused something need not look at more. -/
theorem Accounts.more (h : o.Accounts bs) (hfailed : o.failed = true) (cs : List UInt8) :
    o.Accounts (bs ++ cs) where
  inOrder := h.inOrder.trans (List.prefix_append bs cs)
  within := h.within
  waiting hok := by rw [hok] at hfailed; cases hfailed
  refused _ := by
    have hlt := (h.refused hfailed).2
    refine ⟨(h.refused hfailed).1, ?_⟩
    rw [List.length_append]
    omega

/-- The receiver takes all that it is given, or it takes what fits and is full. -/
theorem deliver_cases (hw : ∀ l, o.limit = some l → o.delivered.size ≤ l) (cs : Array UInt8) :
    (o.accepted cs.size = cs.size ∧
        o.deliver cs = { o with delivered := o.delivered ++ cs, failed := false }) ∨
      ∃ k, k < cs.size ∧ o.accepted cs.size = k ∧ o.limit = some (o.delivered.size + k) ∧
        o.deliver cs = { o with delivered := o.delivered ++ cs.extract 0 k, failed := true } := by
  by_cases hall : o.accepted cs.size < cs.size
  · refine .inr ⟨o.accepted cs.size, hall, rfl, ?_, by simp [deliver, hall]⟩
    unfold accepted at hall ⊢
    cases hl : o.limit with
    | none =>
      rw [hl] at hall
      exact absurd hall (Nat.lt_irrefl _)
    | some l =>
      rw [hl] at hall
      have hle := hw l hl
      dsimp only at hall ⊢
      congr 1
      omega
  · have hsize : o.accepted cs.size = cs.size := by
      have hle : o.accepted cs.size ≤ cs.size := by
        unfold accepted
        split
        · exact Nat.le_refl _
        · exact Nat.min_le_left _ _
      omega
    exact .inl ⟨hsize, by simp [deliver, hsize]⟩

/-- Bytes are handed to the receiver; if it takes all of them, nothing is left to wait. -/
theorem accounts_deliver {cs r : Array UInt8} (hw : ∀ l, o.limit = some l → o.delivered.size ≤ l)
    (hall : o.delivered.toList ++ cs.toList = bs) (hrest : o.accepted cs.size = cs.size → r = #[]) :
    ({ o.deliver cs with buffer := r } : Output).Accounts bs := by
  obtain ⟨hsize, heq⟩ | ⟨k, hk, -, hlimit, heq⟩ := deliver_cases hw cs
  · rw [heq, hrest hsize]
    refine ⟨?_, fun l hl => ?_, fun _ => ?_, by simp⟩
    · simp [hall]
    · have hle : o.accepted cs.size ≤ l - o.delivered.size := by
        rw [accepted, show o.limit = some l from hl]
        exact Nat.min_le_right _ _
      have hin := hw l hl
      simp only [Array.size_append]
      omega
    · simp [hall]
  · rw [heq]
    have hsize : (o.delivered ++ cs.extract 0 k).size = o.delivered.size + k := by
      rw [Array.size_append, Array.size_extract]
      omega
    refine ⟨?_, fun l hl => ?_, by simp, fun _ => ⟨?_, ?_⟩⟩
    · simp only [Array.toList_append, Array.toList_extract, List.extract_eq_take_drop, ← hall]
      exact (List.prefix_append_right_inj _).mpr (List.take_prefix _ _)
    · rw [show o.limit = some l from hl] at hlimit
      cases hlimit
      exact Nat.le_of_eq hsize
    · dsimp only
      rw [hsize]
      exact hlimit
    · dsimp only
      rw [hsize, ← hall, List.length_append, Array.length_toList, Array.length_toList]
      omega

/-- Bytes that pass an empty buffer by. -/
theorem Accounts.deliver (h : o.Accounts bs) (hok : o.failed = false) (hempty : o.buffer = #[])
    (cs : Array UInt8) : (o.deliver cs).Accounts (bs ++ cs.toList) :=
  accounts_deliver (r := o.buffer) h.within (by simp [← h.waiting hok, hempty]) fun _ => hempty

/-- Bytes that go into the buffer. -/
theorem Accounts.buffered (h : o.Accounts bs) (hok : o.failed = false) (cs : Array UInt8) :
    ({ o with buffer := o.buffer ++ cs } : Output).Accounts (bs ++ cs.toList) where
  inOrder := h.inOrder.trans (List.prefix_append bs _)
  within := h.within
  waiting _ := by simp [← h.waiting hok]
  refused hfailed := by
    rw [show o.failed = true from hfailed] at hok
    cases hok

/-- Emptying the buffer asks for nothing new. -/
theorem Accounts.flush (h : o.Accounts bs) : o.flush.Accounts bs := by
  unfold Output.flush
  split
  · exact h
  · rename_i hsome
    simp only [Bool.or_eq_true, not_or, Bool.not_eq_true] at hsome
    exact accounts_deliver h.within (h.waiting hsome.1) fun hsize => by simp [hsize]

/-- A buffer that could be emptied is empty. -/
theorem buffer_flush (h : o.flush.failed = false) : o.flush.buffer = #[] := by
  unfold Output.flush at h ⊢
  split
  · rename_i hnone
    rw [if_pos hnone] at h
    rw [h] at hnone
    simpa using hnone
  · rename_i hsome
    rw [if_neg hsome] at h
    have hall : ¬o.accepted o.buffer.size < o.buffer.size := by
      simpa [Output.deliver] using h
    simp only [Array.extract_eq_empty_iff]
    omega

/-- A byte is written. -/
theorem Accounts.put (h : o.Accounts bs) (b : UInt8) : (o.put b).Accounts (bs ++ [b]) := by
  unfold Output.put
  dsimp only
  have hemptied : (if o.room = 0 then o.flush else o).Accounts bs := by
    split
    · exact h.flush
    · exact h
  generalize (if o.room = 0 then o.flush else o) = o' at hemptied ⊢
  split
  · rename_i hfailed
    exact hemptied.more hfailed [b]
  · rename_i hok
    simpa using hemptied.buffered (by simpa using hok) #[b]

/-- Bytes are written: they fit into the buffer, or they pass it by, or they fill it, and the rest
of them finds it empty. -/
theorem Accounts.write (h : o.Accounts bs) (cs : Array UInt8) :
    (o.write cs).Accounts (bs ++ cs.toList) := by
  unfold Output.write
  split
  · rename_i hfailed
    exact h.more hfailed _
  rename_i hok
  rw [Bool.not_eq_true] at hok
  split
  · exact h.buffered hok cs
  split
  · rename_i hempty
    exact h.deliver hok (by simpa using hempty) cs
  dsimp only
  have hfull := (h.buffered hok (cs.extract 0 o.room)).flush
  have hbuffer := buffer_flush (o := { o with buffer := o.buffer ++ cs.extract 0 o.room })
  generalize ({ o with buffer := o.buffer ++ cs.extract 0 o.room } : Output).flush = full
    at hfull hbuffer ⊢
  have hparts : cs.extract 0 o.room ++ cs.extract o.room cs.size = cs := by
    rw [Array.extract_append_extract, Nat.zero_min, Nat.max_eq_right (by omega)]
    exact Array.extract_size
  rw [← congrArg Array.toList hparts, Array.toList_append, ← List.append_assoc]
  split
  · rename_i hfailed
    exact hfull.more hfailed _
  rename_i hfine
  rw [Bool.not_eq_true] at hfine
  split
  · exact hfull.buffered hfine _
  · exact hfull.deliver hfine (hbuffer hfine) _

end

/-! ## Accounts that every way of writing keeps -/

/-- What is said of an output and the bytes that it was asked to take stays true when more is
written and when the buffer is emptied. -/
structure Ledger (P : List UInt8 → Output → Prop) : Prop where
  put : ∀ {w o}, P w o → ∀ b, P (w ++ [b]) (o.put b)
  write : ∀ {w o}, P w o → ∀ cs : Array UInt8, P (w ++ cs.toList) (o.write cs)
  flush : ∀ {w o}, P w o → P w o.flush

theorem ledger_accounts : Ledger fun w o => o.Accounts w :=
  ⟨Accounts.put, Accounts.write, Accounts.flush⟩

theorem limit_flush (o : Output) : o.flush.limit = o.limit := by
  unfold flush
  split <;> rfl

theorem limit_put (o : Output) (b : UInt8) : (o.put b).limit = o.limit := by
  unfold put
  dsimp only
  split <;> split <;> simp [limit_flush]

theorem limit_write (o : Output) (cs : Array UInt8) : (o.write cs).limit = o.limit := by
  unfold write
  dsimp only
  (repeat' split) <;> simp [limit_flush, deliver]

/-- The receiver stays the same. -/
theorem ledger_limit (limit : Option Nat) : Ledger fun _ o => o.limit = limit :=
  ⟨fun h b => (limit_put _ b).trans h, fun h cs => (limit_write _ cs).trans h,
    fun h => (limit_flush _).trans h⟩

/-- An output that has refused something does not change any more. -/
theorem ledger_settled {o : Output} (h : o.failed = true) : Ledger fun _ o' => o' = o := by
  refine ⟨?_, ?_, ?_⟩
  · rintro _ _ rfl b
    simp [Output.put, Output.flush, h]
  · rintro _ _ rfl cs
    simp [Output.write, h]
  · rintro _ _ rfl
    simp [Output.flush, h]

end Output

open Output (Ledger)

namespace Machine

/-! ## What a machine asks for -/

/-- The bytes that a call of a built-in function asks to be written; `x` is the word on top of the
stack. -/
def wording (module : Module) (x : UInt64) : Builtin → List UInt8
  | .putint => (textBytes (toString x.toInt64)).toList
  | .putdouble => (textBytes (Number.generalText x)).toList
  | .putchar => [x.toUInt8]
  | .putstr => (module.globals[x.toNat]?.map Global.data).getD []
  | .putln => [10]
  | .getint | .getdouble | .getchar => []

/-- The bytes that an instruction of a frame asks to be written. A call that finds too few operands
is not made. -/
def requested (module : Module) (f : Frame) (i : Instr) (m : Machine) : List UInt8 :=
  match i.op, builtinAt module i.operand with
  | .callname, .ok b =>
    if m.memory.size < f.floor + b.paramTypes.length + b.result.slots then []
    else wording module (m.memory.back?.getD 0) b
  | _, _ => []

/-- The bytes that the next step asks to be written. A step that cuts the run short carries out no
instruction. -/
def asks (s : Setup) (m : Machine) : List UInt8 :=
  match m.frames with
  | [] => []
  | f :: _ =>
    match f.routine.code[f.pc]? with
    | none => []
    | some i =>
      if s.maxSteps < m.steps + 1 ∨ (s.cancelled = true ∧ (m.steps + 1) % cancelPeriod = 0) then []
      else m.requested s.module f i

/-- The bytes that a run asks to be written in its first steps, in this order. -/
def asked (s : Setup) (c : Context) : Nat → Machine → List UInt8
  | 0, _ => []
  | n + 1, m =>
    m.asks { s with cancelled := c (m.steps + 1) } ++
      match m.step { s with cancelled := c (m.steps + 1) } with
      | .next m => asked s c n m
      | .halt _ _ => []

/-- The bytes that runs ask to be written, one run after the other. -/
def askedByRuns (s : Setup) : List Context → Machine → List UInt8
  | [], _ => []
  | c :: cs, m =>
    asked s c (s.maxSteps + 1) (m.start s) ++ askedByRuns s cs (m.runUnder s c).1

section

variable {s : Setup} {f : Frame} {m : Machine} {w : List UInt8}
  {P : List UInt8 → Output → Prop} {c : Context} {n : Nat}

theorem ledger_send {write : Output → Output} (h : P w (write m.output)) :
    P w (m.send write).1.output := by
  unfold send
  dsimp only
  split <;> exact h

theorem output_receive {α : Type} (b : Builtin) (scan : Scan α) (word : α → UInt64) (m : Machine) :
    (m.receive b scan word).1.output = m.output := by
  unfold receive
  split <;> rfl

/-- A built-in function writes what it is asked to write. -/
theorem ledger_perform (hP : Ledger P) (h : P w m.output) (b : Builtin) (x : UInt64) :
    P (w ++ wording s.module x b) (m.perform s b x).1.output := by
  cases b with
  | getint | getdouble | getchar =>
    rw [wording, List.append_nil, perform, output_receive]
    exact h
  | putint | putdouble => exact ledger_send (hP.write h _)
  | putchar | putln => exact ledger_send (hP.put h _)
  | putstr =>
    unfold perform wording
    dsimp only
    split
    · rename_i g hg
      rw [hg]
      exact ledger_send (by simpa using hP.write h g.data.toArray)
    · rename_i hg
      rw [hg, Option.map_none, Option.getD_none, List.append_nil]
      exact h

/-- What is on top of the stack is the argument, if there is one. -/
theorem wording_popArgument (module : Module) (b : Builtin) (m : Machine) :
    wording module (m.popArgument b).1 b = wording module (m.memory.back?.getD 0) b := by
  cases b <;> rfl

theorem output_popArgument (b : Builtin) (m : Machine) : (m.popArgument b).2.output = m.output := by
  unfold popArgument
  split <;> rfl

theorem ledger_callBuiltin (hP : Ledger P) (h : P w m.output) (hm : m.memo.Sound s.module)
    {i : Instr} (hi : i.op = .callname) :
    P (w ++ m.requested s.module f i) (m.callBuiltin s f i.operand).1.output := by
  obtain ⟨memo, hresolve, -⟩ := resolve_eq hm i.operand
  unfold callBuiltin requested
  rw [hi, hresolve]
  cases builtinAt s.module i.operand with
  | error t =>
    dsimp only
    rw [List.append_nil]
    exact h
  | ok b =>
    dsimp only
    split
    · rw [List.append_nil]
      exact h
    · rw [← wording_popArgument s.module b { m with memo }]
      refine ledger_perform hP ?_ b _
      rw [output_popArgument]
      exact h

/-- Only calls of built-in functions write. -/
theorem output_execute {i : Instr} (hi : i.op ≠ .callname) :
    (m.execute s f i).1.output = m.output :=
  congrArg (fun e : Effect => e.1.output) (execute_within (e := m) s f hi m)

theorem ledger_execute (hP : Ledger P) (h : P w m.output) (hm : m.memo.Sound s.module)
    (i : Instr) : P (w ++ m.requested s.module f i) (m.execute s f i).1.output := by
  by_cases hi : i.op = .callname
  · have hexec : m.execute s f i = m.callBuiltin s f i.operand := by rw [execute, hi]
    rw [hexec]
    exact ledger_callBuiltin hP h hm hi
  · have hnone : m.requested s.module f i = [] := by
      unfold requested
      split
      · contradiction
      · rfl
    rw [output_execute hi, hnone, List.append_nil]
    exact h

/-- A step writes what it asks for, and nothing else. -/
theorem ledger_step (hP : Ledger P) (h : P w m.output) (hm : m.memo.Sound s.module) :
    P (w ++ m.asks s) (after (m.step s)).output := by
  have hstepped := stepped s m
  generalize m.step s = r at hstepped ⊢
  cases hstepped with
  | ended hnone hlike =>
    have hasks : m.asks s = [] := by
      unfold asks
      split
      · rfl
      · rename_i f outer hframes
        rw [hnone f outer hframes]
    rw [hasks, List.append_nil]
    exact hlike.output ▸ h
  | cut hframes hcode hcuts hlike =>
    have hasks : m.asks s = [] := by
      simp only [asks, hframes, hcode]
      exact if_pos hcuts
    rw [hasks, List.append_nil]
    exact hlike.output ▸ h
  | @next f outer i _ _ hframes hcode hroom hexec hlike
  | @fails f outer i _ _ _ hframes hcode hroom hexec hlike =>
    have hasks : m.asks s = m.requested s.module f i := by
      simp only [asks, hframes, hcode]
      exact if_neg hroom
    have hledger := ledger_execute (s := s) (f := f.next)
      (m := { m with frames := f.next :: outer }) hP h hm i
    rw [hexec] at hledger
    rw [hasks]
    exact hlike.output ▸ hledger

/-! ## Runs -/

theorem sound_advanceUnder (c : Context) (n : Nat) (hm : m.memo.Sound s.module) :
    (advanceUnder s c n m).1.memo.Sound s.module := by
  induction n generalizing m with
  | zero => exact hm
  | succ n ih =>
    have hsound := sound_step (s := { s with cancelled := c (m.steps + 1) }) hm
    unfold advanceUnder
    generalize m.step { s with cancelled := c (m.steps + 1) } = r at hsound ⊢
    cases r with
    | next m₁ => exact ih hsound
    | halt m₁ stop => exact hsound

/-- A run writes what it asks for, at every moment of it. -/
theorem ledger_advanceUnder (hP : Ledger P) (c : Context) (n : Nat) (h : P w m.output)
    (hm : m.memo.Sound s.module) : P (w ++ asked s c n m) (advanceUnder s c n m).1.output := by
  induction n generalizing m w with
  | zero =>
    rw [asked, List.append_nil]
    exact h
  | succ n ih =>
    have hstep := ledger_step (s := { s with cancelled := c (m.steps + 1) }) hP h hm
    have hsound := sound_step (s := { s with cancelled := c (m.steps + 1) }) hm
    unfold asked advanceUnder
    generalize m.step { s with cancelled := c (m.steps + 1) } = r at hstep hsound ⊢
    cases r with
    | next m₁ =>
      rw [← List.append_assoc]
      exact ih hstep hsound
    | halt m₁ stop =>
      rw [List.append_nil]
      exact hstep

/-- The machine after the first steps of its next run. -/
def during (s : Setup) (c : Context) (n : Nat) (m : Machine) : Machine :=
  (advanceUnder s c n (m.start s)).1

theorem ledger_during (hP : Ledger P) (c : Context) (n : Nat) (h : P w m.output)
    (hm : m.memo.Sound s.module) : P (w ++ asked s c n (m.start s)) (m.during s c n).output := by
  refine ledger_advanceUnder hP c n ?_ ?_
  · rw [output_start]
    exact h
  · rw [memo_start]
    exact hm

/-- At the end of a run the buffer is emptied. -/
theorem runUnder_eq (s : Setup) (c : Context) (m : Machine) :
    (m.runUnder s c).1 =
      { m.during s c (s.maxSteps + 1) with
        output := (m.during s c (s.maxSteps + 1)).output.flush } := by
  unfold runUnder during
  generalize advanceUnder s c (s.maxSteps + 1) (m.start s) = e
  obtain ⟨y, _ | stop⟩ := e <;> rfl

theorem sound_runUnder (c : Context) (hm : m.memo.Sound s.module) :
    (m.runUnder s c).1.memo.Sound s.module := by
  rw [runUnder_eq]
  refine sound_advanceUnder c _ ?_
  rw [memo_start]
  exact hm

theorem sound_runs (cs : List Context) (hm : m.memo.Sound s.module) :
    (m.runs s cs).memo.Sound s.module := by
  induction cs generalizing m with
  | nil => exact hm
  | cons c cs ih => exact ih (sound_runUnder c hm)

theorem ledger_runUnder (hP : Ledger P) (c : Context) (h : P w m.output)
    (hm : m.memo.Sound s.module) :
    P (w ++ asked s c (s.maxSteps + 1) (m.start s)) (m.runUnder s c).1.output := by
  rw [runUnder_eq]
  exact hP.flush (ledger_during hP c (s.maxSteps + 1) h hm)

/-- Runs write what they ask for, one after the other. -/
theorem ledger_runs (hP : Ledger P) (cs : List Context) (h : P w m.output)
    (hm : m.memo.Sound s.module) : P (w ++ askedByRuns s cs m) (m.runs s cs).output := by
  induction cs generalizing m w with
  | nil =>
    rw [askedByRuns, List.append_nil]
    exact h
  | cons c cs ih =>
    rw [askedByRuns, ← List.append_assoc]
    exact ih (ledger_runUnder hP c h hm) (sound_runUnder c hm)

theorem askedByRuns_append (cs : List Context) (c : Context) (m : Machine) :
    askedByRuns s (cs ++ [c]) m =
      askedByRuns s cs m ++ asked s c (s.maxSteps + 1) ((m.runs s cs).start s) := by
  induction cs generalizing m with
  | nil => simp [askedByRuns, runs]
  | cons c' cs ih =>
    rw [List.cons_append, askedByRuns, ih, askedByRuns, List.append_assoc]
    rfl

theorem runs_append (cs : List Context) (c : Context) (m : Machine) :
    m.runs s (cs ++ [c]) = ((m.runs s cs).runUnder s c).1 := by
  simp [runs, List.foldl_append]

/-- A run that leaves something refused has failed. -/
theorem runUnder_failed (h : (m.runUnder s c).1.output.failed = true) :
    (m.runUnder s c).2 ≠ none := by
  unfold runUnder at h ⊢
  generalize advanceUnder s c (s.maxSteps + 1) (m.start s) = e at h ⊢
  obtain ⟨y, _ | stop⟩ := e
  · dsimp only at h ⊢
    rw [if_pos h]
    exact Option.some_ne_none _
  · exact Option.some_ne_none _

/-! ## Once something has been refused -/

/-- What has been refused at some moment of a run stays so. -/
theorem settled_advanceUnder {n k : Nat} (hle : n ≤ k) (hm : m.memo.Sound s.module)
    (h : (advanceUnder s c n m).1.output.failed = true) :
    (advanceUnder s c k m).1.output = (advanceUnder s c n m).1.output := by
  induction n generalizing m k with
  | zero => exact ledger_advanceUnder (w := []) (Output.ledger_settled h) c k rfl hm
  | succ n ih =>
    obtain ⟨k, rfl⟩ : ∃ j, k = j + 1 := ⟨k - 1, by omega⟩
    have hsound := sound_step (s := { s with cancelled := c (m.steps + 1) }) hm
    unfold advanceUnder at h ⊢
    generalize m.step { s with cancelled := c (m.steps + 1) } = r at h hsound ⊢
    cases r with
    | next m₁ => exact ih (by omega) hsound h
    | halt m₁ stop => rfl

/-- A run is over when it has taken one step more than it may. -/
theorem advanceUnder_over (h : s.maxSteps < m.steps + (n + 1)) (k : Nat) :
    advanceUnder s c (n + 1 + k) m = advanceUnder s c (n + 1) m := by
  induction n generalizing m with
  | zero =>
    rw [Nat.add_comm]
    unfold advanceUnder
    cases hstep : m.step { s with cancelled := c (m.steps + 1) } with
    | halt m₁ stop => rfl
    | next m₁ => exact absurd (steps_step hstep).2 (by dsimp only; omega)
  | succ n ih =>
    rw [show n + 1 + 1 + k = n + 1 + k + 1 by omega]
    unfold advanceUnder
    cases hstep : m.step { s with cancelled := c (m.steps + 1) } with
    | halt m₁ stop => rfl
    | next m₁ =>
      refine ih ?_
      rw [(steps_step hstep).1]
      omega

theorem during_over (h : s.maxSteps + 1 ≤ n) (m : Machine) :
    m.during s c n = m.during s c (s.maxSteps + 1) := by
  obtain ⟨k, rfl⟩ := Nat.exists_eq_add_of_le h
  rw [during, advanceUnder_over (by omega)]
  rfl

/-- From a moment on nothing reaches the receiver: not in this run, which fails, and not in later
ones, which fail as well. -/
structure Silent (s : Setup) (c : Context) (n : Nat) (m : Machine) : Prop where
  rest : ∀ k, n ≤ k → (m.during s c k).output.delivered = (m.during s c n).output.delivered
  fails : (m.runUnder s c).2 ≠ none
  later : ∀ cs c' k, ((m.runs s (c :: cs)).during s c' k).output.delivered =
    (m.during s c n).output.delivered
  laterFails : ∀ cs c', ((m.runs s (c :: cs)).runUnder s c').2 ≠ none

theorem silent_of_failed (hm : m.memo.Sound s.module) (h : (m.during s c n).output.failed = true) :
    Silent s c n m := by
  have hrest (k : Nat) (hk : n ≤ k) : (m.during s c k).output = (m.during s c n).output := by
    refine settled_advanceUnder hk ?_ h
    rw [memo_start]
    exact hm
  have hsettled := Output.ledger_settled h
  have hend : (m.runUnder s c).1.output = (m.during s c n).output := by
    rw [runUnder_eq, ← during_over (Nat.le_max_left (s.maxSteps + 1) n),
      hrest _ (Nat.le_max_right _ _)]
    exact hsettled.flush (w := []) rfl
  have hsound (cs : List Context) : (m.runs s (c :: cs)).memo.Sound s.module :=
    sound_runs (c :: cs) hm
  have hruns (cs : List Context) : (m.runs s (c :: cs)).output = (m.during s c n).output :=
    ledger_runs (w := []) hsettled cs hend (sound_runUnder c hm)
  refine ⟨fun k hk => by rw [hrest k hk], runUnder_failed (by rw [hend]; exact h),
    fun cs c' k => ?_, fun cs c' => runUnder_failed ?_⟩
  · rw [ledger_during (w := []) hsettled c' k (hruns cs) (hsound cs)]
  · rw [ledger_runUnder (w := []) hsettled c' (hruns cs) (hsound cs)]
    exact h

end

/-! ## Delivery -/

/-- The bytes that runs and the first steps of the next one ask to be written, in this order. -/
def askedUpTo (s : Setup) (earlier : List Context) (c : Context) (n : Nat) (m : Machine) :
    List UInt8 :=
  askedByRuns s earlier m ++ asked s c n ((m.runs s earlier).start s)

/-- How a machine delivers to a receiver with a limit: at every moment of the run that follows some
others, and at its end. -/
structure Delivers (s : Setup) (limit : Option Nat) (earlier : List Context) (m : Machine) :
    Prop where
  inOrder : ∀ c n, ((m.runs s earlier).during s c n).output.delivered.toList <+:
    m.askedUpTo s earlier c n
  within : ∀ c n l, limit = some l → ((m.runs s earlier).during s c n).output.delivered.size ≤ l
  /-- What has not been delivered waits in the buffer, unless something has been refused. -/
  waiting : ∀ c n, ((m.runs s earlier).during s c n).output.failed = false →
    ((m.runs s earlier).during s c n).output.delivered.toList ++
      ((m.runs s earlier).during s c n).output.buffer.toList = m.askedUpTo s earlier c n
  /-- The receiver refuses something only when it is full and more was asked for. -/
  full : ∀ c n, ((m.runs s earlier).during s c n).output.failed = true →
    limit = some ((m.runs s earlier).during s c n).output.delivered.size ∧
      ((m.runs s earlier).during s c n).output.delivered.size <
        (m.askedUpTo s earlier c n).length
  silent : ∀ c n, ((m.runs s earlier).during s c n).output.failed = true →
    Silent s c n (m.runs s earlier)
  /-- A run that leaves something refused at its end has failed too. -/
  told : ∀ c, (m.runs s (earlier ++ [c])).output.failed = true →
    ((m.runs s earlier).runUnder s c).2 ≠ none
  complete : ∀ c, ((m.runs s earlier).runUnder s c).2 = none →
    (m.runs s (earlier ++ [c])).output.delivered.toList = m.askedByRuns s (earlier ++ [c])

end Machine

open Machine

/-- **Output is delivered in order and once.** Whatever a machine runs, reads and remembers, and
however many bytes its receiver takes: what the receiver has is the front of what the calls of
built-in functions asked to be written. It is all of that when a run ends well. Once something has
been refused, nothing more is delivered and every run fails. -/
theorem output_is_delivered_in_order (s : Setup) (limit : Option Nat) (input : Input)
    (earlier : List Context) : Delivers s limit earlier { input, output := { limit } } := by
  have hfresh : ({} : Memo).Sound s.module := fun _ hrow => nomatch hrow
  generalize hm : ({ input, output := { limit } } : Machine) = m
  have hmemo : (m.runs s earlier).memo.Sound s.module := by
    rw [← hm]
    exact sound_runs earlier hfresh
  have hruns {P : List UInt8 → Output → Prop} (hP : Ledger P) (h : P [] { limit }) :
      P (askedByRuns s earlier m) (m.runs s earlier).output := by
    rw [← hm]
    exact ledger_runs (w := []) hP earlier h hfresh
  have haccounts (c : Context) (n : Nat) :
      ((m.runs s earlier).during s c n).output.Accounts (m.askedUpTo s earlier c n) :=
    ledger_during Output.ledger_accounts c n (hruns Output.ledger_accounts (.new limit)) hmemo
  have hlimit (c : Context) (n : Nat) : ((m.runs s earlier).during s c n).output.limit = limit :=
    ledger_during (w := []) (Output.ledger_limit limit) c n
      (hruns (Output.ledger_limit limit) rfl) hmemo
  have hended (c : Context) : (m.runs s (earlier ++ [c])).output.failed = true →
      ((m.runs s earlier).runUnder s c).2 ≠ none := by
    rw [runs_append]
    exact runUnder_failed
  refine ⟨fun c n => (haccounts c n).inOrder, fun c n l hl => ?_,
    fun c n => (haccounts c n).waiting, fun c n h => ?_, fun c n => silent_of_failed hmemo, hended,
    fun c h => ?_⟩
  · exact (haccounts c n).within l ((hlimit c n).trans hl)
  · rw [← hlimit c n]
    exact (haccounts c n).refused h
  · have hok : (m.runs s (earlier ++ [c])).output.failed = false := by
      cases hfailed : (m.runs s (earlier ++ [c])).output.failed with
      | false => rfl
      | true => exact absurd h (hended c hfailed)
    have hall := ledger_runUnder Output.ledger_accounts c
      (hruns Output.ledger_accounts (.new limit)) hmemo
    rw [← askedByRuns_append, ← runs_append] at hall
    have hbuffer : (m.runs s (earlier ++ [c])).output.buffer = #[] := by
      rw [runs_append, runUnder_eq] at hok ⊢
      exact Output.buffer_flush hok
    simpa [hbuffer] using hall.waiting hok

/-- A machine that writes a digit in every run, for a receiver of one byte: the first run ends well,
the second one fails when it ends, and the third one when it writes. -/
theorem output_is_delivered_in_order_doubling :
    Delivers doublingSetup (some 1) [fun _ => false, fun _ => false]
        { input := ⟨[], false⟩, output := { limit := some 1 } } ∧
      askedByRuns doublingSetup [fun _ => false, fun _ => false]
        { input := ⟨[], false⟩, output := { limit := some 1 } } = [50, 50] ∧
      (runs doublingSetup [fun _ => false, fun _ => false]
        { input := ⟨[], false⟩, output := { limit := some 1 } }).output.delivered = #[50] :=
  ⟨output_is_delivered_in_order _ _ _ _, by decide +kernel, by decide +kernel⟩

end TinyC
