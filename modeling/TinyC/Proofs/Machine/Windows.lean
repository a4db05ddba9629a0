import TinyC.Proofs.Machine.Safety

/-!
# Frames are windows above the globals

Whatever the code of a module, the frames of a machine are nested: the arguments of a call lie above
the operands of its caller, its local variables right behind them, and memory does not end below the
local variables of the innermost frame. An instruction keeps this up (`framed_execute`), so a step
does (`framed_step`), and it holds in every state that a run passes (`framed_passes`). Then a return
never cuts memory behind its end, and nothing else that an instruction names is out of range.

There are 2^63 addresses, and nothing is said of a state behind one with that many words of memory.
Nor must the slots of a function that is called be more than that: the machine counts them modulo
2^64, and a call then finds arguments where there are none (`huge_counts_break_windows`).
-/

namespace TinyC

/-- Frames, the innermost first, are windows above the globals. The last one is that of the entry
function, which has no arguments; any other has its local variables behind its arguments, and these
above the local variables of its caller. -/
def Windows (entry : Routine) (globals : Nat) : List Frame → Prop
  | [] => True
  | [f] => f.routine = entry ∧ f.args = globals ∧ f.locals = globals
  | f :: g :: outer => f.locals = f.args + f.routine.returns + f.routine.params ∧ g.floor ≤ f.args ∧
    Windows entry globals (g :: outer)

/-- The slots that a caller fills are no more than there are addresses. -/
def Routine.Countable (r : Routine) : Prop :=
  r.returns + r.params ≤ 2 ^ 63

instance (r : Routine) : Decidable r.Countable :=
  inferInstanceAs (Decidable (_ ≤ _))

instance instDecidableWindows (entry : Routine) (globals : Nat) :
    (frames : List Frame) → Decidable (Windows entry globals frames)
  | [] => .isTrue trivial
  | [_] => inferInstanceAs (Decidable (_ ∧ _ ∧ _))
  | _ :: g :: outer =>
    have := instDecidableWindows entry globals (g :: outer)
    inferInstanceAs (Decidable (_ ∧ _ ∧ _))

section

variable {entry : Routine} {globals : Nat} {f : Frame} {outer : List Frame}

/-- The operands of a caller are below the slots of the result. -/
theorem Windows.floor_le {g : Frame} (h : Windows entry globals (f :: g :: outer)) :
    g.floor ≤ f.args :=
  h.2.1

variable (h : Windows entry globals (f :: outer))
include h

/-- Where a frame is in its code does not matter. -/
theorem Windows.at (p : Nat) : Windows entry globals (f.at p :: outer) := by
  cases outer with
  | nil => exact h
  | cons g outer => exact h

theorem Windows.callers : Windows entry globals outer := by
  cases outer with
  | nil => trivial
  | cons g outer => exact h.2.2

/-- All windows are above the globals. -/
theorem Windows.globals_le : globals ≤ f.args ∧ f.args ≤ f.locals := by
  induction outer generalizing f with
  | nil =>
    obtain ⟨-, hargs, hlocals⟩ := h
    omega
  | cons g outer ih =>
    obtain ⟨hlocals, hfloor, hrest⟩ := h
    have hle := ih hrest
    rw [Frame.floor] at hfloor
    omega

/-- The slots of a result are below the operands. -/
theorem Windows.result_le (hentry : entry.returns ≤ entry.locals) :
    f.args + f.routine.returns ≤ f.floor := by
  cases outer with
  | nil =>
    obtain ⟨rfl, hargs, hlocals⟩ := h
    rw [Frame.floor]
    omega
  | cons g outer =>
    obtain ⟨hlocals, -⟩ := h
    rw [Frame.floor]
    omega

/-- Windows below an address are of functions with no more slots. -/
theorem Windows.countable (hfloor : f.floor < 2 ^ 63) :
    ∀ g ∈ (f :: outer).dropLast, g.routine.Countable := by
  induction outer generalizing f with
  | nil =>
    intro g hg
    cases hg
  | cons g outer ih =>
    obtain ⟨hlocals, hle, hrest⟩ := h
    rw [Frame.floor] at hfloor
    intro g' hg'
    rcases List.mem_cons.mp hg' with rfl | hg'
    · rw [Routine.Countable]
      omega
    · exact ih hrest (by omega) g' hg'

end

namespace Machine

/-! ## What an instruction does in its window -/

/-- The operands of the innermost frame are in memory. -/
structure Inside (f : Frame) (outer : List Frame) (m : Machine) : Prop where
  frames : m.frames = f :: outer
  floor : f.floor ≤ m.memory.size

/-- What an instruction led to: the same frames but for the next instruction, memory that still ends
above the local variables, and no attempt to cut it elsewhere. -/
structure Stays (f : Frame) (outer : List Frame) (e : Effect) : Prop where
  frames : ∃ p, e.1.frames = f.at p :: outer
  floor : f.floor ≤ e.1.memory.size
  trap : ∀ size, e.2 ≠ some (.memorySize size)

section

variable {s : Setup} {f : Frame} {outer : List Frame} {m : Machine} {i : Instr}

theorem Stays.floor_le {e : Effect} (he : Stays f outer e) :
    ∀ g rest, e.1.frames = g :: rest → g.floor ≤ e.1.memory.size := by
  obtain ⟨p, hp⟩ := he.frames
  intro g rest hg
  rw [hp] at hg
  cases hg
  exact he.floor

theorem stays_done {p : Nat} (hframes : m.frames = f.at p :: outer)
    (hfloor : f.floor ≤ m.memory.size) : Stays f outer m.done :=
  ⟨⟨p, hframes⟩, hfloor, nofun⟩

theorem Inside.stays_trapped (h : Inside f outer m) {t : Trap} (ht : t.Ordinary) :
    Stays f outer (m.trapped t) := by
  refine ⟨⟨f.pc, h.frames⟩, h.floor, fun size heq => ?_⟩
  cases heq
  exact ht

theorem Inside.pushed (h : Inside f outer m) (x : UInt64) : Inside f outer (m.push x) := by
  refine ⟨h.frames, ?_⟩
  have hle := h.floor
  simp only [push, Array.size_push]
  omega

theorem Inside.reserved (h : Inside f outer m) (n : Nat) : Inside f outer (m.reserve n) := by
  refine ⟨h.frames, ?_⟩
  have hle := h.floor
  simp only [reserve, Array.size_append, Array.size_replicate]
  omega

theorem Works.stays {op : Opcode} {n : Nat} {e : Effect} (h : Works op f n m e)
    (hm : Inside f outer m) : Stays f outer e := by
  induction h with
  | done => exact stays_done (p := f.pc) hm.frames hm.floor
  | trap _ _ ht => exact hm.stays_trapped ht
  | jump n m p =>
    refine stays_done (p := p) ?_ hm.floor
    simp only [setFrame, hm.frames, List.tail_cons]
  | store n m a x =>
    refine stays_done (p := f.pc) hm.frames ?_
    simpa only [Array.size_setIfInBounds] using hm.floor
  | push x _ ih => exact ih (hm.pushed x)
  | reserve k _ ih => exact ih (hm.reserved k)
  | pop h _ ih =>
    refine ih ⟨hm.frames, ?_⟩
    rw [Array.size_pop]
    omega
  | aside _ hmemory hframes _ ih => exact ih ⟨hframes.trans hm.frames, hmemory ▸ hm.floor⟩

/-- An instruction that neither calls nor returns stays in its window. -/
theorem Inside.stays_execute (h : Inside f outer m) (hcall : i.op ≠ .call) (hret : i.op ≠ .ret) :
    Stays f outer (m.execute s f i) :=
  (works_execute hcall hret).stays h

end

/-! ## Calls and returns -/

section

variable {s : Setup} {entry : Routine} {f : Frame} {outer : List Frame} {m m₁ : Machine}
  {i : Instr} {z : Machine} {size : Int64} {n : Nat}

/-- The frames of a machine are windows, and its memory does not end below the innermost one. -/
structure Framed (s : Setup) (entry : Routine) (m : Machine) : Prop where
  windows : Windows entry s.module.globals.size m.frames
  floor : ∀ f outer, m.frames = f :: outer → f.floor ≤ m.memory.size

theorem framed_of_stays {e : Effect} (hw : Windows entry s.module.globals.size (f :: outer))
    (he : Stays f outer e) : Framed s entry e.1 := by
  obtain ⟨p, hp⟩ := he.frames
  exact ⟨hp ▸ hw.at p, he.floor_le⟩

/-- The difference of counts that are addresses is not wrapped. -/
theorem toInt_ofNat_sub {a b : Nat} (ha : a < 2 ^ 63) (hb : b ≤ 2 ^ 63) :
    (Int64.ofNat a - Int64.ofNat b).toInt = a - b := by
  rw [← Int64.ofInt_eq_ofNat, ← Int64.ofInt_eq_ofNat, ← Int64.ofInt_sub, Int64.toInt_ofInt]
  have hwords : Int64.size = 2 ^ 64 := rfl
  apply Int.bmod_eq_of_le <;> omega

/-- A function is not entered where words are missing for its result and its arguments. -/
theorem execute_starved {r : Routine} {slot : Nat} {l : List UInt64}
    (hfew : s.module.functions.size < 2 ^ 63) (hr : s.module.functions[slot]? = some r)
    (hslots : r.returns + r.params ≤ 2 ^ 63) (hlong : l.length < 2 ^ 63)
    (hfloor : f.floor ≤ l.length) (hshort : l.length < f.floor + (r.returns + r.params))
    (z : Machine) : (z.withMemory l).execute s f ⟨.call, Int64.ofNat slot⟩
      = (z.withMemory l).trapped (.callUnderflow r.slot) := by
  have hslot : slot < s.module.functions.size := (Array.getElem?_eq_some_iff.mp hr).1
  have hnat := toNat_operand (Nat.lt_trans hslot hfew)
  have hargs : Int64.ofNat (z.withMemory l).memory.size - r.argSlots < Int64.ofNat f.floor := by
    have hmemory : (z.withMemory l).memory.size = l.length := rfl
    rw [hmemory, Routine.argSlots, ← Int64.ofNat_add, Int64.lt_iff_toInt_lt,
      toInt_ofNat_sub hlong hslots, Int64.toInt_ofNat_of_lt (by omega)]
    omega
  simp only [execute, callRoutine, names_ofNat hslot hfew, if_true, hnat, hr, hargs]

/-- A call of a function with countable slots finds all of them above the operands of its caller,
or it fails. -/
theorem Inside.callRoutine_cases (hm : Inside f outer m) (hlong : m.memory.size < 2 ^ 63) :
    (∃ t, m.callRoutine s f i = m.trapped t ∧ t.Ordinary) ∨
      ∃ r args, m.callRoutine s f i = (m.enter r args).done ∧ (r.Countable →
        f.floor ≤ args ∧ args + r.returns + r.params = m.memory.size) := by
  have hfloor := hm.floor
  obtain htrap | ⟨r, -, args, hargs, hle, heq⟩ := Machine.callRoutine_cases s f i m
  · exact .inl htrap
  refine .inr ⟨r, _, heq, fun hcount => ?_⟩
  rw [Routine.Countable] at hcount
  rw [Routine.argSlots, ← Int64.ofNat_add] at hargs
  have hsub : args.toInt = m.memory.size - (r.returns + r.params : Nat) := by
    rw [hargs]
    exact toInt_ofNat_sub hlong hcount
  rw [Int64.lt_iff_toInt_lt, hsub, Int64.toInt_ofNat_of_lt (by omega)] at hle
  rw [Int64.toNatClampNeg, hsub]
  omega

theorem floor_enter (m : Machine) (r : Routine) (args : Nat) :
    ∀ g rest, (m.enter r args).frames = g :: rest → g.floor ≤ (m.enter r args).memory.size := by
  intro g rest hg
  simp only [enter] at hg
  cases hg
  simp only [Frame.floor, enter, reserve, Array.size_append, Array.size_replicate]
  exact Nat.le_refl _

theorem framed_enter (hw : Windows entry s.module.globals.size (f :: outer))
    (hframes : m.frames = f :: outer) {r : Routine} {args : Nat}
    (hargs : f.floor ≤ args ∧ args + r.returns + r.params = m.memory.size) :
    Framed s entry (m.enter r args) := by
  refine ⟨?_, floor_enter m r args⟩
  simp only [enter, hframes]
  exact ⟨hargs.2.symm, hargs.1, hw⟩

section

variable (hw : Windows entry s.module.globals.size (f :: outer)) (hm : Inside f outer m)
  (hentry : entry.returns ≤ entry.locals) (hlong : m.memory.size < 2 ^ 63)
include hw hm hentry hlong

/-- A return ends memory behind the result, where the operands of the caller are. -/
theorem leave_eq : m.leave f = done { m with
      memory := m.memory.shrink (f.args + f.routine.returns)
      frames := outer } := by
  have hresult := hw.result_le hentry
  have hfloor := hm.floor
  have hsize : f.args + f.routine.returns < 2 ^ 63 := by omega
  unfold leave
  rw [← Int64.ofNat_add, hm.frames]
  dsimp only
  rw [if_neg (Int64.not_lt.mpr (Int64.zero_le_ofNat_of_lt hsize)),
    Int64.toNatClampNeg_ofNat_of_lt hsize, List.tail_cons]

theorem framed_leave : Framed s entry (m.leave f).1 := by
  have hresult := hw.result_le hentry
  have hfloor := hm.floor
  rw [leave_eq hw hm hentry hlong]
  refine ⟨hw.callers, fun g rest hg => ?_⟩
  change outer = g :: rest at hg
  subst hg
  have hle := hw.floor_le
  simp only [done, Array.size_shrink]
  omega

/-- Instructions leave frames windows, as long as functions with countable slots are called. -/
theorem framed_execute (hcount : ∀ g ∈ (m.execute s f i).1.frames.dropLast, g.routine.Countable) :
    Framed s entry (m.execute s f i).1 := by
  by_cases hcall : i.op = .call
  · obtain ⟨op, operand⟩ := i
    cases hcall
    change ∀ g ∈ (m.callRoutine s f _).1.frames.dropLast, _ at hcount
    show Framed s entry (m.callRoutine s f _).1
    rcases hm.callRoutine_cases (s := s) (i := ⟨.call, operand⟩) hlong with
      ⟨t, ht, hordinary⟩ | ⟨r, args, hr, hargs⟩
    · rw [ht]
      exact framed_of_stays hw (hm.stays_trapped hordinary)
    · rw [hr] at hcount ⊢
      refine framed_enter hw hm.frames (hargs (hcount ⟨r, 0, args, m.memory.size⟩ ?_))
      simp only [enter, done, hm.frames]
      exact List.mem_cons_self
  by_cases hret : i.op = .ret
  · obtain ⟨op, operand⟩ := i
    cases hret
    exact framed_leave hw hm hentry hlong
  · exact framed_of_stays hw (hm.stays_execute hcall hret)

/-- No instruction cuts memory to a negative size. -/
theorem execute_ne_memorySize (size : Int64) : (m.execute s f i).2 ≠ some (.memorySize size) := by
  by_cases hcall : i.op = .call
  · obtain ⟨op, operand⟩ := i
    cases hcall
    show (m.callRoutine s f _).2 ≠ _
    rcases hm.callRoutine_cases (s := s) (i := ⟨.call, operand⟩) hlong with
      ⟨t, ht, hordinary⟩ | ⟨r, args, hr, -⟩
    · rw [ht]
      exact (hm.stays_trapped hordinary).trap size
    · rw [hr]
      exact nofun
  by_cases hret : i.op = .ret
  · obtain ⟨op, operand⟩ := i
    cases hret
    show (m.leave f).2 ≠ _
    rw [leave_eq hw hm hentry hlong]
    exact nofun
  · exact (hm.stays_execute hcall hret).trap size

end

/-! ## Steps -/

/-- The machine at hand, with the next instruction of its innermost frame fetched. -/
theorem Framed.fetched (h : Framed s entry m) (hframes : m.frames = f :: outer) :
    Windows entry s.module.globals.size (f.next :: outer) ∧
      Inside f.next outer { m with frames := f.next :: outer } := by
  have hw := h.windows
  rw [hframes] at hw
  exact ⟨hw.at (f.pc + 1), rfl, h.floor f outer hframes⟩

/-- Where a step leads on, the next instruction has been carried out. -/
theorem step_eq_next (h : m.step s = .next m₁) :
    ∃ f outer i y, m.frames = f :: outer ∧ f.routine.code[f.pc]? = some i ∧
      execute s f.next i { m with frames := f.next :: outer } = (y, none) ∧ Like m₁ y := by
  have hstepped := stepped s m
  rw [h] at hstepped
  cases hstepped with
  | next hframes hcode _ hexec hlike => exact ⟨_, _, _, _, hframes, hcode, hexec, hlike⟩

/-- Where the machine breaks down, an instruction has tried to cut memory to a negative size. -/
theorem step_eq_crashed (h : m.step s = .halt m₁ (some (.crashed size))) :
    ∃ f outer i, m.frames = f :: outer ∧
      (execute s f.next i { m with frames := f.next :: outer }).2 = some (.memorySize size) := by
  have hstepped := stepped s m
  rw [h] at hstepped
  generalize hstop : some (Stop.crashed size) = stop at hstepped
  cases hstepped with
  | ended _ _ hend =>
    subst hstop
    obtain hend | ⟨e, hend, -⟩ := hend <;> cases hend
  | cut _ _ _ _ hcut =>
    subst hstop
    obtain hcut | ⟨e, hcut, -⟩ := hcut <;> cases hcut
  | @fails f outer i _ _ t hframes _ _ hexec _ =>
    refine ⟨f, outer, i, hframes, ?_⟩
    rw [hexec]
    cases t with
    | memorySize n =>
      cases hstop
      rfl
    | _ => cases hstop

/-- A step leaves frames windows, as long as functions with countable slots are called. -/
theorem framed_step (h : Framed s entry m) (hentry : entry.returns ≤ entry.locals)
    (hlong : m.memory.size < 2 ^ 63) (hstep : m.step s = .next m₁)
    (hcount : ∀ g ∈ m₁.frames.dropLast, g.routine.Countable) : Framed s entry m₁ := by
  obtain ⟨f, outer, i, y, hframes, -, hexec, hy⟩ := step_eq_next hstep
  obtain ⟨hw, hm⟩ := h.fetched hframes
  have hframed := framed_execute (i := i) hw hm hentry hlong
  rw [hy.frames] at hcount
  rw [hexec] at hframed
  refine ⟨?_, ?_⟩
  · rw [hy.frames]
    exact (hframed hcount).windows
  · rw [hy.frames, hy.memory]
    exact (hframed hcount).floor

/-- No step breaks the machine down. -/
theorem step_ne_crashed (h : Framed s entry m) (hentry : entry.returns ≤ entry.locals)
    (hlong : m.memory.size < 2 ^ 63) (size : Int64) :
    m.step s ≠ .halt m₁ (some (.crashed size)) := by
  intro hstep
  obtain ⟨f, outer, i, hframes, hexec⟩ := step_eq_crashed hstep
  obtain ⟨hw, hm⟩ := h.fetched hframes
  exact execute_ne_memorySize hw hm hentry hlong size hexec

theorem placed_step (h : Placed s m) (hstep : m.step s = .next m₁) : Placed s m₁ := by
  obtain ⟨f, outer, i, y, hframes, -, hexec, hy⟩ := step_eq_next hstep
  obtain ⟨hf, hfetched⟩ := h.fetched hframes
  have hplaced := placed_execute (f := f.next) (i := i) hfetched hf
  rw [hexec] at hplaced
  intro g hg
  rw [hy.frames] at hg
  exact hplaced g hg

/-! ## Runs -/

/-- A state that a run from another one passes, with memory in reach of addresses up to there. -/
inductive Passes (s : Setup) (m : Machine) : Machine → Prop where
  | start (h : m.memory.size < 2 ^ 63) : Passes s m m
  | next {x y : Machine} (hx : Passes s m x) (hstep : x.step s = .next y)
      (h : y.memory.size < 2 ^ 63) : Passes s m y

/-- A run comes to a state with more words of memory than there are addresses. -/
def Outgrows (s : Setup) (m : Machine) : Prop :=
  2 ^ 63 ≤ m.memory.size ∨
    ∃ x y, Passes s m x ∧ x.step s = .next y ∧ 2 ^ 63 ≤ y.memory.size

/-- What an instruction of a frame cuts, names or shows is there. -/
def InRange (s : Setup) (f : Frame) (i : Instr) (m : Machine) : Prop :=
  s.module.globals.size ≤ m.memory.size ∧
    match i.op with
    | .ret => f.args + f.routine.returns ≤ m.memory.size
    | .call => i.names (Int64.ofNat s.module.functions.size) = true →
      i.operand.toUInt64.toNat < s.module.functions.size
    | .callname => ∀ b, (m.resolve s i.operand).1 = .ok b →
      0 ≤ i.operand.toInt ∧ i.operand.toInt.toNat < s.module.globals.size
    | _ => True

/-- In every state of a run the frames are windows and the next instruction is in range, and the run
does not end with a breakdown. -/
structure RunsInWindows (s : Setup) (entry : Routine) (m : Machine) : Prop where
  framed : ∀ z, Passes s (m.start s) z → Framed s entry z
  inRange : ∀ z f outer i, Passes s (m.start s) z → z.frames = f :: outer →
    f.routine.code[f.pc]? = some i → InRange s f i z
  ends : ¬Outgrows s (m.start s) → ∀ size, (m.run s).2 ≠ some (.stopped (.crashed size))

theorem Passes.small (h : Passes s m z) : z.memory.size < 2 ^ 63 := by
  cases h with
  | start h => exact h
  | next _ _ h => exact h

/-- What holds at first and is kept by every step holds in every state of a run. -/
theorem Passes.induct {P : Machine → Prop} (h : Passes s m z) (hm : P m)
    (hstep : ∀ x y, Passes s m y → x.memory.size < 2 ^ 63 → P x → x.step s = .next y → P y) :
    P z := by
  induction h with
  | start h => exact hm
  | next hx hxy hy ih => exact hstep _ _ (.next hx hxy hy) hx.small ih hxy

/-- The states that a run is made of are passed, as long as they are small enough. -/
theorem Passes.of_states {x z : Machine} (hx : Passes s m x) (hz : z ∈ states s n x)
    (hsmall : ∀ y ∈ states s n x, y.memory.size < 2 ^ 63) : Passes s m z := by
  induction n generalizing x with
  | zero => cases hz
  | succ n ih =>
    rcases List.mem_cons.mp hz with rfl | hz
    · exact hx
    cases hstep : x.step s with
    | halt y stop =>
      rw [hstep] at hz
      cases hz
    | next y =>
      simp only [states, hstep] at hz hsmall
      have hrest (w : Machine) (hw : w ∈ states s n y) : w.memory.size < 2 ^ 63 :=
        hsmall w (List.mem_cons_of_mem x hw)
      refine ih (.next hx hstep ?_) hz hrest
      cases n with
      | zero => cases hz
      | succ n => exact hrest y List.mem_cons_self

theorem framed_start (m : Machine) (hfirst : s.module.functions[0]? = some entry) :
    Framed s entry (m.start s) := by
  have hframes := frames_start m hfirst
  refine ⟨?_, fun f outer hf => ?_⟩
  · rw [hframes]
    exact ⟨rfl, rfl, rfl⟩
  · rw [hframes] at hf
    cases hf
    simp [Frame.floor, start, hfirst, enter, reserve]

theorem memo_start (s : Setup) (m : Machine) : (m.start s).memo = m.memo := by
  unfold start
  dsimp only
  split <;> rfl

theorem output_start (s : Setup) (m : Machine) : (m.start s).output = m.output := by
  unfold start
  dsimp only
  split <;> rfl

theorem sound_passes (h : Passes s m z) (hm : m.memo.Sound s.module) : z.memo.Sound s.module := by
  refine h.induct (P := fun z => z.memo.Sound s.module) hm fun x y _ _ hx hstep => ?_
  have hy := sound_step (s := s) hx
  rw [hstep] at hy
  exact hy

theorem placed_passes (h : Passes s m z) (hm : Placed s m) : Placed s z :=
  h.induct hm fun _ _ _ _ hx hstep => placed_step hx hstep

/-- Frames are windows in every state of a run, as long as functions with countable slots are
called. -/
theorem framed_passes (h : Passes s m z) (hm : Framed s entry m)
    (hentry : entry.returns ≤ entry.locals)
    (hcount : ∀ z, Passes s m z → ∀ f ∈ z.frames.dropLast, f.routine.Countable) :
    Framed s entry z :=
  h.induct hm fun _ y hy hlong hx hstep => framed_step hx hentry hlong hstep (hcount y hy)

/-- Where the calls are of functions with countable slots. -/
theorem Framed.countable (h : Framed s entry m) (hlong : m.memory.size < 2 ^ 63) :
    ∀ f ∈ m.frames.dropLast, f.routine.Countable := by
  have hw := h.windows
  cases hframes : m.frames with
  | nil =>
    intro g hg
    cases hg
  | cons f outer =>
    rw [hframes] at hw
    exact hw.countable (Nat.lt_of_le_of_lt (h.floor f outer hframes) hlong)

/-- A slot that is named is below the number of slots, however large that is. -/
theorem lt_of_names (h : i.names (Int64.ofNat n) = true) : i.operand.toUInt64.toNat < n := by
  simp only [Instr.names, Bool.and_eq_true, decide_eq_true_eq, Int64.le_iff_toInt_le,
    Int64.lt_iff_toInt_lt, Int64.toInt_zero] at h
  obtain ⟨hpos, hlt⟩ := h
  have hnat : i.operand.toInt = i.operand.toUInt64.toNat := by
    change 0 ≤ i.operand.toBitVec.toInt at hpos
    change i.operand.toBitVec.toInt = i.operand.toBitVec.toNat
    rw [BitVec.toInt_eq_toNat_cond] at hpos ⊢
    have hword := i.operand.toBitVec.isLt
    split at hpos
    · rw [if_pos ‹_›]
    · omega
  have hle : (Int64.ofNat n).toInt ≤ n := by
    rw [← Int64.ofInt_eq_ofNat, Int64.toInt_ofInt, Int.bmod_def]
    have hmod : (n : Int) % Int64.size ≤ n := Int.ofNat_le.mpr (Nat.mod_le n _)
    have hwords : Int64.size = 2 ^ 64 := rfl
    split <;> omega
  omega

theorem Framed.inRange (h : Framed s entry m) (hentry : entry.returns ≤ entry.locals)
    (hmemo : m.memo.Sound s.module) (hframes : m.frames = f :: outer) : InRange s f i m := by
  have hw := h.windows
  rw [hframes] at hw
  have hfloor := h.floor f outer hframes
  have hglobals := hw.globals_le
  have hresult := hw.result_le hentry
  refine ⟨by rw [Frame.floor] at hfloor; omega, ?_⟩
  split
  · omega
  · exact lt_of_names
  · intro b hb
    obtain ⟨memo, hresolve, -⟩ := resolve_eq hmemo i.operand
    rw [hresolve] at hb
    obtain ⟨hpos, g, hg, -⟩ := builtinAt_eq_ok hb
    exact ⟨hpos, (Array.getElem?_eq_some_iff.mp hg).1⟩
  · trivial

/-- A run that breaks down does so at a state that it passes, or it has outgrown the addresses. -/
theorem crashed_of_advance {x : Machine} (hx : Passes s m x) (hgrow : ¬Outgrows s m)
    (h : (advance s n x).2 = some (.crashed size)) :
    ∃ z z', Passes s m z ∧ z.step s = .halt z' (some (.crashed size)) := by
  induction n generalizing x with
  | zero => cases h
  | succ n ih =>
    unfold advance at h
    cases hstep : x.step s with
    | next y =>
      rw [hstep] at h
      refine ih (.next hx hstep ?_) h
      apply Nat.lt_of_not_le
      intro hlong
      exact hgrow (.inr ⟨x, y, hx, hstep, hlong⟩)
    | halt y stop =>
      rw [hstep] at h
      refine ⟨x, y, hx, ?_⟩
      rw [hstep, show stop = some (.crashed size) from h]

/-- A run stops because its last step does. -/
theorem stopped_of_run {stop : Stop} (h : (m.run s).2 = some (.stopped stop)) :
    (advance s (s.maxSteps + 1) (m.start s)).2 = some stop := by
  unfold run at h
  generalize advance s (s.maxSteps + 1) (m.start s) = e at h ⊢
  rcases e with ⟨y, _ | stop⟩
  · dsimp only at h
    split at h <;> cases h
  · cases h
    rfl

theorem crashed_of_run (hgrow : ¬Outgrows s (m.start s))
    (h : (m.run s).2 = some (.stopped (.crashed size))) :
    ∃ z z', Passes s (m.start s) z ∧ z.step s = .halt z' (some (.crashed size)) := by
  refine crashed_of_advance (n := s.maxSteps + 1) (.start ?_) hgrow (stopped_of_run h)
  apply Nat.lt_of_not_le
  intro hlong
  exact hgrow (.inl hlong)

end

end Machine

open Machine

theorem Setup.module_make {name : String} {module : Module} {o : Options} {s : Setup}
    (h : Setup.make name module o = .ok s) : s.module = module := by
  unfold Setup.make at h
  repeat
    split at h
    · cases h
  cases h
  rfl

/-- **The frames of a machine are windows above the globals.** Whatever the instructions of a
module: if the result of its entry function has room among its local variables, a run keeps the
frames nested, with memory behind them, accesses nothing out of range and never breaks down,
exactly if the functions that are called have no more slots than there are addresses. -/
theorem frames_are_windows {name : String} {module : Module} {o : Options} {s : Setup}
    (hs : Setup.make name module o = .ok s) {entry : Routine}
    (hfirst : module.functions[0]? = some entry) (hentry : entry.returns ≤ entry.locals)
    {m : Machine} (hm : Reached module m) :
    (RunsInWindows s entry m ↔
      ∀ z, Passes s (m.start s) z → ∀ f ∈ z.frames.dropLast, f.routine.Countable) ∧
    ((∀ r ∈ module.functions, r.Countable) → RunsInWindows s entry m) := by
  obtain rfl := Setup.module_make hs
  have hstart := framed_start m hfirst
  have hsound (z : Machine) (hz : Passes s (m.start s) z) : z.memo.Sound s.module :=
    sound_passes hz (by rw [memo_start]; exact hm.sound)
  have hruns (hcount : ∀ z, Passes s (m.start s) z → ∀ f ∈ z.frames.dropLast, f.routine.Countable) :
      RunsInWindows s entry m := by
    have hframed (z : Machine) (hz : Passes s (m.start s) z) : Framed s entry z :=
      framed_passes hz hstart hentry hcount
    refine ⟨hframed, fun z f outer i hz hframes _ => ?_, fun hgrow size hrun => ?_⟩
    · exact (hframed z hz).inRange hentry (hsound z hz) hframes
    · obtain ⟨z, z', hz, hstep⟩ := crashed_of_run hgrow hrun
      exact step_ne_crashed (hframed z hz) hentry hz.small size hstep
  refine ⟨⟨fun h z hz => (h.framed z hz).countable hz.small, hruns⟩, fun hall => hruns ?_⟩
  intro z hz f hf
  refine hall f.routine (placed_passes hz ?_ f (List.dropLast_subset _ hf))
  rw [Placed, frames_start m hfirst]
  intro g hg
  rw [List.mem_singleton.mp hg]
  exact Array.mem_of_getElem? hfirst

/-- An entry function, and a function that it calls. -/
def calling (entry : Array Instr) (callee : Routine) : Module :=
  ⟨Module.standardMagic, Module.standardVersion, #[], #[⟨0, 0, 0, 0, entry⟩, callee]⟩

/-- A machine for a module of two functions. -/
def callingSetup (entry : Array Instr) (callee : Routine) : Setup :=
  ⟨"calling", calling entry callee, 100, false, false⟩

/-- The machine before its first run, with no input. -/
def unfed : Machine :=
  { input := ⟨[], false⟩ }

/-- A function with a result, a parameter and a local variable. -/
def copying : Routine :=
  ⟨1, 1, 1, 1, #[⟨.arga, 0⟩, ⟨.arga, 1⟩, ⟨.load64, 0⟩, ⟨.store64, 0⟩, ⟨.ret, 0⟩]⟩

/-- Code that calls it. -/
def copyCall : Array Instr :=
  #[⟨.stackalloc, 1⟩, ⟨.push, 7⟩, ⟨.call, 1⟩, ⟨.pop, 0⟩]

/-- The states of a run of two functions. -/
def callingStates (entry : Array Instr) (callee : Routine) : List Machine :=
  states (callingSetup entry callee) 101 (unfed.start (callingSetup entry callee))

theorem frames_are_windows_calling :
    RunsInWindows (callingSetup copyCall copying) ⟨0, 0, 0, 0, copyCall⟩ unfed ∧
      (∃ z ∈ callingStates copyCall copying, z.frames.length = 2) ∧
      ∀ z ∈ callingStates copyCall copying, z.memory.size < 2 ^ 63 :=
  ⟨(frames_are_windows
    (show Setup.make "calling" (calling copyCall copying) ⟨100, false, false, 0⟩ = .ok _ from rfl)
    rfl (by decide) (.fresh rfl)).2 (by decide),
    by decide +kernel, by decide +kernel⟩

/-- A function with more slots than there are addresses. -/
def oversized (code : Array Instr) : Routine :=
  ⟨1, 2 ^ 63 - 1, 2 ^ 63 - 1, 0, code⟩

/-- A call of a function with more slots than there are addresses finds arguments on an empty stack,
and when that function returns the machine breaks down. -/
theorem huge_counts_break_windows :
    (∃ z, Passes (callingSetup #[⟨.call, 1⟩] (oversized #[]))
        (unfed.start (callingSetup #[⟨.call, 1⟩] (oversized #[]))) z ∧
      ¬Windows ⟨0, 0, 0, 0, #[⟨.call, 1⟩]⟩ 0 z.frames) ∧
    (unfed.run (callingSetup #[⟨.call, 1⟩] (oversized #[⟨.ret, 0⟩]))).2
      = some (.stopped (.crashed (-9223372036854775807))) := by
  have hstates : ∃ z ∈ callingStates #[⟨.call, 1⟩] (oversized #[]),
      ¬Windows ⟨0, 0, 0, 0, #[⟨.call, 1⟩]⟩ 0 z.frames := by
    decide +kernel
  have hsmall : ∀ z ∈ callingStates #[⟨.call, 1⟩] (oversized #[]), z.memory.size < 2 ^ 63 := by
    decide +kernel
  obtain ⟨z, hz, hbroken⟩ := hstates
  refine ⟨⟨z, .of_states (.start ?_) hz hsmall, hbroken⟩, ?_⟩
  · exact hsmall _ List.mem_cons_self
  · decide +kernel

end TinyC
