import TinyC.Machine.Run

/-!
# The course of a run

A run can be cut short: when it has taken all the steps it is allowed, and when it is to be given
up. Both are decided between instructions, so a run follows the course that the machine takes
without them, to its end or to the state at which it is cut. This module separates the two.
`Machine.act` is a step that nothing cuts, a `Path` is a sequence of such steps, and
`advance_path` says that a run either follows a path or is cut on it.

Instructions work on memory and frames, and those that call built-in functions on some of the rest
(`execute_within`). None of them reads or changes the number of steps and the notes
(`execute_stamped`), so what a path does to a machine does not depend on these.
-/

namespace TinyC.Machine

/-! ## What instructions work on -/

/-- Memory and frames of a machine, and all the rest of another. -/
def within (m e : Machine) : Machine :=
  { e with memory := m.memory, frames := m.frames }

/-- The effect on memory and frames, with all the rest of a machine. -/
def confine (e : Machine) (r : Effect) : Effect :=
  (r.1.within e, r.2)

section

variable {e : Machine}

theorem withTop_within {g : UInt64 → Machine → Effect}
    (hg : ∀ x m, g x (m.within e) = confine e (g x m)) (f : Frame) (m : Machine) :
    (m.within e).withTop f g = confine e (m.withTop f g) := by
  unfold withTop
  by_cases h : f.floor < m.memory.size
  · rw [dif_pos h, dif_pos (show f.floor < (m.within e).memory.size from h)]
    exact hg _ { m with memory := m.memory.pop }
  · rw [dif_neg h, dif_neg (show ¬f.floor < (m.within e).memory.size from h)]
    rfl

theorem withTwo_within {g : UInt64 → UInt64 → Machine → Effect}
    (hg : ∀ a b m, g a b (m.within e) = confine e (g a b m)) (f : Frame) (m : Machine) :
    (m.within e).withTwo f g = confine e (m.withTwo f g) :=
  withTop_within (fun b m => withTop_within (fun a m => hg a b m) f m) f m

theorem jump_within (f : Frame) (offset : Int64) (m : Machine) :
    (m.within e).jump f offset = confine e (m.jump f offset) := by
  unfold jump
  dsimp only
  split <;> rfl

theorem callRoutine_within (s : Setup) (f : Frame) (i : Instr) (m : Machine) :
    (m.within e).callRoutine s f i = confine e (m.callRoutine s f i) := by
  unfold callRoutine
  split
  · rfl
  · dsimp only [within]
    split <;> rfl

theorem leave_within (f : Frame) (m : Machine) : (m.within e).leave f = confine e (m.leave f) := by
  unfold leave
  dsimp only
  split <;> rfl

theorem load_within (addr : UInt64) (m : Machine) :
    load addr (m.within e) = confine e (load addr m) := by
  unfold load
  by_cases h : addr.toNat < m.memory.size
  · rw [dif_pos h, dif_pos (show addr.toNat < (m.within e).memory.size from h)]
    rfl
  · rw [dif_neg h, dif_neg (show ¬addr.toNat < (m.within e).memory.size from h)]
    rfl

theorem store_within (addr x : UInt64) (m : Machine) :
    store addr x (m.within e) = confine e (store addr x m) := by
  unfold store
  by_cases h : addr.toNat < m.memory.size
  · rw [if_pos h, if_pos (show addr.toNat < (m.within e).memory.size from h)]
    rfl
  · rw [if_neg h, if_neg (show ¬addr.toNat < (m.within e).memory.size from h)]
    rfl

/-- Instructions other than the call of a built-in function work on memory and frames alone. -/
theorem execute_within (s : Setup) (f : Frame) {i : Instr} (hi : i.op ≠ .callname) (m : Machine) :
    (m.within e).execute s f i = confine e (m.execute s f i) := by
  obtain ⟨op, operand⟩ := i
  cases op with
  | nop | push | stackalloc | unlisted b => rfl
  | globa | arga | loca =>
    simp only [execute]
    split <;> rfl
  | load64 => exact withTop_within load_within f m
  | store64 => exact withTwo_within store_within f m
  | pop | dup | negi | negf | itof | ftoi | setlt | setgt =>
    simp only [execute, unary]
    exact withTop_within (fun _ _ => rfl) f m
  | addi | subi | muli | addf | subf | mulf | divf | cmpi | cmpf =>
    simp only [execute, binary]
    exact withTwo_within (fun _ _ _ => rfl) f m
  | divi =>
    simp only [execute]
    refine withTwo_within (fun a b m => ?_) f m
    split <;> rfl
  | br => exact jump_within f operand m
  | brtrue =>
    simp only [execute]
    refine withTop_within (fun x m => ?_) f m
    split
    · rfl
    · exact jump_within f operand m
  | brfalse =>
    simp only [execute]
    refine withTop_within (fun x m => ?_) f m
    split
    · exact jump_within f operand m
    · rfl
  | call => exact callRoutine_within s f _ m
  | ret => exact leave_within f m
  | callname => contradiction

end

/-! ## The number of steps and the notes -/

/-- The machine with another number of steps and other notes. -/
def stamped (m : Machine) (k : Nat) (ns : List Note) : Machine :=
  { m with steps := k, notes := ns }

/-- The effect with another number of steps and other notes. -/
def stamp (k : Nat) (ns : List Note) (e : Effect) : Effect :=
  (e.1.stamped k ns, e.2)

section

variable {k : Nat} {ns : List Note}

theorem receive_stamped {α : Type} (b : Builtin) (scan : Scan α) (word : α → UInt64) (m : Machine) :
    (m.stamped k ns).receive b scan word = stamp k ns (m.receive b scan word) := by
  unfold receive
  dsimp only [stamped]
  split <;> rfl

theorem send_stamped (write : Output → Output) (m : Machine) :
    (m.stamped k ns).send write = stamp k ns (m.send write) := by
  unfold send
  dsimp only [stamped]
  split <;> rfl

theorem perform_stamped (s : Setup) (b : Builtin) (x : UInt64) (m : Machine) :
    (m.stamped k ns).perform s b x = stamp k ns (m.perform s b x) := by
  cases b with
  | getint | getdouble | getchar => exact receive_stamped _ _ _ m
  | putint | putdouble | putchar | putln =>
    simp only [perform]
    exact send_stamped _ m
  | putstr =>
    unfold perform
    dsimp only
    split
    · exact send_stamped _ m
    · rfl

theorem callBuiltin_stamped (s : Setup) (f : Frame) (slot : Int64) (m : Machine) :
    (m.stamped k ns).callBuiltin s f slot = stamp k ns (m.callBuiltin s f slot) := by
  have hresolve : (m.stamped k ns).resolve s slot
      = ((m.resolve s slot).1, (m.resolve s slot).2.stamped k ns) := by
    unfold resolve
    dsimp only [stamped]
    split
    · rfl
    · split <;> rfl
  unfold callBuiltin
  rw [hresolve]
  generalize m.resolve s slot = r
  obtain ⟨t | b, m'⟩ := r
  · rfl
  · dsimp only
    have hsize : (m'.stamped k ns).memory.size = m'.memory.size := rfl
    rw [hsize]
    split
    · rfl
    · have hpop : (m'.stamped k ns).popArgument b
          = ((m'.popArgument b).1, (m'.popArgument b).2.stamped k ns) := by
        unfold popArgument
        split <;> rfl
      rw [hpop]
      exact perform_stamped s b _ _

/-- An instruction neither reads nor changes the number of steps and the notes. -/
theorem execute_stamped (s : Setup) (f : Frame) (i : Instr) (m : Machine) :
    (m.stamped k ns).execute s f i = stamp k ns (m.execute s f i) := by
  by_cases hi : i.op = .callname
  · obtain ⟨op, operand⟩ := i
    cases hi
    exact callBuiltin_stamped s f operand m
  · have hsame : m.execute s f i = confine m (m.execute s f i) := execute_within s f hi m
    have hstamped : (m.stamped k ns).execute s f i = confine (m.stamped k ns) (m.execute s f i) :=
      execute_within (e := m.stamped k ns) s f hi m
    rw [hstamped, hsame]
    rfl

end

/-- An instruction does not change the number of steps. -/
theorem steps_execute (s : Setup) (f : Frame) (i : Instr) (m : Machine) :
    (m.execute s f i).1.steps = m.steps := by
  have h : m.execute s f i = stamp m.steps m.notes (m.execute s f i) :=
    execute_stamped s f i m
  rw [h]
  rfl

/-! ## Steps that nothing cuts -/

/-- A step, whatever the number of steps and whether or not the run is to be given up. -/
def act (s : Setup) (m : Machine) : Step :=
  match m.frames with
  | [] => .halt m none
  | f :: outer =>
    match f.routine.code[f.pc]? with
    | none => if outer.isEmpty then .halt m none else m.fail s f .ranOff
    | some i => { m with steps := m.steps + 1 }.fetch s f outer i

/-- The reasons for which a run is cut short. -/
def CutOff (s : Setup) (stop : Option Stop) : Prop :=
  stop = some .canceled ∨ ∃ e, stop = some (.error e) ∧ e.trap = .stepLimit s.maxSteps

/-- Ending a run leads nowhere. -/
theorem fail_ne_next (s : Setup) (f : Frame) (t : Trap) (m m₁ : Machine) :
    m.fail s f t ≠ .next m₁ := by
  unfold fail
  split <;> nofun

/-- Where a step leads on from, an instruction is carried out. -/
theorem act_eq_next {s : Setup} {m m₁ : Machine} (h : m.act s = .next m₁) :
    ∃ f outer i, m.frames = f :: outer ∧ f.routine.code[f.pc]? = some i ∧
      { m with steps := m.steps + 1 }.fetch s f outer i = .next m₁ := by
  unfold act at h
  split at h
  · cases h
  · rename_i f outer hframes
    split at h
    · split at h
      · cases h
      · exact absurd h (fail_ne_next s _ _ _ _)
    · rename_i i hcode
      exact ⟨f, outer, i, hframes, hcode, h⟩

theorem steps_act {s : Setup} {m m₁ : Machine} (h : m.act s = .next m₁) :
    m₁.steps = m.steps + 1 := by
  obtain ⟨f, outer, i, _, _, hfetch⟩ := act_eq_next h
  unfold fetch at hfetch
  dsimp only at hfetch
  split at hfetch
  · rename_i m' hexec
    cases hfetch
    have hsteps := congrArg (fun e : Effect => e.1.steps) hexec
    rw [← hsteps, steps_execute]
    split <;> rfl
  · exact absurd hfetch (fail_ne_next s _ _ _ _)

/-- A step is one that nothing cuts, with room for it under the limit, or it cuts the run. -/
theorem step_eq_act_or_cutOff (s : Setup) (m : Machine) :
    (m.step s = m.act s ∧ ∀ m₁, m.act s = .next m₁ → m.steps < s.maxSteps) ∨
      ∃ m' stop, m.step s = .halt m' stop ∧ CutOff s stop := by
  cases hframes : m.frames with
  | nil =>
    have hstep : m.step s = m.act s := by simp [step, act, hframes]
    refine .inl ⟨hstep, fun m₁ h => ?_⟩
    obtain ⟨f, outer, i, hf, _⟩ := act_eq_next h
    simp [hframes] at hf
  | cons f outer =>
    cases hcode : f.routine.code[f.pc]? with
    | none =>
      have hstep : m.step s = m.act s := by simp [step, act, hframes, hcode]
      refine .inl ⟨hstep, fun m₁ h => ?_⟩
      obtain ⟨f', outer', i, hf, hi, _⟩ := act_eq_next h
      rw [hframes] at hf
      cases hf
      simp [hcode] at hi
    | some i =>
      simp only [step, act, hframes, hcode]
      by_cases hlimit : s.maxSteps < m.steps + 1
      · rw [if_pos hlimit]
        exact .inr ⟨_, _, rfl, .inr ⟨_, rfl, rfl⟩⟩
      · rw [if_neg hlimit]
        by_cases hcancel : s.cancelled = true ∧ (m.steps + 1) % cancelPeriod = 0
        · rw [if_pos hcancel]
          exact .inr ⟨_, _, rfl, .inl rfl⟩
        · rw [if_neg hcancel]
          exact .inl ⟨rfl, fun _ _ => by omega⟩

theorem steps_step {s : Setup} {m m₁ : Machine} (h : m.step s = .next m₁) :
    m₁.steps = m.steps + 1 ∧ m.steps < s.maxSteps := by
  obtain ⟨heq, hroom⟩ | ⟨y, stop, hhalt, -⟩ := step_eq_act_or_cutOff s m
  · exact ⟨steps_act (heq ▸ h), hroom m₁ (heq ▸ h)⟩
  · rw [h] at hhalt
    cases hhalt

/-- A sequence of steps that nothing cuts: the states that it leaves, in order, and the state that
it leads to. -/
inductive Path (s : Setup) : Machine → List Machine → Machine → Prop where
  | nil (m : Machine) : Path s m [] m
  | cons {m m₁ m' : Machine} {ms : List Machine} (first : m.act s = .next m₁)
      (rest : Path s m₁ ms m') : Path s m (m :: ms) m'

theorem Path.append {s : Setup} {m m₁ m₂ : Machine} {ms₁ ms₂ : List Machine}
    (h₁ : Path s m ms₁ m₁) (h₂ : Path s m₁ ms₂ m₂) : Path s m (ms₁ ++ ms₂) m₂ := by
  induction h₁ with
  | nil => exact h₂
  | cons first _ ih => exact .cons first (ih h₂)

/-! ## Runs along paths -/

/-- The states that a run passes, the last one included. -/
def states (s : Setup) : Nat → Machine → List Machine
  | 0, _ => []
  | n + 1, m =>
    m :: match m.step s with
      | .next m₁ => states s n m₁
      | .halt _ _ => []

section

variable {s : Setup} {m m' : Machine} {ms : List Machine}

/-- A run that is cut at its first step ends there. -/
theorem advance_cutOff {m₁ : Machine} {stop : Option Stop} (hstep : m.step s = .halt m₁ stop)
    (n : Nat) : advance s (n + 1) m = (m₁, stop) ∧ states s (n + 1) m = [m] := by
  simp [advance, states, hstep]

/-- A run follows a path to its end, or it is cut at a state of the path. -/
theorem advance_path (h : Path s m ms m') {n : Nat} (hn : n + m.steps = s.maxSteps + 1)
    (hm : m.steps ≤ s.maxSteps) :
    (CutOff s (advance s n m).2 ∧ states s n m <+: ms) ∨
      ∃ n', n' + m'.steps = s.maxSteps + 1 ∧ m'.steps = m.steps + ms.length ∧
        m'.steps ≤ s.maxSteps ∧ advance s n m = advance s n' m' ∧
        states s n m = ms ++ states s n' m' := by
  induction h generalizing n with
  | nil m => exact .inr ⟨n, hn, rfl, hm, rfl, rfl⟩
  | @cons m m₁ m' ms first _ ih =>
    obtain ⟨k, rfl⟩ : ∃ k, n = k + 1 := ⟨n - 1, by omega⟩
    obtain ⟨hact, hroom⟩ | ⟨m₂, stop, hhalt, hcut⟩ := step_eq_act_or_cutOff s m
    · have hsteps := steps_act first
      have hlt := hroom m₁ first
      have hadv : advance s (k + 1) m = advance s k m₁ := by simp [advance, hact, first]
      have hstates : states s (k + 1) m = m :: states s k m₁ := by simp [states, hact, first]
      rw [hadv, hstates]
      obtain ⟨hcut, hprefix⟩ | ⟨n', hn', hlen, hle, heq, hst⟩ :=
        ih (n := k) (by omega) (by omega)
      · exact .inl ⟨hcut, List.cons_prefix_cons.mpr ⟨rfl, hprefix⟩⟩
      · refine .inr ⟨n', hn', ?_, hle, heq, by rw [hst, List.cons_append]⟩
        rw [hlen, hsteps, List.length_cons]
        omega
    · obtain ⟨hadv, hstates⟩ := advance_cutOff hhalt k
      rw [hadv, hstates]
      exact .inl ⟨hcut, ms, rfl⟩

/-- A run along a path that ends ends as the path does, or it is cut at one of its states. -/
theorem advance_halts (h : Path s m ms m') {m'' : Machine} {stop : Option Stop}
    (hend : m'.act s = .halt m'' stop) {n : Nat} (hn : n + m.steps = s.maxSteps + 1)
    (hm : m.steps ≤ s.maxSteps) :
    (CutOff s (advance s n m).2 ∧ states s n m <+: ms ++ [m']) ∨
      (advance s n m = (m'', stop) ∧ states s n m = ms ++ [m']) := by
  obtain ⟨hcut, hprefix⟩ | ⟨n', hn', _, hle, heq, hst⟩ := advance_path h hn hm
  · exact .inl ⟨hcut, hprefix.trans (List.prefix_append ms [m'])⟩
  · obtain ⟨k, rfl⟩ : ∃ k, n' = k + 1 := ⟨n' - 1, by omega⟩
    rw [heq, hst]
    obtain ⟨hact, _⟩ | ⟨m₂, stop', hhalt, hcut⟩ := step_eq_act_or_cutOff s m'
    · obtain ⟨hadv, hstates⟩ := advance_cutOff (hact.trans hend) k
      rw [hadv, hstates]
      exact .inr ⟨rfl, rfl⟩
    · obtain ⟨hadv, hstates⟩ := advance_cutOff hhalt k
      rw [hadv, hstates]
      exact .inl ⟨hcut, [], List.append_nil _⟩

end

end TinyC.Machine
