import TinyC.Proofs.Machine.Limits

/-!
# Where errors arise

An error at the end of a run names the function of the innermost frame, and in it the instruction in
front of the one that comes next. Mostly that is the instruction fetched last in that frame, and
this module says when.

A run is followed with a log beside the frames (`follow`), which holds for each of them the index
of the instruction fetched last in it. Callers stand behind their calls. The innermost frame stands
behind the instruction fetched last in it, or it stands where that one, a branch, has led
(`logged_step`, `logged_follow`). In the latter case an error that arises before the next fetch
names the instruction in front of the target.
-/

namespace TinyC

/-- The instruction may go on elsewhere in the same function. -/
def Instr.Branches (i : Instr) : Prop :=
  i.op = .br ∨ i.op = .brtrue ∨ i.op = .brfalse

/-- The index that a branch at an index leads to. -/
def Instr.target (i : Instr) (p : Nat) : Nat :=
  (Int64.ofNat (p + 1) + i.operand).toUInt64.toNat

namespace Machine

/-- For each frame, the innermost first, the index of the instruction fetched last in it. -/
abbrev FetchLog := List (Option Nat)

/-- The log after a step from one state to another: the innermost frame of the first has fetched
its next instruction. Frames that are new have fetched nothing, and those that are gone are
forgotten. -/
def logStep (m m₁ : Machine) (log : FetchLog) : FetchLog :=
  let log := m.frames.head?.map Frame.pc :: log.tail
  List.replicate (m₁.frames.length - log.length) none ++ log.drop (log.length - m₁.frames.length)

/-- The state at which a run ends, and the log up to there. -/
def follow (s : Setup) : Nat → Machine → FetchLog → Machine × FetchLog
  | 0, m, log => (m, log)
  | n + 1, m, log =>
    match m.step s with
    | .next m₁ => follow s n m₁ (m.logStep m₁ log)
    | .halt _ _ => (m, log)

/-- The state at which a run of the machine ends, and the log of the run. -/
def followRun (s : Setup) (m : Machine) : Machine × FetchLog :=
  follow s (s.maxSteps + 1) (m.start s) [none]

/-- The index of the instruction fetched last in the innermost frame, the last step included. -/
def lastFetched (s : Setup) (m : Machine) (log : FetchLog) : Option Nat :=
  if m.carriesOut s then m.frames.head?.map Frame.pc else log.head?.join

/-! ## The log and the frames -/

/-- Where a frame stands if the instruction at an index was fetched last in it. -/
def StandsBehind (f : Frame) : Option Nat → Prop
  | none => f.pc = 0
  | some p => ∃ i, f.routine.code[p]? = some i ∧ (f.pc = p + 1 ∨ i.Branches ∧ f.pc = i.target p)

/-- Callers stand behind their calls. -/
inductive Callers : List Frame → FetchLog → Prop where
  | nil : Callers [] []
  | cons {f : Frame} {outer : List Frame} {log : FetchLog} {p : Nat} {i : Instr}
      (hpc : f.pc = p + 1) (hcode : f.routine.code[p]? = some i) (rest : Callers outer log) :
      Callers (f :: outer) (some p :: log)

/-- The log belongs to the frames. -/
inductive Logged : List Frame → FetchLog → Prop where
  | nil : Logged [] []
  | cons {f : Frame} {outer : List Frame} {last : Option Nat} {log : FetchLog}
      (hinner : StandsBehind f last) (hcallers : Callers outer log) :
      Logged (f :: outer) (last :: log)

theorem Callers.length_eq {frames : List Frame} {log : FetchLog} (h : Callers frames log) :
    log.length = frames.length := by
  induction h with
  | nil => rfl
  | cons _ _ _ ih => simp only [List.length_cons, ih]

theorem Callers.logged {frames : List Frame} {log : FetchLog} (h : Callers frames log) :
    Logged frames log := by
  cases h with
  | nil => exact .nil
  | cons hpc hcode rest => exact .cons ⟨_, hcode, .inl hpc⟩ rest

section

variable {s : Setup} {f : Frame} {outer : List Frame} {i : Instr} {m m₁ y : Machine}
  {log : FetchLog} {n : Nat} {e : RuntimeError}

theorem frames_jump {offset : Int64} (h : m.jump f offset = (y, none)) :
    y.frames = f.at (Int64.ofNat f.pc + offset).toUInt64.toNat :: m.frames.tail := by
  unfold jump at h
  dsimp only at h
  split at h <;> cases h
  rfl

theorem frames_withTop {g : UInt64 → Machine → Effect} (h : m.withTop f g = (y, none)) :
    ∃ x z, z.frames = m.frames ∧ g x z = (y, none) := by
  unfold withTop at h
  split at h
  · exact ⟨_, { m with memory := m.memory.pop }, rfl, h⟩
  · cases h

/-- A branch that is not taken goes on behind it. -/
theorem frames_branch (hi : i.Branches) (h : m.execute s f i = (y, none)) :
    y.frames = m.frames ∨
      y.frames = f.at (Int64.ofNat f.pc + i.operand).toUInt64.toNat :: m.frames.tail := by
  obtain ⟨op, operand⟩ := i
  obtain hop | hop | hop := hi <;> cases hop <;> simp only [execute] at h
  · exact .inr (frames_jump h)
  · obtain ⟨x, z, hz, hx⟩ := frames_withTop h
    split at hx
    · cases hx
      exact .inl hz
    · rw [← hz]
      exact .inr (frames_jump hx)
  · obtain ⟨x, z, hz, hx⟩ := frames_withTop h
    split at hx
    · rw [← hz]
      exact .inr (frames_jump hx)
    · cases hx
      exact .inl hz

/-- What a step does to the frames: the innermost one goes on, branches, calls or returns. -/
theorem frames_step (h : m.step s = .next m₁) :
    ∃ f outer i, m.frames = f :: outer ∧ f.routine.code[f.pc]? = some i ∧
      (m₁.frames = f.next :: outer ∨ i.Branches ∧ m₁.frames = f.at (i.target f.pc) :: outer ∨
        (∃ r args locals, m₁.frames = ⟨r, 0, args, locals⟩ :: f.next :: outer) ∨
        m₁.frames = outer) := by
  obtain ⟨f, outer, i, y, hframes, hcode, hexec, hy⟩ := step_eq_next h
  refine ⟨f, outer, i, hframes, hcode, ?_⟩
  rw [hy.frames]
  by_cases hstraight : Straight i.op
  · have hsame := frames_execute (s := s) (f := f.next) (m := { m with frames := f.next :: outer })
      hstraight
    rw [hexec] at hsame
    exact .inl hsame
  by_cases hbranch : i.Branches
  · obtain hsame | hto := frames_branch hbranch hexec
    · exact .inl hsame
    · exact .inr (.inl ⟨hbranch, hto⟩)
  by_cases hcall : i.op = .call
  · simp only [execute, hcall] at hexec
    obtain ⟨t, heq, -⟩ | ⟨r, -, args, -, -, heq⟩ := callRoutine_cases s f.next i
      { m with frames := f.next :: outer }
    · cases heq.symm.trans hexec
    · cases heq.symm.trans hexec
      exact .inr (.inr (.inl ⟨r, _, _, rfl⟩))
  · have hret : i.op = .ret := by
      unfold Straight at hstraight
      unfold Instr.Branches at hbranch
      grind
    simp only [execute, hret, leave] at hexec
    split at hexec <;> cases hexec
    exact .inr (.inr (.inr rfl))

/-- A step keeps the log with the frames. -/
theorem logged_step (hlog : Logged m.frames log) (h : m.step s = .next m₁) :
    Logged m₁.frames (m.logStep m₁ log) := by
  obtain ⟨f, outer, i, hframes, hcode, hnext⟩ := frames_step h
  rw [hframes] at hlog
  cases hlog with
  | @cons _ _ last log _ hcallers =>
    have hlength := hcallers.length_eq
    have hstep : m.logStep m₁ (last :: log)
        = List.replicate (m₁.frames.length - (log.length + 1)) none
        ++ (some f.pc :: log).drop (log.length + 1 - m₁.frames.length) := by
      rw [logStep, hframes]
      rfl
    rw [hstep]
    obtain heq | ⟨hbranch, heq⟩ | ⟨r, args, locals, heq⟩ | heq := hnext
    · rw [heq]
      simp only [List.length_cons, hlength, Nat.sub_self]
      exact .cons ⟨i, hcode, .inl rfl⟩ hcallers
    · rw [heq]
      simp only [List.length_cons, hlength, Nat.sub_self]
      exact .cons ⟨i, hcode, .inr ⟨hbranch, rfl⟩⟩ hcallers
    · rw [heq]
      simp only [List.length_cons, hlength, Nat.add_sub_cancel_left, Nat.sub_eq_zero_of_le,
        Nat.le_succ]
      exact .cons rfl (.cons rfl hcode hcallers)
    · rw [heq, hlength, Nat.sub_eq_zero_of_le (Nat.le_succ _), Nat.add_sub_cancel_left]
      exact hcallers.logged

/-- **The log keeps up with the frames in a run**, and the run ends with the last step that was
followed. -/
theorem logged_follow (hlog : Logged m.frames log) (hplaced : Placed s m) {stop : Stop}
    (h : (advance s n m).2 = some stop) :
    Logged (follow s n m log).1.frames (follow s n m log).2 ∧ Placed s (follow s n m log).1 ∧
      ∃ m', (follow s n m log).1.step s = .halt m' (some stop) := by
  induction n generalizing m log with
  | zero => cases h
  | succ n ih =>
    unfold advance at h
    unfold follow
    cases hstep : m.step s with
    | next m₁ =>
      rw [hstep] at h
      exact ih (logged_step hlog hstep) (placed_step hplaced hstep) h
    | halt m₁ stop' =>
      rw [hstep] at h
      exact ⟨hlog, hplaced, m₁, hstep.trans (congrArg _ h)⟩

/-! ## The last step -/

theorem fail_eq_error {t : Trap} (h : m.fail s f t = .halt m₁ (some (.error e))) :
    e = errorAt f t := by
  unfold fail at h
  split at h <;> cases h
  rfl

/-- An error arises from an instruction that has just been fetched, or it arises before the next
fetch: at the limit or behind the end of the code. -/
theorem error_step (h : m.step s = .halt m₁ (some (.error e))) :
    ∃ f outer, m.frames = f :: outer ∧
      ((m.carriesOut s = true ∧ f.routine.code[f.pc]? = some e.instr ∧ e.fn = f.routine.slot ∧
          e.pc = f.pc) ∨
        (m.carriesOut s = false ∧ e = errorAt f e.trap ∧
          (e.trap = .stepLimit s.maxSteps ∨ e.trap = .ranOff))) := by
  unfold carriesOut waits
  unfold step at h
  cases hframes : m.frames with
  | nil =>
    rw [hframes] at h
    cases h
  | cons f outer =>
    refine ⟨f, outer, rfl, ?_⟩
    rw [hframes] at h
    cases hcode : f.routine.code[f.pc]? with
    | none =>
      simp only [hcode] at h
      split at h
      · cases h
      · cases fail_eq_error h
        exact .inr ⟨by simp [hcode], rfl, .inr rfl⟩
    | some i =>
      simp only [hcode] at h
      by_cases hlimit : s.maxSteps < m.steps + 1
      · rw [if_pos hlimit] at h
        cases fail_eq_error h
        exact .inr ⟨by simp; omega, rfl, .inl rfl⟩
      rw [if_neg hlimit] at h
      by_cases hcancel : s.cancelled = true ∧ (m.steps + 1) % cancelPeriod = 0
      · rw [if_pos hcancel] at h
        cases h
      rw [if_neg hcancel] at h
      unfold fetch at h
      dsimp only at h
      split at h
      · cases h
      · cases fail_eq_error h
        have hroom : m.steps < s.maxSteps := by omega
        have hgoes : (s.cancelled && decide ((m.steps + 1) % cancelPeriod = 0)) = false := by
          simpa using hcancel
        exact .inl ⟨by simp [hcode, hroom, hgoes], by simp [errorAt, hcode], rfl,
          by simp [errorAt]⟩

/-- What an error says, given the index of the instruction fetched last in the innermost frame. -/
def NamesPlace (s : Setup) (f : Frame) (e : RuntimeError) : Option Nat → Prop
  | none => e.pc = -1 ∧ e.instr = ⟨.nop, 0⟩
  | some p => ∃ i, f.routine.code[p]? = some i ∧
      (e.pc = p ∧ e.instr = i ∨
        i.Branches ∧ f.pc = i.target p ∧ f.pc ≠ p + 1 ∧ e = errorAt f e.trap ∧
          (e.trap = .stepLimit s.maxSteps ∨ e.trap = .ranOff))

theorem StandsBehind.namesPlace {last : Option Nat} (h : StandsBehind f last)
    (he : e = errorAt f e.trap) (ht : e.trap = .stepLimit s.maxSteps ∨ e.trap = .ranOff) :
    NamesPlace s f e last := by
  cases last with
  | none =>
    have hpc : f.pc = 0 := h
    rw [he]
    exact ⟨by simp [errorAt, hpc], by simp [errorAt, hpc]⟩
  | some p =>
    obtain ⟨i, hcode, hpc⟩ := h
    refine ⟨i, hcode, ?_⟩
    by_cases hnext : f.pc = p + 1
    · rw [he]
      exact .inl ⟨by simp [errorAt, hnext], by simp [errorAt, hnext, hcode]⟩
    · obtain ⟨hbranch, htarget⟩ := hpc.resolve_left hnext
      exact .inr ⟨hbranch, htarget, hnext, he, ht⟩

theorem namesPlace_step (hlog : Logged m.frames log) (h : m.step s = .halt m₁ (some (.error e))) :
    ∃ f outer, m.frames = f :: outer ∧ e.fn = f.routine.slot ∧
      NamesPlace s f e (m.lastFetched s log) := by
  obtain ⟨f, outer, hframes, ⟨hfetch, hcode, hfn, hpc⟩ | ⟨hfetch, he, ht⟩⟩ := error_step h
  · refine ⟨f, outer, hframes, hfn, ?_⟩
    rw [lastFetched, if_pos hfetch, hframes]
    exact ⟨e.instr, hcode, .inl ⟨hpc, rfl⟩⟩
  · refine ⟨f, outer, hframes, by rw [he]; rfl, ?_⟩
    rw [lastFetched, if_neg (by simp [hfetch])]
    rw [hframes] at hlog
    cases hlog with
    | cons hinner _ => exact hinner.namesPlace he ht

end

end Machine

open Machine

/-- A machine can be set up for a module only if it has functions and they are at their slots. -/
theorem Setup.slots_make {name : String} {module : Module} {o : Options} {s : Setup}
    (h : Setup.make name module o = .ok s) :
    (∃ r, module.functions[0]? = some r) ∧
      ∀ (k : Nat) (r : Routine), module.functions[k]? = some r → r.slot = k := by
  unfold Setup.make at h
  split at h
  · cases h
  split at h
  · cases h
  split at h
  · cases h
  rename_i hsome
  split at h
  · cases h
  rename_i hplaced
  constructor
  · rw [Array.isEmpty_iff_size_eq_zero] at hsome
    exact ⟨_, Array.getElem?_eq_getElem (by omega)⟩
  · intro k r hr
    have hmem : (k, r.slot) ∈ module.functions.toList.mapIdx fun i r => (i, r.slot) := by
      rw [List.mem_mapIdx]
      obtain ⟨hk, rfl⟩ := Array.getElem?_eq_some_iff.mp hr
      exact ⟨k, hk, rfl⟩
    have hnot := List.find?_eq_none.mp hplaced _ hmem
    simpa using hnot

/-- **Errors name the instruction fetched last, unless it has just branched.** The error at the end
of a run names the function of the innermost frame. If an instruction has been fetched there, the
error names the one that was fetched last, with its index, or that one is a branch, its target is
not the next instruction, and the limit or the end of the code was met there; then the error names
the instruction in front of the target. -/
theorem errors_name_last_fetch {name : String} {module : Module} {o : Options} {s : Setup}
    (hs : Setup.make name module o = .ok s) (m : Machine) {e : RuntimeError}
    (h : (m.run s).2 = some (.stopped (.error e))) :
    let last := (m.followRun s).1
    let log := (m.followRun s).2
    ∃ f outer, last.frames = f :: outer ∧ e.fn = f.routine.slot ∧
      module.functions[e.fn.toNat]? = some f.routine ∧ NamesPlace s f e (last.lastFetched s log) := by
  obtain rfl := Setup.module_make hs
  obtain ⟨⟨r, hr⟩, hslots⟩ := Setup.slots_make hs
  have hstart : (m.start s).frames = [⟨r, 0, s.module.globals.size, s.module.globals.size⟩] :=
    frames_start m hr
  have hlog : Logged (m.start s).frames [none] := by
    rw [hstart]
    exact .cons rfl .nil
  have hplaced : Placed s (m.start s) := by
    rw [Placed, hstart]
    intro g hg
    rw [List.mem_singleton.mp hg]
    exact Array.mem_of_getElem? hr
  obtain ⟨hlast, hfunctions, m', hstep⟩ := logged_follow hlog hplaced (stopped_of_run h)
  obtain ⟨f, outer, hframes, hfn, hplace⟩ := namesPlace_step hlast hstep
  refine ⟨f, outer, hframes, hfn, ?_, hplace⟩
  obtain ⟨k, hk⟩ := Array.getElem?_of_mem (hfunctions f (by rw [hframes]; exact List.mem_cons_self))
  rw [hfn, hslots k _ hk]
  exact hk

/-- A function that divides by zero behind a branch. -/
def dividing : Routine :=
  ⟨1, 0, 0, 0, #[⟨.br, 1⟩, ⟨.nop, 0⟩, ⟨.push, 1⟩, ⟨.push, 0⟩, ⟨.divi, 0⟩, ⟨.ret, 0⟩]⟩

theorem errors_name_last_fetch_dividing :
    let s := callingSetup #[⟨.call, 1⟩] dividing
    let e : RuntimeError := ⟨1, 4, ⟨.divi, 0⟩, .divisionByZero⟩
    (unfed.run s).2 = some (.stopped (.error e)) ∧
      (unfed.followRun s).1.lastFetched s (unfed.followRun s).2 = some 4 ∧
      ∃ f, f.routine = dividing ∧ NamesPlace s f e (some 4) := by
  have hrun : (unfed.run (callingSetup #[⟨.call, 1⟩] dividing)).2
      = some (.stopped (.error ⟨1, 4, ⟨.divi, 0⟩, .divisionByZero⟩)) := by decide +kernel
  have hlast : (unfed.followRun (callingSetup #[⟨.call, 1⟩] dividing)).1.lastFetched
      (callingSetup #[⟨.call, 1⟩] dividing)
      (unfed.followRun (callingSetup #[⟨.call, 1⟩] dividing)).2 = some 4 := by decide +kernel
  obtain ⟨f, -, -, -, hroutine, hplace⟩ := errors_name_last_fetch
    (show Setup.make "calling" (calling #[⟨.call, 1⟩] dividing) ⟨100, false, false, 0⟩
      = .ok (callingSetup #[⟨.call, 1⟩] dividing) from rfl) unfed hrun
  rw [hlast] at hplace
  exact ⟨hrun, hlast, f, (Option.some.inj hroutine).symm, hplace⟩

/-- A machine for a module of one function. -/
def loneSetup (limit : Nat) (code : Array Instr) : Setup :=
  ⟨"lone", ⟨Module.standardMagic, Module.standardVersion, #[], #[⟨0, 0, 0, 0, code⟩]⟩, limit,
    false, false⟩

/-- A branch to itself that uses up the limit is not named, nor is one to the end of the code. -/
theorem branches_displace_errors :
    (let s := loneSetup 1 #[⟨.br, -1⟩]
    (unfed.run s).2 = some (.stopped (.error ⟨0, -1, ⟨.nop, 0⟩, .stepLimit 1⟩)) ∧
      (unfed.followRun s).1.lastFetched s (unfed.followRun s).2 = some 0) ∧
    let s := callingSetup #[⟨.call, 1⟩] ⟨1, 0, 0, 0, #[⟨.br, 1⟩, ⟨.nop, 0⟩]⟩
    (unfed.run s).2 = some (.stopped (.error ⟨1, 1, ⟨.nop, 0⟩, .ranOff⟩)) ∧
      (unfed.followRun s).1.lastFetched s (unfed.followRun s).2 = some 0 := by
  decide +kernel

end TinyC
