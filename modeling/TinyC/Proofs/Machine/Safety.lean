import TinyC.Proofs.Machine.Functions
import TinyC.Proofs.Machine.Growth

/-!
# Compiled programs never fault

Of all the reasons for which a machine can stop, an accepted program knows five: it divides an
integer by zero, the input has not what it asks for, the output is refused, the steps are used up,
and the run is given up (`RunError.Expected`). No operand is ever missing, no branch leads out of
its function, and every slot and address that is named exists. A run without an error ends with
nothing on the stack but the result of the main function.

Addresses are words, so nothing can be said of a machine whose memory has 2^63 words. It takes
more than 2^32 steps to get there.
-/

namespace TinyC

open Core Machine

/-! ## Machines that have run before -/

namespace Machine

/-- A machine for a module: a new one, or one that has run before. -/
inductive Reached (module : Module) : Machine → Prop where
  | fresh {m : Machine} (h : m.memo = {}) : Reached module m
  | again {m : Machine} {s : Setup} (h : Reached module m) (hs : s.module = module) :
      Reached module (m.run s).1

section

variable {s : Setup} {m m₁ : Machine}

/-- Steps keep what has been remembered true. -/
theorem sound_step (hm : m.memo.Sound s.module) : (after (m.step s)).memo.Sound s.module := by
  have hstepped := stepped s m
  generalize m.step s = r at hstepped ⊢
  cases hstepped with
  | ended _ hlike | cut _ _ _ hlike => exact hlike.memo ▸ hm
  | @next f outer i _ _ _ _ _ hexec hlike | @fails f outer i _ _ _ _ _ _ hexec hlike =>
    have hsound := sound_execute (s := s) (f := f.next) (m := { m with frames := f.next :: outer })
      hm i
    rw [hexec] at hsound
    exact hlike.memo ▸ hsound

theorem sound_advance (n : Nat) (hm : m.memo.Sound s.module) :
    (advance s n m).1.memo.Sound s.module := by
  induction n generalizing m with
  | zero => exact hm
  | succ n ih =>
    have hstep := sound_step (s := s) hm
    unfold advance
    generalize m.step s = r at hstep ⊢
    cases r with
    | next m₁ => exact ih hstep
    | halt m₁ stop => exact hstep

/-- Runs keep what has been remembered true. -/
theorem sound_run (hm : m.memo.Sound s.module) : (m.run s).1.memo.Sound s.module := by
  have hstart : (m.start s).memo.Sound s.module := by
    unfold start
    dsimp only
    split <;> exact hm
  have hadvance := sound_advance (s.maxSteps + 1) hstart
  unfold run
  generalize advance s (s.maxSteps + 1) (m.start s) = e at hadvance ⊢
  obtain ⟨m', _ | stop⟩ := e <;> exact hadvance

theorem Reached.sound {module : Module} (h : Reached module m) : m.memo.Sound module := by
  induction h with
  | fresh h =>
    rw [h]
    exact fun row hrow => nomatch hrow
  | again _ hs ih =>
    subst hs
    exact sound_run ih

end

end Machine

/-! ## Runs -/

/-- The errors that a run of an accepted program can end with. -/
def RunError.Expected (s : Setup) : RunError → Prop
  | .flush => True
  | .stopped .canceled => True
  | .stopped (.crashed _) => False
  | .stopped (.error e) =>
    e.trap = .divisionByZero ∨ e.trap = .stepLimit s.maxSteps ∨
      (∃ b i, Builtin.reads b = true ∧ e.trap = .input b i) ∨ e.trap = .output

/-- The run ends with an error that is to be expected, or with the result of the main function and
nothing else on the stack of the entry function. -/
structure RunsSafely {π : Type} (t : ProgramTables π) (s : Setup) (m : Machine) : Prop where
  expected : ∀ e, (m.run s).2 = some e → e.Expected s
  stack : (m.run s).2 = none → ∃ f, (m.run s).1.frames = [f] ∧
    s.module.functions[0]? = some f.routine ∧ f.pc = f.routine.code.size ∧
    (∀ g ∈ t.functions.rows, g.name = "main" →
      (m.run s).1.memory.size = f.floor + g.type.slots) ∧
    ((∀ g ∈ t.functions.rows, g.name ≠ "main") → (m.run s).1.memory.size = f.floor)

section

variable {π : Type} {s : Setup} {t : ProgramTables π} {p : Core.Program} {m : Machine}
  {ms : List Machine}

/-- The functions of short tables make no more room at once than tables are long. -/
theorem Laid.moderate (hl : Laid s t p) (hshort : t.Short) : Moderate s.module (2 ^ 31) := by
  have hrow {r : Routine} (hr : r ∈ s.module.functions) :
      ∃ f ∈ t.functions.rows, r = f.routine := by
    rw [hl.module] at hr
    simpa [ProgramTables.module, eq_comm] using hr
  have hwritable := hl.describes.writable hshort
  refine ⟨by decide, fun r hr => ?_, fun r hr i hi hop => ?_⟩
  · obtain ⟨f, hf, rfl⟩ := hrow hr
    exact Nat.le_of_lt (hshort.rows f hf).2.1
  · obtain ⟨f, hf, rfl⟩ := hrow hr
    have hcode : i ∈ f.code := by simpa [Function.routine] using hi
    have hrange := ((hwritable.rows f hf).code i hcode).range (by rw [hop]; rfl)
    omega

theorem RunsSafely.of_cut (h : m.RunCut s) : RunsSafely t s m := by
  obtain ⟨stop, hrun, hstop⟩ := h
  refine ⟨fun e he => ?_, fun hnone => by rw [hrun] at hnone; cases hnone⟩
  rw [hrun] at he
  cases he
  obtain h | ⟨e, h, htrap⟩ := hstop
  · cases h
    exact trivial
  · cases h
    exact .inr (.inl htrap)

/-- A run that fails as its program does. -/
theorem RunsSafely.of_failure {m' m₁ : Machine} {g : Frame} {e : Mishap}
    (hpath : Path s (m.start s) ms m')
    (hact : m'.act s = .halt m₁ (some (.error (errorAt g (trapOf e))))) : RunsSafely t s m := by
  obtain ⟨hcut, -⟩ | ⟨-, hrun⟩ := run_halts hpath hact
  · exact .of_cut hcut
  · refine ⟨fun e' he => ?_, fun hnone => by rw [hrun] at hnone; cases hnone⟩
    rw [hrun] at he
    cases he
    cases e with
    | division => exact .inl rfl
    | input b reads i => exact .inr (.inr (.inl ⟨b, i, reads, rfl⟩))
    | output => exact .inr (.inr (.inr rfl))

theorem length_pushed (type : Ty) (x : UInt64) : (pushed type x).length = type.slots := by
  cases type <;> rfl

/-- A run that comes to the end of the entry function. -/
theorem RunsSafely.of_end (hd : t.Describes p) {f : Frame} {x : UInt64} {m' : Machine} {st : Store}
    (hf : s.module.functions[0]? = some f.routine) (hpath : Path s (m.start s) ms m')
    (hend : Holds s f [] [] (p.left x) f.routine.code.size m' st) : RunsSafely t s m := by
  have hact : m'.act s = .halt m' none := by
    simp [act, hend.synced.frames, Frame.at]
  obtain ⟨hcut, -⟩ | ⟨-, hrun⟩ := run_halts hpath hact
  · exact .of_cut hcut
  · refine ⟨fun e he => ?_, fun _ => ⟨f.at f.routine.code.size, ?_, hf, rfl, ?_, ?_⟩⟩
    · rw [hrun] at he
      simp only [runError] at he
      split at he
      · cases he
        exact trivial
      · cases he
    · rw [hrun]
      exact hend.synced.frames
    · intro g hg hname
      obtain ⟨k, hk⟩ := List.mem_iff_getElem?.mp hg
      rw [hrun]
      show m'.memory.size = _
      rw [hend.size_eq, hend.floor_eq, Core.Program.left, hd.named k g hk hname]
      exact congrArg _ (length_pushed _ _)
    · intro hnone
      have hmain : p.main = none := by
        cases hp : p.main with
        | none => rfl
        | some pair =>
          obtain ⟨_, g, hg, hname, _⟩ := hd.main pair.1 pair.2 hp
          exact absurd hname (hnone g (List.mem_of_getElem? hg))
      rw [hrun]
      show m'.memory.size = _
      rw [hend.size_eq, hend.floor_eq, Core.Program.left, hmain]
      rfl

/-- Memory cannot outgrow the addresses in few steps. -/
theorem Laid.steps_of_lost (hl : Laid s t p) (hshort : t.Short) {m' : Machine}
    (hpath : Path s (m.start s) ms m') (hlost : 2 ^ 63 ≤ m'.memory.size) : 2 ^ 32 ≤ ms.length := by
  obtain ⟨g, hg, -, -, -, hlocals⟩ := hl.entry
  have hplaced : Placed s (m.start s) := by
    unfold Placed
    rw [frames_start m hg.routine]
    intro f hf
    cases List.mem_singleton.mp hf
    exact Array.mem_of_getElem? hg.routine
  have hstart : (m.start s).memory.size = s.module.globals.size := by
    simp [start, hg.routine, enter, reserve, hlocals]
  have hglobals : s.module.globals.size < 2 ^ 31 := by
    rw [hl.module]
    simpa [ProgramTables.module] using hshort.globals
  have hsize := size_path (hl.moderate hshort) hpath hplaced
  omega

/-- **Compiled programs never fault.** Whatever the input, the limit and the runs before: a run of
the module that an accepted program is compiled to ends with an error that is to be expected, or
with the result of its main function alone on the stack. The only other way is that memory has
come to have 2^63 words, and that takes 2^32 steps. -/
theorem compiled_runs_never_fault (o : CompilerOptions) {p : Program} {a : Analysis}
    (ha : p.analyse.result = .ok a) (hshort : a.tables.Short)
    (hmain : ∀ f ∈ a.tables.functions.rows, f.name = "main" → f.paramCount = 0)
    (s : Setup) (hs : (p.load o).result = .ok s.module) (m : Machine)
    (hm : Reached s.module m) :
    RunsSafely a.tables s m ∨
      (2 ^ 32 ≤ s.maxSteps ∧
        ∃ z ∈ states s (s.maxSteps + 1) (m.start s), 2 ^ 63 ≤ z.memory.size) := by
  have hdescribes := Program.describes ha
  have hmodule : s.module = a.tables.module := by
    rw [(Program.compile_of_writable o ha (hdescribes.writable hshort)).2] at hs
    exact (Except.ok.inj hs).symm
  have hl : Laid s a.tables a.core :=
    ⟨hmodule, hdescribes, Nat.lt_trans hshort.functions (by decide),
      fun f hf => Nat.lt_trans (hshort.rows f hf).2.2 (by decide)⟩
  have hglobals : s.module.globals.size < 2 ^ 63 := by
    rw [hmodule]
    simpa [ProgramTables.module] using Nat.lt_trans hshort.globals (by decide)
  obtain ⟨f, hf, ms, m', hpath, hend⟩ := leads_program (n := s.maxSteps + 1) hl hmain hglobals
    hm.sound
  have hpath : Path s (m.start s) ms m' := hpath
  obtain hlost | hend := hend
  · obtain ⟨hcut, -⟩ | ⟨hsteps, others, hstates⟩ := run_path hpath
    · exact .inl (.of_cut hcut)
    · exact .inr ⟨Nat.le_trans (hl.steps_of_lost hshort hpath hlost) hsteps, m',
        by rw [hstates]; simp, hlost⟩
  · refine .inl ?_
    generalize (a.core.compute (library a.core s.module) (s.maxSteps + 1)).outcome _ = r at hend
    obtain ⟨(e | _) | x, st⟩ := r
    · obtain ⟨m₁, g, hact, -⟩ := hend
      exact .of_failure hpath hact
    · have hlong : s.maxSteps + 1 ≤ ms.length := hend.1
      exact .of_cut (run_exceeds hpath (by omega)).1
    · exact .of_end hdescribes hf hpath hend.holds

end

/-- The main function of the sample has no parameters. -/
theorem sample_main {a : Analysis} (ha : sample.analyse.result = .ok a) :
    ∀ f ∈ a.tables.functions.rows, f.name = "main" → f.paramCount = 0 := by
  obtain ⟨_, ha', h⟩ := exists_ok (r := sample.analyse.result)
    (p := fun a => ∀ f ∈ a.tables.functions.rows, f.name = "main" → f.paramCount = 0)
    (by rw [sample, Text.bytesOf_concat, Text.bytesOf_ofList]; decide +kernel)
  cases ha.symm.trans ha'
  exact of_decide_eq_true h

theorem compiled_runs_never_fault_sample : ∃ a s, sample.analyse.result = .ok a ∧
    (sample.load {}).result = .ok s.module ∧
    RunsSafely a.tables s ((Machine.run s { input := ⟨[], false⟩ }).1) := by
  obtain ⟨a, ha, hshort⟩ := sample_accepted
  have hload := (Program.compile_of_writable {} ha ((Program.describes ha).writable hshort)).2
  refine ⟨a, ⟨"sample", a.tables.module, 1000, false, false⟩, ha, hload, ?_⟩
  obtain hsafe | ⟨hsteps, -⟩ := compiled_runs_never_fault {} ha hshort (sample_main ha)
    ⟨"sample", a.tables.module, 1000, false, false⟩ hload _
    (.again (m := { input := ⟨[], false⟩ }) (.fresh rfl) rfl)
  · exact hsafe
  · exact absurd hsteps (show ¬2 ^ 32 ≤ 1000 by decide)

end TinyC
