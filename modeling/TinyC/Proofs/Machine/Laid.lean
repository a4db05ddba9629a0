import TinyC.Proofs.Machine.Course
import TinyC.Proofs.Module.Compiled

/-!
# Programs in a machine

A machine whose module comes from the tables of a program holds the code of each function of the
program at its slot (`Laid.row`), and at slot zero the code of the entry function (`Laid.entry`).
The entry function is laid out like a block that assigns the initial values of the globals, with
the call of the main function behind it.
-/

namespace TinyC

open Core Machine

namespace Core

/-- Initial values are assigned in order. -/
def initBlock : List Init → Block
  | [] => .nil
  | i :: is => .cons (.assign ⟨.global, i.slot⟩ i.value) (initBlock is)

theorem code_initBlock (is : List Init) (start : Nat) (loop : Loop) :
    (initBlock is).code start loop = is.flatMap Init.code := by
  induction is generalizing start with
  | nil => rfl
  | cons i is ih => simp [initBlock, Block.code, Stmt.code, Init.code, ih]

theorem gives_initBlock {τ σ : Type} {L : Leaves τ σ} {n : Nat} (is : List Init) (start : Nat) :
    ((initBlock is).exec L n start).Gives (· = .normal) := by
  induction is generalizing start with
  | nil => exact Act.gives_pure rfl
  | cons i is ih =>
    refine Act.Gives.bind (P := (· = .normal)) ?_ ?_
    · exact Act.gives_bind fun _ => Act.gives_bind fun _ => Act.gives_pure rfl
    · rintro _ rfl
      exact ih _

theorem typed_initBlock {Γ : Env} {is : List Init} (h : ∀ i ∈ is, i.value.Typed Γ ∧
    Γ.place? ⟨.global, i.slot⟩ = some i.value.type ∧ i.value.type.isNumeric = true) :
    (initBlock is).Typed Γ false := by
  induction is with
  | nil => exact trivial
  | cons i is ih =>
    exact ⟨h i List.mem_cons_self, ih fun j hj => h j (List.mem_cons_of_mem i hj)⟩

/-- The code of a function has a return behind its body if the body can come to its end. -/
theorem Fn.Typed.needsReturn {Γ : Env} {fn : Fn} (hfn : fn.Typed Γ)
    (h : fn.body.terminates = false) : fn.needsReturn = true := by
  have hvoid : fn.type = .void := by
    by_cases hvoid : fn.type = .void
    · exact hvoid
    · rw [hfn.returns hvoid] at h
      cases h
  simp [Fn.needsReturn, hvoid]

end Core

section

variable {π : Type}

/-- The machine has the module of a program, whose codes are no longer than codes can be. -/
structure Laid (s : Setup) (t : ProgramTables π) (p : Core.Program) : Prop where
  module : s.module = t.module
  describes : t.Describes p
  functions : t.functions.rows.length < 2 ^ 63
  codes : ∀ f ∈ t.functions.rows, f.code.length < 2 ^ 63

/-- A row of the tables is that of a function in the machine, with the code of the function. -/
structure Holding (s : Setup) (t : ProgramTables π) (k : Nat) (code : List Instr) (g : Function π) :
    Prop where
  row : t.functions.rows[k]? = some g
  routine : s.module.functions[k]? = some g.routine
  slot : g.routine.slot.toNat = k
  code : g.routine.code.toList = code
  long : g.routine.code.size < 2 ^ 63
  params : g.paramCount = g.paramTypes.length
  locals : g.locals.count = g.locals.rows.length

section

variable {s : Setup} {t : ProgramTables π} {k : Nat} {fn : Fn} {g : Function π}

/-- The code of a function starts with that of its body. -/
theorem Holding.sits_body (h : Holding s t k fn.code g) :
    fn.body.code 0 ⟨0, 0⟩ <+: g.routine.code.toList := by
  rw [h.code]
  exact List.prefix_append _ _

/-- Behind a body that can come to its end stands a return. -/
theorem Holding.code_return (h : Holding s t k fn.code g) {Γ : Env} (htyped : fn.Typed Γ)
    (hend : fn.body.terminates = false) : g.routine.code[fn.body.size]? = some ⟨.ret, 0⟩ := by
  rw [← Array.getElem?_toList, h.code, Fn.code, htyped.needsReturn hend,
    ← fn.body.length_code 0 ⟨0, 0⟩]
  exact List.getElem?_concat_length

end

namespace Laid

variable {s : Setup} {t : ProgramTables π} {p : Core.Program} {k : Nat} {g : Function π}

theorem size_functions (hl : Laid s t p) : s.module.functions.size < 2 ^ 63 := by
  rw [hl.module]
  simpa [ProgramTables.module] using hl.functions

/-- What is at a slot of the tables is in the module, with its code. -/
theorem holding (hl : Laid s t p) {code : List Instr} (hg : t.functions.rows[k]? = some g)
    (hcode : p.codes[k]? = some code) (hparams : g.paramCount = g.paramTypes.length)
    (hlocals : g.locals.count = g.locals.rows.length) : Holding s t k code g := by
  have hslot : g.slot = k := hl.describes.functions k g hg
  refine ⟨hg, ?_, ?_, ?_, ?_, hparams, hlocals⟩
  · rw [hl.module]
    simp [ProgramTables.module, hg]
  · rw [Function.routine, hslot]
    rfl
  · rw [hl.describes.code_eq hg] at hcode
    rw [Function.routine, List.toList_toArray]
    exact Option.some.inj hcode
  · rw [Function.routine, List.size_toArray]
    exact hl.codes g (List.mem_of_getElem? hg)

/-- A function of the program is in the module, with its code and at its slot. -/
theorem row (hl : Laid s t p) {fn : Fn} (hfn : p.functions[k]? = some fn) :
    ∃ g, Holding s t (k + 1) fn.code g ∧ fn.Typed (t.env g) := by
  obtain ⟨g, hg, hrow⟩ := hl.describes.rows k fn hfn
  refine ⟨g, hl.holding hg ?_ hrow.params hrow.locals, hrow.typed⟩
  rw [Core.Program.codes, List.getElem?_cons_succ, List.getElem?_map, hfn]
  rfl

/-- The entry function is in the module. It has no variables of its own. -/
theorem entry (hl : Laid s t p) :
    ∃ g, Holding s t 0 p.entryCode g ∧ (initBlock p.inits).Typed (t.env g) false ∧
      g.routine.returns = 0 ∧ g.routine.params = 0 ∧ g.routine.locals = 0 := by
  obtain ⟨g, hg, htype, hparams, hlocals, hinits⟩ := hl.describes.entry
  have hcount : g.paramCount = 0 := by simp [Function.paramCount, hparams]
  refine ⟨g, hl.holding hg rfl ?_ ?_, typed_initBlock hinits, ?_, hcount, ?_⟩
  · simp [hcount, Function.paramTypes, hparams]
  · simp [hlocals]
  · simp [Function.routine, htype, Ty.slots]
  · simp [Function.routine, hlocals]

theorem length_functions (hl : Laid s t p) : t.functions.rows.length = p.functions.length + 1 := by
  have := congrArg List.length hl.describes.codes
  simpa [Core.Program.codes] using this

/-- A row behind the first one is that of a function of the program. -/
theorem function_of_row (hl : Laid s t p) (hg : t.functions.rows[k + 1]? = some g) :
    ∃ fn, p.functions[k]? = some fn ∧ Holding s t (k + 1) fn.code g ∧ fn.Typed (t.env g) := by
  have hk : k < p.functions.length := by
    have hlt := (List.getElem?_eq_some_iff.mp hg).1
    rw [hl.length_functions] at hlt
    omega
  have hfn : p.functions[k]? = some (p.functions.get ⟨k, hk⟩) := List.getElem?_eq_getElem hk
  obtain ⟨g', hholds, htyped⟩ := hl.row hfn
  have hsame := hholds.row
  rw [hg] at hsame
  cases hsame
  exact ⟨_, hfn, hholds, htyped⟩

/-- The code of the entry function: the initial values, and the call of the main function. -/
theorem size_entry (hg : Holding s t 0 p.entryCode g) :
    g.routine.code.size = (initBlock p.inits).size + (mainCode p.main).length := by
  rw [← Array.length_toList, hg.code, Core.Program.entryCode, List.length_append,
    ← code_initBlock p.inits 0 ⟨0, 0⟩, Block.length_code]

end Laid

end

/-! ## The two ends of a run -/

section

variable {s : Setup} {m : Machine}

theorem Machine.frames_start (m : Machine) {r : Routine} (hr : s.module.functions[0]? = some r) :
    (m.start s).frames = [⟨r, 0, s.module.globals.size, s.module.globals.size⟩] := by
  simp [start, hr, enter]

theorem Machine.steps_start (s : Setup) (m : Machine) : (m.start s).steps = 0 := by
  unfold start
  dsimp only
  split <;> rfl

/-- The error of a run that comes to its end: what stopped it, or that the output cannot be
delivered. -/
def Machine.runError (m : Machine) : Option Stop → Option RunError
  | some stop => some (.stopped stop)
  | none => if m.output.flush.failed then some .flush else none

/-- The run is cut short. -/
def Machine.RunCut (s : Setup) (m : Machine) : Prop :=
  ∃ stop, (m.run s).2 = some (.stopped stop) ∧ CutOff s (some stop)

/-- A run that is cut short ends with the reason. -/
theorem Machine.run_cutOff (h : CutOff s (advance s (s.maxSteps + 1) (m.start s)).2) :
    m.RunCut s := by
  unfold RunCut run
  generalize advance s (s.maxSteps + 1) (m.start s) = e at h
  obtain ⟨m', stop⟩ := e
  obtain rfl | ⟨e, rfl, he⟩ := h
  · exact ⟨_, rfl, .inl rfl⟩
  · exact ⟨_, rfl, .inr ⟨e, rfl, he⟩⟩

variable {m' m'' : Machine} {ms : List Machine}

/-- A run along a path goes to the end of the path, unless it is cut short on it. -/
theorem Machine.run_path (hpath : Path s (m.start s) ms m') :
    (m.RunCut s ∧ states s (s.maxSteps + 1) (m.start s) <+: ms) ∨
      ms.length ≤ s.maxSteps ∧
        ∃ others, states s (s.maxSteps + 1) (m.start s) = ms ++ m' :: others := by
  have hsteps := steps_start s m
  obtain ⟨hcut, hpassed⟩ | ⟨n, hn, hlen, hle, -, hstates⟩ :=
    advance_path hpath (n := s.maxSteps + 1) (by omega) (by omega)
  · exact .inl ⟨run_cutOff hcut, hpassed⟩
  · obtain ⟨k, rfl⟩ : ∃ k, n = k + 1 := ⟨n - 1, by omega⟩
    exact .inr ⟨by omega, _, hstates⟩

/-- A run along a path that ends ends as the path does, unless it is cut short on it. -/
theorem Machine.run_halts {stop : Option Stop} (hpath : Path s (m.start s) ms m')
    (hend : m'.act s = .halt m'' stop) :
    (m.RunCut s ∧ states s (s.maxSteps + 1) (m.start s) <+: ms ++ [m']) ∨
      states s (s.maxSteps + 1) (m.start s) = ms ++ [m'] ∧
        m.run s = ({ m'' with output := m''.output.flush }, m''.runError stop) := by
  have hsteps := steps_start s m
  obtain ⟨hcut, hpassed⟩ | ⟨hadvance, hstates⟩ :=
    advance_halts hpath hend (n := s.maxSteps + 1) (by omega) (by omega)
  · exact .inl ⟨run_cutOff hcut, hpassed⟩
  · refine .inr ⟨hstates, ?_⟩
    unfold run
    rw [hadvance]
    cases stop <;> rfl

/-- A run along a path with more steps than it is allowed is cut short. -/
theorem Machine.run_exceeds (hpath : Path s (m.start s) ms m') (hlong : s.maxSteps < ms.length) :
    m.RunCut s ∧ states s (s.maxSteps + 1) (m.start s) <+: ms := by
  obtain hcut | ⟨hle, -⟩ := run_path hpath
  · exact hcut
  · omega

end

end TinyC
