import TinyC.Proofs.Machine.Stations

/-!
# The call of the main function

Behind the initial values of the globals, the entry function makes room for the result of the main
function and calls it. It pushes no arguments. So a run whose initial values do not fail comes to
the call with nothing but that room on the stack (`leads_mainCall`). A main function without
parameters is entered there, and with one that has parameters every run ends.
-/

namespace TinyC

open Core Machine

/-- The index of the call of the main function in the code of the entry function. -/
def Core.Program.callIndex (p : Core.Program) : Nat :=
  (p.inits.flatMap Init.code).length + 1

namespace Machine

/-- The course of a run comes to a state, and so does the run if it is not cut short before. -/
def Comes (s : Setup) (m z : Machine) : Prop :=
  ∃ ms, Path s (m.start s) ms z ∧
    ((m.RunCut s ∧ states s (s.maxSteps + 1) (m.start s) <+: ms) ∨
      z ∈ states s (s.maxSteps + 1) (m.start s))

theorem comes_of_path {s : Setup} {m z : Machine} {ms : List Machine}
    (h : Path s (m.start s) ms z) : Comes s m z := by
  refine ⟨ms, h, (run_path h).imp_right fun ⟨_, others, hstates⟩ => ?_⟩
  rw [hstates]
  exact List.mem_append_right ms List.mem_cons_self

end Machine

section

variable {π : Type} {s : Setup} {t : ProgramTables π} {p : Core.Program} {g : Function π}
  {m : Machine} {n k : Nat}

/-- The run comes to the call of the main function, which is at slot `k`. Nothing is on the stack
but room for the result. The main function is entered if it has no parameters, or else the run
ends. -/
def CallsMain (p : Core.Program) (s : Setup) (m : Machine) (k : Nat) (g : Function π) : Prop :=
  ∃ y entry, Comes s m y ∧ s.module.functions[0]? = some entry ∧
    y.frames = [⟨entry, p.callIndex, s.module.globals.size, s.module.globals.size⟩] ∧
    y.memory.size = s.module.globals.size + g.type.slots ∧
    (g.paramCount = 0 → ∃ z, Comes s m z ∧ z.frames =
      [⟨g.routine, 0, s.module.globals.size, s.module.globals.size + g.type.slots⟩,
        ⟨entry, p.callIndex + 1, s.module.globals.size, s.module.globals.size⟩]) ∧
    (g.paramCount ≠ 0 → m.RunCut s ∨ (m.run s).2 = some (.stopped (.error
      ⟨0, p.callIndex, ⟨.call, Int64.ofNat k⟩, .callUnderflow k⟩)))

/-- Where the initial values are assigned, the machine comes to the call of the main function. -/
theorem Machine.leads_mainCall (hl : Laid s t p) (hg : t.functions.rows[k]? = some g)
    (hname : g.name = "main") (hsmall : s.module.globals.size < 2 ^ 63)
    (hmemo : m.memo.Sound s.module) :
    ∃ entry : Function π, Holding s t 0 p.entryCode entry ∧
      entry.routine.code[p.callIndex]? = some ⟨.call, Int64.ofNat k⟩ ∧
      (watchStore s n).Leads [] (m.start s)
        ((p.initialise (library p s.module) n).outcome (firstStore s m))
        fun _ => Ready s n n
          ⟨entry.routine, 0, s.module.globals.size, s.module.globals.size⟩ [] []
          (List.replicate g.type.slots 0) p.callIndex := by
  obtain ⟨entry, hentry, hsits, hinits⟩ := leads_inits (n := n) hl hsmall hmemo
  rw [hl.describes.named k g hg hname] at hsits
  have hindex : (initBlock p.inits).size + 1 = p.callIndex := by
    rw [Core.Program.callIndex, ← code_initBlock p.inits 0 ⟨0, 0⟩, Block.length_code]
  have hroom := hsits.instr
  have hcall := hsits.tail.instr
  rw [hindex] at hcall
  refine ⟨entry, hentry, hcall, hinits.andThen fun _ h' m' st' _ hready => ?_⟩
  refine hready.room (.function k g.type) hroom fun m₁ hr₁ => Watch.leads_now ?_
  rwa [hindex] at hr₁

/-- A machine that has come to the call of the main function. -/
theorem callsMain_of_holds (hl : Laid s t p) (hg : t.functions.rows[k]? = some g)
    (hparams : g.paramCount < 2 ^ 63) {entry : Function π}
    (hentry : Holding s t 0 p.entryCode entry)
    (hcall : entry.routine.code[p.callIndex]? = some ⟨.call, Int64.ofNat k⟩)
    {ms : List Machine} {y : Machine} {st : Store} (hpath : Path s (m.start s) ms y)
    (hh : Holds s ⟨entry.routine, 0, s.module.globals.size, s.module.globals.size⟩ [] []
      (List.replicate g.type.slots 0) p.callIndex y st) : CallsMain p s m k g := by
  have hslot (j : Nat) (f : Function π) (hf : t.functions.rows[j]? = some f) :
      f.routine.slot = j :=
    congrArg _ (hl.describes.functions j f hf)
  have hroutine : s.module.functions[k]? = some g.routine := by
    rw [hl.module]
    simp [ProgramTables.module, hg]
  have hlocals : entry.routine.locals = 0 := by
    obtain ⟨entry', hentry', -, -, -, hlocals⟩ := hl.entry
    cases hentry'.row.symm.trans hentry.row
    exact hlocals
  have hone : g.type.slots ≤ 1 := by cases g.type <;> decide
  have hsize := hh.size_eq
  have hfloor := hh.floor_eq (p.callIndex + 1)
  have hglobals : (floorWords [] st).length = s.module.globals.size := by
    rw [← hfloor]
    simp [Frame.floor, Frame.at, hlocals]
  have hlong := hh.length_lt
  rw [hglobals, List.length_replicate] at hsize
  refine ⟨y, entry.routine, comes_of_path hpath, hentry.routine, hh.synced.frames, hsize,
    fun hnone => ?_, fun hsome => ?_⟩
  · have hwords : floorWords [] st ++ List.replicate g.type.slots 0
        = floorWords [] st ++ List.replicate g.type.slots 0 ++ [] := (List.append_nil _).symm
    obtain ⟨z, hact, hlike⟩ := hh.act_next hcall (by
      rw [hwords]
      exact execute_enter hl.size_functions hroutine
        (show _ = g.type.slots from List.length_replicate)
        (show ([] : List UInt64).length = g.paramCount from hnone.symm) (hwords ▸ hlong)
        (Nat.le_of_eq hfloor) _)
    refine ⟨z, comes_of_path (hpath.append (.cons hact (.nil z))), ?_⟩
    rw [hlike.frames]
    simp [enter, withMemory, Frame.at, hglobals]
  · obtain ⟨z, hact, -⟩ := hh.act_halt hcall (execute_starved hl.size_functions hroutine
      (show g.type.slots + g.paramCount ≤ 2 ^ 63 by omega) hlong (hh.floor_le _ _) (by
        rw [hfloor, List.length_append, List.length_replicate]
        show _ < _ + (g.type.slots + g.paramCount)
        omega) _)
    obtain ⟨hcut, -⟩ | ⟨-, hrun⟩ := run_halts hpath hact
    · exact .inl hcut
    · rw [hrun]
      simp [runError, stopAt, errorAt, Frame.at, hcall, hslot 0 entry hentry.row, hslot k g hg]

/-- **Exactly a main function without parameters is entered.** Whatever the input, the limit and the
runs before: if the initial values of an accepted program fail, the run ends for their reason or is
cut short. Otherwise it comes to the call of the main function. There the room for the result is on
the stack and no arguments are. So the main function is entered if it has no parameters; if it has
some, the run ends with the error that the stack does not hold enough for the call. The only other
way is that memory comes to have 2^63 words. -/
theorem main_is_entered_without_params {p : Program} {a : Analysis}
    (ha : p.analyse.result = .ok a) (hsize : a.tables.Addressable) {s : Setup}
    (hs : s.module = a.tables.module) {m : Machine} (hm : Reached s.module m) {k : Nat}
    {g : Function Position} (hg : a.tables.functions.rows[k]? = some g) (hname : g.name = "main") :
    (∃ z, Comes s m z ∧ 2 ^ 63 ≤ z.memory.size) ∨
    match (a.core.initialise (library a.core s.module) (s.maxSteps + 1)).outcome (firstStore s m) with
    | (.error (.trap e), _) => m.RunCut s ∨
      ∃ e', (m.run s).2 = some (.stopped (.error e')) ∧ e'.trap = trapOf e
    | (.error .timeout, _) => m.RunCut s
    | (.ok _, _) => CallsMain a.core s m k g := by
  have hl : Laid s a.tables a.core := Program.laid ha hsize hs
  by_cases hsmall : 2 ^ 63 ≤ (m.start s).memory.size
  · exact .inl ⟨m.start s, comes_of_path (.nil _), hsmall⟩
  have hglobals : s.module.globals.size < 2 ^ 63 := by
    obtain ⟨entry, hentry, -⟩ := hl.entry
    have hstart : s.module.globals.size ≤ (m.start s).memory.size := by
      simp [start, hentry.routine, enter, reserve]
    omega
  obtain ⟨entry, hentry, hcall, ms, y, hpath, hend⟩ :=
    leads_mainCall (n := s.maxSteps + 1) hl hg hname hglobals hm.sound
  have hpath : Path s (m.start s) ms y := hpath
  obtain hlost | hend := hend
  · exact .inl ⟨y, comes_of_path hpath, hlost⟩
  refine .inr ?_
  generalize (a.core.initialise (library a.core s.module) (s.maxSteps + 1)).outcome _ = r at hend ⊢
  obtain ⟨(e | _) | x, st⟩ := r
  · obtain ⟨m₁, f, hact, -⟩ := hend
    obtain ⟨hcut, -⟩ | ⟨-, hrun⟩ := run_halts hpath hact
    · exact .inl hcut
    · exact .inr ⟨_, congrArg Prod.snd hrun, rfl⟩
  · have hlong : s.maxSteps + 1 ≤ ms.length := hend.1
    exact (run_exceeds hpath (by omega)).1
  · exact callsMain_of_holds hl hg (hsize.rows g (List.mem_of_getElem? hg)).2 hentry hcall hpath
      hend.holds

end

/-- The sample has a main function without parameters. -/
theorem main_is_entered_without_params_sample : ∃ a k g, sample.analyse.result = .ok a ∧
    a.tables.functions.rows[k]? = some g ∧ g.name = "main" ∧ g.paramCount = 0 ∧
    CallsMain a.core ⟨"sample", a.tables.module, 1000, false, false⟩ unfed k g := by
  obtain ⟨a, ha, h⟩ := exists_ok (r := sample.analyse.result) (p := fun a =>
      let s : Setup := ⟨"sample", a.tables.module, 1000, false, false⟩
      decide a.tables.Short &&
        (a.tables.functions.rows[2]?).any (fun g => g.name = "main" ∧ g.paramCount = 0) &&
        decide ((unfed.run s).2 = none) &&
        (states s 1001 (unfed.start s)).all (fun z => z.memory.size < 2 ^ 63) &&
        ((a.core.initialise (library a.core s.module) 1001).outcome (firstStore s unfed)).1.isOk)
    (by rw [sample, Text.bytesOf_concat, Text.bytesOf_ofList]; decide +kernel)
  simp only [Bool.and_eq_true, Option.any_eq_true, List.all_eq_true, decide_eq_true_eq] at h
  obtain ⟨⟨⟨⟨hshort, g, hg, hname, hnone⟩, hrun⟩, hstates⟩, hok⟩ := h
  refine ⟨a, 2, g, ha, hg, hname, hnone, ?_⟩
  obtain ⟨z, ⟨ms, -, ⟨⟨stop, hcut, -⟩, -⟩ | hz⟩, hlong⟩ | hend :=
    main_is_entered_without_params ha hshort.addressable
      (s := ⟨"sample", a.tables.module, 1000, false, false⟩) rfl (m := unfed) (.fresh rfl) hg hname
  · cases hrun.symm.trans hcut
  · exact absurd (hstates z hz) (Nat.not_lt.mpr hlong)
  · generalize (a.core.initialise _ _).outcome _ = r at hok hend
    obtain ⟨e | x, st⟩ := r
    · cases hok
    · exact hend

/-- A program whose main function has a parameter. -/
def demanding : Program where
  name := "demanding"
  bytes := Text.bytesOf "fn main(x: int) -> void \x7b \x7d"

/-- It is accepted, but its main function is never entered. -/
theorem main_with_params_underflows : ∃ a, demanding.analyse.result = .ok a ∧
    (unfed.run ⟨"demanding", a.tables.module, 1000, false, false⟩).2
      = some (.stopped (.error ⟨0, 1, ⟨.call, 1⟩, .callUnderflow 1⟩)) := by
  obtain ⟨a, ha, h⟩ := exists_ok (r := demanding.analyse.result)
    (p := fun a => (unfed.run ⟨"demanding", a.tables.module, 1000, false, false⟩).2
      = some (.stopped (.error ⟨0, 1, ⟨.call, 1⟩, .callUnderflow 1⟩)))
    (by rw [demanding, Text.bytesOf_ofList]; decide +kernel)
  exact ⟨a, ha, of_decide_eq_true h⟩

end TinyC
