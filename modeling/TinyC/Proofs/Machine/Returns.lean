import TinyC.Proofs.Machine.Stores

/-!
# Results come from return statements

A function with a result returns in one way only: a return statement stores the value in the slot
of the result, and the next instruction is the return behind it, in the same frame. Neither what
stands behind a return statement nor the return behind the body is ever come to, whatever branches
lead there, and control does not come to the end of the code.

The plan of a function tells both. A return is planned where the result has just been stored, and
no other station leads there (`Strides.stored`); and the plan says nothing of the end of a body that
always returns (`Fn.lt_size_of_station`).
-/

namespace TinyC

open Core Machine

section

variable {π : Type} {s : Setup} {t : ProgramTables π} {p : Core.Program} {f : Frame}
  {outer : List Frame} {k : Nat} {g : Function π} {σ : Script} {st : Station} {below : List Slot}

/-- A routine tells the function it is of. -/
theorem Scripted.unique {k' : Nat} {g' : Function π} {σ' : Script} (h : Scripted s t p k g σ)
    (h' : Scripted s t p k' g' σ') (hroutine : g.routine = g'.routine) :
    k = k' ∧ g = g' ∧ σ = σ' := by
  obtain rfl : k = k' := by rw [← h.holding.slot, hroutine, h'.holding.slot]
  have hrow := h.holding.row
  rw [h'.holding.row] at hrow
  cases hrow
  have hscript := h.script
  rw [h'.script] at hscript
  cases hscript
  exact ⟨rfl, rfl, rfl⟩

/-- Frames that wait are where the plans of their functions say. -/
theorem Beneath.station_of_mem {result : Ty} (h : Beneath s t p k result outer below)
    (hf : f ∈ outer) : ∃ k g σ below st, Seated s t p f k g σ below ∧ σ.station f.pc = some st := by
  induction h with
  | globals => cases hf
  | caller hslot hseated hstation hbeneath ih =>
    rcases List.mem_cons.mp hf with rfl | hf
    · exact ⟨_, _, _, _, _, hseated, hstation⟩
    · exact ih hf

/-- All frames are. -/
theorem Settled.station_of_mem {m : Machine} {slots : List Slot} (h : Settled s t p m slots)
    (hf : f ∈ m.frames) :
    ∃ k g σ below st, Seated s t p f k g σ below ∧ σ.station f.pc = some st := by
  obtain ⟨f₀, outer, k, g, σ, st, below, hframes, hpoised, -⟩ := h
  rw [hframes] at hf
  rcases List.mem_cons.mp hf with rfl | hf
  · exact ⟨k, g, σ, below, st, hpoised.seated, hpoised.station⟩
  · exact hpoised.beneath.station_of_mem hf

/-- A return is planned behind the store of a result, if there is one. -/
theorem Core.Script.Sound.leaving (h : σ.Sound) {i : Nat} {x : Int64}
    (hcode : σ.code[i]? = some ⟨.ret, x⟩) (hst : σ.station i = some st) :
    st.leaving = true ↔ σ.env.result ≠ .void := by
  generalize hinstr : (⟨.ret, x⟩ : Instr) = instr at hcode
  cases h.sound i instr st hcode hst with
  | leave hleaving => exact hleaving
  | move hmoves =>
    subst hinstr
    exact absurd rfl (straight_moves hmoves).2.2.2.2
  | test hop =>
    cases hinstr
    rcases hop with hop | hop <;> cases hop
  | push | call | starve | result | branch => cases hinstr

/-- A step stores a value in the slot of the result of its frame, as a return statement of the body
has it; the next instruction is the one behind the store. -/
structure StoresResult (body : Block) (f : Frame) (outer : List Frame) (x z : Machine) : Prop where
  instruction : ∃ q, q ∈ body.resultStores 0 ∧ f.routine.code[q]? = some ⟨.store64, 0⟩ ∧
    x.frames = f.at q :: outer ∧ f.pc = q + 1
  result : ∃ l value, x.memory.toList = l ++ [UInt64.ofNat f.args, value] ∧
    z.memory.toList = l.set f.args value

variable {x z : Machine} {i : Instr} {slots : List Slot}

/-- The store of a result changes the word in its slot, and takes the operands away. -/
theorem Strides.stores_word (h : Strides s t p x z f outer k g σ st below i slots)
    (hst : st = ⟨[.value σ.env.result, .address ⟨.param, 0⟩], false⟩) (hi : i = ⟨.store64, 0⟩)
    (hresult : σ.env.result ≠ .void) (hlong : x.memory.size < 2 ^ 63) (hstep : x.step s = .next z) :
    ∃ l value, x.memory.toList = l ++ [UInt64.ofNat f.args, value] ∧
      z.memory.toList = l.set f.args value := by
  obtain ⟨l, value, hx, hz, -⟩ := h.stores_at hst hi (Env.slot?_result hresult) hlong hstep
  exact ⟨l, value, hx, hz⟩

/-- **Only the store of a return statement leads to the return of a function with a result.** -/
theorem Strides.stored (h : Strides s t p x z f outer k g σ st below i slots)
    (hlong : x.memory.size < 2 ^ 63) (hstep : x.step s = .next z) {k' : Nat} {g' : Function π}
    {σ' : Script} (hscripted : Scripted s t p k' g' σ') (hvoid : σ'.env.result ≠ .void)
    {f' : Frame} {outer' : List Frame} (hframes : z.frames = f' :: outer')
    (hroutine : f'.routine = g'.routine) {operand : Int64}
    (hcode : f'.routine.code[f'.pc]? = some ⟨.ret, operand⟩) :
    i = ⟨.store64, 0⟩ ∧ f.pc ∈ σ'.stores ∧ f' = f.at (f.pc + 1) ∧ outer' = outer ∧
      ∃ l value, x.memory.toList = l ++ [UInt64.ofNat f'.args, value] ∧
        z.memory.toList = l.set f'.args value := by
  have hret : σ'.code[f'.pc]? = some ⟨.ret, operand⟩ := by
    rw [← hscripted.holding.code, ← hroutine, Array.getElem?_toList, hcode]
  -- a station without its result stored is none of a return
  have hcontra {st' : Station} (hst' : σ'.station f'.pc = some st') (hnot : st'.leaving = false) :
      False := by
    have hleaving := (hscripted.sound.leaving hret hst').mpr hvoid
    rw [hnot] at hleaving
    cases hleaving
  have honward := h.onward
  generalize hmemory : z.memory.toList = l' at honward
  rw [hframes] at honward
  generalize hstack : f' :: outer' = frames at honward
  cases honward with
  | @turn q st' l' hturns hstation hfilled' hspares =>
    cases hstack
    obtain ⟨rfl, rfl, rfl⟩ := hscripted.unique h.poised.seated.scripted
      (hroutine.symm.trans h.poised.seated.routine)
    cases hturns with
    | result hresult hstore =>
      exact ⟨rfl, hstore, rfl, rfl,
        hmemory ▸ h.stores_word rfl rfl hresult hlong hstep⟩
    | push | move | branch | test => exact (hcontra hstation rfl).elim
  | enter hslot hcall hscripted' hst hnext =>
    cases hstack
    obtain ⟨rfl, rfl, rfl⟩ := hscripted.unique hscripted' hroutine.symm
    exact (hcontra hscripted.sound.start rfl).elim
  | leave hret' hst hleaving =>
    cases hbeneath : h.poised.beneath with
    | globals => cases hstack
    | caller hslot hseated hstation hbeneath' =>
      cases hstack
      obtain ⟨rfl, rfl, rfl⟩ := hscripted.unique hseated.scripted
        (hroutine.symm.trans hseated.routine)
      exact (hcontra hstation rfl).elim

end

/-- **A function with a result returns what a return statement has stored.** Its code is that of its
body, with a return behind it where the body does not end in one. In every state of a run, the
frames of the function are inside its body: the return behind the body is never carried out, and
control never comes to the end of the code. And where a return of the function is the next
instruction, some step led there, and that was the store of a return statement in the same frame,
into the slot of the result. -/
theorem results_come_from_return_statements {p : Program} {a : Analysis}
    (ha : p.analyse.result = .ok a) (hsize : a.tables.Addressable) (s : Setup)
    (hs : s.module = a.tables.module) {m : Machine} (hm : Reached s.module m) {k : Nat} {fn : Fn}
    (hfn : a.core.functions[k]? = some fn) {g : Function Position}
    (hg : a.tables.functions.rows[k + 1]? = some g) (hvoid : g.type ≠ .void) {z : Machine}
    (hz : Passes s (m.start s) z) :
    g.routine.code.toList = fn.body.outerCode ++ (if fn.needsReturn then [⟨.ret, 0⟩] else []) ∧
      (∀ f ∈ z.frames, f.routine = g.routine → f.pc < fn.body.outerCode.length) ∧
      ∀ f outer operand, z.frames = f :: outer → f.routine = g.routine →
        f.routine.code[f.pc]? = some ⟨.ret, operand⟩ →
        (∃ x, Passes s (m.start s) x ∧ x.step s = .next z) ∧
          ∀ x, Passes s (m.start s) x → x.step s = .next z → StoresResult fn.body f outer x z := by
  have hl : Laid s a.tables a.core := Program.laid ha hsize hs
  obtain ⟨fn', hfn', hholds, htyped⟩ := hl.function_of_row hg
  rw [hfn] at hfn'
  cases hfn'
  have hscripted : Scripted s a.tables a.core (k + 1) g (fn.script (a.tables.env g)) :=
    ⟨hholds, by simp [Core.Program.script?, hfn], Fn.sound htyped⟩
  have hmemo : m.memo.Sound s.module := hm.sound
  refine ⟨hholds.code, fun f hf hroutine => ?_, fun f outer operand hframes hroutine hcode => ?_⟩
  · obtain ⟨slots, hsettled⟩ := settled_passes hl hsize hmemo hz
    obtain ⟨k', g', σ', below, st, hseated, hstation⟩ := hsettled.station_of_mem hf
    obtain ⟨rfl, rfl, rfl⟩ := hscripted.unique hseated.scripted
      (hroutine.symm.trans hseated.routine)
    rw [Block.outerCode, Block.length_code]
    exact Fn.lt_size_of_station (htyped.returns (htyped.result ▸ hvoid)) hstation
  · refine ⟨?_, fun x hx hstep => ?_⟩
    · cases hz with
      | start =>
        -- a run starts in the entry function, which has no result
        obtain ⟨g₀, hholds₀, -⟩ := hl.entry
        rw [frames_start m hholds₀.routine] at hframes
        cases hframes
        have hslot : g.routine.slot.toNat = 0 := hroutine ▸ hholds₀.slot
        rw [hholds.slot] at hslot
        cases hslot
      | next hx hstep => exact ⟨_, hx, hstep⟩
    · obtain ⟨slots, hsettled⟩ := settled_passes hl hsize hmemo hx
      have hmemox := sound_passes hx (by rwa [memo_start])
      obtain ⟨f₀, outer₀, k₀, g₀, σ₀, st, below, i, slots', -, hstrides⟩ :=
        hsettled.strides hl hsize hx.small hmemox hstep
      obtain ⟨rfl, hstore, rfl, rfl, hword⟩ :=
        hstrides.stored hx.small hstep hscripted hvoid hframes hroutine hcode
      exact ⟨⟨f₀.pc, hstore, hstrides.code, hstrides.frames, rfl⟩, hword⟩

/-- A run of the sample comes to the return of its first function. -/
theorem sample_returns : ∃ (a : Analysis) (g : Function Position) (z : Machine) (f : Frame)
    (outer : List Frame), sample.analyse.result = .ok a ∧ a.tables.Short ∧
    a.tables.functions.rows[1]? = some g ∧ g.type ≠ .void ∧
    Passes ⟨"sample", a.tables.module, 1000, false, false⟩
      (Machine.start ⟨"sample", a.tables.module, 1000, false, false⟩ { input := ⟨[], false⟩ }) z ∧
    z.frames = f :: outer ∧ f.routine = g.routine ∧ f.routine.code[f.pc]? = some ⟨.ret, 0⟩ := by
  obtain ⟨a, ha, h⟩ := exists_ok (r := sample.analyse.result) (p := fun a =>
      decide a.tables.Short && a.tables.functions.rows[1]?.any fun (g : Function Position) =>
        decide (g.type ≠ .void) && (states ⟨"sample", a.tables.module, 1000, false, false⟩ 40
          (Machine.start ⟨"sample", a.tables.module, 1000, false, false⟩
            { input := ⟨[], false⟩ })).any fun z => z.frames.head?.any fun (f : Frame) =>
              f.routine = g.routine ∧ f.routine.code[f.pc]? = some ⟨.ret, 0⟩)
    (by rw [sample, Text.bytesOf_concat, Text.bytesOf_ofList]; decide +kernel)
  simp only [Bool.and_eq_true, decide_eq_true_eq, Option.any_eq_true, List.any_eq_true] at h
  obtain ⟨hshort, g, hg, hvoid, z, hz, f, hf, hret⟩ := h
  obtain ⟨outer, hframes⟩ := List.head?_eq_some_iff.mp hf
  exact ⟨a, g, z, f, outer, ha, hshort, hg, hvoid, sample_passes ha hz, hframes, hret⟩

theorem results_come_from_return_statements_sample :
    ∃ a fn x z f outer, sample.analyse.result = .ok a ∧ a.core.functions[0]? = some fn ∧
      x.step ⟨"sample", a.tables.module, 1000, false, false⟩ = .next z ∧ z.frames = f :: outer ∧
      f.routine.code[f.pc]? = some ⟨.ret, 0⟩ ∧ StoresResult fn.body f outer x z := by
  obtain ⟨a, g, z, f, outer, ha, hshort, hg, hvoid, hz, hframes, hroutine, hcode⟩ := sample_returns
  obtain ⟨fn, hfn, -⟩ := (Program.laid ha hshort.addressable (s := ⟨"sample", a.tables.module, 1000,
    false, false⟩) rfl).function_of_row hg
  obtain ⟨-, -, hreturns⟩ := results_come_from_return_statements ha hshort.addressable
    ⟨"sample", a.tables.module, 1000, false, false⟩ rfl (.fresh rfl) hfn hg hvoid hz
  obtain ⟨⟨x, hx, hstep⟩, hall⟩ := hreturns f outer 0 hframes hroutine hcode
  exact ⟨a, fn, x, z, f, outer, ha, hfn, hstep, hframes, hcode, hall x hx hstep⟩

end TinyC
