import TinyC.Proofs.Machine.Stations

/-!
# Calls are isolated

What a function does stays above the operands of its caller, globals apart. From the call of a
function on, and until it has returned, the frame of its caller and all frames below it wait as they
were just behind the call, and no word below the arguments changes but those of globals
(`Secluded`). A step keeps this up, however deep the calls from the function go, for it changes
words of its own window and globals only (`Secluded.step`), and so it holds in every state of the
call (`secluded_within`). When the function returns, its arguments are gone, and its result is the
top operand of the caller.
-/

namespace TinyC

open Core Machine

/-- A state between a call and the return from it: none of the states before has had only so many
frames. -/
inductive Within (s : Setup) (n : Nat) (m : Machine) : Machine → Prop where
  | start (h : m.memory.size < 2 ^ 63) : Within s n m m
  | next {x y : Machine} (hx : Within s n m x) (hdeep : n < x.frames.length)
      (hstep : x.step s = .next y) (h : y.memory.size < 2 ^ 63) : Within s n m y

/-- The frame of a call and those above it stand on frames that wait, or the call has returned. -/
inductive Stacked (c : Frame) (waiting : List Frame) : List Frame → Prop where
  | inside (inner : List Frame) (q : Nat) : Stacked c waiting (inner ++ c.at q :: waiting)
  | returned : Stacked c waiting waiting

/-- The frames below a call wait, and no word below its arguments has changed but those of globals.
When it has returned, its result is the last word. -/
structure Secluded (globals : Nat) (c : Frame) (waiting : List Frame) (x z : Machine) : Prop where
  stacked : Stacked c waiting z.frames
  spares : Spares globals c.args x.memory.toList z.memory.toList
  size : z.frames = waiting → z.memory.size = c.args + c.routine.returns

section

variable {π : Type} {s : Setup} {t : ProgramTables π} {p : Core.Program} {f c : Frame}
  {outer waiting : List Frame} {k : Nat} {g : Function π} {σ : Script} {st : Station}
  {below slots : List Slot} {x y z w : Machine} {i : Instr}

/-- The states of a call are states of the run. -/
theorem Within.passes {n : Nat} {m : Machine} (h : Within s n y z) (hy : Passes s m y) :
    Passes s m z := by
  induction h with
  | start => exact hy
  | next _ _ hstep hsmall ih => exact .next ih hstep hsmall

/-- Frames that wait have their arguments below those of the frames above them. -/
theorem Beneath.args_le {result : Ty} (h : Beneath s t p k result outer below) (hf : f ∈ outer) :
    f.args ≤ below.length := by
  induction h with
  | globals => cases hf
  | caller hslot hseated hstation hbeneath ih =>
    rcases List.mem_cons.mp hf with rfl | hf
    · rw [hseated.args, frameSlots]
      simp only [List.length_append]
      omega
    · refine Nat.le_trans (ih hf) ?_
      rw [frameSlots]
      simp only [List.length_append]
      omega

/-- A call that has not returned has a frame above those that wait. -/
theorem ne_waiting (c : Frame) (waiting inner : List Frame) (q : Nat) :
    inner ++ c.at q :: waiting ≠ waiting := by
  intro h
  have hlength := congrArg List.length h
  simp only [List.length_append, List.length_cons] at hlength
  omega

/-- **A step inside a call stays inside**, or it returns from the call. -/
theorem Secluded.step (h : Secluded t.globals.rows.length c waiting x w)
    (hstrides : Strides s t p w z f outer k g σ st below i slots)
    (hdeep : waiting.length < w.frames.length) : Secluded t.globals.rows.length c waiting x z := by
  have hframes := hstrides.frames
  have hseated := hstrides.poised.seated
  have hlength := hstrides.filled.length
  -- either the innermost frame is that of the call, or it is above it
  obtain ⟨q, hinner⟩ : ∃ q, f = c.at q ∧ outer = waiting ∨
      ∃ inner, outer = inner ++ c.at q :: waiting := by
    have hstacked := h.stacked
    rw [hframes] at hstacked hdeep
    generalize hstack : f :: outer = frames at hstacked
    cases hstacked with
    | returned =>
      rw [hstack] at hdeep
      exact absurd hdeep (Nat.lt_irrefl _)
    | inside inner q =>
      cases inner with
      | nil =>
        cases hstack
        exact ⟨q, .inl ⟨rfl, rfl⟩⟩
      | cons f' inner =>
        cases hstack
        exact ⟨q, .inr ⟨inner, rfl⟩⟩
  have hargs : c.args ≤ f.args := by
    rcases hinner with ⟨rfl, -⟩ | ⟨inner, rfl⟩
    · exact Nat.le_refl _
    · rw [hseated.args]
      exact hstrides.poised.beneath.args_le (f := c.at q)
        (List.mem_append_right inner List.mem_cons_self)
  have hbase : below.length + σ.env.result.slots ≤ w.memory.toList.length := by
    rw [hlength, length_frameSlots]
    omega
  have hspares {l : List UInt64} (hl : Spares t.globals.rows.length f.args w.memory.toList l) :
      Spares t.globals.rows.length c.args x.memory.toList l := fun j hj₁ hj₂ =>
    (hl j hj₁ (Nat.lt_of_lt_of_le hj₂ hargs)).trans (h.spares j hj₁ hj₂)
  have honward := hstrides.onward
  generalize hz : z.frames = frames at honward
  generalize hmemory : z.memory.toList = l at honward
  rw [hseated.args] at hspares
  cases honward with
  | @turn q' st' l' hturns hstation hfilled hkeeps =>
    have hkept := hspares (hseated.args ▸ hkeeps)
    rcases hinner with ⟨rfl, rfl⟩ | ⟨inner, rfl⟩
    · exact ⟨hz ▸ .inside [] q', hmemory ▸ hkept,
        fun hback => absurd (hz.symm.trans hback) (ne_waiting c outer [] q')⟩
    · exact ⟨hz ▸ .inside (f.at q' :: inner) q, hmemory ▸ hkept,
        fun hback => absurd (hz.symm.trans hback) (ne_waiting c waiting (f.at q' :: inner) q)⟩
  | @enter slot g' σ' cells hslot hcall hscripted hst hnext hfilled =>
    have hkept := hspares (l := w.memory.toList ++ List.replicate σ'.env.locals.length 0)
      fun j _ hj => List.getElem?_append_left (by omega)
    generalize
      entered g' (frameSlots σ f below ⟨cells, false⟩).length w.memory.toList.length = e at hz
    rcases hinner with ⟨rfl, rfl⟩ | ⟨inner, rfl⟩
    · exact ⟨hz ▸ .inside [e] (q + 1), hmemory ▸ hkept,
        fun hback => absurd (hz.symm.trans hback) (ne_waiting c outer [e] (q + 1))⟩
    · exact ⟨hz ▸ .inside (e :: f.next :: inner) q, hmemory ▸ hkept,
        fun hback => absurd (hz.symm.trans hback) (ne_waiting c waiting (e :: f.next :: inner) q)⟩
  | leave hret hst hleaving hfilled =>
    have hkept := hspares (l := w.memory.toList.take (below.length + σ.env.result.slots))
      fun j _ hj => by rw [List.getElem?_take, if_pos (by omega)]
    rcases hinner with ⟨rfl, rfl⟩ | ⟨inner, rfl⟩
    · refine ⟨hz ▸ .returned, hmemory ▸ hkept, fun _ => ?_⟩
      have hreturns : c.routine.returns = σ.env.result.slots := by
        have hroutine : c.routine = g.routine := hseated.routine
        rw [hroutine]
        exact hseated.scripted.window.1
      have hat : c.args = below.length := hseated.args
      rw [← Array.length_toList, hmemory, List.length_take, hreturns, hat]
      omega
    · exact ⟨hz ▸ .inside inner q, hmemory ▸ hkept,
        fun hback => absurd (hz.symm.trans hback) (ne_waiting c waiting inner q)⟩

/-- **A call changes nothing below its arguments but globals**, in all its states. -/
theorem secluded_within (hl : Laid s t p) (ha : t.Addressable) {m : Machine}
    (hm : m.memo.Sound s.module) (hy : Passes s (m.start s) y)
    (hstart : Secluded t.globals.rows.length c waiting x y)
    (h : Within s waiting.length y z) : Secluded t.globals.rows.length c waiting x z := by
  induction h with
  | start => exact hstart
  | next hw hdeep hstep _ ih =>
    have hpasses := hw.passes hy
    obtain ⟨_, _, _, _, _, _, _, _, _, hstrides⟩ := strides_passes hl ha hm hpasses hstep
    exact ih.step hstrides hdeep

/-- A call that is carried out enters a function: the slots that its caller has filled are the last
words, and the caller waits behind the call. -/
theorem Strides.enters {operand : Int64}
    (h : Strides s t p x y f outer k g σ st below ⟨.call, operand⟩ slots)
    (hfew : s.module.functions.size < 2 ^ 63) :
    ∃ c, s.module.functions[operand.toUInt64.toNat]? = some c.routine ∧ c.pc = 0 ∧
      y.frames = c :: f.next :: outer ∧
      c.args + c.routine.returns + c.routine.params = x.memory.size ∧
      Secluded t.globals.rows.length c (f.next :: outer) x y := by
  have honward := h.onward
  have hlength := h.filled.length
  generalize hy : y.frames = frames at honward
  generalize hmemory : y.memory.toList = l at honward
  generalize hi : (⟨.call, operand⟩ : Instr) = i at honward
  cases honward with
  | @turn q st' l' hturns =>
    cases hturns with
    | move hmoves =>
      subst hi
      exact absurd rfl (straight_moves hmoves).2.2.2.1
    | test hop =>
      cases hi
      rcases hop with hop | hop <;> cases hop
    | push | result | branch => cases hi
  | leave hret =>
    subst hret
    cases hi
  | @enter slot g' σ' cells hslot hcall hscripted hst hnext hfilled =>
    obtain ⟨hreturns, hparams, -⟩ := hscripted.window
    subst hst
    subst hcall
    cases hi
    have hroutine := hscripted.holding.routine
    have hlt : slot < s.module.functions.size := (Array.getElem?_eq_some_iff.mp hroutine).1
    have hnat := toNat_operand (Nat.lt_trans hlt hfew)
    have hsize : (frameSlots σ f below ⟨cells, false⟩).length + g'.routine.returns + g'.routine.params
        = x.memory.toList.length := by
      rw [hlength, frameSlots_append, frameSlots_append, hreturns, hparams]
      simp only [List.length_append, List.length_reverse, List.length_map, length_given,
        length_rooms]
    refine ⟨entered g' (frameSlots σ f below ⟨cells, false⟩).length x.memory.toList.length,
      by rw [hnat]; exact hroutine, rfl, rfl, by rw [← Array.length_toList]; exact hsize,
      ⟨hy ▸ .inside [] 0, hmemory ▸ fun j _ hj => List.getElem?_append_left ?_, fun hback => ?_⟩⟩
    · have hargs : j < (frameSlots σ f below ⟨cells, false⟩).length := hj
      omega
    · exact absurd (hy.symm.trans hback)
        (ne_waiting (entered g' (frameSlots σ f below ⟨cells, false⟩).length x.memory.toList.length)
          (f.next :: outer) [] 0)

theorem Within.small_start {n : Nat} (h : Within s n y z) : y.memory.size < 2 ^ 63 := by
  induction h with
  | start h => exact h
  | next _ _ _ _ ih => exact ih

theorem Stacked.suffix {frames : List Frame} (h : Stacked c waiting frames) :
    waiting <:+ frames := by
  cases h with
  | inside inner q => exact ⟨inner ++ [c.at q], by simp⟩
  | returned => exact List.suffix_rfl

end

/-- **Calls are isolated.** A call that is carried out leads into the function that it names, with
the arguments on top of memory and room for the result below them. In every state from there until
the function has returned, the frame of the caller, just behind the call, and the frames below it
are as they were, and so is every word below the arguments and the result but those of globals. When
the function has returned, memory is what it was before the call without the arguments, and the
frame of the caller is on top. -/
theorem calls_are_isolated {p : Program} {a : Analysis} (ha : p.analyse.result = .ok a)
    (hsize : a.tables.Addressable) (s : Setup) (hs : s.module = a.tables.module) {m : Machine}
    (hm : Reached s.module m) {x y : Machine} (hx : Passes s (m.start s) x) {f : Frame}
    {outer : List Frame} (hframes : x.frames = f :: outer) {operand : Int64}
    (hcode : f.routine.code[f.pc]? = some ⟨.call, operand⟩) (hstep : x.step s = .next y) :
    ∃ c, s.module.functions[operand.toUInt64.toNat]? = some c.routine ∧ c.pc = 0 ∧
      y.frames = c :: f.next :: outer ∧
      c.args + c.routine.returns + c.routine.params = x.memory.size ∧
      ∀ z, Within s (f.next :: outer).length y z →
        f.next :: outer <:+ z.frames ∧
        (∀ j, s.module.globals.size ≤ j → j < c.args → z.memory[j]? = x.memory[j]?) ∧
        (z.frames.length = (f.next :: outer).length →
          z.frames = f.next :: outer ∧ z.memory.size = c.args + c.routine.returns ∧
            z.memory.size + c.routine.params = x.memory.size) := by
  have hl : Laid s a.tables a.core := Program.laid ha hsize hs
  have hmemo : m.memo.Sound s.module := hm.sound
  obtain ⟨slots, hsettled⟩ := settled_passes hl hsize hmemo hx
  obtain ⟨f', outer', k, g, σ, st, below, i, slots', -, hstrides⟩ :=
    hsettled.strides hl hsize hx.small (sound_passes hx (by rwa [memo_start])) hstep
  have hframes' := hstrides.frames
  rw [hframes] at hframes'
  cases hframes'
  have hcode' := hstrides.code
  rw [hcode] at hcode'
  cases hcode'
  have hglobals : s.module.globals.size = a.tables.globals.rows.length := by
    rw [hs]
    simp [ProgramTables.module]
  obtain ⟨c, hroutine, hpc, hy, hargs, hstart⟩ := hstrides.enters hl.size_functions
  refine ⟨c, hroutine, hpc, hy, hargs, fun z hz => ?_⟩
  have hsecluded := secluded_within hl hsize hmemo (.next hx hstep hz.small_start) hstart hz
  refine ⟨hsecluded.stacked.suffix, fun j hj₁ hj₂ => ?_, fun hlength => ?_⟩
  · rw [← Array.getElem?_toList, ← Array.getElem?_toList]
    exact hsecluded.spares j (hglobals ▸ hj₁) hj₂
  · have hback := (hsecluded.stacked.suffix.eq_of_length hlength.symm).symm
    have hleft := hsecluded.size hback
    exact ⟨hback, hleft, by omega⟩

/-- The first state with so few frames ends a call. -/
theorem Within.of_find {s : Setup} {n k : Nat} {m x z : Machine} (hx : Within s n m x)
    (hz : (states s k x).find? (fun w => w.frames.length ≤ n) = some z)
    (hsmall : ∀ w ∈ states s k x, w.memory.size < 2 ^ 63) : Within s n m z := by
  induction k generalizing x with
  | zero => cases hz
  | succ k ih =>
    rw [states, List.find?_cons] at hz
    by_cases hfew : x.frames.length ≤ n
    · rw [decide_eq_true hfew] at hz
      cases hz
      exact hx
    · rw [decide_eq_false hfew] at hz
      rw [states] at hsmall
      cases hstep : x.step s with
      | halt y stop =>
        rw [hstep] at hz
        cases hz
      | next y =>
        rw [hstep] at hz hsmall
        have hrest : ∀ w ∈ states s k y, w.memory.size < 2 ^ 63 := fun w hw =>
          hsmall w (List.mem_cons_of_mem _ hw)
        cases k with
        | zero => cases hz
        | succ k =>
          exact ih (.next hx (Nat.lt_of_not_le hfew) hstep (hrest y List.mem_cons_self)) hz hrest

theorem sample_call_checked : sample.analyse.result.toOption.any (fun a =>
    let s : Setup := ⟨"sample", a.tables.module, 1000, false, false⟩
    (states s 40 (Machine.start s { input := ⟨[], false⟩ })).any fun x =>
      match x.frames, x.step s with
      | f :: outer, .next y =>
        (f.routine.code[f.pc]?.any fun i => decide (i.op = .call)) &&
          (states s 20 y).all (fun z => decide (z.memory.size < 2 ^ 63)) &&
          ((states s 20 y).find? fun z => z.frames.length ≤ outer.length + 1).any
            fun z => decide (z.frames.length = outer.length + 1)
      | _, _ => false) = true := by
  rw [sample, Text.bytesOf_concat, Text.bytesOf_ofList]
  decide +kernel

/-- A run of the sample calls its first function, and comes back. -/
theorem sample_calls : ∃ s : Setup, ∃ a x y z f outer operand,
    sample.analyse.result = .ok a ∧ s = ⟨"sample", a.tables.module, 1000, false, false⟩ ∧
    a.tables.Short ∧ Passes s (Machine.start s { input := ⟨[], false⟩ }) x ∧
    x.frames = f :: outer ∧ f.routine.code[f.pc]? = some ⟨.call, operand⟩ ∧
    x.step s = .next y ∧ Within s (f.next :: outer).length y z ∧
    z.frames.length = (f.next :: outer).length := by
  obtain ⟨a, ha, h⟩ := exists_ok sample_call_checked
  obtain ⟨_, ha', hshort⟩ := sample_accepted
  cases ha.symm.trans ha'
  simp only [List.any_eq_true] at h
  obtain ⟨x, hx, h⟩ := h
  split at h
  · rename_i f outer y hframes hstep
    simp only [Bool.and_eq_true, List.all_eq_true, Option.any_eq_true, decide_eq_true_eq] at h
    obtain ⟨⟨⟨⟨op, operand⟩, hcode, rfl⟩, hsmall⟩, z, hz, hlength⟩ := h
    refine ⟨_, a, x, y, z, f, outer, operand, ha, rfl, hshort, sample_passes ha hx, hframes, hcode,
      hstep, ?_, hlength⟩
    exact (Within.start (hsmall y List.mem_cons_self)).of_find hz hsmall
  · cases h

theorem calls_are_isolated_sample :
    ∃ (a : Analysis) (x y z : Machine) (c f : Frame) (outer : List Frame),
      sample.analyse.result = .ok a ∧ x.frames = f :: outer ∧
      x.step ⟨"sample", a.tables.module, 1000, false, false⟩ = .next y ∧
      y.frames = c :: f.next :: outer ∧ z.frames = f.next :: outer ∧
      z.memory.size + c.routine.params = x.memory.size ∧
      ∀ j, a.tables.module.globals.size ≤ j → j < c.args → z.memory[j]? = x.memory[j]? := by
  obtain ⟨_, a, x, y, z, f, outer, operand, ha, rfl, hshort, hx, hframes, hcode, hstep, hz,
    hlength⟩ := sample_calls
  obtain ⟨c, -, -, hy, -, hcall⟩ := calls_are_isolated ha hshort.addressable
    ⟨"sample", a.tables.module, 1000, false, false⟩ rfl (.fresh rfl) hx hframes hcode hstep
  obtain ⟨-, hwords, hback⟩ := hcall z hz
  obtain ⟨hwaiting, -, hsize⟩ := hback hlength
  exact ⟨a, x, y, z, c, f, outer, ha, hframes, hstep, hy, hwaiting, hsize, hwords⟩

end TinyC
