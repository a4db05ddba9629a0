import TinyC.Proofs.Machine.Effects

/-!
# How fast memory grows

One step pushes a word, makes room for a result or makes room for the local variables of a
function. Where these are bounded, memory grows by no more than the bound with every step
(`size_act`, `size_path`).
-/

namespace TinyC.Machine

/-- No function of the module makes more room at once than a bound. -/
structure Moderate (module : Module) (bound : Nat) : Prop where
  positive : 0 < bound
  locals : ∀ r ∈ module.functions, r.locals ≤ bound
  rooms : ∀ r ∈ module.functions, ∀ i ∈ r.code, i.op = .stackalloc → i.operand.toInt.toNat ≤ bound

/-- The functions in progress are those of the module. -/
def Placed (s : Setup) (m : Machine) : Prop :=
  ∀ f ∈ m.frames, f.routine ∈ s.module.functions

section

variable {s : Setup} {f : Frame} {m m₁ m' : Machine} {i : Instr} {bound : Nat}

theorem Works.size_le {op : Opcode} {n : Nat} {e : Effect} (h : Works op f n m e) :
    e.1.memory.size ≤ m.memory.size + n := by
  induction h with
  | done | trap | jump => exact Nat.le_add_right _ _
  | store n m a x =>
    simp only [Machine.done, Array.size_setIfInBounds]
    omega
  | push x _ ih =>
    simp only [Machine.push, Array.size_push] at ih
    omega
  | reserve k _ ih =>
    simp only [Machine.reserve, Array.size_append, Array.size_replicate] at ih
    omega
  | pop h _ ih =>
    rw [Array.size_pop] at ih
    omega
  | aside _ hmemory _ _ ih =>
    rw [hmemory] at ih
    exact ih

/-- An instruction makes memory grow by no more than the bound. -/
theorem size_execute (hb : Moderate s.module bound)
    (hi : i.op = .stackalloc → i.operand.toInt.toNat ≤ bound) :
    (m.execute s f i).1.memory.size ≤ m.memory.size + bound := by
  by_cases hcall : i.op = .call
  · simp only [execute, hcall]
    obtain ⟨t, heq, -⟩ | ⟨r, hr, args, -, -, heq⟩ := callRoutine_cases s f i m
    · rw [heq]
      exact Nat.le_add_right _ _
    · have hlocals := hb.locals r hr
      simp only [heq, enter, reserve, done, Array.size_append, Array.size_replicate]
      omega
  by_cases hret : i.op = .ret
  · simp only [execute, hret, leave]
    split
    · exact Nat.le_add_right _ _
    · simp only [done, Array.size_shrink]
      omega
  have hroom : room i ≤ bound := by
    unfold room
    split
    · exact hi ‹_›
    · exact hb.positive
  exact Nat.le_trans (works_execute hcall hret).size_le (Nat.add_le_add_left hroom _)

theorem Works.placed {op : Opcode} {n : Nat} {e : Effect} (h : Works op f n m e)
    (hf : f.routine ∈ s.module.functions) (hm : Placed s m) : Placed s e.1 := by
  induction h with
  | done | trap | store => exact hm
  | jump =>
    intro g hg
    obtain rfl | hg := List.mem_cons.mp hg
    · exact hf
    · exact hm g (List.mem_of_mem_tail hg)
  | push _ _ ih | reserve _ _ ih | pop _ _ ih => exact ih hm
  | aside _ _ hframes _ ih => exact ih fun g hg => hm g (hframes ▸ hg)

/-- An instruction leaves the functions in progress those of the module. -/
theorem placed_execute (hm : Placed s m) (hf : f.routine ∈ s.module.functions) :
    Placed s (m.execute s f i).1 := by
  by_cases hcall : i.op = .call
  · simp only [execute, hcall]
    obtain ⟨t, heq, -⟩ | ⟨r, hr, args, -, -, heq⟩ := callRoutine_cases s f i m
    · rw [heq]
      exact hm
    · rw [heq]
      intro g hg
      obtain rfl | hg := List.mem_cons.mp hg
      · exact hr
      · exact hm g hg
  by_cases hret : i.op = .ret
  · simp only [execute, hret, leave]
    split
    · exact hm
    · exact fun g hg => hm g (List.mem_of_mem_tail hg)
  exact (works_execute hcall hret).placed hf hm

theorem Placed.fetched {outer : List Frame} (hm : Placed s m) (hframes : m.frames = f :: outer) :
    f.routine ∈ s.module.functions ∧ Placed s { m with frames := f.next :: outer } := by
  have hf : f.routine ∈ s.module.functions := hm f (by rw [hframes]; exact List.mem_cons_self)
  refine ⟨hf, fun g hg => ?_⟩
  obtain rfl | hg := List.mem_cons.mp hg
  · exact hf
  · exact hm g (by rw [hframes]; exact List.mem_cons_of_mem _ hg)

/-- A step makes memory grow by no more than the bound. -/
theorem size_act (hb : Moderate s.module bound) (hm : Placed s m) (h : m.act s = .next m₁) :
    Placed s m₁ ∧ m₁.memory.size ≤ m.memory.size + bound := by
  obtain ⟨g, outer, i, hframes, hcode, -⟩ := act_eq_next h
  obtain ⟨hg, hplaced⟩ := hm.fetched hframes
  have hact := act_like (s := s) hframes hcode (.refl _)
  have hsize := size_execute (f := g.next) (m := { m with frames := g.next :: outer }) hb
    (hb.rooms g.routine hg i (Array.mem_of_getElem? hcode))
  have hstay := placed_execute (i := i) hplaced (f := g.next) hg
  generalize Machine.execute s g.next i _ = e at hact hsize hstay
  obtain ⟨y, _ | t⟩ := e
  · obtain ⟨m₂, hm₂, hlike⟩ := hact
    rw [h] at hm₂
    cases hm₂
    refine ⟨?_, by rw [hlike.memory]; exact hsize⟩
    unfold Placed
    rw [hlike.frames]
    exact hstay
  · obtain ⟨m₂, hm₂, _⟩ := hact
    rw [h] at hm₂
    cases hm₂

/-- A path makes memory grow by no more than the bound with every step. -/
theorem size_path (hb : Moderate s.module bound) {ms : List Machine} (h : Path s m ms m')
    (hm : Placed s m) : m'.memory.size ≤ m.memory.size + bound * ms.length := by
  induction h with
  | nil => exact Nat.le_add_right _ _
  | cons first _ ih =>
    obtain ⟨hplaced, hsize⟩ := size_act hb hm first
    have := ih hplaced
    rw [List.length_cons, Nat.mul_succ]
    omega

end

end TinyC.Machine
