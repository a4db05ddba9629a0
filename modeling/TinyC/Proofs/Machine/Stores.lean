import TinyC.Proofs.Machine.Stations
import TinyC.Proofs.Typing.Constants

/-!
# What changes a global

An instruction other than a store or a return leaves all words below the operands of its frame as
they are, and so does any instruction that cannot be carried out (`keeps_execute`).
A return keeps what lies below the slots of its function. So a global changes only where a store
finds its address (`Strides.keeps_global`).

What addresses the stores of a program find is known from its code: the stores in the code of a
statement are those of the places that it assigns, and of the slot of the result
(`Core.Stmt.marks`).
-/

namespace TinyC

open Core Machine

/-! ## What instructions keep -/

namespace Machine

/-- The words below an address are there, and they are as they were. -/
structure Keeps (n : Nat) (m y : Machine) : Prop where
  size : n ≤ y.memory.size
  words : ∀ j, j < n → y.memory[j]? = m.memory[j]?

section

variable {s : Setup} {f : Frame} {i : Instr} {n : Nat} {m y : Machine}

theorem Keeps.refl (h : n ≤ m.memory.size) : Keeps n m m :=
  ⟨h, fun _ _ => rfl⟩

/-- Words behind the end do not count. -/
theorem Keeps.append (h : Keeps n m y) {a : Array UInt64} {z : Machine}
    (hz : z.memory = y.memory ++ a) : Keeps n m z := by
  have hle := h.size
  refine ⟨?_, fun j hj => ?_⟩
  · rw [hz, Array.size_append]
    omega
  · rw [hz, Array.getElem?_append_left (by omega)]
    exact h.words j hj

theorem Keeps.push (h : Keeps n m y) (x : UInt64) : Keeps n m (y.push x) :=
  h.append (a := #[x]) rfl

theorem Keeps.reserve (h : Keeps n m y) (k : Nat) : Keeps n m (y.reserve k) :=
  h.append rfl

theorem Keeps.pop (h : Keeps n m y) (hlt : n < y.memory.size) {z : Machine}
    (hz : z.memory = y.memory.pop) : Keeps n m z := by
  refine ⟨?_, fun j hj => ?_⟩
  · rw [hz, Array.size_pop]
    omega
  · rw [hz, Array.getElem?_pop, if_pos (by omega)]
    exact h.words j hj

/-- What lies below the operands of a frame changes only where an address is stored to. -/
theorem Works.keeps {op : Opcode} {e : Effect} (h : Works op f n y e) (hy : Keeps f.floor m y)
    (hor : op ≠ .store64 ∨ e.2 ≠ none) : Keeps f.floor m e.1 := by
  induction h with
  | done | trap => exact hy
  | jump => exact ⟨hy.size, hy.words⟩
  | store _ _ _ _ hop =>
    obtain hne | hne := hor
    · exact absurd hop hne
    · exact absurd rfl hne
  | push x _ ih => exact ih (hy.push x) hor
  | reserve k _ ih => exact ih (hy.reserve k) hor
  | pop h _ ih => exact ih (hy.pop h rfl) hor
  | aside _ hmemory _ _ ih => exact ih ⟨hmemory ▸ hy.size, hmemory ▸ hy.words⟩ hor

/-- **Only stores and returns change words below the operands of a frame**, and none that cannot be
carried out. -/
theorem keeps_execute (hfloor : f.floor ≤ m.memory.size)
    (hor : (i.op ≠ .store64 ∧ i.op ≠ .ret) ∨ (m.execute s f i).2 ≠ none) :
    Keeps f.floor m (m.execute s f i).1 := by
  have h : Keeps f.floor m m := .refl hfloor
  by_cases hcall : i.op = .call
  · simp only [execute, hcall]
    obtain ⟨t, heq, -⟩ | ⟨r, -, args, -, -, heq⟩ := callRoutine_cases s f i m
    · rw [heq]
      exact h
    · rw [heq]
      exact h.append rfl
  by_cases hret : i.op = .ret
  · have htrap := hor.resolve_left fun hne => hne.2 hret
    simp only [execute, hret, leave] at htrap ⊢
    split
    · exact h
    · rename_i hsize
      rw [if_neg hsize] at htrap
      exact absurd rfl htrap
  · exact (works_execute hcall hret).keeps h (hor.imp_left And.left)

/-- The last state of a run has the same words below the operands as the one before it. -/
theorem keeps_halt {outer : List Frame} {stop : Option Stop} (hframes : m.frames = f :: outer)
    (hfloor : f.floor ≤ m.memory.size) (h : m.step s = .halt y stop) : Keeps f.floor m y := by
  have hstepped := stepped s m
  rw [h] at hstepped
  cases hstepped with
  | ended _ hlike | cut _ _ _ hlike =>
    have hmemory := hlike.memory
    exact ⟨hmemory ▸ hfloor, fun j _ => by rw [hmemory]⟩
  | @fails f' outer' i _ z t hframes' _ _ hexec hlike =>
    cases hframes.symm.trans hframes'
    obtain ⟨hsize, hwords⟩ := keeps_execute (s := s) (f := f.next) (i := i)
      (m := { m with frames := f.next :: outer }) hfloor (.inr (by rw [hexec]; nofun))
    rw [hexec] at hsize hwords
    exact ⟨hlike.memory ▸ hsize, hlike.memory ▸ hwords⟩

end

end Machine

/-! ## What a step does to globals -/

section

variable {π : Type} {s : Setup} {t : ProgramTables π} {p : Core.Program} {f : Frame}
  {outer : List Frame} {k : Nat} {g : Function π} {σ : Script} {st : Station} {below : List Slot}
  {x z : Machine} {i : Instr} {slots : List Slot}

/-- The instruction of a step is one of the code that the plan is for. -/
theorem Strides.planned (h : Strides s t p x z f outer k g σ st below i slots) :
    σ.code[f.pc]? = some i := by
  rw [← h.poised.seated.code, Array.getElem?_toList, h.code]

/-- It has been carried out. -/
theorem Strides.executed (h : Strides s t p x z f outer k g σ st below i slots)
    (hstep : x.step s = .next z) :
    ∃ y, execute s f.next i { x with frames := f.next :: outer } = (y, none) ∧ Like z y := by
  obtain ⟨f', outer', i', y, hframes, hcode, hexec, hlike⟩ := step_eq_next hstep
  rw [h.frames] at hframes
  cases hframes
  rw [h.code] at hcode
  cases hcode
  exact ⟨y, hexec, hlike⟩

/-- Memory does not end below the operands. -/
theorem Poised.floor_le (h : Poised s t p f outer k g σ st below)
    (hfilled : Filled (frameSlots σ f below st) x.memory.toList) : f.floor ≤ x.memory.size := by
  rw [← Array.length_toList, hfilled.length, h.seated.floor, length_frameSlots]
  omega

/-- A store finds an address and a value on top, and changes the word at the address. -/
theorem Strides.stores_at (h : Strides s t p x z f outer k g σ st below i slots) {type : Ty}
    {q : Core.Place} {cells : List Cell} (hst : st = ⟨.value type :: .address q :: cells, false⟩)
    (hi : i = ⟨.store64, 0⟩) {slot : Slot} (hq : σ.env.slot? false q = some slot)
    (hlong : x.memory.size < 2 ^ 63) (hstep : x.step s = .next z) :
    ∃ l value, x.memory.toList = l ++ [UInt64.ofNat (addressOf f q), value] ∧
      z.memory.toList = l.set (addressOf f q) value ∧ addressOf f q < l.length := by
  have hfilled := h.filled
  rw [hst] at hfilled
  subst hi
  obtain ⟨y, hexec, hlike⟩ := h.executed hstep
  rw [← withMemory_toList { x with frames := f.next :: outer }] at hexec
  obtain ⟨l, value, hl, hlt, hmemory, -, -⟩ :=
    h.poised.stores_at hfilled (by rwa [Array.length_toList]) hq hexec
  refine ⟨l, value, by rw [hl, List.append_assoc]; rfl, ?_, hlt⟩
  rw [hlike.memory, hmemory]

/-- An instruction that stores finds the address of a variable and a value. -/
theorem Core.Moves.stores {Γ : Env} {cells cells' : List Cell} (h : Core.Moves Γ i cells cells')
    (hop : i.op = .store64) :
    ∃ q type, i = ⟨.store64, 0⟩ ∧ cells = .value type :: .address q :: cells' ∧
      Γ.place? q = some type := by
  cases h with
  | @store q type _ hq => exact ⟨q, type, rfl, rfl, hq⟩
  | pop | load | room | builtin => cases hop
  | @address q =>
    obtain ⟨location, slot⟩ := q
    cases location <;> cases hop
  | @arith op type => cases op <;> cases type <;> cases hop
  | @negate type => cases type <;> cases hop
  | @convert source target _ _ hi =>
    cases source <;> cases target <;> simp [Ty.conversion] at hi <;> subst hi <;> cases hop
  | @compare type => cases type <;> cases hop
  | sign h => rcases h with rfl | rfl <;> cases hop

/-- A step that stores takes the address of a place that its function names. -/
theorem Strides.stores (h : Strides s t p x z f outer k g σ st below i slots)
    (hop : i.op = .store64) :
    ∃ type q cells slot, st = ⟨.value type :: .address q :: cells, false⟩ ∧ i = ⟨.store64, 0⟩ ∧
      σ.env.slot? false q = some slot ∧ z.frames = f.at (f.pc + 1) :: outer := by
  have honward := h.onward
  generalize z.frames = frames at honward ⊢
  generalize z.memory.toList = l at honward
  cases honward with
  | turn hturns =>
    cases hturns with
    | move hmoves =>
      obtain ⟨q, type, rfl, rfl, hq⟩ := hmoves.stores hop
      exact ⟨type, q, _, _, rfl, rfl, Env.slot?_of_place? hq false, rfl⟩
    | result hresult => exact ⟨_, _, [], _, rfl, rfl, Env.slot?_result hresult, rfl⟩
    | push | branch => cases hop
    | test hor =>
      subst hop
      rcases hor with hor | hor <;> cases hor
  | enter hslot hcall =>
    subst hcall
    cases hop
  | leave hret =>
    subst hret
    cases hop

/-- A step that returns cuts memory behind the slots of the result. -/
theorem Strides.returns (h : Strides s t p x z f outer k g σ st below i slots) (hop : i.op = .ret) :
    z.memory.toList = x.memory.toList.take (below.length + σ.env.result.slots) := by
  have honward := h.onward
  generalize z.frames = frames at honward
  generalize z.memory.toList = l at honward
  cases honward with
  | turn hturns =>
    cases hturns with
    | push | branch | result => cases hop
    | move hmoves => exact absurd hop (straight_moves hmoves).2.2.2.2
    | test hor =>
      subst hop
      rcases hor with hor | hor <;> cases hor
  | enter hslot hcall =>
    subst hcall
    cases hop
  | leave => rfl

/-- The frame of a function stands above the globals. -/
theorem Poised.globals_le (h : Poised s t p f outer k g σ st below) :
    t.globals.rows.length ≤ below.length := by
  have hle := h.beneath.globals_prefix.length_le
  rwa [globalSlots, List.length_map] at hle

/-- **A global changes only where a store finds its address.** -/
theorem Strides.keeps_global (h : Strides s t p x z f outer k g σ st below i slots)
    (hlong : x.memory.size < 2 ^ 63) (hstep : x.step s = .next z) {n : Nat}
    (hn : n < t.globals.rows.length)
    (hother : i.op = .store64 → ∀ type cells,
      st.cells ≠ .value type :: .address ⟨.global, n⟩ :: cells) : z.memory[n]? = x.memory[n]? := by
  have hbelow : n < below.length := Nat.lt_of_lt_of_le hn h.poised.globals_le
  have hfloor : below.length ≤ f.floor := by
    rw [h.poised.seated.floor]
    omega
  by_cases hstore : i.op = .store64
  · obtain ⟨type, q, cells, slot, hst, hi, hq, -⟩ := h.stores hstore
    obtain ⟨l, value, hx, hz, hlt⟩ := h.stores_at hst hi hq hlong hstep
    -- no other place has the address of the global
    have hne : addressOf f q ≠ n := by
      have hargs := h.poised.seated.args
      have hlocals := h.poised.seated.locals
      obtain ⟨location, m⟩ := q
      cases location with
      | global =>
        rintro rfl
        exact hother hstore type cells (by rw [hst]; rfl)
      | param =>
        show f.args + m ≠ n
        omega
      | «local» =>
        show f.locals + m ≠ n
        omega
    have hin : n < l.length := by
      have hlength := congrArg List.length hx
      simp only [Array.length_toList, List.length_append, List.length_cons, List.length_nil]
        at hlength
      have hslots := h.filled.length
      rw [Array.length_toList, length_frameSlots, hst] at hslots
      simp only [List.length_cons] at hslots
      omega
    rw [← Array.getElem?_toList, ← Array.getElem?_toList, hz, hx, List.getElem?_set_ne hne,
      List.getElem?_append_left hin]
  · by_cases hret : i.op = .ret
    · rw [← Array.getElem?_toList, ← Array.getElem?_toList, h.returns hret, List.getElem?_take,
        if_pos (by omega)]
    · obtain ⟨y, hexec, hlike⟩ := h.executed hstep
      have hkeeps := keeps_execute (s := s) (f := f.next) (i := i)
        (m := { x with frames := f.next :: outer }) (h.poised.floor_le h.filled) (.inl ⟨hstore, hret⟩)
      rw [hexec] at hkeeps
      rw [hlike.memory]
      exact hkeeps.words n (Nat.lt_of_lt_of_le hbelow hfloor)

end

end TinyC
