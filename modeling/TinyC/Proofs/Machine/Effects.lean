import TinyC.Core.Layout
import TinyC.Proofs.Machine.Course

/-!
# What a step does

A step of a machine carries out the instruction at hand in its innermost frame. What comes of it
is determined by everything but the number of steps and the notes, so a step can be computed on
any machine that is `Like` the one at hand (`act_like`, `stepped`).

`Works` lists the few things that instructions are made of, so that what is kept by each of them is
kept by every instruction (`works_execute`). The branches that code is laid out with lead where they
should (`jump_branch`).
-/

namespace TinyC

/-- The frame behind its next instruction. -/
def Frame.next (f : Frame) : Frame :=
  { f with pc := f.pc + 1 }

/-- The frame at an index of its code. -/
def Frame.at (f : Frame) (p : Nat) : Frame :=
  { f with pc := p }

@[simp] theorem Frame.next_at (f : Frame) (p : Nat) : (f.at p).next = f.at (p + 1) :=
  rfl

@[simp] theorem Frame.at_at (f : Frame) (p q : Nat) : (f.at p).at q = f.at q :=
  rfl

/-- The reason has to do with the instruction at hand: it is not that the steps are used up, nor
that memory is to be cut to a negative size. -/
def Trap.Ordinary : Trap → Prop
  | .memorySize _ | .stepLimit _ => False
  | _ => True

namespace Machine

/-- The end of a run for a reason that arose in a frame. -/
def stopAt (f : Frame) : Trap → Stop
  | .memorySize size => .crashed size
  | t => .error (errorAt f t)

/-- Two machines are equal but for the number of steps and the notes. -/
structure Like (m y : Machine) : Prop where
  memory : m.memory = y.memory
  frames : m.frames = y.frames
  input : m.input = y.input
  output : m.output = y.output
  memo : m.memo = y.memo

namespace Like

variable {m y z : Machine}

theorem refl (m : Machine) : Like m m :=
  ⟨rfl, rfl, rfl, rfl, rfl⟩

theorem trans (h : Like m y) (k : Like y z) : Like m z :=
  ⟨h.memory.trans k.memory, h.frames.trans k.frames, h.input.trans k.input,
    h.output.trans k.output, h.memo.trans k.memo⟩

theorem eq_stamped (h : Like m y) : m = y.stamped m.steps m.notes := by
  cases m
  cases y
  obtain ⟨h₁, h₂, h₃, h₄, h₅⟩ := h
  simp only at h₁ h₂ h₃ h₄ h₅
  subst h₁ h₂ h₃ h₄ h₅
  rfl

/-- An instruction does the same to both. -/
theorem execute (h : Like m y) (s : Setup) (f : Frame) (i : Instr) :
    Like (m.execute s f i).1 (y.execute s f i).1 ∧
      (m.execute s f i).2 = (y.execute s f i).2 := by
  rw [h.eq_stamped, execute_stamped]
  exact ⟨⟨rfl, rfl, rfl, rfl, rfl⟩, rfl⟩

end Like

section

variable {s : Setup} {f : Frame} {outer : List Frame} {i : Instr} {m y : Machine}

/-- Ending a run says where and why, and changes nothing but the notes. -/
theorem fail_eq (s : Setup) (f : Frame) (t : Trap) (m : Machine) :
    ∃ m₁, m.fail s f t = .halt m₁ (some (stopAt f t)) ∧ Like m₁ m := by
  cases t with
  | memorySize size => exact ⟨m, rfl, .refl m⟩
  | _ => exact ⟨_, rfl, ⟨rfl, rfl, rfl, rfl, rfl⟩⟩

theorem fetch_like (hy : Like { m with frames := f.next :: outer } y) :
    match y.execute s f.next i with
    | (y', none) => ∃ m₁, m.fetch s f outer i = .next m₁ ∧ Like m₁ y'
    | (y', some t) =>
      ∃ m₁, m.fetch s f outer i = .halt m₁ (some (stopAt f.next t)) ∧ Like m₁ y' := by
  have hnoted : Like { (if s.trace then m.note (m.traceNote s f i) else m) with
      frames := f.next :: outer } y := by
    split <;> exact ⟨hy.memory, hy.frames, hy.input, hy.output, hy.memo⟩
  unfold fetch
  dsimp only [Frame.next] at hnoted ⊢
  generalize ({ (if s.trace then m.note (m.traceNote s f i) else m) with
    frames := { f with pc := f.pc + 1 } :: outer } : Machine) = z at hnoted ⊢
  obtain ⟨hlike, heq⟩ := hnoted.execute s { f with pc := f.pc + 1 } i
  generalize z.execute s { f with pc := f.pc + 1 } i = r at hlike heq ⊢
  generalize y.execute s { f with pc := f.pc + 1 } i = r' at hlike heq ⊢
  obtain ⟨z', _ | t⟩ := r
  · obtain ⟨y', _ | _⟩ := r'
    · exact ⟨z', rfl, hlike⟩
    · cases heq
  · obtain ⟨y', _ | _⟩ := r'
    · cases heq
    · cases heq
      obtain ⟨m₁, hfail, hm₁⟩ := fail_eq s { f with pc := f.pc + 1 } t z'
      exact ⟨m₁, hfail, hm₁.trans hlike⟩

/-- What a step does can be computed on a machine that is like the one at hand. -/
theorem act_like (hframes : m.frames = f :: outer) (hcode : f.routine.code[f.pc]? = some i)
    (hy : Like { m with frames := f.next :: outer } y) :
    match y.execute s f.next i with
    | (y', none) => ∃ m₁, m.act s = .next m₁ ∧ Like m₁ y'
    | (y', some t) => ∃ m₁, m.act s = .halt m₁ (some (stopAt f.next t)) ∧ Like m₁ y' := by
  have hact : m.act s = { m with steps := m.steps + 1 }.fetch s f outer i := by
    simp only [act, hframes, hcode]
  rw [hact]
  exact fetch_like ⟨hy.memory, hy.frames, hy.input, hy.output, hy.memo⟩

/-- Where a step leads. -/
def after : Step → Machine
  | .next m => m
  | .halt m _ => m

/-- A step that comes now cuts the run short. -/
def Cuts (s : Setup) (m : Machine) : Prop :=
  s.maxSteps < m.steps + 1 ∨ (s.cancelled = true ∧ (m.steps + 1) % cancelPeriod = 0)

/-- What a step does: there is no instruction to carry out, or the run is cut short before it, or it
is carried out, or it fails. -/
inductive Stepped (s : Setup) (m : Machine) : Step → Prop where
  | ended {m₁ : Machine} {stop : Option Stop}
      (hnone : ∀ f outer, m.frames = f :: outer → f.routine.code[f.pc]? = none)
      (hlike : Like m₁ m) (hstop : stop = none ∨ ∃ e, stop = some (.error e) ∧ e.trap = .ranOff) :
      Stepped s m (.halt m₁ stop)
  | cut {f : Frame} {outer : List Frame} {i : Instr} {m₁ : Machine} {stop : Option Stop}
      (hframes : m.frames = f :: outer) (hcode : f.routine.code[f.pc]? = some i) (hcuts : Cuts s m)
      (hlike : Like m₁ m) (hstop : CutOff s stop) : Stepped s m (.halt m₁ stop)
  | next {f : Frame} {outer : List Frame} {i : Instr} {m₁ y : Machine}
      (hframes : m.frames = f :: outer) (hcode : f.routine.code[f.pc]? = some i) (hroom : ¬Cuts s m)
      (hexec : execute s f.next i { m with frames := f.next :: outer } = (y, none))
      (hlike : Like m₁ y) : Stepped s m (.next m₁)
  | fails {f : Frame} {outer : List Frame} {i : Instr} {m₁ y : Machine} {t : Trap}
      (hframes : m.frames = f :: outer) (hcode : f.routine.code[f.pc]? = some i) (hroom : ¬Cuts s m)
      (hexec : execute s f.next i { m with frames := f.next :: outer } = (y, some t))
      (hlike : Like m₁ y) : Stepped s m (.halt m₁ (some (stopAt f.next t)))

theorem stepped (s : Setup) (m : Machine) : Stepped s m (m.step s) := by
  cases hframes : m.frames with
  | nil =>
    simp only [step, hframes]
    exact .ended (fun f outer h => by rw [hframes] at h; cases h) (.refl m) (.inl rfl)
  | cons f outer =>
    cases hcode : f.routine.code[f.pc]? with
    | none =>
      have hnone (f' : Frame) (outer' : List Frame) (h : m.frames = f' :: outer') :
          f'.routine.code[f'.pc]? = none := by
        cases hframes.symm.trans h
        exact hcode
      simp only [step, hframes, hcode]
      split
      · exact .ended hnone (.refl m) (.inl rfl)
      · exact .ended hnone ⟨rfl, rfl, rfl, rfl, rfl⟩ (.inr ⟨_, rfl, rfl⟩)
    | some i =>
      simp only [step, hframes, hcode]
      by_cases hlimit : s.maxSteps < m.steps + 1
      · rw [if_pos hlimit]
        exact .cut hframes hcode (.inl hlimit) ⟨rfl, hframes.symm, rfl, rfl, rfl⟩
          (.inr ⟨_, rfl, rfl⟩)
      rw [if_neg hlimit]
      by_cases hcancel : s.cancelled = true ∧ (m.steps + 1) % cancelPeriod = 0
      · rw [if_pos hcancel]
        exact .cut hframes hcode (.inr hcancel) ⟨rfl, hframes.symm, rfl, rfl, rfl⟩ (.inl rfl)
      rw [if_neg hcancel]
      have hsame : Like { m with frames := f.next :: outer, steps := m.steps + 1 }
          { m with frames := f.next :: outer } := ⟨rfl, rfl, rfl, rfl, rfl⟩
      have hlike := fetch_like (s := s) (i := i)
        (m := { m with frames := f :: outer, steps := m.steps + 1 }) hsame
      have hroom : ¬Cuts s m := not_or.mpr ⟨hlimit, hcancel⟩
      generalize hexec : Machine.execute s f.next i _ = e at hlike
      obtain ⟨y, _ | t⟩ := e
      · obtain ⟨m₁, hfetch, hy⟩ := hlike
        rw [hfetch]
        exact .next hframes hcode hroom hexec hy
      · obtain ⟨m₁, hfetch, hy⟩ := hlike
        rw [hfetch]
        exact .fails hframes hcode hroom hexec hy

end

/-! ## What instructions do -/

/-- What an instruction of a frame does, one thing after the other, calls of functions and returns
apart. Memory grows by no more than a number of words. -/
inductive Works (op : Opcode) (f : Frame) : Nat → Machine → Effect → Prop where
  | done (n : Nat) (m : Machine) : Works op f n m m.done
  | trap (n : Nat) (m : Machine) {t : Trap} (ht : t.Ordinary) : Works op f n m (m.trapped t)
  | jump (n : Nat) (m : Machine) (p : Nat) (hop : op = .br ∨ op = .brtrue ∨ op = .brfalse) :
      Works op f n m (m.setFrame (f.at p)).done
  | store (n : Nat) (m : Machine) (a : Nat) (x : UInt64) (hop : op = .store64) :
      Works op f n m (Machine.done { m with memory := m.memory.setIfInBounds a x })
  | push {n : Nat} {m : Machine} {e : Effect} (x : UInt64) (rest : Works op f n (m.push x) e) :
      Works op f (n + 1) m e
  | reserve {n : Nat} {m : Machine} {e : Effect} (k : Nat) (rest : Works op f n (m.reserve k) e) :
      Works op f (k + n) m e
  | pop {n : Nat} {m : Machine} {e : Effect} (h : f.floor < m.memory.size)
      (rest : Works op f (n + 1) { m with memory := m.memory.pop } e) : Works op f n m e
  /-- A built-in function also changes what is neither memory nor frames. -/
  | aside {n : Nat} {m y : Machine} {e : Effect} (hop : op = .callname)
      (hmemory : y.memory = m.memory) (hframes : y.frames = m.frames) (rest : Works op f n y e) :
      Works op f n m e

/-- The number of words that an instruction adds to memory at most, calls of functions apart. -/
def room (i : Instr) : Nat :=
  match i.op with
  | .stackalloc => i.operand.toInt.toNat
  | _ => 1

section

variable {s : Setup} {op : Opcode} {f : Frame} {n : Nat} {m : Machine} {e : Effect} {i : Instr}

theorem works_withTop {g : UInt64 → Machine → Effect}
    (hg : ∀ x y, Works op f (n + 1) y (g x y)) (m : Machine) : Works op f n m (m.withTop f g) := by
  unfold withTop
  split
  · rename_i h
    exact .pop h (hg _ _)
  · exact .trap n m trivial

theorem works_withTwo {g : UInt64 → UInt64 → Machine → Effect}
    (hg : ∀ a b y, Works op f (n + 2) y (g a b y)) (m : Machine) : Works op f n m (m.withTwo f g) :=
  works_withTop (fun b y => works_withTop (fun a y => hg a b y) y) m

theorem works_jump (hop : op = .br ∨ op = .brtrue ∨ op = .brfalse) (n : Nat) (offset : Int64)
    (m : Machine) : Works op f n m (m.jump f offset) := by
  unfold jump
  dsimp only
  split
  · exact .trap n m trivial
  · exact .jump n m _ hop

theorem works_receive {α : Type} (h : f.floor < m.memory.size) (b : Builtin) (scan : Scan α)
    (word : α → UInt64) : Works .callname f n m (m.receive b scan word) := by
  unfold receive
  split
  · rename_i a input _
    exact .aside (y := { m with input }) rfl rfl rfl (.pop h (.push _ (.done _ _)))
  · rename_i _ input _
    exact .aside (y := { m with input }) rfl rfl rfl (.trap _ _ trivial)

theorem works_send (write : Output → Output) (m : Machine) :
    Works .callname f n m (m.send write) := by
  refine .aside (y := { m with output := write m.output }) rfl rfl rfl ?_
  unfold send
  dsimp only
  split
  · exact .trap _ _ trivial
  · exact .done _ _

/-- A built-in function puts its result into a slot above the local variables. -/
theorem works_perform (b : Builtin) (x : UInt64) (h : f.floor + b.result.slots ≤ m.memory.size) :
    Works .callname f n m (m.perform s b x) := by
  cases b with
  | getint | getdouble | getchar => exact works_receive h _ _ _
  | putint | putdouble | putchar | putln =>
    simp only [perform]
    exact works_send _ m
  | putstr =>
    unfold perform
    dsimp only
    split
    · exact works_send _ m
    · exact .trap n m trivial

/-- A slot that names no built-in function is out of range or names something else. -/
theorem ordinary_of_builtinAt {module : Module} {slot : Int64} {t : Trap}
    (h : builtinAt module slot = .error t) : t.Ordinary := by
  unfold builtinAt at h
  dsimp only at h
  split at h
  · cases h
    exact trivial
  · split at h <;> cases h
    exact trivial

theorem works_callBuiltin (s : Setup) (slot : Int64) (m : Machine) :
    Works .callname f n m (m.callBuiltin s f slot) := by
  have hresolve : (m.resolve s slot).2.memory = m.memory ∧
      (m.resolve s slot).2.frames = m.frames ∧
      ∀ t, (m.resolve s slot).1 = .error t → t.Ordinary := by
    unfold resolve
    split
    · exact ⟨rfl, rfl, nofun⟩
    · split
      · exact ⟨rfl, rfl, nofun⟩
      · rename_i t ht
        refine ⟨rfl, rfl, fun t' ht' => ?_⟩
        cases ht'
        exact ordinary_of_builtinAt ht
  unfold callBuiltin
  generalize m.resolve s slot = r at hresolve ⊢
  obtain ⟨t | b, y⟩ := r
  · obtain ⟨hmemory, hframes, ht⟩ := hresolve
    exact .aside (y := y) rfl hmemory hframes (.trap _ _ (ht t rfl))
  obtain ⟨hmemory, hframes, -⟩ := hresolve
  refine .aside (y := y) rfl hmemory hframes ?_
  dsimp only
  by_cases hfew : y.memory.size < f.floor + b.paramTypes.length + b.result.slots
  · rw [if_pos hfew]
    exact .trap _ _ trivial
  rw [if_neg hfew]
  unfold popArgument
  split
  · exact works_perform b _ (by omega)
  · rename_i hsome
    have hone : 0 < b.paramTypes.length := by
      rw [List.length_pos_iff]
      intro hnil
      rw [hnil] at hsome
      exact hsome rfl
    refine .pop (by omega) (works_perform b _ ?_)
    rw [Array.size_pop]
    omega

/-- **Instructions are made of a few things to do**, calls of functions and returns apart. -/
theorem works_execute (hcall : i.op ≠ .call) (hret : i.op ≠ .ret) :
    Works i.op f (room i) m (m.execute s f i) := by
  obtain ⟨op, operand⟩ := i
  have hpush {n : Nat} (x : UInt64) (y : Machine) : Works op f (n + 1) y (y.push x).done :=
    .push x (.done n _)
  cases op with
  | call | ret => contradiction
  | nop => exact .done _ m
  | unlisted b => exact .trap _ m trivial
  | push => exact hpush _ m
  | stackalloc => exact .reserve _ (.done 0 _)
  | globa | arga | loca =>
    simp only [execute]
    split
    · exact hpush _ m
    · exact .trap _ m trivial
  | pop => exact works_withTop (fun _ y => .done _ y) m
  | dup => exact works_withTop (fun x y => .push x (hpush x _)) m
  | negi | negf | itof | ftoi | setlt | setgt =>
    simp only [execute, unary]
    exact works_withTop (fun _ y => hpush _ y) m
  | addi | subi | muli | addf | subf | mulf | divf | cmpi | cmpf =>
    simp only [execute, binary]
    exact works_withTwo (fun _ _ y => hpush _ y) m
  | divi =>
    refine works_withTwo (fun a b y => ?_) m
    split
    · exact .trap _ y trivial
    · exact hpush _ y
  | load64 =>
    refine works_withTop (fun addr y => ?_) m
    unfold load
    split
    · exact hpush _ y
    · exact .trap _ y trivial
  | store64 =>
    refine works_withTwo (fun addr x y => ?_) m
    unfold store
    split
    · exact .store _ y _ _ rfl
    · exact .trap _ y trivial
  | br => exact works_jump (.inl rfl) _ operand m
  | brtrue | brfalse =>
    simp only [execute]
    refine works_withTop (fun x y => ?_) m
    split <;> first | exact .done _ y | exact works_jump (by simp) _ operand y
  | callname => exact works_callBuiltin s operand m

/-- A call of a function finds its arguments above the local variables, or it is not made. -/
theorem callRoutine_cases (s : Setup) (f : Frame) (i : Instr) (m : Machine) :
    (∃ t, m.callRoutine s f i = m.trapped t ∧ t.Ordinary) ∨
      ∃ r ∈ s.module.functions, ∃ args, args = Int64.ofNat m.memory.size - r.argSlots ∧
        ¬args < Int64.ofNat f.floor ∧
        m.callRoutine s f i = (m.enter r args.toNatClampNeg).done := by
  unfold callRoutine
  split
  · exact .inl ⟨_, rfl, trivial⟩
  rename_i r hr
  dsimp only
  split
  · exact .inl ⟨_, rfl, trivial⟩
  rename_i hle
  split at hr
  · exact .inr ⟨r, Array.mem_of_getElem? hr, _, rfl, hle, rfl⟩
  · cases hr

theorem Works.ordinary (h : Works op f n m e) : ∀ t, e.2 = some t → t.Ordinary := by
  induction h with
  | done | jump | store => exact nofun
  | trap n m ht =>
    intro t' heq
    cases heq
    exact ht
  | push _ _ ih | reserve _ _ ih | pop _ _ ih | aside _ _ _ _ ih => exact ih

/-- The operation neither branches nor calls nor returns. -/
def Straight (op : Opcode) : Prop :=
  op ≠ .br ∧ op ≠ .brtrue ∧ op ≠ .brfalse ∧ op ≠ .call ∧ op ≠ .ret

instance (op : Opcode) : Decidable (Straight op) :=
  inferInstanceAs (Decidable (_ ∧ _))

theorem Works.frames_eq (h : Works op f n m e) (hop : Straight op) : e.1.frames = m.frames := by
  obtain ⟨hbr, htrue, hfalse, -, -⟩ := hop
  induction h with
  | done | trap | store => rfl
  | jump _ _ _ hop =>
    obtain hop | hop | hop := hop <;> contradiction
  | push _ _ ih | reserve _ _ ih | pop _ _ ih => exact ih
  | aside _ _ hframes _ ih => exact ih.trans hframes

/-- Only branches, calls and returns change frames. -/
theorem frames_execute (hi : Straight i.op) : (m.execute s f i).1.frames = m.frames :=
  (works_execute hi.2.2.2.1 hi.2.2.2.2).frames_eq hi

/-- An operand that names a slot or an index. -/
theorem toNat_operand {n : Nat} (h : n < 2 ^ 63) : (Int64.ofNat n).toUInt64.toNat = n := by
  rw [Int64.toUInt64_ofNat', UInt64.toNat_ofNat_of_lt' (Nat.lt_trans h (by decide))]

/-- A branch of code that is not too long leads to its target. -/
theorem jump_branch {p q : Nat} (hlong : f.routine.code.size < 2 ^ 63)
    (hq : q ≤ f.routine.code.size) (m : Machine) :
    m.jump (f.at (p + 1)) (branchOffset p q) = (m.setFrame (f.at q)).done := by
  have htarget : Int64.ofNat (p + 1) + branchOffset p q = Int64.ofNat q := by
    rw [branchOffset, ← Int64.ofInt_eq_ofNat, ← Int64.ofInt_eq_ofNat, ← Int64.ofInt_add]
    congr 1
    omega
  have hnat := toNat_operand (Nat.lt_of_le_of_lt hq hlong)
  have hrange : ¬(Int64.ofNat q < 0 ∨ f.routine.code.size < q) := by
    rw [Int64.lt_iff_toInt_lt, Int64.toInt_ofNat_of_lt (Nat.lt_of_le_of_lt hq hlong)]
    simp only [Int64.toInt_zero]
    omega
  simp only [jump, Frame.at, htarget, hnat, hrange, if_false]

/-- The branch behind a condition skips one instruction. -/
theorem jump_skip {p : Nat} (hlong : f.routine.code.size < 2 ^ 63)
    (hp : p + 2 ≤ f.routine.code.size) (m : Machine) :
    m.jump (f.at (p + 1)) 1 = (m.setFrame (f.at (p + 2))).done := by
  have hone : branchOffset p (p + 2 : Nat) = 1 := by
    rw [branchOffset, show ((p + 2 : Nat) : Int) - ((p : Int) + 1) = 1 by omega]
    rfl
  rw [← hone, jump_branch hlong hp]

end

end Machine

end TinyC
