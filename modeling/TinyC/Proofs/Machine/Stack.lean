import TinyC.Proofs.Core.Evaluation
import TinyC.Proofs.Machine.Effects

/-!
# Instructions on the stack

What each instruction does to a machine whose memory is given as a list, with the operands at its
end. Where enough operands are there, and where an address or a slot is one that there is, an
instruction does what it is for; the guards of the machine do not come in.

Sizes and addresses are words of 64 bits. All of these are exact as long as memory has fewer than
2^63 words, so this is the one condition on it.
-/

namespace TinyC

variable {n : Nat}

open Core

/-! ## Words -/

theorem wrap_add (a b : UInt64) : wrap (signed a + signed b) = a + b := by
  simp [wrap, signed, Int64.ofInt_add]

theorem wrap_sub (a b : UInt64) : wrap (signed a - signed b) = a - b := by
  simp [wrap, signed, Int64.ofInt_sub]

theorem wrap_mul (a b : UInt64) : wrap (signed a * signed b) = a * b := by
  simp [wrap, signed, Int64.ofInt_mul]

theorem wrap_neg (a : UInt64) : wrap (-signed a) = -a := by
  simp [wrap, signed, Int64.ofInt_neg]

theorem wrap_tdiv (a b : UInt64) :
    wrap ((signed a).tdiv (signed b)) = (a.toInt64 / b.toInt64).toUInt64 := by
  have hdiv : Int64.ofInt ((signed a).tdiv (signed b)) = a.toInt64 / b.toInt64 := by
    apply Int64.toInt_inj.mp
    rw [Int64.toInt_ofInt, Int64.toInt_div]
    rfl
  rw [wrap, hdiv]

theorem signed_eq_zero {a : UInt64} : signed a = 0 ↔ a = 0 := by
  rw [signed, ← Int64.toInt_zero, Int64.toInt_inj, ← Int64.toBitVec_inj, ← UInt64.toBitVec_inj]
  rfl

theorem toNat_ofNat (h : n < 2 ^ 63) : (UInt64.ofNat n).toNat = n :=
  UInt64.toNat_ofNat_of_lt' (Nat.lt_trans h (by decide))

/-- A slot that there is is named. -/
theorem names_ofNat {op : Opcode} {slot count : Nat} (hslot : slot < count)
    (hcount : count < 2 ^ 63) :
    (⟨op, Int64.ofNat slot⟩ : Instr).names (Int64.ofNat count) = true := by
  have hlt : slot < 2 ^ 63 := Nat.lt_trans hslot hcount
  simp [Instr.names, Int64.zero_le_ofNat_of_lt hlt, (Int64.ofNat_lt_iff_lt hlt hcount).mpr hslot]

namespace Machine

/-! ## Memory as a list -/

/-- The machine with these words in memory. -/
def withMemory (m : Machine) (l : List UInt64) : Machine :=
  { m with memory := l.toArray }

section

variable {s : Setup} {f : Frame} {m : Machine} {l : List UInt64}

theorem withMemory_toList (m : Machine) : m.withMemory m.memory.toList = m := by
  simp [withMemory]

theorem push_withMemory (m : Machine) (l : List UInt64) (x : UInt64) :
    (m.withMemory l).push x = m.withMemory (l ++ [x]) := by
  simp [withMemory, push]

theorem reserve_withMemory (m : Machine) (l : List UInt64) (n : Nat) :
    (m.withMemory l).reserve n = m.withMemory (l ++ List.replicate n 0) := by
  simp [withMemory, reserve]

/-- An operand is popped. -/
theorem withTop_withMemory (hf : f.floor ≤ l.length) (x : UInt64) (k : UInt64 → Machine → Effect) :
    (m.withMemory (l ++ [x])).withTop f k = k x (m.withMemory l) := by
  have hlt : f.floor < (m.withMemory (l ++ [x])).memory.size := by
    simp [withMemory]
    omega
  unfold withTop
  rw [dif_pos hlt]
  simp [withMemory]

/-- Two operands are popped. -/
theorem withTwo_withMemory (hf : f.floor ≤ l.length) (a b : UInt64)
    (k : UInt64 → UInt64 → Machine → Effect) :
    (m.withMemory (l ++ [a] ++ [b])).withTwo f k = k a b (m.withMemory l) := by
  unfold withTwo
  rw [withTop_withMemory (by simp; omega), withTop_withMemory hf]

theorem unary_withMemory (hf : f.floor ≤ l.length) (x : UInt64) (op : UInt64 → UInt64) :
    (m.withMemory (l ++ [x])).unary f op = (m.withMemory (l ++ [op x])).done := by
  rw [unary, withTop_withMemory hf, push_withMemory]

theorem binary_withMemory (hf : f.floor ≤ l.length) (a b : UInt64) (op : UInt64 → UInt64 → UInt64) :
    (m.withMemory (l ++ [a] ++ [b])).binary f op = (m.withMemory (l ++ [op a b])).done := by
  rw [binary, withTwo_withMemory hf, push_withMemory]

theorem load_withMemory {addr : Nat} {x : UInt64} (hlong : l.length < 2 ^ 63)
    (hx : l[addr]? = some x) :
    load (UInt64.ofNat addr) (m.withMemory l) = (m.withMemory (l ++ [x])).done := by
  obtain ⟨hlt, hget⟩ := List.getElem?_eq_some_iff.mp hx
  have hnat := toNat_ofNat (Nat.lt_trans hlt hlong)
  have hin : (UInt64.ofNat addr).toNat < (m.withMemory l).memory.size := by
    rw [hnat]
    simpa [withMemory] using hlt
  unfold load
  rw [dif_pos hin, ← push_withMemory]
  simp only [hnat]
  simp [withMemory, hget]

theorem store_withMemory {addr : Nat} (hlong : l.length < 2 ^ 63) (haddr : addr < l.length)
    (x : UInt64) :
    store (UInt64.ofNat addr) x (m.withMemory l) = (m.withMemory (l.set addr x)).done := by
  have hnat := toNat_ofNat (Nat.lt_trans haddr hlong)
  unfold store
  rw [hnat, if_pos (by simpa [withMemory] using haddr)]
  simp [withMemory]

end

end Machine

/-! ## Built-in functions -/

/-- The memo remembers only what the globals of a module say. -/
def Memo.Sound (memo : Memo) (module : Module) : Prop :=
  ∀ row ∈ memo.rows, Machine.builtinAt module row.1 = .ok row.2

namespace Memo

variable {memo : Memo} {module : Module} {slot : Int64} {b : Builtin}

theorem Sound.find (h : memo.Sound module) (hb : memo.find? slot = some b) :
    Machine.builtinAt module slot = .ok b := by
  unfold find? at hb
  obtain ⟨rows⟩ := memo
  induction rows with
  | nil => cases hb
  | cons row rows ih =>
    obtain ⟨key, c⟩ := row
    rw [List.lookup_cons] at hb
    split at hb
    · rename_i hkey
      cases hb
      rw [beq_iff_eq.mp hkey]
      exact h (key, b) List.mem_cons_self
    · exact ih (fun row hrow => h row (List.mem_cons_of_mem _ hrow)) hb

theorem Sound.remember (h : memo.Sound module) (hb : Machine.builtinAt module slot = .ok b) :
    (memo.remember slot b).Sound module := by
  intro row hrow
  obtain rfl | hrow := List.mem_cons.mp (List.mem_of_mem_take hrow)
  · exact hb
  · exact h row (List.mem_filter.mp hrow).1

end Memo

namespace Machine

section

variable {s : Setup} {f : Frame} {m : Machine} {slot : Int64} {b : Builtin}

/-- What the globals say of a slot is found, whether or not it is remembered, and the memo stays
true. -/
theorem resolve_eq (hm : m.memo.Sound s.module) (slot : Int64) :
    ∃ memo, m.resolve s slot = (builtinAt s.module slot, { m with memo }) ∧
      memo.Sound s.module := by
  unfold resolve
  split
  · rename_i b hb
    rw [hm.find hb]
    exact ⟨_, rfl, hm.remember (hm.find hb)⟩
  · split
    · rename_i b hb
      rw [hb]
      exact ⟨_, rfl, hm.remember hb⟩
    · rename_i t ht
      rw [ht]
      exact ⟨_, rfl, hm⟩

/-- A slot is that of a built-in function if its global has the name of the function. -/
theorem builtinAt_eq_ok {module : Module} (h : builtinAt module slot = .ok b) :
    0 ≤ slot.toInt ∧ ∃ g, module.globals[slot.toInt.toNat]? = some g ∧
      Builtin.ofBytes? g.data = some b := by
  unfold builtinAt at h
  dsimp only at h
  split at h
  · cases h
  · rename_i hrange
    obtain ⟨hneg, hsize⟩ := not_or.mp hrange
    have hglobal := Array.getElem?_eq_getElem (Nat.not_le.mp hsize)
    refine ⟨Int.not_lt.mp hneg, _, hglobal, ?_⟩
    rw [hglobal] at h
    split at h
    · rename_i c hc
      cases h
      exact hc
    · cases h

theorem memo_perform (s : Setup) (b : Builtin) (x : UInt64) (m : Machine) :
    (m.perform s b x).1.memo = m.memo := by
  unfold perform receive send answer
  dsimp only
  split <;> (try split) <;> (try split) <;> rfl

theorem sound_callBuiltin (hm : m.memo.Sound s.module) :
    (m.callBuiltin s f slot).1.memo.Sound s.module := by
  obtain ⟨memo, hresolve, hmemo⟩ := resolve_eq hm slot
  unfold callBuiltin
  rw [hresolve]
  cases builtinAt s.module slot with
  | error t => exact hmemo
  | ok b =>
    dsimp only
    split
    · exact hmemo
    · rw [memo_perform, popArgument]
      split <;> exact hmemo

/-- No instruction spoils the memo. -/
theorem sound_execute (hm : m.memo.Sound s.module) (i : Instr) :
    (m.execute s f i).1.memo.Sound s.module := by
  by_cases hi : i.op = .callname
  · simp only [execute, hi]
    exact sound_callBuiltin hm
  · have hsame : m.execute s f i = confine m (m.execute s f i) := execute_within s f hi m
    rw [hsame]
    exact hm

end

/-- The trap for what goes wrong in a program. -/
def trapOf : Mishap → Trap
  | .division => .divisionByZero
  | .input b _ e => .input b e
  | .output => .output

/-- The machine has these frames and words, and its input and output are those of a store. -/
structure Synced (s : Setup) (m : Machine) (frames : List Frame) (l : List UInt64) (st : Store) :
    Prop where
  frames : m.frames = frames
  memory : m.memory.toList = l
  input : m.input = st.input
  output : m.output = st.output
  memo : m.memo.Sound s.module

/-- Two stores give the variables the same values. -/
structure Kept (st st' : Store) : Prop where
  globals : st'.globals = st.globals
  args : st'.args = st.args
  locals : st'.locals = st.locals

/-- A call of a built-in function pushes what the semantics says, or fails as the semantics
does. -/
def Answers (s : Setup) (frames : List Frame) (l : List UInt64) (pushed : UInt64 → List UInt64)
    (st : Store) (r : Except (Cut Mishap) UInt64 × Store) (e : Effect) : Prop :=
  match r, e with
  | (.ok x, st'), (y, none) => Synced s y frames (l ++ pushed x) st' ∧ Kept st st'
  | (.error (.trap t), st'), (y, some t') =>
    t' = trapOf t ∧ (∃ l', Synced s y frames (l ++ l') st') ∧ Kept st st'
  | _, _ => False

section

variable {s : Setup} {f : Frame} {m : Machine} {frames : List Frame} {l : List UInt64} {st : Store}
  {b : Builtin} {xs : List UInt64}

theorem answers_receive {α : Type} (hb : b.reads = true) {scan : Scan α} {word : α → UInt64}
    {z : UInt64} (hm : Synced s m frames (l ++ [z]) st) :
    Answers s frames l (fun x => [x]) st ((Core.receive b hb scan word).outcome st)
      (m.receive b scan word) := by
  rw [Core.receive, Act.outcome_bind, Act.outcome_get]
  dsimp only
  unfold Machine.receive
  rw [hm.input]
  generalize scan.run.run st.input = r
  obtain ⟨e | a, input⟩ := r
  · exact ⟨rfl, ⟨[z], hm.frames, hm.memory, rfl, hm.output, hm.memo⟩, ⟨rfl, rfl, rfl⟩⟩
  · refine ⟨⟨hm.frames, ?_, rfl, hm.output, hm.memo⟩, ⟨rfl, rfl, rfl⟩⟩
    simp [hm.memory]

theorem answers_send {write : Output → Output} (hm : Synced s m frames l st) :
    Answers s frames l (fun _ => []) st ((Core.send write).outcome st) (m.send write) := by
  rw [Core.send, Act.outcome_bind, Act.outcome_get]
  dsimp only
  rw [Act.outcome_bind, Act.outcome_set]
  dsimp only
  unfold Machine.send
  rw [hm.output]
  dsimp only
  split
  · exact ⟨rfl, ⟨[], hm.frames, by simpa using hm.memory, hm.input, rfl, hm.memo⟩, ⟨rfl, rfl, rfl⟩⟩
  · exact ⟨⟨hm.frames, by simpa using hm.memory, hm.input, rfl, hm.memo⟩, ⟨rfl, rfl, rfl⟩⟩

/-- The bytes of the global at a slot. -/
def textOf (module : Module) (slot : Nat) : List UInt8 :=
  ((module.globals[slot]?).map Global.data).getD []

/-- The argument of a built-in function is popped. -/
theorem synced_popArgument (hm : Synced s m frames (l ++ xs) st)
    (hxs : xs.length = b.paramTypes.length) :
    (m.popArgument b).1 = xs.headD 0 ∧ Synced s (m.popArgument b).2 frames l st := by
  have hlen : b.paramTypes.length ≤ 1 := by cases b <;> decide
  unfold popArgument
  match xs with
  | [] =>
    have hnil : b.paramTypes.isEmpty = true := by simpa [List.isEmpty_iff] using hxs.symm
    rw [if_pos hnil]
    exact ⟨rfl, by simpa using hm⟩
  | [x] =>
    have hcons : b.paramTypes.isEmpty = false := by
      cases h : b.paramTypes with
      | nil => rw [h] at hxs; cases hxs
      | cons => rfl
    have hback : m.memory.back?.getD 0 = x := by
      rw [← Array.getLast?_toList, hm.memory]
      simp
    rw [if_neg (by simp [hcons])]
    exact ⟨hback, hm.frames, by simp [hm.memory], hm.input, hm.output, hm.memo⟩
  | _ :: _ :: _ =>
    simp only [List.length_cons] at hxs
    omega

/-- A built-in function does what the semantics says. Only numbers of texts may be passed for
texts. -/
theorem answers_perform (hm : Synced s m frames (l ++ List.replicate b.result.slots 0) st)
    (htext : b = .putstr → (xs.headD 0).toNat < s.module.globals.size) :
    Answers s frames l (fun x => if b.result = .void then [] else [x]) st
      ((runBuiltin (textOf s.module) b xs).outcome st) (m.perform s b (xs.headD 0)) := by
  cases b with
  | getint | getdouble | getchar =>
    simp only [runBuiltin, perform, Builtin.result]
    exact answers_receive rfl hm
  | putint | putdouble | putchar | putln =>
    simp only [runBuiltin, perform, Builtin.result, if_true]
    exact answers_send (by simpa [Builtin.result, Ty.slots] using hm)
  | putstr =>
    have hglobal := Array.getElem?_eq_getElem (htext rfl)
    simp only [runBuiltin, perform, textOf, hglobal, Builtin.result, if_true]
    exact answers_send (by simpa [Builtin.result, Ty.slots] using hm)

/-- The call of a built-in function does what the semantics says. -/
theorem answers_callBuiltin {slot : Int64}
    (hm : Synced s m frames (l ++ List.replicate b.result.slots 0 ++ xs) st)
    (hb : builtinAt s.module slot = .ok b) (hfloor : f.floor ≤ l.length)
    (hxs : xs.length = b.paramTypes.length)
    (htext : b = .putstr → (xs.headD 0).toNat < s.module.globals.size) :
    Answers s frames l (fun x => if b.result = .void then [] else [x]) st
      ((runBuiltin (textOf s.module) b xs).outcome st) (m.callBuiltin s f slot) := by
  obtain ⟨memo, hresolve, hmemo⟩ := resolve_eq hm.memo slot
  have hm' : Synced s { m with memo } frames (l ++ List.replicate b.result.slots 0 ++ xs) st :=
    ⟨hm.frames, hm.memory, hm.input, hm.output, hmemo⟩
  have hsize : m.memory.size = l.length + b.result.slots + b.paramTypes.length := by
    rw [← Array.length_toList, hm.memory, ← hxs]
    simp only [List.length_append, List.length_replicate]
  obtain ⟨hx, hpop⟩ := synced_popArgument hm' hxs
  unfold callBuiltin
  rw [hresolve, hb]
  dsimp only
  rw [if_neg (by omega), hx]
  exact answers_perform hpop htext

end

end Machine

end TinyC
