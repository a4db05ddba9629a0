import TinyC.Proofs.Machine.Follow
import TinyC.Proofs.Machine.Stack

/-!
# Code computes what programs mean

The memory of a machine that runs a function is laid out as

    globals | what the callers left | result and arguments | local variables | operands

and `Holds` says that the machine is so laid out for the values in a store. From such a machine the
code of an expression leads to one more operand, the value that the expression has in the store,
with everything below it unchanged (`leads_expr`); the code of a condition skips one instruction if
the condition holds; the code of a statement leads to the store behind it. Where the semantics
fails, the machine stops for that reason and at no other place.

Nothing more is said of a machine once its memory has 2^63 words, more than there are addresses.
-/

namespace TinyC.Machine

open Core

/-- The words of memory below the operands of a function. -/
def floorWords (under : List UInt64) (st : Store) : List UInt64 :=
  st.globals ++ under ++ st.args ++ st.locals

/-- The machine runs a function at an index of its code, with the variables of a store and some
operands. -/
structure Holds (s : Setup) (f : Frame) (outer : List Frame) (under ops : List UInt64) (q : Nat)
    (m : Machine) (st : Store) : Prop where
  synced : Synced s m (f.at q :: outer) (floorWords under st ++ ops) st
  globals : st.globals.length = s.module.globals.size
  argsAt : f.args = st.globals.length + under.length
  localsAt : f.locals = f.args + st.args.length
  args : st.args.length = f.routine.returns + f.routine.params
  locals : st.locals.length = f.routine.locals
  small : m.memory.size < 2 ^ 63

/-- What the machine shows of a program that computes. -/
def watchStore (s : Setup) (n : Nat) : Watch Mishap Store where
  setup := s
  rounds := n
  lost m := 2 ^ 63 ≤ m.memory.size
  fails t _ m st := ∃ m₁ g, m.act s = .halt m₁ (some (.error (errorAt g (trapOf t)))) ∧
    st.globals <+: m₁.memory.toList ∧ m₁.input = st.input ∧ m₁.output = st.output
  late _ _ _ := True

/-- Calls from here may go `d` deep. -/
structure Ready (s : Setup) (n d : Nat) (f : Frame) (outer : List Frame) (under ops : List UInt64)
    (q : Nat) (h : List Machine) (m : Machine) (st : Store) : Prop where
  holds : Holds s f outer under ops q m st
  deep : n ≤ h.length + d + 1

section

variable {s : Setup} {n d : Nat} {f : Frame} {outer : List Frame} {under ops : List UInt64}
  {q : Nat} {h : List Machine} {m : Machine} {st : Store} {i : Instr} {α : Type}
  {r : Except (Cut Mishap) α × Store} {Q : α → List Machine → Machine → Store → Prop}

namespace Holds

variable (hh : Holds s f outer under ops q m st)
include hh

theorem floor_eq (p : Nat) : (f.at p).floor = (floorWords under st).length := by
  simp only [Frame.floor, Frame.at, floorWords, List.length_append, hh.localsAt, hh.argsAt,
    hh.locals]

theorem floor_le (p : Nat) (l : List UInt64) :
    (f.at p).floor ≤ (floorWords under st ++ l).length := by
  rw [hh.floor_eq, List.length_append]
  omega

theorem size_eq : m.memory.size = (floorWords under st).length + ops.length := by
  rw [← Array.length_toList, hh.synced.memory, List.length_append]

/-- The globals have addresses. -/
theorem globals_lt : s.module.globals.size < 2 ^ 63 := by
  have hsize := hh.size_eq
  have hsmall := hh.small
  simp only [floorWords, List.length_append, hh.globals] at hsize
  omega

/-- The machine with its instruction fetched. -/
theorem fetched :
    ({ m with frames := f.at (q + 1) :: outer } : Machine)
      = ({ m with frames := f.at (q + 1) :: outer } : Machine).withMemory
          (floorWords under st ++ ops) := by
  rw [← hh.synced.memory]
  exact (withMemory_toList _).symm

/-- A step that is carried out, in a machine whose words are listed. -/
theorem act_next (hcode : f.routine.code[q]? = some i) {y : Machine}
    (hexec : (({ m with frames := f.at (q + 1) :: outer } : Machine).withMemory
      (floorWords under st ++ ops)).execute s (f.at (q + 1)) i = (y, none)) :
    ∃ m₁, m.act s = .next m₁ ∧ Like m₁ y := by
  have hact := act_like (s := s) hh.synced.frames hcode (.refl _)
  rw [Frame.next_at, hh.fetched, hexec] at hact
  exact hact

/-- A step that fails. -/
theorem act_halt (hcode : f.routine.code[q]? = some i) {y : Machine} {t : Trap}
    (hexec : (({ m with frames := f.at (q + 1) :: outer } : Machine).withMemory
      (floorWords under st ++ ops)).execute s (f.at (q + 1)) i = (y, some t)) :
    ∃ m₁, m.act s = .halt m₁ (some (stopAt (f.at (q + 1)) t)) ∧ Like m₁ y := by
  have hact := act_like (s := s) hh.synced.frames hcode (.refl _)
  rw [Frame.next_at, hh.fetched, hexec] at hact
  exact hact

/-- An instruction that changes operands and goes to an index. -/
theorem moved (hcode : f.routine.code[q]? = some i) (ops' : List UInt64) (p : Nat)
    (hexec : ∀ z : Machine, z.frames = f.at (q + 1) :: outer →
      (z.withMemory (floorWords under st ++ ops)).execute s (f.at (q + 1)) i
        = (({ z with frames := f.at p :: outer } : Machine).withMemory
            (floorWords under st ++ ops')).done) :
    ∃ m₁, m.act s = .next m₁ ∧
      (m₁.memory.size < 2 ^ 63 → Holds s f outer under ops' p m₁ st) ∧
      m₁.memory.size = (floorWords under st ++ ops').length := by
  obtain ⟨m₁, hact, hlike⟩ := hh.act_next hcode (hexec _ rfl)
  have hmemory : m₁.memory.toList = floorWords under st ++ ops' := by
    rw [hlike.memory]
    rfl
  refine ⟨m₁, hact, fun hsmall => ⟨⟨hlike.frames, hmemory, hlike.input.trans hh.synced.input,
    hlike.output.trans hh.synced.output, hlike.memo ▸ hh.synced.memo⟩, hh.globals, hh.argsAt,
    hh.localsAt, hh.args, hh.locals, hsmall⟩, ?_⟩
  rw [← hmemory, Array.length_toList]

end Holds

/-- A path may end where the machine is lost. -/
theorem leads_lost {m₁ : Machine} (hact : m.act s = .next m₁) (hlost : 2 ^ 63 ≤ m₁.memory.size) :
    (watchStore s n).Leads h m r Q :=
  ⟨[m], m₁, .cons hact (.nil m₁), .inl hlost⟩

/-- An instruction that changes operands and goes to an index. -/
theorem Ready.moved (hr : Ready s n d f outer under ops q h m st)
    (hcode : f.routine.code[q]? = some i) (ops' : List UInt64) (p : Nat)
    (hexec : ∀ z : Machine, z.frames = f.at (q + 1) :: outer →
      (z.withMemory (floorWords under st ++ ops)).execute s (f.at (q + 1)) i
        = (({ z with frames := f.at p :: outer } : Machine).withMemory
            (floorWords under st ++ ops')).done)
    (hnext : ∀ m₁, Ready s n d f outer under ops' p (h ++ [m]) m₁ st →
      (watchStore s n).Leads (h ++ [m]) m₁ r Q) : (watchStore s n).Leads h m r Q := by
  obtain ⟨m₁, hact, hholds, -⟩ := hr.holds.moved hcode ops' p hexec
  by_cases hlost : 2 ^ 63 ≤ m₁.memory.size
  · exact leads_lost hact hlost
  · refine Watch.leads_step hact (hnext m₁ ⟨hholds (Nat.lt_of_not_le hlost), ?_⟩)
    have := hr.deep
    simp only [List.length_append]
    omega

/-- An instruction that only changes operands. -/
theorem Ready.operands (hr : Ready s n d f outer under ops q h m st)
    (hcode : f.routine.code[q]? = some i) (ops' : List UInt64)
    (hexec : ∀ z : Machine, (z.withMemory (floorWords under st ++ ops)).execute s (f.at (q + 1)) i
      = (z.withMemory (floorWords under st ++ ops')).done)
    (hnext : ∀ m₁, Ready s n d f outer under ops' (q + 1) (h ++ [m]) m₁ st →
      (watchStore s n).Leads (h ++ [m]) m₁ r Q) : (watchStore s n).Leads h m r Q :=
  hr.moved hcode ops' (q + 1) (fun z hz => (hexec z).trans (by rw [← hz])) hnext

/-! ## Variables -/

end

/-- The address of the variable at a place. -/
def addressOf (f : Frame) (p : Core.Place) : Nat :=
  match p.location with
  | .global => p.slot
  | .param => f.args + p.slot
  | .local => f.locals + p.slot

section

variable (st : Store) (p : Core.Place) (x : UInt64)

@[simp] theorem length_globals_write : (st.write p x).globals.length = st.globals.length := by
  unfold Store.write
  split <;> simp

@[simp] theorem length_args_write : (st.write p x).args.length = st.args.length := by
  unfold Store.write
  split <;> simp

@[simp] theorem length_locals_write : (st.write p x).locals.length = st.locals.length := by
  unfold Store.write
  split <;> simp

theorem io_write : (st.write p x).input = st.input ∧ (st.write p x).output = st.output := by
  unfold Store.write
  split <;> exact ⟨rfl, rfl⟩

end

/-- The store has a variable at a place. -/
def HasPlace (st : Store) (p : Core.Place) : Prop :=
  match p.location with
  | .global => p.slot < st.globals.length
  | .param => p.slot < st.args.length
  | .local => p.slot < st.locals.length

section

variable {s : Setup} {n d : Nat} {f : Frame} {outer : List Frame} {under ops : List UInt64}
  {q : Nat} {h : List Machine} {m : Machine} {st : Store} {i : Instr} {p : Core.Place}

namespace Holds

variable (hh : Holds s f outer under ops q m st)
include hh

/-- The variables of a location stand together in memory. -/
theorem around (hp : HasPlace st p) (l : List UInt64) :
    ∃ a xs c, floorWords under st ++ l = a ++ (xs ++ c) ∧ addressOf f p = a.length + p.slot ∧
      xs[p.slot]? = some (st.read p) ∧
      ∀ x, floorWords under (st.write p x) ++ l = a ++ (xs.set p.slot x ++ c) := by
  obtain ⟨location, slot⟩ := p
  have hargs := hh.argsAt
  have hlocals := hh.localsAt
  cases location with
  | global =>
    have hslot : slot < st.globals.length := hp
    refine ⟨[], st.globals, under ++ st.args ++ st.locals ++ l, ?_, ?_, ?_, fun x => ?_⟩ <;>
      simp [floorWords, addressOf, Store.read, Store.write, hslot]
  | param =>
    have hslot : slot < st.args.length := hp
    refine ⟨st.globals ++ under, st.args, st.locals ++ l, ?_, ?_, ?_, fun x => ?_⟩ <;>
      simp [floorWords, addressOf, Store.read, Store.write, hslot, hargs]
  | «local» =>
    have hslot : slot < st.locals.length := hp
    refine ⟨st.globals ++ under ++ st.args, st.locals, l, ?_, ?_, ?_, fun x => ?_⟩ <;>
      simp [floorWords, addressOf, Store.read, Store.write, hslot, hargs, hlocals, Nat.add_assoc]

/-- The word at the address of a variable is its value. -/
theorem get_address (hp : HasPlace st p) (l : List UInt64) :
    (floorWords under st ++ l)[addressOf f p]? = some (st.read p) := by
  obtain ⟨a, xs, c, hwords, haddress, hget, -⟩ := hh.around hp l
  rw [hwords, haddress, List.getElem?_append_right (Nat.le_add_right _ _), Nat.add_sub_cancel_left,
    List.getElem?_append_left (List.getElem?_eq_some_iff.mp hget).1, hget]

/-- Storing a word at the address of a variable gives it that value. -/
theorem set_address (hp : HasPlace st p) (x : UInt64) (l : List UInt64) :
    (floorWords under st ++ l).set (addressOf f p) x = floorWords under (st.write p x) ++ l := by
  obtain ⟨a, xs, c, hwords, haddress, hget, hwrite⟩ := hh.around hp l
  rw [hwords, hwrite, haddress, List.set_append_right _ _ (Nat.le_add_right _ _),
    Nat.add_sub_cancel_left, List.set_append_left _ _ (List.getElem?_eq_some_iff.mp hget).1]

theorem length_lt : (floorWords under st ++ ops).length < 2 ^ 63 := by
  rw [List.length_append, ← hh.size_eq]
  exact hh.small

/-- The instruction for the address of a variable pushes it. -/
theorem execute_address (hp : HasPlace st p) (l : List UInt64) (z : Machine) :
    (z.withMemory l).execute s (f.at (q + 1)) p.address
      = (z.withMemory (l ++ [UInt64.ofNat (addressOf f p)])).done := by
  have hsize := hh.size_eq
  have hsmall := hh.small
  simp only [floorWords, List.length_append] at hsize
  obtain ⟨location, slot⟩ := p
  cases location with
  | global =>
    have hslot : slot < s.module.globals.size := hh.globals ▸ hp
    have hcount : s.module.globals.size < 2 ^ 63 := by
      rw [← hh.globals]
      omega
    simp only [Core.Place.address, execute, names_ofNat hslot hcount, if_true,
      Int64.toUInt64_ofNat', push_withMemory, addressOf]
  | param =>
    have hslot : slot < f.routine.returns + f.routine.params := hh.args ▸ hp
    have hcount : f.routine.returns + f.routine.params < 2 ^ 63 := by
      rw [← hh.args]
      omega
    simp only [Core.Place.address, execute, Frame.at, Routine.argSlots, ← Int64.ofNat_add,
      names_ofNat hslot hcount, if_true, Int64.toUInt64_ofNat', push_withMemory, addressOf,
      UInt64.ofNat_add]
  | «local» =>
    have hslot : slot < f.routine.locals := hh.locals ▸ hp
    have hcount : f.routine.locals < 2 ^ 63 := by
      rw [← hh.locals]
      omega
    simp only [Core.Place.address, execute, Frame.at, names_ofNat hslot hcount, if_true,
      Int64.toUInt64_ofNat', push_withMemory, addressOf, UInt64.ofNat_add]

end Holds

/-! ## Operators -/

namespace Ready

variable {x a b : UInt64} {α : Type}

/-- An instruction that pushes a word. -/
theorem push (hr : Ready s n d f outer under ops q h m st) (hcode : f.routine.code[q]? = some i)
    (hexec : ∀ (l : List UInt64) (z : Machine),
      (z.withMemory l).execute s (f.at (q + 1)) i = (z.withMemory (l ++ [x])).done) :
    (watchStore s n).Leads h m (.ok x, st)
      fun x => Ready s n d f outer under (ops ++ [x]) (q + 1) := by
  refine hr.operands hcode (ops ++ [x]) (fun z => ?_) fun _ hr' => Watch.leads_now hr'
  rw [hexec, List.append_assoc]

/-- An instruction that replaces an operand. -/
theorem unary (hr : Ready s n d f outer under (ops ++ [x]) q h m st)
    (hcode : f.routine.code[q]? = some i) {g : UInt64 → UInt64}
    (hi : ∀ z : Machine, z.execute s (f.at (q + 1)) i = z.unary (f.at (q + 1)) g) :
    (watchStore s n).Leads h m (.ok (g x), st)
      fun y => Ready s n d f outer under (ops ++ [y]) (q + 1) := by
  refine hr.operands hcode (ops ++ [g x]) (fun z => ?_) fun _ hr' => Watch.leads_now hr'
  rw [hi, ← List.append_assoc, unary_withMemory (hr.holds.floor_le _ ops), List.append_assoc]

/-- An instruction that joins two operands. -/
theorem binary (hr : Ready s n d f outer under (ops ++ [a] ++ [b]) q h m st)
    (hcode : f.routine.code[q]? = some i) {g : UInt64 → UInt64 → UInt64}
    (hi : ∀ z : Machine, z.execute s (f.at (q + 1)) i = z.binary (f.at (q + 1)) g) :
    (watchStore s n).Leads h m (.ok (g a b), st)
      fun y => Ready s n d f outer under (ops ++ [y]) (q + 1) := by
  refine hr.operands hcode (ops ++ [g a b]) (fun z => ?_) fun _ hr' => Watch.leads_now hr'
  rw [hi, ← List.append_assoc, ← List.append_assoc,
    binary_withMemory (hr.holds.floor_le _ ops), List.append_assoc]

/-- Division: it fails where the divisor is zero. -/
theorem divide (hr : Ready s n d f outer under (ops ++ [a] ++ [b]) q h m st)
    (hcode : f.routine.code[q]? = some ⟨.divi, 0⟩) :
    (watchStore s n).Leads h m ((onIntegers .div a b).outcome st)
      fun y => Ready s n d f outer under (ops ++ [y]) (q + 1) := by
  have hfloor := hr.holds.floor_le (q + 1) ops
  have hexec (z : Machine) : (z.withMemory (floorWords under st ++ (ops ++ [a] ++ [b]))).execute s
      (f.at (q + 1)) ⟨.divi, 0⟩ =
        if b = 0 then (z.withMemory (floorWords under st ++ ops)).trapped .divisionByZero
        else (z.withMemory
          (floorWords under st ++ (ops ++ [(a.toInt64 / b.toInt64).toUInt64]))).done := by
    rw [← List.append_assoc, ← List.append_assoc, ← List.append_assoc]
    simp only [execute]
    rw [withTwo_withMemory hfloor]
    split
    · rfl
    · rw [push_withMemory]
  by_cases hb : b = 0
  · have hzero : (onIntegers .div a b : Act Mishap Store UInt64) = throw (.trap .division) :=
      if_pos (signed_eq_zero.mpr hb)
    obtain ⟨m₁, hact, hlike⟩ := hr.holds.act_halt hcode ((hexec _).trans (if_pos hb))
    rw [hzero]
    refine ⟨[], m, .nil m, .inr ⟨m₁, f.at (q + 1), hact, ?_,
      hlike.input.trans hr.holds.synced.input, hlike.output.trans hr.holds.synced.output⟩⟩
    rw [hlike.memory]
    simp [withMemory, floorWords]
  · have hpos : (onIntegers .div a b : Act Mishap Store UInt64)
        = pure (wrap ((signed a).tdiv (signed b))) :=
      if_neg fun h => hb (signed_eq_zero.mp h)
    rw [hpos, wrap_tdiv]
    exact hr.operands hcode _ (fun z => (hexec z).trans (if_neg hb))
      fun _ hr' => Watch.leads_now hr'

/-- An arithmetic operator does what it means. -/
theorem arithmetic (hr : Ready s n d f outer under (ops ++ [a] ++ [b]) q h m st) {op : ArithOp}
    {type : Ty} (hcode : f.routine.code[q]? = some (op.instr type)) (htype : type.isNumeric = true)
    :
    (watchStore s n).Leads h m ((Core.arithmetic op type a b).outcome st)
      fun y => Ready s n d f outer under (ops ++ [y]) (q + 1) := by
  cases type with
  | void | string => cases htype
  | double => cases op <;> exact hr.binary hcode fun z => rfl
  | int =>
    cases op with
    | add =>
      simp only [Core.arithmetic, onIntegers, wrap_add]
      exact hr.binary hcode fun z => rfl
    | sub =>
      simp only [Core.arithmetic, onIntegers, wrap_sub]
      exact hr.binary hcode fun z => rfl
    | mul =>
      simp only [Core.arithmetic, onIntegers, wrap_mul]
      exact hr.binary hcode fun z => rfl
    | div => exact hr.divide hcode

/-- Negation does what it means. -/
theorem negation (hr : Ready s n d f outer under (ops ++ [x]) q h m st) {type : Ty}
    (hcode : f.routine.code[q]? = some type.negation) (htype : type.isNumeric = true) :
    (watchStore s n).Leads h m (.ok (negated type x), st)
      fun y => Ready s n d f outer under (ops ++ [y]) (q + 1) := by
  cases type with
  | void | string => cases htype
  | double => exact hr.unary hcode fun z => rfl
  | int =>
    simp only [negated, wrap_neg]
    exact hr.unary hcode fun z => rfl

/-- A conversion does what it means. -/
theorem conversion (hr : Ready s n d f outer under (ops ++ [x]) q h m st) {source target : Ty}
    (hcode : Sits f.routine.code.toList (source.conversion target) q) :
    (watchStore s n).Leads h m (.ok (converted source target x), st)
      fun y => Ready s n d f outer under (ops ++ [y]) (q + (source.conversion target).length) := by
  unfold Ty.conversion at hcode ⊢
  split
  · exact hr.unary hcode.instr fun z => rfl
  · exact hr.unary hcode.instr fun z => rfl
  · have hsame : converted source target x = x := by
      unfold converted
      split <;> first | rfl | simp_all
    rw [hsame]
    exact Watch.leads_now hr

/-- Loading gives the value of a variable. -/
theorem load (hr : Ready s n d f outer under ops q h m st) (hp : HasPlace st p)
    (hcode : Sits f.routine.code.toList [p.address, ⟨.load64, 0⟩] q) :
    (watchStore s n).Leads h m (.ok (st.read p), st)
      fun x => Ready s n d f outer under (ops ++ [x]) (q + 2) := by
  refine hr.operands hcode.instr (ops ++ [UInt64.ofNat (addressOf f p)])
    (fun z => (hr.holds.execute_address hp _ z).trans (by rw [List.append_assoc])) fun m₁ hr₁ => ?_
  refine hr₁.operands hcode.tail.instr (ops ++ [st.read p]) (fun z => ?_) fun _ hr₂ =>
    Watch.leads_now hr₂
  have hfloor := hr.holds.floor_le (q + 1 + 1) ops
  simp only [execute]
  rw [← List.append_assoc, withTop_withMemory hfloor,
    load_withMemory hr.holds.length_lt (hr.holds.get_address hp ops),
    List.append_assoc]

/-- Room is made for a result. -/
theorem room (hr : Ready s n d f outer under ops q h m st) (g : Callee)
    (hcode : f.routine.code[q]? = some g.room) {r : Except (Cut Mishap) α × Store}
    {Q : α → List Machine → Machine → Store → Prop}
    (hnext : ∀ m₁, Ready s n d f outer under (ops ++ List.replicate g.result.slots 0) (q + 1)
      (h ++ [m]) m₁ st → (watchStore s n).Leads (h ++ [m]) m₁ r Q) :
    (watchStore s n).Leads h m r Q := by
  refine hr.operands hcode _ (fun z => ?_) hnext
  have hslots : g.result.slots < 2 ^ 63 := by
    have : g.result.slots ≤ 1 := by cases g.result <;> decide
    omega
  simp only [Callee.room, execute, Int64.toInt_ofNat_of_lt hslots, Int.toNat_natCast,
    reserve_withMemory, List.append_assoc]

/-- A value that is not needed is dropped. -/
theorem drop (hr : Ready s n d f outer under (ops ++ [x]) q h m st)
    (hcode : f.routine.code[q]? = some ⟨.pop, 0⟩) {a : α} :
    (watchStore s n).Leads h m (.ok a, st) fun _ => Ready s n d f outer under ops (q + 1) := by
  refine hr.operands hcode ops (fun z => ?_) fun _ hr' => Watch.leads_now hr'
  simp only [execute]
  rw [← List.append_assoc, withTop_withMemory (hr.holds.floor_le _ ops)]

/-- Storing gives a variable its value. -/
theorem store (hp : HasPlace st p)
    (hr : Ready s n d f outer under (ops ++ [UInt64.ofNat (addressOf f p)] ++ [x]) q h m st)
    (hcode : f.routine.code[q]? = some ⟨.store64, 0⟩) {a : α} :
    (watchStore s n).Leads h m (.ok a, st.write p x)
      fun _ => Ready s n d f outer under ops (q + 1) := by
  have hh := hr.holds
  have hfloor := hh.floor_le (q + 1) ops
  have hshort : (floorWords under st ++ ops).length < 2 ^ 63 := by
    have := hh.length_lt
    simp only [List.length_append] at this ⊢
    omega
  have haddr : addressOf f p < (floorWords under st ++ ops).length :=
    (List.getElem?_eq_some_iff.mp (hh.get_address hp ops)).1
  obtain ⟨m₁, hact, hlike⟩ := hh.act_next (y := Machine.withMemory
      ({ m with frames := f.at (q + 1) :: outer }) (floorWords under (st.write p x) ++ ops)) hcode (by
    simp only [execute]
    rw [← List.append_assoc, ← List.append_assoc, withTwo_withMemory hfloor,
      store_withMemory hshort haddr, hh.set_address hp]
    rfl)
  have hmemory : m₁.memory.toList = floorWords under (st.write p x) ++ ops := by
    rw [hlike.memory]
    rfl
  refine Watch.leads_step hact (Watch.leads_now
    ⟨⟨⟨hlike.frames, hmemory, ?_, ?_, ?_⟩, ?_, ?_, ?_, ?_, ?_, ?_⟩, ?_⟩)
  · rw [(io_write st p x).1]
    exact hlike.input.trans hh.synced.input
  · rw [(io_write st p x).2]
    exact hlike.output.trans hh.synced.output
  · rw [hlike.memo]
    exact hh.synced.memo
  · rw [length_globals_write, hh.globals]
  · rw [length_globals_write, hh.argsAt]
  · rw [length_args_write, hh.localsAt]
  · rw [length_args_write, hh.args]
  · rw [length_locals_write, hh.locals]
  · rw [← Array.length_toList, hmemory, ← hh.set_address hp x ops, List.length_set]
    exact hshort
  · have := hr.deep
    simp only [List.length_append]
    omega

end Ready

end

end TinyC.Machine
