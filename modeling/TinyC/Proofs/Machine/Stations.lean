import TinyC.Proofs.Machine.ControlFlow
import TinyC.Proofs.Machine.Plan
import TinyC.Proofs.Machine.Windows

/-!
# Machines follow the plans of their code

A machine that runs a compiled program is always where the plan of its code says. Every frame stands
on what its callers have left, with the slots of its window behind, and behind these the operands
that the plan of its function says (`Poised`, `Beneath`). So each word of memory is known for what
it is: a variable or an operand of a type, an address and which one, or room for a result.

`onward` says once what an instruction can do to such a machine: it turns to another place in its
function, it enters a function, or it leaves one. Behind each of the three the machine is again
where the plan says (`Onward.poised`), so it is in every state of a run (`settled_passes`).
-/

namespace TinyC

open Core Machine

/-! ## What lies in memory -/

/-- What a word of memory is: a value of a type, an address, or room for a result. -/
inductive Slot where
  | holds (type : Ty)
  | address (a : Nat)
  | room
  deriving Repr, DecidableEq

/-- The words are as many as the slots, and the addresses among them are the right ones. -/
structure Filled (slots : List Slot) (l : List UInt64) : Prop where
  length : l.length = slots.length
  address : ∀ (i a : Nat), slots[i]? = some (.address a) → l[i]? = some (UInt64.ofNat a)

namespace Filled

variable {slots others : List Slot} {l r : List UInt64}

theorem append (h : Filled slots l) (k : Filled others r) : Filled (slots ++ others) (l ++ r) := by
  refine ⟨by simp [h.length, k.length], fun i a hi => ?_⟩
  by_cases hlt : i < slots.length
  · rw [List.getElem?_append_left hlt] at hi
    rw [List.getElem?_append_left (h.length ▸ hlt)]
    exact h.address i a hi
  · rw [List.getElem?_append_right (by omega)] at hi
    rw [List.getElem?_append_right (by rw [h.length]; omega), h.length]
    exact k.address _ a hi

/-- Words that fill slots in a row are words that fill the first ones, and words that fill the
others. -/
theorem split (h : Filled (slots ++ others) l) :
    ∃ l₁ l₂, l = l₁ ++ l₂ ∧ Filled slots l₁ ∧ Filled others l₂ := by
  have hlength := h.length
  rw [List.length_append] at hlength
  refine ⟨l.take slots.length, l.drop slots.length, (List.take_append_drop _ l).symm,
    ⟨by simp [hlength], fun i a hi => ?_⟩, ⟨by simp [hlength], fun i a hi => ?_⟩⟩
  · have hlt : i < slots.length := (List.getElem?_eq_some_iff.mp hi).1
    rw [List.getElem?_take, if_pos hlt]
    exact h.address i a (by rw [List.getElem?_append_left hlt, hi])
  · rw [List.getElem?_drop]
    refine h.address _ a ?_
    rw [List.getElem?_append_right (by omega), Nat.add_sub_cancel_left, hi]

theorem one {slot : Slot} (h : Filled [slot] l) : ∃ x, l = [x] := by
  match l, h.length with
  | [x], _ => exact ⟨x, rfl⟩

theorem two {slot slot' : Slot} (h : Filled [slot, slot'] l) : ∃ x y, l = [x] ++ [y] := by
  match l, h.length with
  | [x, y], _ => exact ⟨x, y, rfl⟩

/-- Any words fill slots that no address is in. -/
theorem free (h : ∀ slot ∈ slots, ∀ a, slot ≠ .address a) (hlength : l.length = slots.length) :
    Filled slots l :=
  ⟨hlength, fun _ a hi => absurd rfl (h _ (List.mem_of_getElem? hi) a)⟩

/-- A word can be changed where there is no address. -/
theorem set (h : Filled slots l) {i : Nat} {slot : Slot} (hi : slots[i]? = some slot)
    (hslot : ∀ a, slot ≠ .address a) (x : UInt64) : Filled slots (l.set i x) := by
  refine ⟨by rw [List.length_set, h.length], fun j a hj => ?_⟩
  have hne : i ≠ j := by
    rintro rfl
    rw [hi] at hj
    cases hj
    exact hslot a rfl
  rw [List.getElem?_set_ne hne]
  exact h.address j a hj

end Filled

/-- The words below an address are the same, but for those of globals. -/
def Spares (globals args : Nat) (l l' : List UInt64) : Prop :=
  ∀ i, globals ≤ i → i < args → l'[i]? = l[i]?

theorem spares_append {globals args : Nat} {l : List UInt64} (h : args ≤ l.length)
    (k k' : List UInt64) : Spares globals args (l ++ k) (l ++ k') := by
  intro i _ hi
  rw [List.getElem?_append_left (by omega), List.getElem?_append_left (by omega)]

/-- The slot of an operand of a frame. -/
def Core.Cell.slot (f : Frame) : Cell → Slot
  | .value type => .holds type
  | .address p => .address (addressOf f p)
  | .room => .room

/-- The slots that the caller of a function fills: room for the result, until it is stored, and the
arguments. -/
def Core.Env.window (Γ : Env) (stored : Bool) : List Slot :=
  List.replicate Γ.result.slots (if stored then Slot.holds Γ.result else .room)
    ++ Γ.params.map Slot.holds

@[simp] theorem Core.Env.length_window (Γ : Env) (stored : Bool) :
    (Γ.window stored).length = Γ.result.slots + Γ.params.length := by
  simp [window]

/-- The slots of a function: its result, its arguments and its local variables. -/
def Core.Script.ownSlots (σ : Script) (stored : Bool) : List Slot :=
  σ.env.window stored ++ σ.env.locals.map Slot.holds

@[simp] theorem Core.Script.length_ownSlots (σ : Script) (stored : Bool) :
    (σ.ownSlots stored).length
      = σ.env.result.slots + σ.env.params.length + σ.env.locals.length := by
  simp [ownSlots]

theorem Core.Script.ne_address_of_mem {σ : Script} {stored : Bool} {slot : Slot}
    (h : slot ∈ σ.ownSlots stored) (a : Nat) : slot ≠ .address a := by
  rcases List.mem_append.mp h with h | h
  · rcases List.mem_append.mp h with h | h
    · obtain ⟨-, rfl⟩ := List.mem_replicate.mp h
      split <;> exact nofun
    · obtain ⟨type, -, rfl⟩ := List.mem_map.mp h
      exact nofun
  · obtain ⟨type, -, rfl⟩ := List.mem_map.mp h
    exact nofun

/-- The slots up to the operands of a frame, the last one at the end. -/
def frameSlots (σ : Script) (f : Frame) (below : List Slot) (st : Station) : List Slot :=
  below ++ σ.ownSlots st.leaving ++ (st.cells.map (Cell.slot f)).reverse

theorem frameSlots_append (σ : Script) (f : Frame) (below : List Slot) (tops cells : List Cell)
    (stored : Bool) :
    frameSlots σ f below ⟨tops ++ cells, stored⟩
      = frameSlots σ f below ⟨cells, stored⟩ ++ (tops.map (Cell.slot f)).reverse := by
  simp [frameSlots]

theorem length_frameSlots (σ : Script) (f : Frame) (below : List Slot) (st : Station) :
    (frameSlots σ f below st).length = below.length
      + (σ.env.result.slots + σ.env.params.length + σ.env.locals.length) + st.cells.length := by
  simp [frameSlots, Nat.add_assoc]

section

variable {π : Type} {l : List UInt64} {Γ : Env}

/-- The slots of the globals. -/
def globalSlots (t : ProgramTables π) : List Slot :=
  t.globals.rows.map fun e => .holds e.type

/-- The code at a slot of a program with its plan. -/
def Core.Program.script? (p : Core.Program) (Γ : Env) : Nat → Option Script
  | 0 => some (p.entryScript Γ)
  | k + 1 => (p.functions[k]?).map (Fn.script Γ)

/-- A row of the tables is that of a function in the machine, whose code keeps its plan. -/
structure Scripted (s : Setup) (t : ProgramTables π) (p : Core.Program) (k : Nat) (g : Function π)
    (σ : Script) : Prop where
  holding : Holding s t k σ.code g
  script : p.script? (t.env g) k = some σ
  sound : σ.Sound

/-- A frame is that of the function at a slot, and stands on some slots. -/
structure Seated (s : Setup) (t : ProgramTables π) (p : Core.Program) (f : Frame) (k : Nat)
    (g : Function π) (σ : Script) (below : List Slot) : Prop where
  scripted : Scripted s t p k g σ
  routine : f.routine = g.routine
  args : f.args = below.length
  locals : f.locals = f.args + (σ.env.result.slots + σ.env.params.length)

/-- What lies below the frame of the function at a slot, which has a result of a type: the globals
below the entry function, and below any other the frame of a caller that waits for the result. -/
inductive Beneath (s : Setup) (t : ProgramTables π) (p : Core.Program) :
    Nat → Ty → List Frame → List Slot → Prop
  | globals {result : Ty} : Beneath s t p 0 result [] (globalSlots t)
  | caller {slot k : Nat} {result : Ty} {f : Frame} {outer : List Frame} {g : Function π}
    {σ : Script} {below : List Slot} {cells : List Cell} (hslot : 0 < slot)
    (hseated : Seated s t p f k g σ below)
    (hstation : σ.station f.pc = some ⟨values result ++ cells, false⟩)
    (hbeneath : Beneath s t p k σ.env.result outer below) :
    Beneath s t p slot result (f :: outer) (frameSlots σ f below ⟨cells, false⟩)

/-- The innermost frame is where the plan of its function says, and so are the others. -/
structure Poised (s : Setup) (t : ProgramTables π) (p : Core.Program) (f : Frame)
    (outer : List Frame) (k : Nat) (g : Function π) (σ : Script) (st : Station)
    (below : List Slot) : Prop where
  seated : Seated s t p f k g σ below
  station : σ.station f.pc = some st
  beneath : Beneath s t p k σ.env.result outer below

/-- The machine is where the plans of its code say, and the words of its memory are what the slots
say. -/
def Settled (s : Setup) (t : ProgramTables π) (p : Core.Program) (m : Machine)
    (slots : List Slot) : Prop :=
  ∃ f outer k g σ st below, m.frames = f :: outer ∧ Poised s t p f outer k g σ st below ∧
    slots = frameSlots σ f below st ∧ Filled slots m.memory.toList

variable {s : Setup} {t : ProgramTables π} {p : Core.Program} {f : Frame} {outer : List Frame}
  {k : Nat} {g : Function π} {σ : Script} {st : Station} {below : List Slot}

theorem Scripted.env (h : Scripted s t p k g σ) : σ.env = t.env g := by
  have hscript := h.script
  cases k with
  | zero =>
    cases hscript
    rfl
  | succ k =>
    obtain ⟨fn, -, rfl⟩ := Option.map_eq_some_iff.mp hscript
    rfl

/-- The slots that a caller fills are those that the function counts. -/
theorem Scripted.window (h : Scripted s t p k g σ) :
    g.routine.returns = σ.env.result.slots ∧ g.routine.params = σ.env.params.length ∧
      g.routine.locals = σ.env.locals.length := by
  rw [h.env]
  refine ⟨rfl, h.holding.params, ?_⟩
  rw [Function.routine, h.holding.locals]
  exact (List.length_map _).symm

/-- Every row of the tables is that of a function whose code keeps its plan. -/
theorem Laid.scripted (hl : Laid s t p) (hg : t.functions.rows[k]? = some g) :
    ∃ σ, Scripted s t p k g σ := by
  cases k with
  | zero =>
    obtain ⟨g', hholds, hinits, -⟩ := hl.entry
    have hsame := hholds.row
    rw [hg] at hsame
    cases hsame
    refine ⟨p.entryScript (t.env g), hholds, rfl, Program.entry_sound hinits
      fun slot type hmain => ?_⟩
    obtain ⟨hslot, f, hf, -, rfl, -⟩ := hl.describes.main slot type hmain
    exact ⟨hslot, f.paramTypes, by simp [ProgramTables.env, hf]⟩
  | succ k =>
    obtain ⟨fn, hfn, hholds, htyped⟩ := hl.function_of_row hg
    exact ⟨fn.script (t.env g), hholds, by simp [Core.Program.script?, hfn], Fn.sound htyped⟩

/-- So is what the code of a function knows of another one. -/
theorem Laid.scripted_of_sig (hl : Laid s t p) (h : Scripted s t p k g σ) {slot : Nat}
    {params : List Ty} {result : Ty} (hsig : σ.env.functions[slot]? = some ⟨params, result⟩) :
    ∃ g' σ', Scripted s t p slot g' σ' ∧ σ'.env.params = params ∧ σ'.env.result = result := by
  rw [h.env] at hsig
  simp only [ProgramTables.env, List.getElem?_map, Option.map_eq_some_iff] at hsig
  obtain ⟨g', hg', heq⟩ := hsig
  cases heq
  obtain ⟨σ', hscripted⟩ := hl.scripted hg'
  refine ⟨g', σ', hscripted, ?_, ?_⟩
  · rw [hscripted.env]
    rfl
  · rw [hscripted.env]
    rfl

/-- Where a frame is in its code does not matter. -/
theorem Seated.at (h : Seated s t p f k g σ below) (q : Nat) : Seated s t p (f.at q) k g σ below :=
  ⟨h.scripted, h.routine, h.args, h.locals⟩

theorem Seated.floor (h : Seated s t p f k g σ below) :
    f.floor = below.length
      + (σ.env.result.slots + σ.env.params.length + σ.env.locals.length) := by
  rw [Frame.floor, h.routine, h.scripted.window.2.2, h.locals, h.args, Nat.add_assoc]

theorem Seated.code (h : Seated s t p f k g σ below) : f.routine.code.toList = σ.code := by
  rw [h.routine]
  exact h.scripted.holding.code

/-- The globals are at the bottom. -/
theorem Beneath.globals_prefix {result : Ty} (h : Beneath s t p k result outer below) :
    globalSlots t <+: below := by
  induction h with
  | globals => exact List.prefix_refl _
  | caller hslot hseated hstation hbeneath ih =>
    exact ih.trans ((List.prefix_append _ _).trans (List.prefix_append _ _))

/-- The slot at a place that the code of a function names. -/
def Core.Env.slot? (Γ : Env) (stored : Bool) (q : Core.Place) : Option Slot :=
  match q.location with
  | .global => Γ.globals[q.slot]?.map Slot.holds
  | .param => (Γ.window stored)[q.slot]?
  | .local => Γ.locals[q.slot]?.map Slot.holds

/-- The slot of a variable has its type. -/
theorem Core.Env.slot?_of_place? {q : Core.Place} {type : Ty} (h : Γ.place? q = some type)
    (stored : Bool) : Γ.slot? stored q = some (.holds type) := by
  obtain ⟨location, slot⟩ := q
  cases location with
  | global | «local» => exact congrArg (Option.map Slot.holds) h
  | param =>
    simp only [place?] at h
    split at h
    · rename_i hslot
      simp only [slot?, window]
      rw [List.getElem?_append_right (by simpa using hslot), List.length_replicate,
        List.getElem?_map, h]
      rfl
    · cases h

/-- The slot of the result is room until it is stored. -/
theorem Core.Env.slot?_result (h : Γ.result ≠ .void) : Γ.slot? false ⟨.param, 0⟩ = some .room := by
  unfold slot? window
  cases hr : Γ.result with
  | void => contradiction
  | _ => rfl

/-- A place that the code names is one of its slots, and it is a global or in the window of the
frame. -/
theorem Poised.slot (h : Poised s t p f outer k g σ st below) {stored : Bool} {q : Core.Place}
    {slot : Slot} (hq : σ.env.slot? stored q = some slot) (cells : List Cell) :
    (frameSlots σ f below ⟨cells, stored⟩)[addressOf f q]? = some slot ∧
      (addressOf f q < t.globals.rows.length ∨ f.args ≤ addressOf f q) := by
  have hargs := h.seated.args
  have hlocals := h.seated.locals
  obtain ⟨location, n⟩ := q
  rw [frameSlots, List.append_assoc]
  cases location with
  | global =>
    have hget : (globalSlots t)[n]? = some slot := by
      simpa [Env.slot?, h.seated.scripted.env, ProgramTables.env, globalSlots, Function.comp_def]
        using hq
    have hlt : n < t.globals.rows.length := by
      simpa [globalSlots] using (List.getElem?_eq_some_iff.mp hget).1
    refine ⟨?_, .inl hlt⟩
    exact getElem?_of_prefix (h.beneath.globals_prefix.trans (List.prefix_append _ _)) hget
  | param =>
    have hlt : n < (σ.env.window stored).length := (List.getElem?_eq_some_iff.mp hq).1
    refine ⟨?_, .inr (Nat.le_add_right _ _)⟩
    have hat : addressOf f ⟨.param, n⟩ = below.length + n := by
      rw [addressOf, hargs]
    have hget : (σ.ownSlots stored)[n]? = some slot := by
      rw [Script.ownSlots, List.getElem?_append_left hlt]
      exact hq
    rw [hat, List.getElem?_append_right (by omega), Nat.add_sub_cancel_left,
      List.getElem?_append_left (List.getElem?_eq_some_iff.mp hget).1, hget]
  | «local» =>
    refine ⟨?_, .inr ?_⟩
    · have hat : addressOf f ⟨.local, n⟩ = below.length + ((σ.env.window stored).length + n) := by
        rw [addressOf, hlocals, hargs, Env.length_window, Nat.add_assoc]
      have hget : (σ.ownSlots stored)[(σ.env.window stored).length + n]? = some slot := by
        rw [Script.ownSlots, List.getElem?_append_right (by omega), Nat.add_sub_cancel_left,
          List.getElem?_map]
        exact hq
      rw [hat, List.getElem?_append_right (by omega), Nat.add_sub_cancel_left,
        List.getElem?_append_left (List.getElem?_eq_some_iff.mp hget).1, hget]
    · show f.args ≤ f.locals + n
      omega

/-- The words of the operands on top, and those below them. -/
theorem Seated.operands (h : Seated s t p f k g σ below) (tops : List Cell) {cells : List Cell}
    {stored : Bool} (hfilled : Filled (frameSlots σ f below ⟨tops ++ cells, stored⟩) l) :
    ∃ l₁ l₂, l = l₁ ++ l₂ ∧ Filled (frameSlots σ f below ⟨cells, stored⟩) l₁ ∧
      Filled (tops.map (Cell.slot f)).reverse l₂ ∧ f.next.floor ≤ l₁.length ∧
      f.args ≤ l₁.length := by
  rw [frameSlots_append] at hfilled
  obtain ⟨l₁, l₂, rfl, h₁, h₂⟩ := hfilled.split
  have hfloor : f.floor ≤ l₁.length := by
    rw [h₁.length, h.floor, length_frameSlots]
    omega
  have hargs : f.args ≤ f.floor := by
    have := h.locals
    rw [Frame.floor]
    omega
  exact ⟨l₁, l₂, rfl, h₁, h₂, hfloor, Nat.le_trans hargs hfloor⟩

/-! ## What instructions do to operands -/

/-- Operands are replaced by others, and nothing below them changes. -/
theorem renewed {cells : List Cell} {stored : Bool} {l₁ l₃ : List UInt64}
    (h₁ : Filled (frameSlots σ f below ⟨cells, stored⟩) l₁) (hargs : f.args ≤ l₁.length)
    (globals : Nat) (l₂ : List UInt64) {news : List Cell}
    (h₃ : Filled (news.map (Cell.slot f)).reverse l₃) :
    Filled (frameSlots σ f below ⟨news ++ cells, stored⟩) (l₁ ++ l₃) ∧
      Spares globals f.args (l₁ ++ l₂) (l₁ ++ l₃) := by
  rw [frameSlots_append]
  exact ⟨h₁.append h₃, spares_append hargs l₂ l₃⟩

theorem filled_address (f : Frame) (q : Core.Place) :
    Filled ([Cell.address q].map (Cell.slot f)).reverse [UInt64.ofNat (addressOf f q)] := by
  refine ⟨rfl, fun i b hi => ?_⟩
  match i, hi with
  | 0, hi =>
    cases hi
    rfl

theorem filled_value (f : Frame) (type : Ty) (x : UInt64) :
    Filled ([Cell.value type].map (Cell.slot f)).reverse [x] :=
  .free (by simp [Cell.slot]) rfl

section

variable {c c' : Cell} {cells : List Cell} {stored : Bool} {l l' : List UInt64}

/-- An operand is replaced by a value. -/
theorem Seated.renews_one (h : Seated s t p f k g σ below) {type : Ty}
    (hfilled : Filled (frameSlots σ f below ⟨c :: cells, stored⟩) l)
    (hl : ∀ (l₁ : List UInt64) x, l = l₁ ++ [x] → f.next.floor ≤ l₁.length → ∃ z, l' = l₁ ++ [z]) :
    Filled (frameSlots σ f below ⟨.value type :: cells, stored⟩) l' ∧
      Spares t.globals.rows.length f.args l l' := by
  obtain ⟨l₁, l₂, rfl, h₁, h₂, hfloor, hargs⟩ := h.operands [c] hfilled
  obtain ⟨x, rfl⟩ := h₂.one
  obtain ⟨z, rfl⟩ := hl l₁ x rfl hfloor
  exact renewed h₁ hargs _ _ (filled_value f type z)

/-- Two operands are replaced by a value. -/
theorem Seated.renews_two (h : Seated s t p f k g σ below) {type : Ty}
    (hfilled : Filled (frameSlots σ f below ⟨c :: c' :: cells, stored⟩) l)
    (hl : ∀ (l₁ : List UInt64) x y, l = l₁ ++ [x] ++ [y] → f.next.floor ≤ l₁.length →
      ∃ z, l' = l₁ ++ [z]) :
    Filled (frameSlots σ f below ⟨.value type :: cells, stored⟩) l' ∧
      Spares t.globals.rows.length f.args l l' := by
  obtain ⟨l₁, l₂, rfl, h₁, h₂, hfloor, hargs⟩ := h.operands [c, c'] hfilled
  obtain ⟨x, y, rfl⟩ := h₂.two
  obtain ⟨z, rfl⟩ := hl l₁ x y (List.append_assoc _ _ _).symm hfloor
  exact renewed h₁ hargs _ _ (filled_value f type z)

end

section

variable {l : List UInt64} {z y : Machine} {x a b : UInt64}

theorem memory_unary {op : UInt64 → UInt64} (hfloor : f.floor ≤ l.length)
    (h : (z.withMemory (l ++ [x])).unary f op = (y, none)) : y.memory.toList = l ++ [op x] := by
  rw [unary_withMemory hfloor] at h
  cases h
  rfl

theorem memory_binary {op : UInt64 → UInt64 → UInt64} (hfloor : f.floor ≤ l.length)
    (h : (z.withMemory (l ++ [a] ++ [b])).binary f op = (y, none)) :
    y.memory.toList = l ++ [op a b] := by
  rw [binary_withMemory hfloor] at h
  cases h
  rfl

/-- An arithmetic operator replaces two operands by one. -/
theorem memory_arith {op : ArithOp} {type : Ty} (htype : type.isNumeric = true)
    (hfloor : f.floor ≤ l.length)
    (h : (z.withMemory (l ++ [a] ++ [b])).execute s f (op.instr type) = (y, none)) :
    ∃ c, y.memory.toList = l ++ [c] := by
  cases type with
  | void | string => cases htype
  | double => cases op <;> exact ⟨_, memory_binary hfloor h⟩
  | int =>
    cases op with
    | add | sub | mul => exact ⟨_, memory_binary hfloor h⟩
    | div =>
      simp only [ArithOp.instr, execute] at h
      rw [withTwo_withMemory hfloor] at h
      split at h
      · cases h
      · rw [push_withMemory] at h
        cases h
        exact ⟨_, rfl⟩

/-- The instruction for the address of a place pushes it. -/
theorem memory_address {q : Core.Place} (h : (z.withMemory l).execute s f q.address = (y, none)) :
    y.memory.toList = l ++ [UInt64.ofNat (addressOf f q)] := by
  obtain ⟨location, slot⟩ := q
  cases location <;> simp only [Core.Place.address, execute, push_withMemory] at h <;>
    split at h <;> cases h <;>
      simp [withMemory, addressOf, Int64.toUInt64_ofNat', UInt64.ofNat_add]

/-- Loading replaces an address by a word. -/
theorem memory_load (hfloor : f.floor ≤ l.length)
    (h : (z.withMemory (l ++ [x])).withTop f load = (y, none)) :
    ∃ c, y.memory.toList = l ++ [c] := by
  rw [withTop_withMemory hfloor, load] at h
  split at h
  · cases h
    exact ⟨_, by simp [withMemory, push]; rfl⟩
  · cases h

/-- Storing changes the word at an address. -/
theorem memory_store {addr : Nat} (hfloor : f.floor ≤ l.length) (hlong : l.length < 2 ^ 63)
    (haddr : addr < l.length)
    (h : (z.withMemory (l ++ [UInt64.ofNat addr] ++ [x])).withTwo f store = (y, none)) :
    y.memory.toList = l.set addr x := by
  rw [withTwo_withMemory hfloor, store_withMemory hlong haddr] at h
  cases h
  rfl

/-- A built-in function replaces the room for its result by the result. -/
theorem memory_perform {b : Builtin} {m : Machine} {r : List UInt64}
    (hm : m.memory.toList = l ++ r) (hr : r.length = b.result.slots)
    (h : m.perform s b x = (y, none)) :
    ∃ r', r'.length = b.result.slots ∧ y.memory.toList = l ++ r' := by
  have hsend {write : Output → Output} (h : m.send write = (y, none)) :
      y.memory.toList = l ++ r := by
    unfold Machine.send at h
    dsimp only at h
    split at h
    · cases h
    · cases h
      exact hm
  have hreceive {α : Type} {scan : Scan α} {word : α → UInt64}
      (h : m.receive b scan word = (y, none)) (hone : b.result.slots = 1) :
      ∃ w, y.memory.toList = l ++ [w] := by
    obtain ⟨w, rfl⟩ := List.length_eq_one_iff.mp (hr.trans hone)
    unfold Machine.receive at h
    split at h
    · cases h
      exact ⟨_, by simp [hm]; rfl⟩
    · cases h
  cases b with
  | getint | getdouble | getchar =>
    obtain ⟨w, hw⟩ := hreceive h rfl
    exact ⟨[w], rfl, hw⟩
  | putint | putdouble | putchar | putln =>
    simp only [perform] at h
    exact ⟨r, hr, hsend h⟩
  | putstr =>
    simp only [perform] at h
    split at h
    · exact ⟨r, hr, hsend h⟩
    · cases h

/-- So does the call of one, which finds its argument above the room. -/
theorem memory_callBuiltin {b : Builtin} {slot : Int64} {r xs : List UInt64}
    (hmemo : z.memo.Sound s.module) (hb : builtinAt s.module slot = .ok b)
    (hr : r.length = b.result.slots) (hxs : xs.length = b.paramTypes.length)
    (h : (z.withMemory (l ++ r ++ xs)).callBuiltin s f slot = (y, none)) :
    ∃ r', r'.length = b.result.slots ∧ y.memory.toList = l ++ r' := by
  obtain ⟨memo, hresolve, hsound⟩ := resolve_eq (m := z.withMemory (l ++ r ++ xs)) hmemo slot
  unfold callBuiltin at h
  rw [hresolve, hb] at h
  dsimp only at h
  split at h
  · cases h
  · have hsynced : Synced s { z.withMemory (l ++ r ++ xs) with memo } z.frames (l ++ r ++ xs)
        ⟨[], [], [], z.input, z.output⟩ := ⟨rfl, rfl, rfl, rfl, hsound⟩
    exact memory_perform (synced_popArgument hsynced hxs).2.memory hr h

end

theorem straight_moves {i : Instr} {cells cells' : List Cell} (h : Moves Γ i cells cells') :
    Straight i.op := by
  cases h with
  | pop | load | store => decide
  | builtin | room => simp [Callee.room, Straight]
  | @address q =>
    obtain ⟨location, slot⟩ := q
    cases location <;> simp [Place.address, Straight]
  | @arith op type => cases op <;> cases type <;> decide
  | @negate type => cases type <;> decide
  | @convert source target i _ hi =>
    cases source <;> cases target <;> simp [Ty.conversion] at hi <;> subst hi <;> decide
  | @compare type => cases type <;> decide
  | sign h => rcases h with rfl | rfl <;> decide

section

variable (h : Poised s t p f outer k g σ st below) {q : Core.Place} {type : Ty} {cells : List Cell}
  {l : List UInt64}
  (hfilled : Filled (frameSlots σ f below ⟨.value type :: .address q :: cells, false⟩) l)
  (hlong : l.length < 2 ^ 63) {slot : Slot} (hq : σ.env.slot? false q = some slot) {z y : Machine}
  (hexec : (z.withMemory l).execute s f.next ⟨.store64, 0⟩ = (y, none))
include h hfilled hlong hq hexec

/-- A store finds an address that there is and a value on top, and changes the word at the
address. -/
theorem Poised.stores_at :
    ∃ l₁ x, l = l₁ ++ [UInt64.ofNat (addressOf f q)] ++ [x] ∧ addressOf f q < l₁.length ∧
      y.memory.toList = l₁.set (addressOf f q) x ∧ f.args ≤ l₁.length ∧
      Filled (frameSlots σ f below ⟨cells, false⟩) l₁ := by
  obtain ⟨l₁, l₂, rfl, h₁, h₂, hfloor, hargs⟩ :=
    h.seated.operands [.value type, .address q] hfilled
  obtain ⟨a, x, rfl⟩ := h₂.two
  have ha : a = UInt64.ofNat (addressOf f q) := by simpa using h₂.address 0 _ rfl
  subst ha
  have hlt : addressOf f q < l₁.length := by
    rw [h₁.length]
    exact (List.getElem?_eq_some_iff.mp (h.slot hq cells).1).1
  rw [List.length_append] at hlong
  rw [← List.append_assoc] at hexec ⊢
  exact ⟨l₁, x, rfl, hlt, memory_store hfloor (by omega) hlt hexec, hargs, h₁⟩

/-- A store takes its operands away and changes one word, that of a variable or a result. -/
theorem Poised.stores (hslot : ∀ a, slot ≠ .address a) :
    Filled (frameSlots σ f below ⟨cells, false⟩) y.memory.toList ∧
      Spares t.globals.rows.length f.args l y.memory.toList := by
  obtain ⟨l₁, x, rfl, hlt, hmemory, hargs, h₁⟩ := h.stores_at hfilled hlong hq hexec
  obtain ⟨hget, hwhere⟩ := h.slot hq cells
  rw [hmemory]
  refine ⟨h₁.set hget hslot x, fun j hj₁ hj₂ => ?_⟩
  rw [List.getElem?_set_ne (by omega), List.append_assoc, List.getElem?_append_left (by omega)]

end

/-- **An instruction that leads to the next one leaves the operands that the plan says**, and of
what lies below its frame it changes only globals. -/
theorem Poised.moves (hl : Laid s t p) (h : Poised s t p f outer k g σ st below) {i : Instr}
    {cells cells' : List Cell} (hmoves : Moves σ.env i cells cells')
    (hfilled : Filled (frameSlots σ f below ⟨cells, false⟩) l) (hlong : l.length < 2 ^ 63)
    {z y : Machine} (hmemo : z.memo.Sound s.module)
    (hexec : (z.withMemory l).execute s f.next i = (y, none)) :
    Filled (frameSlots σ f below ⟨cells', false⟩) y.memory.toList ∧
      Spares t.globals.rows.length f.args l y.memory.toList := by
  cases hmoves with
  | @pop type =>
    obtain ⟨l₁, l₂, rfl, h₁, h₂, hfloor, hargs⟩ := h.seated.operands [.value type] hfilled
    obtain ⟨x, rfl⟩ := h₂.one
    simp only [execute] at hexec
    rw [withTop_withMemory hfloor] at hexec
    cases hexec
    have hspares : Spares t.globals.rows.length f.args (l₁ ++ [x]) l₁ := by
      simpa using spares_append hargs [x] []
    exact ⟨h₁, hspares⟩
  | @address q =>
    obtain ⟨l₁, l₂, rfl, h₁, h₂, -, hargs⟩ := h.seated.operands [] hfilled
    obtain rfl := List.length_eq_zero_iff.mp h₂.length
    rw [List.append_nil] at hexec ⊢
    have hmemory : y.memory.toList = l₁ ++ [UInt64.ofNat (addressOf f q)] :=
      memory_address (f := f.next) hexec
    rw [hmemory]
    simpa using renewed h₁ hargs t.globals.rows.length [] (filled_address f q)
  | load hq =>
    refine h.seated.renews_one hfilled fun l₁ x hl hfloor => ?_
    subst hl
    exact memory_load hfloor hexec
  | @store q type _ hq =>
    exact h.stores hfilled hlong (Env.slot?_of_place? hq false) hexec (fun a => nofun)
  | @room callee =>
    obtain ⟨l₁, l₂, rfl, h₁, h₂, -, hargs⟩ := h.seated.operands [] hfilled
    obtain rfl := List.length_eq_zero_iff.mp h₂.length
    have hslots : callee.result.slots < 2 ^ 63 := by
      have : callee.result.slots ≤ 1 := by cases callee.result <;> decide
      omega
    simp only [Callee.room, execute, Int64.toInt_ofNat_of_lt hslots, Int.toNat_natCast,
      reserve_withMemory, List.append_nil] at hexec
    cases hexec
    exact renewed h₁ hargs t.globals.rows.length [] (.free (by simp [rooms, Cell.slot]) (by simp))
  | arith htype =>
    refine h.seated.renews_two hfilled fun l₁ a b hl hfloor => ?_
    subst hl
    exact memory_arith htype hfloor hexec
  | @negate type _ htype =>
    refine h.seated.renews_one hfilled fun l₁ x hl hfloor => ?_
    subst hl
    cases type <;> exact ⟨_, memory_unary hfloor hexec⟩
  | @convert source target i _ hi =>
    refine h.seated.renews_one hfilled fun l₁ x hl hfloor => ?_
    subst hl
    cases source <;> cases target <;> simp [Ty.conversion] at hi <;> subst hi <;>
      exact ⟨_, memory_unary hfloor hexec⟩
  | compare htype =>
    refine h.seated.renews_two hfilled fun l₁ a b hl hfloor => ?_
    subst hl
    split at hexec <;> exact ⟨_, memory_binary hfloor hexec⟩
  | sign hop =>
    refine h.seated.renews_one hfilled fun l₁ x hl hfloor => ?_
    subst hl
    rcases hop with rfl | rfl <;> exact ⟨_, memory_unary hfloor hexec⟩
  | @builtin b cells =>
    rw [← List.append_assoc] at hfilled
    obtain ⟨l₁, l₂, rfl, h₁, h₂, hfloor, hargs⟩ := h.seated.operands _ hfilled
    rw [List.map_append, List.reverse_append] at h₂
    obtain ⟨r, xs, rfl, hr, hxs⟩ := h₂.split
    rw [← List.append_assoc] at hexec
    obtain ⟨r', hr', hmemory⟩ := memory_callBuiltin hmemo (builtinAt_slot hl b)
      (by simpa using hr.length) (by simpa using hxs.length) hexec
    rw [hmemory]
    exact renewed h₁ hargs _ _ (.free (by simp [values, Cell.slot]) (by simpa using hr'))

/-! ## What a step does -/

/-- A function goes from one of its stations to another, without a call or a return. -/
inductive Core.Script.Turns (σ : Script) (i : Nat) : Instr → Station → Nat → Station → Prop
  | push {x : Int64} {type : Ty} {cells : List Cell} (hliteral : σ.literal i = some type) :
    Turns σ i ⟨.push, x⟩ ⟨cells, false⟩ (i + 1) ⟨.value type :: cells, false⟩
  | move {instr : Instr} {cells cells' : List Cell} (h : Moves σ.env instr cells cells') :
    Turns σ i instr ⟨cells, false⟩ (i + 1) ⟨cells', false⟩
  | result (hresult : σ.env.result ≠ .void) (hstore : i ∈ σ.stores) :
    Turns σ i ⟨.store64, 0⟩ ⟨[.value σ.env.result, .address ⟨.param, 0⟩], false⟩ (i + 1) ⟨[], true⟩
  | branch {target : Nat} : Turns σ i (branch i target) ⟨[], false⟩ target ⟨[], false⟩
  | test {op : Opcode} {type : Ty} {q : Nat} (hop : op = .brtrue ∨ op = .brfalse)
    (htype : type.isNumeric = true) : Turns σ i ⟨op, 1⟩ ⟨[.value type], false⟩ q ⟨[], false⟩

/-- The frame of a function that is entered. -/
def entered (g : Function π) (args locals : Nat) : Frame :=
  ⟨g.routine, 0, args, locals⟩

/-- What the next instruction can lead to: another station of the function, a function that is
called, or the caller that waits for the result. -/
inductive Onward (s : Setup) (t : ProgramTables π) (p : Core.Program) (f : Frame)
    (outer : List Frame) (σ : Script) (below : List Slot) (i : Instr) (st : Station)
    (l : List UInt64) : List Frame → List Slot → List UInt64 → Prop
  | turn {q : Nat} {st' : Station} {l' : List UInt64} (hturns : σ.Turns f.pc i st q st')
    (hstation : σ.station q = some st') (hfilled : Filled (frameSlots σ f below st') l')
    (hspares : Spares t.globals.rows.length f.args l l') :
    Onward s t p f outer σ below i st l (f.at q :: outer) (frameSlots σ f below st') l'
  | enter {slot : Nat} {g' : Function π} {σ' : Script} {cells : List Cell} (hslot : 0 < slot)
    (hcall : i = ⟨.call, Int64.ofNat slot⟩) (hscripted : Scripted s t p slot g' σ')
    (hst : st = ⟨given σ'.env.params ++ (rooms σ'.env.result ++ cells), false⟩)
    (hnext : σ.station (f.pc + 1) = some ⟨values σ'.env.result ++ cells, false⟩)
    (hfilled : Filled (frameSlots σ f below ⟨cells, false⟩)
      (l.take (frameSlots σ f below ⟨cells, false⟩).length)) :
    Onward s t p f outer σ below i st l
      (entered g' (frameSlots σ f below ⟨cells, false⟩).length l.length :: f.next :: outer)
      (frameSlots σ f below ⟨cells, false⟩ ++ σ'.ownSlots false)
      (l ++ List.replicate σ'.env.locals.length 0)
  | leave {leaving : Bool} (hret : i = ⟨.ret, 0⟩) (hst : st = ⟨[], leaving⟩)
    (hleaving : leaving = true ↔ σ.env.result ≠ .void)
    (hfilled : Filled below (l.take below.length)) :
    Onward s t p f outer σ below i st l outer
      (below ++ List.replicate σ.env.result.slots (Slot.holds σ.env.result))
      (l.take (below.length + σ.env.result.slots))

/-- The frame that an instruction has been fetched in. -/
theorem frame_next (f : Frame) : f.next = f.at (f.pc + 1) :=
  rfl

theorem slot_at (f : Frame) (q : Nat) : Cell.slot (f.at q) = Cell.slot f := by
  funext c
  cases c <;> rfl

theorem frameSlots_at (σ : Script) (f : Frame) (q : Nat) (below : List Slot) (st : Station) :
    frameSlots σ (f.at q) below st = frameSlots σ f below st := by
  rw [frameSlots, slot_at, frameSlots]

/-- The plan says something of the end of the code at most. -/
theorem Scripted.le_size (h : Scripted s t p k g σ) {q : Nat} (hq : σ.station q = some st) :
    q ≤ g.routine.code.size := by
  obtain ⟨mark, hmark, -⟩ := Option.bind_eq_some_iff.mp hq
  have hlt := (List.getElem?_eq_some_iff.mp hmark).1
  have hle := h.sound.length
  rw [← Array.length_toList, h.holding.code]
  omega

/-- The functions, their codes and their parameters are fewer than there are addresses. -/
structure ProgramTables.Addressable (t : ProgramTables π) : Prop where
  functions : t.functions.rows.length < 2 ^ 63
  rows : ∀ f ∈ t.functions.rows, f.code.length < 2 ^ 63 ∧ f.paramCount < 2 ^ 63

theorem ProgramTables.Short.addressable (h : t.Short) : t.Addressable where
  functions := Nat.lt_trans h.functions (by decide)
  rows := fun f hf => ⟨Nat.lt_trans (h.rows f hf).2.2 (by decide),
    Nat.lt_trans (h.rows f hf).1 (by decide)⟩

section

variable {i : Instr} {l : List UInt64} {z y : Machine}

/-- A function that is called without all the arguments it takes is not entered. -/
theorem Poised.not_starved (hl : Laid s t p) (ha : t.Addressable)
    (h : Poised s t p f outer k g σ st below) {slot : Nat} {params : List Ty} {result : Ty}
    (hsig : σ.env.functions[slot]? = some ⟨params, result⟩)
    (hfew : st.cells.length < result.slots + params.length)
    (hfilled : Filled (frameSlots σ f below st) l) (hlong : l.length < 2 ^ 63) :
    (z.withMemory l).execute s f.next ⟨.call, Int64.ofNat slot⟩ ≠ (y, none) := by
  obtain ⟨g', σ', hscripted, rfl, rfl⟩ := hl.scripted_of_sig h.seated.scripted hsig
  obtain ⟨hreturns, hgiven, -⟩ := hscripted.window
  have hparams : g'.routine.params < 2 ^ 63 :=
    (ha.rows g' (List.mem_of_getElem? hscripted.holding.row)).2
  have hone : σ'.env.result.slots ≤ 1 := by cases σ'.env.result <;> decide
  have hlength : l.length = f.next.floor + st.cells.length := by
    show l.length = f.floor + st.cells.length
    rw [hfilled.length, h.seated.floor, length_frameSlots]
  intro hexec
  rw [execute_starved hl.size_functions hscripted.holding.routine (by omega) hlong (by omega)
    (by omega)] at hexec
  cases hexec

/-- Where there was room for a result, there is the result. -/
theorem filled_stored (h : Filled (frameSlots σ f below ⟨[], false⟩) l) :
    Filled (frameSlots σ f below ⟨[], true⟩) l := by
  simp only [frameSlots, List.map_nil, List.reverse_nil, List.append_nil] at h ⊢
  obtain ⟨l₁, l₂, rfl, h₁, h₂⟩ := h.split
  refine h₁.append (.free (fun slot hslot => Script.ne_address_of_mem hslot) ?_)
  rw [h₂.length, Script.length_ownSlots, Script.length_ownSlots]

/-- **What an instruction does to a machine that is where the plan says.** -/
theorem Poised.onward (hl : Laid s t p) (ha : t.Addressable)
    (h : Poised s t p f outer k g σ st below) (hi : f.routine.code[f.pc]? = some i)
    (hfilled : Filled (frameSlots σ f below st) l) (hlong : l.length < 2 ^ 63)
    (hframes : z.frames = f.next :: outer) (hmemo : z.memo.Sound s.module)
    (hexec : (z.withMemory l).execute s f.next i = (y, none)) :
    ∃ slots, Onward s t p f outer σ below i st l y.frames slots y.memory.toList := by
  have hcode : σ.code[f.pc]? = some i := by rw [← h.seated.code, Array.getElem?_toList, hi]
  have hstraight (hi : Straight i.op) : y.frames = f.at (f.pc + 1) :: outer := by
    have hsame := frames_execute (s := s) (f := f.next) (m := z.withMemory l) hi
    rw [hexec] at hsame
    rw [← frame_next]
    exact hsame.trans hframes
  have hsize : f.routine.code.size < 2 ^ 63 := by
    rw [h.seated.routine]
    exact h.seated.scripted.holding.long
  have hset (l : List UInt64) (q : Nat) :
      (setFrame (z.withMemory l) (f.at q)).frames = f.at q :: outer := by
    show f.at q :: z.frames.tail = _
    rw [hframes]
    rfl
  have hle {q : Nat} {st : Station} (hq : σ.station q = some st) : q ≤ f.routine.code.size := by
    rw [h.seated.routine]
    exact h.seated.scripted.le_size hq
  cases h.seated.scripted.sound.sound f.pc i st hcode h.station with
  | @push x type cells hliteral hnext =>
    rw [hstraight (by simp [Straight])]
    simp only [execute, push_withMemory] at hexec
    cases hexec
    obtain ⟨l₁, l₂, rfl, h₁, h₂, -, hargs⟩ := h.seated.operands [] hfilled
    obtain rfl := List.length_eq_zero_iff.mp h₂.length
    obtain ⟨hfill, hspares⟩ := renewed h₁ hargs t.globals.rows.length []
      (filled_value f type x.toUInt64)
    rw [List.append_nil] at hspares ⊢
    exact ⟨_, .turn (.push hliteral) hnext hfill hspares⟩
  | @move _ cells cells' hmoves hnext =>
    rw [hstraight (straight_moves hmoves)]
    obtain ⟨hfill, hspares⟩ := h.moves hl hmoves hfilled hlong hmemo hexec
    exact ⟨_, .turn (.move hmoves) hnext hfill hspares⟩
  | @call slot params result cells hslot hsig hnext =>
    obtain ⟨g', σ', hscripted, rfl, rfl⟩ := hl.scripted_of_sig h.seated.scripted hsig
    obtain ⟨hreturns, hparams, hlocals⟩ := hscripted.window
    rw [← List.append_assoc] at hfilled
    obtain ⟨l₁, l₂, rfl, h₁, h₂, hfloor, -⟩ := h.seated.operands _ hfilled
    rw [List.map_append, List.reverse_append] at h₂
    obtain ⟨zs, xs, rfl, hzs, hxs⟩ := h₂.split
    have hzs : zs.length = σ'.env.result.slots := by simpa using hzs.length
    have hxs : xs.length = σ'.env.params.length := by simpa using hxs.length
    rw [← List.append_assoc] at hexec hlong
    rw [execute_enter hl.size_functions hscripted.holding.routine (hzs.trans hreturns.symm)
      (hxs.trans hparams.symm) hlong hfloor] at hexec
    cases hexec
    rw [← List.append_assoc l₁]
    have hnew : (enter (z.withMemory (l₁ ++ zs ++ xs)) g'.routine l₁.length).memory.toList
        = l₁ ++ zs ++ xs ++ List.replicate σ'.env.locals.length 0 := by
      simp [enter, reserve, withMemory, hlocals]
    have hstack : (enter (z.withMemory (l₁ ++ zs ++ xs)) g'.routine l₁.length).frames
        = entered g' (frameSlots σ f below ⟨cells, false⟩).length (l₁ ++ zs ++ xs).length
          :: f.next :: outer := by
      rw [← h₁.length, ← hframes]
      rfl
    rw [hnew, hstack]
    refine ⟨_, .enter hslot rfl hscripted rfl hnext ?_⟩
    rw [← h₁.length, List.append_assoc, List.take_left]
    exact h₁
  | starve _ hsig hfew => exact absurd hexec (h.not_starved hl ha hsig hfew hfilled hlong)
  | result hresult hstore hnext =>
    rw [hstraight (by decide)]
    obtain ⟨hfill, hspares⟩ :=
      h.stores hfilled hlong (Env.slot?_result hresult) hexec (by simp)
    exact ⟨_, .turn (.result hresult hstore) hnext (filled_stored hfill) hspares⟩
  | @leave leaving hleaving =>
    have hret : f.next.routine.returns = σ.env.result.slots := by
      show f.routine.returns = _
      rw [h.seated.routine]
      exact h.seated.scripted.window.1
    have hslots : below.length + σ.env.result.slots ≤ l.length := by
      rw [hfilled.length, length_frameSlots]
      omega
    have hargs : f.next.args = below.length := h.seated.args
    simp only [execute, leave, hret, hargs, ← Int64.ofNat_add] at hexec
    have hpos : ¬Int64.ofNat (below.length + σ.env.result.slots) < 0 :=
      Int64.not_lt.mpr (Int64.zero_le_ofNat_of_lt (by omega))
    rw [if_neg hpos, Int64.toNatClampNeg_ofNat_of_lt (by omega)] at hexec
    cases hexec
    have htail : (z.withMemory l).frames.tail = outer := by
      show z.frames.tail = outer
      rw [hframes]
      rfl
    have hshrink : ((z.withMemory l).memory.shrink (below.length + σ.env.result.slots)).toList
        = l.take (below.length + σ.env.result.slots) := by
      simp [withMemory]
    dsimp only
    rw [htail, hshrink]
    refine ⟨_, .leave rfl rfl hleaving ?_⟩
    simp only [frameSlots, List.map_nil, List.reverse_nil, List.append_nil] at hfilled
    obtain ⟨l₁, l₂, rfl, h₁, -⟩ := hfilled.split
    rw [← h₁.length, List.take_left]
    exact h₁
  | @branch target htarget =>
    have hjump := jump_branch (p := f.pc) hsize (hle htarget) (z.withMemory l)
    simp only [branch, execute, frame_next, hjump] at hexec
    cases hexec
    rw [hset]
    exact ⟨_, .turn .branch htarget hfilled fun _ _ _ => rfl⟩
  | @test op type hop htype hnext hskip =>
    obtain ⟨l₁, l₂, rfl, h₁, h₂, hfloor, hargs⟩ :=
      h.seated.operands [.value type] hfilled
    obtain ⟨x, rfl⟩ := h₂.one
    have hspares : Spares t.globals.rows.length f.args (l₁ ++ [x]) l₁ := by
      simpa using spares_append hargs [x] []
    have hjump := jump_skip (p := f.pc) hsize (hle hskip) (z.withMemory l₁)
    have hgoes : (z.withMemory l₁).done = (y, none) ∨
        (setFrame (z.withMemory l₁) (f.at (f.pc + 2))).done = (y, none) := by
      rcases hop with rfl | rfl
      · simp only [execute] at hexec
        rw [withTop_withMemory hfloor, frame_next, hjump] at hexec
        split at hexec
        · exact .inl hexec
        · exact .inr hexec
      · simp only [execute] at hexec
        rw [withTop_withMemory hfloor, frame_next, hjump] at hexec
        split at hexec
        · exact .inr hexec
        · exact .inl hexec
    rcases hgoes with hy | hy
    · cases hy
      have hstack : (z.withMemory l₁).frames = f.at (f.pc + 1) :: outer := hframes
      rw [hstack]
      exact ⟨_, .turn (.test hop htype) hnext h₁ hspares⟩
    · cases hy
      rw [hset]
      exact ⟨_, .turn (.test hop htype) hskip h₁ hspares⟩

/-- The entry function does not branch, and it does not return. -/
theorem straight_or_call (hi : i ∈ p.entryCode) : Straight i.op ∨ i.op = .call := by
  obtain hcomputes | hstore := p.computes_entryCode i hi
  · by_cases hcall : i.op = .call
    · exact .inr hcall
    · exact .inl (straight_of_computes hcomputes hcall)
  · rw [hstore]
    exact .inl (by decide)

/-- **Behind the instruction the machine is again where the plan says.** -/
theorem Onward.settled (h : Poised s t p f outer k g σ st below)
    (hi : f.routine.code[f.pc]? = some i) (hfilled : Filled (frameSlots σ f below st) l)
    {slots : List Slot} (hon : Onward s t p f outer σ below i st l y.frames slots y.memory.toList) :
    Settled s t p y slots := by
  generalize hframes : y.frames = frames at hon
  generalize hmemory : y.memory.toList = l' at hon
  cases hon with
  | @turn q st' l' hturns hstation hfilled' hspares =>
    refine ⟨f.at q, outer, k, g, σ, st', below, hframes, ⟨h.seated.at q, hstation, h.beneath⟩, ?_,
      hmemory ▸ hfilled'⟩
    rw [frameSlots_at]
  | @enter slot g' σ' cells hslot hcall hscripted hst hnext hprefix =>
    subst hst
    have hlength : l.length = (frameSlots σ f below ⟨cells, false⟩).length
        + (σ'.env.result.slots + σ'.env.params.length) := by
      rw [hfilled.length, frameSlots_append, frameSlots_append]
      simp
    have hbeneath : Beneath s t p slot σ'.env.result (f.next :: outer)
        (frameSlots σ f below ⟨cells, false⟩) := by
      rw [frame_next, ← frameSlots_at σ f (f.pc + 1)]
      exact .caller hslot (h.seated.at (f.pc + 1)) hnext h.beneath
    refine ⟨_, _, slot, g', σ', ⟨[], false⟩, frameSlots σ f below ⟨cells, false⟩, hframes,
      ⟨⟨hscripted, rfl, rfl, hlength⟩, hscripted.sound.start, hbeneath⟩,
      by simp [frameSlots], ?_⟩
    rw [hmemory, ← List.take_append_drop (frameSlots σ f below ⟨cells, false⟩).length l,
      List.append_assoc]
    refine hprefix.append (.free (fun slot hslot => Script.ne_address_of_mem hslot) ?_)
    simp [hlength]
  | @leave leaving hret hst hleaving hprefix =>
    subst hst
    have hlength : below.length + σ.env.result.slots ≤ l.length := by
      rw [hfilled.length, length_frameSlots]
      omega
    have hfill : Filled (below ++ List.replicate σ.env.result.slots (Slot.holds σ.env.result))
        y.memory.toList := by
      rw [hmemory, List.take_add]
      refine hprefix.append (.free (fun slot hslot => ?_) ?_)
      · rw [(List.mem_replicate.mp hslot).2]
        exact nofun
      · simp
        omega
    cases hbeneath : h.beneath with
    | globals =>
      -- the entry function has no caller, and it does not return
      have hcode : σ.code[f.pc]? = some i := by rw [← h.seated.code, Array.getElem?_toList, hi]
      have hscript := h.seated.scripted.script
      cases hscript
      subst hret
      rcases straight_or_call (List.mem_of_getElem? hcode) with hop | hop
      · exact absurd rfl hop.2.2.2.2
      · cases hop
    | @caller _ k₁ _ f₁ outer₁ g₁ σ₁ below₁ cells₁ hslot hseated hstation hbeneath₁ =>
      refine ⟨f₁, outer₁, k₁, g₁, σ₁, _, below₁, hframes, ⟨hseated, hstation, hbeneath₁⟩, ?_, hfill⟩
      rw [frameSlots_append]
      simp [values, Cell.slot]

end

/-! ## Runs -/

section

variable {m x y z : Machine} {slots : List Slot}

/-- A step of a machine that is where the plan says, and what it leads to. -/
structure Strides (s : Setup) (t : ProgramTables π) (p : Core.Program) (x y : Machine) (f : Frame)
    (outer : List Frame) (k : Nat) (g : Function π) (σ : Script) (st : Station)
    (below : List Slot) (i : Instr) (slots' : List Slot) : Prop where
  frames : x.frames = f :: outer
  poised : Poised s t p f outer k g σ st below
  filled : Filled (frameSlots σ f below st) x.memory.toList
  code : f.routine.code[f.pc]? = some i
  onward : Onward s t p f outer σ below i st x.memory.toList y.frames slots' y.memory.toList
  settled : Settled s t p y slots'

/-- Every step of a machine that is where the plan says leads to one that is. -/
theorem Settled.strides (hl : Laid s t p) (ha : t.Addressable) (h : Settled s t p x slots)
    (hlong : x.memory.size < 2 ^ 63) (hmemo : x.memo.Sound s.module) (hstep : x.step s = .next y) :
    ∃ f outer k g σ st below i slots', slots = frameSlots σ f below st ∧
      Strides s t p x y f outer k g σ st below i slots' := by
  obtain ⟨f, outer, k, g, σ, st, below, hframes, hpoised, rfl, hfilled⟩ := h
  obtain ⟨f', outer', i, y', hframes', hcode, hexec, hlike⟩ := step_eq_next hstep
  rw [hframes] at hframes'
  cases hframes'
  rw [← withMemory_toList { x with frames := f.next :: outer }] at hexec
  obtain ⟨slots', hon⟩ := hpoised.onward (z := { x with frames := f.next :: outer }) hl ha hcode
    hfilled (by simpa using hlong) rfl hmemo hexec
  rw [← hlike.frames, ← hlike.memory] at hon
  exact ⟨f, outer, k, g, σ, st, below, i, slots', rfl, hframes, hpoised, hfilled, hcode, hon,
    hon.settled hpoised hcode hfilled⟩

/-- A run starts where the plan of the entry function does. -/
theorem settled_start (hl : Laid s t p) (m : Machine) :
    Settled s t p (m.start s) (globalSlots t) := by
  obtain ⟨g, hholds, -, hreturns, hparams, hlocals⟩ := hl.entry
  obtain ⟨σ, hscripted⟩ := hl.scripted hholds.row
  obtain ⟨hr, hp, hv⟩ := hscripted.window
  have hresult : σ.env.result.slots = 0 := hr.symm.trans hreturns
  have hgiven : σ.env.params = [] := List.length_eq_zero_iff.mp (hp.symm.trans hparams)
  have hnone : σ.env.locals = [] := List.length_eq_zero_iff.mp (hv.symm.trans hlocals)
  have hsize : s.module.globals.size = (globalSlots t).length := by
    rw [hl.module]
    simp [ProgramTables.module, globalSlots]
  refine ⟨_, [], 0, g, σ, ⟨[], false⟩, globalSlots t, frames_start m hholds.routine,
    ⟨⟨hscripted, rfl, hsize, by simp [hresult, hgiven]⟩, hscripted.sound.start, .globals⟩, ?_, ?_⟩
  · simp [frameSlots, Script.ownSlots, Env.window, hresult, hgiven, hnone]
  · refine .free (by simp [globalSlots]) ?_
    rw [← hsize]
    simp [start, hholds.routine, enter, reserve, hlocals]

/-- **The machine is where the plans say in every state of a run.** -/
theorem settled_passes (hl : Laid s t p) (ha : t.Addressable) (hm : m.memo.Sound s.module)
    (h : Passes s (m.start s) z) : ∃ slots, Settled s t p z slots := by
  induction h with
  | start => exact ⟨_, settled_start hl m⟩
  | next hx hstep _ ih =>
    obtain ⟨slots, hslots⟩ := ih
    have hmemo := sound_passes hx (by rwa [memo_start])
    obtain ⟨_, _, _, _, _, _, _, _, slots', -, hstrides⟩ :=
      hslots.strides hl ha hx.small hmemo hstep
    exact ⟨slots', hstrides.settled⟩

/-- Every step of a run goes from where the plans say to where they say. -/
theorem strides_passes (hl : Laid s t p) (ha : t.Addressable) (hm : m.memo.Sound s.module)
    (hx : Passes s (m.start s) x) (hstep : x.step s = .next y) :
    ∃ f outer k g σ st below i slots', Strides s t p x y f outer k g σ st below i slots' := by
  obtain ⟨slots, hsettled⟩ := settled_passes hl ha hm hx
  obtain ⟨f, outer, k, g, σ, st, below, i, slots', -, hstrides⟩ := hsettled.strides hl ha hx.small
    (sound_passes hx (by rwa [memo_start])) hstep
  exact ⟨f, outer, k, g, σ, st, below, i, slots', hstrides⟩

end

end

/-- An accepted program is laid out in a machine with its module. -/
theorem Program.laid {p : Program} {a : Analysis} (ha : p.analyse.result = .ok a)
    (hsize : a.tables.Addressable) {s : Setup} (hs : s.module = a.tables.module) :
    Laid s a.tables a.core :=
  ⟨hs, Program.describes ha, hsize.functions, fun f hf => (hsize.rows f hf).1⟩

/-- The first states of a run of the sample have short memories. -/
theorem sample_passes {a : Analysis} (ha : sample.analyse.result = .ok a) {z : Machine}
    (hz : z ∈ states ⟨"sample", a.tables.module, 1000, false, false⟩ 40
      (Machine.start ⟨"sample", a.tables.module, 1000, false, false⟩ { input := ⟨[], false⟩ })) :
    Passes ⟨"sample", a.tables.module, 1000, false, false⟩
      (Machine.start ⟨"sample", a.tables.module, 1000, false, false⟩ { input := ⟨[], false⟩ }) z := by
  obtain ⟨_, ha', h⟩ := exists_ok (r := sample.analyse.result) (p := fun a =>
      (states ⟨"sample", a.tables.module, 1000, false, false⟩ 40
        (Machine.start ⟨"sample", a.tables.module, 1000, false, false⟩
          { input := ⟨[], false⟩ })).all fun z => z.memory.size < 2 ^ 63)
    (by rw [sample, Text.bytesOf_concat, Text.bytesOf_ofList]; decide +kernel)
  cases ha.symm.trans ha'
  simp only [List.all_eq_true, decide_eq_true_eq] at h
  exact (Passes.start (h _ List.mem_cons_self)).of_states hz h

end TinyC
