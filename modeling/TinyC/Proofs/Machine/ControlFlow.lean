import TinyC.Proofs.Machine.Effects
import TinyC.Proofs.Machine.Follow
import TinyC.Proofs.Machine.Laid

/-!
# Control flow

The structured semantics of a program on the machine itself. A single statement or condition does
what the instructions laid out for it do, one after the other, and a call runs the body of the
function it calls (`segment`, `callBody`, `Program.reference`). No branch of an `if` or a loop is
ever carried out: which statement comes next is decided by the structure of the program alone.

The machine runs the flat code instead. `control_flow_preserved` says that it passes the same
statements in the same order, each time with the same memory, input and output, and comes to the
same end, unless the run is cut short; then it has passed the first of them.
-/

namespace TinyC

open Core Machine

/-- The state in which a statement is about to run: the function that it stands in, the index at
which its code starts, and all that a program can see. -/
structure Boundary where
  fn : Int
  index : Nat
  memory : Array UInt64
  input : Input
  output : Output
  deriving Repr, DecidableEq

/-- The machine seen at an index of the innermost frame. -/
def Machine.boundary (m : Machine) (p : Nat) : Boundary :=
  ⟨((m.frames.head?).map (·.routine.slot)).getD 0, p, m.memory, m.input, m.output⟩

/-! ## The semantics -/

/-- The state of the semantics: the machine, and the statements that have been passed. -/
structure Trail where
  machine : Machine
  marks : List Boundary := []

section

variable (s : Setup) (call : Nat → Act Stop Trail Unit)

/-- Carries out the instruction at an index. Behind the instruction that enters a function, the
function is run. -/
def carry (p : Nat) (i : Instr) : Act Stop Trail Unit := do
  let x ← get
  match x.machine.frames with
  | [] => pure ()
  | f :: outer =>
    match { x.machine with frames := f.at (p + 1) :: outer }.execute s (f.at (p + 1)) i with
    | (m, none) =>
      set { x with machine := m }
      if i.op = Opcode.call then call i.operand.toUInt64.toNat
    | (m, some t) =>
      set { x with machine := m }
      throw (.trap (stopAt (f.at (p + 1)) t))

/-- Carries out instructions one after the other. -/
def segment (p : Nat) : List Instr → Act Stop Trail Unit
  | [] => pure ()
  | i :: is => do
    carry s call p i
    segment (p + 1) is

/-- Single statements and conditions do what their instructions do. A condition holds if its last
instruction skips the one behind it. -/
def machineLeaves : Leaves Stop Trail where
  mark p := modify fun x => { x with marks := x.marks ++ [x.machine.boundary p] }
  perform p st := segment s call p (st.code p ⟨0, 0⟩)
  test p c := do
    segment s call p c.code
    return (← get).machine.frames.head?.map Frame.pc != some (p + c.size)

end

/-- Runs the function at a slot, which has been entered. Behind the end of its body a function
returns. -/
def callBody (s : Setup) (p : Core.Program) (rounds : Nat) : Nat → Nat → Act Stop Trail Unit
  | 0, _ => throw .timeout
  | _ + 1, 0 => pure ()
  | depth + 1, k + 1 => do
    match p.functions[k]? with
    | none => pure ()
    | some f =>
      match ← f.body.exec (machineLeaves s (callBody s p rounds depth)) rounds 0 with
      | .ret => pure ()
      | _ => carry s (callBody s p rounds depth) f.body.size ⟨.ret, 0⟩

namespace Core

/-- The indices at which the statements of the function at a slot start. The call of the main
function is the last one of the entry function. -/
def Program.starts (p : Core.Program) : Nat → List Nat
  | 0 => (initBlock p.inits).starts 0 ++ (if p.main.isSome then [(initBlock p.inits).size] else [])
  | k + 1 => ((p.functions[k]?).map (·.body.starts 0)).getD []

/-- Runs a program: the initial values are assigned, and the main function is called. -/
def Program.reference (s : Setup) (p : Core.Program) (rounds : Nat) : Act Stop Trail Unit := do
  let L := machineLeaves s (callBody s p rounds rounds)
  let _ ← (initBlock p.inits).exec L rounds 0
  if p.main.isSome then
    L.mark (initBlock p.inits).size
    segment s (callBody s p rounds rounds) (initBlock p.inits).size (mainCode p.main)

end Core

/-! ## Reading the machine -/

/-- The statement that a machine is about to run, if one starts where it is. -/
def boundary? (p : Core.Program) (m : Machine) : Option Boundary :=
  match m.frames with
  | [] => none
  | f :: _ => if f.pc ∈ p.starts f.routine.slot.toNat then some (m.boundary f.pc) else none

/-- The statements that a machine passes. -/
def boundaries (p : Core.Program) (ms : List Machine) : List Boundary :=
  ms.filterMap (boundary? p)

/-- A machine and another one are in the same frame, the first one at an index of its code, and
are otherwise equal as far as a program can tell. -/
structure Stands (f : Frame) (outer : List Frame) (p : Nat) (m y : Machine) : Prop where
  frames : m.frames = f.at p :: outer
  other : ∃ q, y.frames = f.at q :: outer
  memory : m.memory = y.memory
  input : m.input = y.input
  output : m.output = y.output
  memo : m.memo = y.memo

section

variable {s : Setup} {p : Core.Program} {n d : Nat} {f : Frame} {outer : List Frame}
  {h : List Machine} {m : Machine} {x : Trail} {q : Nat} {i : Instr}
  {call : Nat → Act Stop Trail Unit} {y : Machine} {k : Nat} {op : Opcode}

/-- Two machines that agree, frames included, are in the same frame. -/
theorem Machine.Like.stands (hlike : Like m y) (hframes : y.frames = f.at q :: outer) :
    Stands f outer q m y :=
  ⟨hlike.frames.trans hframes, ⟨q, hframes⟩, hlike.memory, hlike.input, hlike.output, hlike.memo⟩

theorem boundaries_concat (p : Core.Program) (h : List Machine) (m : Machine) :
    boundaries p (h ++ [m]) = boundaries p h ++ (boundary? p m).toList := by
  rw [boundaries, List.filterMap_append, ← boundaries]
  cases hb : boundary? p m <;> simp [hb]

/-- How the semantics is read off a machine that runs a program. -/
def watchTrail (s : Setup) (p : Core.Program) (n : Nat) : Watch Stop Trail where
  setup := s
  rounds := n
  lost _ := False
  fails stop h m x :=
    (∃ m₁, m.act s = .halt m₁ (some stop) ∧ Like m₁ x.machine) ∧
      x.marks = boundaries p (h ++ [m])
  late h _ x := boundaries p h <+: x.marks

/-- A machine in a frame. The calls inside may go `d` deep. -/
def trailSite (p : Core.Program) (n d : Nat) (f : Frame) (outer : List Frame) : Site Trail where
  At q h m x := Stands f outer q m x.machine ∧ x.marks = boundaries p h ∧ n ≤ h.length + d + 1
  On q h m x :=
    Stands f outer q m x.machine ∧ x.marks = boundaries p (h ++ [m]) ∧ n ≤ h.length + d + 1
  Left h m x := (m.frames = outer ∧ Like m x.machine) ∧ x.marks = boundaries p h

/-- What carrying out an instruction comes to. -/
theorem outcome_carry {r : Nat} (hframes : x.machine.frames = f.at r :: outer) :
    (carry s call q i).outcome x =
      match { x.machine with frames := f.at (q + 1) :: outer }.execute s (f.at (q + 1)) i with
      | (y, none) =>
        (if i.op = Opcode.call then call i.operand.toUInt64.toNat else pure ()).outcome
          { x with machine := y }
      | (y, some t) => (.error (.trap (stopAt (f.at (q + 1)) t)), { x with machine := y }) := by
  rw [carry, Act.outcome_bind, Act.outcome_get]
  dsimp only
  rw [hframes]
  dsimp only [Frame.at_at]
  generalize Machine.execute s _ i _ = r
  obtain ⟨y, _ | t⟩ := r
  · dsimp only
    rw [Act.outcome_bind, Act.outcome_set]
  · dsimp only
    rw [Act.outcome_bind, Act.outcome_set]
    rfl

/-- A step from a marked index: the machine and the semantics carry out the same instruction. -/
theorem leads_carry (hon : (trailSite p n d f outer).On q h m x)
    (hcode : f.routine.code[q]? = some i) {Q : Unit → List Machine → Machine → Trail → Prop}
    (hnext : ∀ m₁ y, m.act s = .next m₁ →
      { x.machine with frames := f.at (q + 1) :: outer }.execute s (f.at (q + 1)) i = (y, none) →
      Like m₁ y → (watchTrail s p n).Leads (h ++ [m]) m₁
        ((if i.op = .call then call i.operand.toUInt64.toNat else pure ()).outcome
          { x with machine := y }) Q) :
    (watchTrail s p n).Leads h m ((carry s call q i).outcome x) Q := by
  obtain ⟨hst, hmarks, _⟩ := hon
  obtain ⟨r, hother⟩ := hst.other
  have hlike : Like { m with frames := (f.at q).next :: outer }
      { x.machine with frames := f.at (q + 1) :: outer } :=
    ⟨hst.memory, rfl, hst.input, hst.output, hst.memo⟩
  have hact := act_like (s := s) hst.frames hcode hlike
  rw [outcome_carry hother]
  rw [Frame.next_at] at hact
  generalize hexec : Machine.execute s (f.at (q + 1)) i _ = e at hact hnext ⊢
  obtain ⟨y, _ | t⟩ := e
  · obtain ⟨m₁, hm₁, hy⟩ := hact
    exact Watch.leads_step hm₁ (hnext m₁ y hm₁ rfl hy)
  · obtain ⟨m₁, hm₁, hy⟩ := hact
    refine ⟨[], m, .nil m, .inr ⟨⟨m₁, hm₁, hy⟩, ?_⟩⟩
    simpa using hmarks

/-! ## Single instructions -/

/-- The instruction stays in its function: it neither branches nor returns, and if it calls, it
calls a function of the program. -/
def Fit (p : Core.Program) (i : Instr) : Prop :=
  Straight i.op ∨
    ∃ k fn, i = ⟨.call, Int64.ofNat (k + 1)⟩ ∧ k + 1 < 2 ^ 63 ∧ p.functions[k]? = some fn

/-- Calls follow the semantics up to a depth. -/
def Calls (s : Setup) (p : Core.Program) (n d : Nat) : Prop :=
  ∀ k fn r args locals outer h m x, p.functions[k]? = some fn →
    s.module.functions[k + 1]? = some r → m.frames = ⟨r, 0, args, locals⟩ :: outer →
    Like m x.machine → x.marks = boundaries p h → n ≤ h.length + d →
    (watchTrail s p n).Leads h m ((callBody s p n d (k + 1)).outcome x)
      fun _ h' m' y => (m'.frames = outer ∧ Like m' y.machine) ∧ y.marks = boundaries p h'

theorem leads_straight (hon : (trailSite p n d f outer).On q h m x)
    (hcode : f.routine.code[q]? = some i) (hi : Straight i.op) :
    (watchTrail s p n).Leads h m ((carry s call q i).outcome x)
      fun _ => (trailSite p n d f outer).At (q + 1) := by
  refine leads_carry hon hcode fun m₁ y hact hexec hlike => ?_
  have hframes : y.frames = f.at (q + 1) :: outer := by
    have := frames_execute (s := s) (f := f.at (q + 1))
      (m := { x.machine with frames := f.at (q + 1) :: outer }) hi
    rwa [hexec] at this
  rw [if_neg hi.2.2.2.1]
  refine Watch.leads_now ⟨hlike.stands hframes, hon.2.1, ?_⟩
  have := hon.2.2
  simp only [List.length_append]
  omega

/-- What a call of a function that there is comes to, if it is carried out. -/
theorem execute_call {g : Frame} {y z : Machine} (hk : k < 2 ^ 63)
    (hexec : y.execute s g ⟨.call, Int64.ofNat k⟩ = (z, none)) :
    ∃ r args, s.module.functions[k]? = some r ∧ z = y.enter r args := by
  simp only [execute, callRoutine, toNat_operand hk] at hexec
  split at hexec
  · cases hexec
  · rename_i r hr
    split at hexec
    · cases hexec
    · cases hexec
      split at hr
      · exact ⟨r, _, hr, rfl⟩
      · cases hr

theorem leads_call (hcalls : Calls s p n d) (hon : (trailSite p n d f outer).On q h m x) {fn : Fn}
    (hcode : f.routine.code[q]? = some ⟨.call, Int64.ofNat (k + 1)⟩) (hk : k + 1 < 2 ^ 63)
    (hfn : p.functions[k]? = some fn) :
    (watchTrail s p n).Leads h m
      ((carry s (callBody s p n d) q ⟨.call, Int64.ofNat (k + 1)⟩).outcome x)
      fun _ => (trailSite p n d f outer).At (q + 1) := by
  refine leads_carry hon hcode fun m₁ y hact hexec hlike => ?_
  obtain ⟨r, args, hr, hy⟩ := execute_call hk hexec
  have hentered : m₁.frames = ⟨r, 0, args, x.machine.memory.size⟩ :: f.at (q + 1) :: outer := by
    rw [hlike.frames, hy]
    rfl
  rw [if_pos rfl, toNat_operand hk]
  have hroom := hon.2.2
  refine (hcalls k fn r args _ _ (h ++ [m]) m₁ { x with machine := y } hfn hr hentered hlike
    hon.2.1 ?_).imp ?_
  · simp only [List.length_append, List.length_singleton]
    omega
  · rintro _ h' m' z hle ⟨⟨hframes, hlike'⟩, hmarks⟩
    simp only [List.length_append, List.length_singleton] at hle
    exact ⟨hlike'.stands (hlike'.frames ▸ hframes), hmarks, by omega⟩

theorem leads_fit (hcalls : Calls s p n d) (hon : (trailSite p n d f outer).On q h m x)
    (hcode : f.routine.code[q]? = some i) (hi : Fit p i) :
    (watchTrail s p n).Leads h m ((carry s (callBody s p n d) q i).outcome x)
      fun _ => (trailSite p n d f outer).At (q + 1) := by
  obtain hi | ⟨k, fn, rfl, hk, hfn⟩ := hi
  · exact leads_straight hon hcode hi
  · exact leads_call hcalls hon hcode hk hfn

/-- A branch leads to its target, in the machine alone. -/
theorem hops_branch (hlong : f.routine.code.size < 2 ^ 63) {r : Nat}
    (hcode : f.routine.code[q]? = some (branch q r)) (hr : r ≤ f.routine.code.size)
    (hon : (trailSite p n d f outer).On q h m x) :
    ∃ m₁, m.act s = .next m₁ ∧ (trailSite p n d f outer).At r (h ++ [m]) m₁ x := by
  obtain ⟨hst, hmarks, hroom⟩ := hon
  have hact := act_like (s := s) hst.frames hcode (.refl _)
  rw [Frame.next_at] at hact
  simp only [execute, branch, jump_branch hlong hr, done] at hact
  obtain ⟨m₁, hm₁, hlike⟩ := hact
  refine ⟨m₁, hm₁, ⟨hlike.frames, hst.other, hlike.memory.trans hst.memory,
    hlike.input.trans hst.input, hlike.output.trans hst.output, hlike.memo.trans hst.memo⟩,
    hmarks, ?_⟩
  simp only [List.length_append]
  omega

/-- The last instruction of a condition skips the next one or does not. -/
theorem execute_skip (hlong : f.routine.code.size < 2 ^ 63) (hq : q + 2 ≤ f.routine.code.size)
    (hop : op = .brtrue ∨ op = .brfalse) {y z : Machine}
    (hframes : y.frames = f.at (q + 1) :: outer)
    (hexec : y.execute s (f.at (q + 1)) ⟨op, 1⟩ = (z, none)) :
    ∃ b : Bool, z.frames = f.at (q + 1 + b.toNat) :: outer := by
  obtain rfl | rfl := hop
  · simp only [execute, withTop] at hexec
    split at hexec
    · split at hexec
      · cases hexec
        exact ⟨false, hframes⟩
      · rw [jump_skip hlong hq] at hexec
        cases hexec
        exact ⟨true, by simp [setFrame, hframes]⟩
    · cases hexec
  · simp only [execute, withTop] at hexec
    split at hexec
    · split at hexec
      · rw [jump_skip hlong hq] at hexec
        cases hexec
        exact ⟨true, by simp [setFrame, hframes]⟩
      · cases hexec
        exact ⟨false, hframes⟩
    · cases hexec

/-- A return leaves its frame. -/
theorem leads_return (hon : (trailSite p n d f outer).On q h m x)
    (hcode : f.routine.code[q]? = some ⟨.ret, 0⟩) :
    (watchTrail s p n).Leads h m ((carry s call q ⟨.ret, 0⟩).outcome x)
      fun _ => (trailSite p n d f outer).Left := by
  refine leads_carry hon hcode fun m₁ y hact hexec hlike => ?_
  have hframes : y.frames = outer := by
    simp only [execute, leave] at hexec
    split at hexec
    · cases hexec
    · cases hexec
      rfl
  exact Watch.leads_now ⟨⟨hlike.frames.trans hframes, hlike⟩, hon.2.1⟩

/-! ## Statements and conditions -/

theorem Stands.boundary_eq (h : Stands f outer q m y) : m.boundary q = y.boundary q := by
  obtain ⟨r, hr⟩ := h.other
  simp only [Machine.boundary, h.frames, hr, h.memory, h.input, h.output]
  rfl

theorem Stands.boundary? (h : Stands f outer q m y) :
    TinyC.boundary? p m =
      if q ∈ p.starts f.routine.slot.toNat then some (y.boundary q) else none := by
  rw [← h.boundary_eq]
  simp only [TinyC.boundary?, h.frames]
  rfl

/-- Where no statement starts, nothing has to be marked. -/
theorem settle_trail (hq : q ∉ p.starts f.routine.slot.toNat)
    (hat : (trailSite p n d f outer).At q h m x) : (trailSite p n d f outer).On q h m x := by
  obtain ⟨hst, hmarks, hroom⟩ := hat
  refine ⟨hst, ?_, hroom⟩
  rw [boundaries_concat, hst.boundary?, if_neg hq]
  simpa using hmarks

/-- Where a statement starts, the semantics marks what the machine passes. -/
theorem mark_trail (hq : q ∈ p.starts f.routine.slot.toNat)
    (hat : (trailSite p n d f outer).At q h m x) :
    ∃ y, ((machineLeaves s call).mark q).outcome x = (.ok (), y) ∧
      (trailSite p n d f outer).On q h m y := by
  obtain ⟨hst, hmarks, hroom⟩ := hat
  refine ⟨_, rfl, ⟨hst.frames, hst.other, hst.memory, hst.input, hst.output, hst.memo⟩, ?_, hroom⟩
  rw [boundaries_concat, hst.boundary?, if_pos hq, ← hmarks]
  rfl

/-- Instructions that stay in their function are followed up to the last one. -/
theorem leads_segment (hcalls : Calls s p n d) {is : List Instr} {last : Instr}
    (hcode : Sits f.routine.code.toList (is ++ [last]) q) (hfit : ∀ i ∈ is, Fit p i)
    (hquiet : Quiet (p.starts f.routine.slot.toNat) q (is.length + 1))
    (hon : (trailSite p n d f outer).On q h m x) {Q : Unit → List Machine → Machine → Trail → Prop}
    (hlast : ∀ h' m' y, h.length ≤ h'.length →
      (trailSite p n d f outer).On (q + is.length) h' m' y → (watchTrail s p n).Leads h' m'
        ((carry s (callBody s p n d) (q + is.length) last).outcome y) Q) :
    (watchTrail s p n).Leads h m
      ((segment s (callBody s p n d) q (is ++ [last])).outcome x) Q := by
  induction is generalizing q h m x with
  | nil =>
    exact (hlast h m x (Nat.le_refl _) hon).bind fun _ _ _ _ _ hq => Watch.leads_now hq
  | cons i is ih =>
    refine (leads_fit hcalls hon hcode.instr (hfit i List.mem_cons_self)).bind ?_
    intro _ h' m' y hle hat
    have hnext : q + 1 ∉ p.starts f.routine.slot.toNat :=
      hquiet _ (by omega) (by simp only [List.length_cons]; omega)
    refine ih hcode.tail (fun j hj => hfit j (List.mem_cons_of_mem i hj)) ?_
      (settle_trail hnext hat) ?_
    · intro r h₁ h₂
      exact hquiet r (by omega) (by simp only [List.length_cons]; omega)
    · intro h'' m'' z hle' hz
      rw [show q + 1 + is.length = q + (i :: is).length by simp only [List.length_cons]; omega]
        at hz ⊢
      exact hlast h'' m'' z (Nat.le_trans hle hle') hz

/-- The functions that an environment lists are functions of the program. -/
def Lists (p : Core.Program) (Γ : Env) : Prop :=
  ∀ k, k + 1 < Γ.functions.length → k + 1 < 2 ^ 63 ∧ ∃ fn, p.functions[k]? = some fn

variable {Γ : Env}

theorem fit_address (place : Core.Place) : Fit p place.address := by
  obtain ⟨location, slot⟩ := place
  cases location <;> exact .inl (by simp [Core.Place.address, Straight])

theorem straight_of_computes (h : computes op = true) (hcall : op ≠ .call) : Straight op := by
  refine ⟨?_, ?_, ?_, hcall, ?_⟩ <;> rintro rfl <;> cases h

/-- What computes with functions of the program stays in its function. -/
theorem fit_of_lists (hlists : Lists p Γ) {length : Nat} (hi : Γ.Lists length i)
    (hcomputes : computes i.op = true) : Fit p i := by
  by_cases hcall : i.op = .call
  · cases hi with
    | @call slot hpos h =>
      obtain ⟨k, rfl⟩ : ∃ k, slot = k + 1 := ⟨slot - 1, by omega⟩
      obtain ⟨hk, fn, hfn⟩ := hlists k h
      exact .inr ⟨k, fn, rfl, hk, hfn⟩
    | small _ _ hslot =>
      cases hcall
      cases hslot
    | plain _ hsize =>
      cases hcall
      cases hsize
    | _ => cases hcall
  · exact .inl (straight_of_computes hcomputes hcall)

/-- The code of an expression stays in its function. -/
theorem fit_expr (hlists : Lists p Γ) {e : Expr} (he : e.Typed Γ) : ∀ i ∈ e.code, Fit p i := by
  have hall : Γ.ListsAll 0 e.code := he.lists
  exact fun i hi => fit_of_lists hlists (hall i hi) (e.computing i hi)

/-- The code of a condition stays in its function up to its last instruction, which skips. -/
theorem fit_cond (hlists : Lists p Γ) {c : Cond} (hc : c.Typed Γ) :
    ∃ is op, c.code = is ++ [⟨op, 1⟩] ∧ (op = Opcode.brtrue ∨ op = .brfalse) ∧
      ∀ i ∈ is, Fit p i := by
  obtain ⟨is, op, hop, heq, his⟩ := c.code_eq
  have hall : Γ.ListsAll 0 c.code := hc.lists
  rw [heq] at hall
  exact ⟨is, op, heq, hop, fun i hi =>
    fit_of_lists hlists (hall i (List.mem_append_left _ hi)) (his i hi)⟩

/-- The last instruction of a condition leads to the next one or to the one behind it. -/
theorem leads_skip (hlong : f.routine.code.size < 2 ^ 63) (hq : q + 2 ≤ f.routine.code.size)
    (hop : op = .brtrue ∨ op = .brfalse) (hcode : f.routine.code[q]? = some ⟨op, 1⟩)
    (hon : (trailSite p n d f outer).On q h m x) :
    (watchTrail s p n).Leads h m ((carry s call q ⟨op, 1⟩).outcome x) fun _ h' m' y =>
      h.length < h'.length ∧ ∃ b : Bool, y.machine.frames = f.at (q + 1 + b.toNat) :: outer ∧
        (trailSite p n d f outer).At (q + 1 + b.toNat) h' m' y := by
  refine leads_carry hon hcode fun m₁ y hact hexec hlike => ?_
  obtain ⟨b, hframes⟩ := execute_skip hlong hq hop rfl hexec
  have hroom := hon.2.2
  rw [if_neg (by obtain rfl | rfl := hop <;> simp)]
  refine Watch.leads_now ⟨by simp, b, hframes, hlike.stands hframes, hon.2.1, ?_⟩
  simp only [List.length_append]
  omega

theorem leads_test (hcalls : Calls s p n d) (hlong : f.routine.code.size < 2 ^ 63)
    (hlists : Lists p Γ) {c : Cond} (hc : c.Typed Γ)
    (hcode : Sits f.routine.code.toList c.code q) (hq : q + c.size < f.routine.code.toList.length)
    (hquiet : Quiet (p.starts f.routine.slot.toNat) q (c.size + 1))
    (hon : (trailSite p n d f outer).On q h m x) :
    (watchTrail s p n).Leads h m (((machineLeaves s (callBody s p n d)).test q c).outcome x)
      fun b h' m' y => h.length < h'.length ∧
        (trailSite p n d f outer).At (q + c.size + b.toNat) h' m' y := by
  obtain ⟨is, op, hsplit, hop, his⟩ := fit_cond hlists hc
  have hsize : c.size = is.length + 1 := by rw [Cond.size, hsplit]; simp
  rw [hsplit] at hcode
  rw [Array.length_toList] at hq
  rw [hsize] at hq hquiet
  refine Watch.Leads.bind (P := fun _ h' m' y => h.length < h'.length ∧
    ∃ b : Bool, y.machine.frames = f.at (q + c.size + b.toNat) :: outer ∧
      (trailSite p n d f outer).At (q + c.size + b.toNat) h' m' y) ?_ ?_
  · rw [hsplit, hsize]
    refine leads_segment hcalls hcode his (fun r h₁ h₂ => hquiet r h₁ (by omega)) hon ?_
    intro h' m' y hle hon'
    refine (leads_skip hlong (by omega) hop hcode.right.instr hon').imp ?_
    rintro _ h'' m'' z _ ⟨hlt, hb⟩
    exact ⟨by omega, hb⟩
  · rintro _ h' m' y _ ⟨hlen, b, hframes, hat⟩
    have hb : (y.machine.frames.head?.map Frame.pc != some (q + c.size)) = b := by
      rw [hframes]
      cases b <;> simp [Frame.at]
    rw [Act.outcome_bind, Act.outcome_get]
    dsimp only
    rw [hb]
    exact Watch.leads_now ⟨hlen, hat⟩

/-- Instructions that stay in their function, the last one included. -/
theorem leads_fits (hcalls : Calls s p n d) {is : List Instr} {last : Instr}
    (hcode : Sits f.routine.code.toList (is ++ [last]) q) (hfit : ∀ i ∈ is ++ [last], Fit p i)
    (hquiet : Quiet (p.starts f.routine.slot.toNat) q (is ++ [last]).length)
    (hon : (trailSite p n d f outer).On q h m x) :
    (watchTrail s p n).Leads h m ((segment s (callBody s p n d) q (is ++ [last])).outcome x)
      fun _ => (trailSite p n d f outer).At (q + (is ++ [last]).length) := by
  rw [List.length_append, List.length_singleton, ← Nat.add_assoc] at *
  refine leads_segment hcalls hcode (fun i hi => hfit i (List.mem_append_left _ hi)) hquiet hon ?_
  intro h' m' y _ hon'
  exact leads_fit hcalls hon' hcode.right.instr (hfit last (by simp))

/-- The machine carries what single statements, conditions and branches do. -/
theorem carries_trail (hcalls : Calls s p n d) (hlong : f.routine.code.size < 2 ^ 63)
    (hlists : Lists p Γ) :
    Carries (watchTrail s p n) (machineLeaves s (callBody s p n d)) Γ f.routine.code.toList
      (p.starts f.routine.slot.toNat) (trailSite p n d f outer) where
  mark := mark_trail
  settle := settle_trail
  late := by
    rintro q h m x ⟨_, hmarks, _⟩
    rw [boundaries_concat] at hmarks
    exact ⟨_, hmarks.symm⟩
  hop := by
    intro q r h m x hcode hr hon
    rw [Array.getElem?_toList] at hcode
    rw [Array.length_toList] at hr
    exact hops_branch hlong hcode hr hon
  assign := by
    intro place e b q h m x hs hcode hquiet hon
    have hsplit : Sits _ ((place.address :: e.code) ++ [⟨.store64, 0⟩]) q := hcode
    refine leads_fits hcalls hsplit ?_ hquiet hon
    rw [List.forall_mem_append, List.forall_mem_cons, List.forall_mem_singleton]
    exact ⟨⟨fit_address place, fit_expr hlists hs.1⟩, .inl (by decide)⟩
  call := by
    intro g as b q h m x hs hcode hquiet hon
    have hsplit : ∃ is last, callCode g as = is ++ [last] ∧ ∀ i ∈ is ++ [last], Fit p i := by
      have hcall : ∀ i ∈ (Expr.call g as).code, Fit p i := fit_expr hlists hs
      by_cases hvoid : g.result = .void
      · exact ⟨g.room :: as.code, g.invoke, by simp [callCode, hvoid], hcall⟩
      · refine ⟨(Expr.call g as).code, ⟨.pop, 0⟩, by simp [callCode, Expr.code, hvoid], ?_⟩
        rw [List.forall_mem_append, List.forall_mem_singleton]
        exact ⟨hcall, .inl (by decide)⟩
    obtain ⟨is, last, hsplit, hfit⟩ := hsplit
    simp only [machineLeaves, Stmt.code]
    rw [hsplit] at hcode hquiet ⊢
    exact leads_fits hcalls hcode hfit hquiet hon
  ret := by
    intro e b q h m x hs hcode hquiet hon
    have hsplit : ∃ is, returnCode e = is ++ [⟨.ret, 0⟩] ∧ ∀ i ∈ is, Fit p i := by
      cases e with
      | none => exact ⟨[], rfl, nofun⟩
      | some e =>
        refine ⟨⟨.arga, 0⟩ :: (e.code ++ [⟨.store64, 0⟩]), by simp [returnCode], ?_⟩
        rw [List.forall_mem_cons, List.forall_mem_append, List.forall_mem_singleton]
        exact ⟨.inl (by decide), fit_expr hlists hs.1, .inl (by decide)⟩
    obtain ⟨is, hsplit, his⟩ := hsplit
    simp only [machineLeaves, Stmt.code]
    rw [hsplit] at hcode hquiet ⊢
    rw [List.length_append, List.length_singleton] at hquiet
    exact leads_segment hcalls hcode his hquiet hon fun _ _ _ _ hon' =>
      leads_return hon' hcode.right.instr
  test := leads_test hcalls hlong hlists

/-! ## Functions -/

variable {π : Type} {t : ProgramTables π}

namespace Laid

/-- Every environment of the tables lists the functions of the program. -/
theorem lists (hl : Laid s t p) (g : Function π) : Lists p (t.env g) := by
  intro k hk
  have hlen : (t.env g).functions.length = t.functions.rows.length := by
    simp [ProgramTables.env]
  have := hl.length_functions
  have := hl.functions
  exact ⟨by omega, p.functions.get ⟨k, by omega⟩, List.getElem?_eq_getElem _⟩

end Laid

theorem Core.Program.starts_succ {fn : Fn} (hfn : p.functions[k]? = some fn) :
    p.starts (k + 1) = fn.body.starts 0 := by
  simp [Core.Program.starts, hfn]

/-- A function that is called does what the semantics says, if the functions it calls do. -/
theorem calls_succ (hl : Laid s t p) (hcalls : Calls s p n d) : Calls s p n (d + 1) := by
  intro k fn r args locals outer h m x hfn hr hframes hlike hmarks hroom
  obtain ⟨g, hg, htyped⟩ := hl.row hfn
  rw [hg.routine] at hr
  cases hr
  have hstarts : p.starts g.routine.slot.toNat = fn.body.starts 0 := by
    rw [hg.slot, Core.Program.starts_succ hfn]
  have hat : (trailSite p n d ⟨g.routine, 0, args, locals⟩ outer).At 0 h m x :=
    ⟨hlike.stands (hlike.frames ▸ hframes), hmarks, hroom⟩
  have hbody := follows_block
    (carries_trail (f := ⟨g.routine, 0, args, locals⟩) hcalls hg.long (hl.lists g)) fn.body
    htyped.body ⟨hg.sits_body, fun q _ _ => by rw [hstarts]⟩ nofun h m x hat
  simp only [callBody, hfn]
  refine (hbody.gives (Block.gives_exec htyped.body)).bind ?_
  rintro _ h' m' y - ⟨rfl | ⟨rfl, hend⟩, hafter⟩
  · exact Watch.leads_now hafter
  · have hon := settle_trail (f := ⟨g.routine, 0, args, locals⟩) (q := 0 + fn.body.size)
      (by
        rw [hstarts]
        intro hmem
        have := Block.starts_bounds hmem
        omega) hafter
    rw [Nat.zero_add] at hon
    exact leads_return hon (hg.code_return htyped hend)

/-- Calls follow the semantics to any depth. -/
theorem calls (hl : Laid s t p) (d : Nat) : Calls s p n d := by
  induction d with
  | zero =>
    intro k fn r args locals outer h m x hfn hr hframes hlike hmarks hroom
    refine ⟨[], m, .nil m, .inr ?_⟩
    rw [List.append_nil]
    exact ⟨hroom, [], (List.append_nil _).trans hmarks.symm⟩
  | succ d ih => exact calls_succ hl ih

/-! ## Programs -/

/-- The call of the main function stays in the entry function. -/
theorem Laid.fit_main (hl : Laid s t p) : ∀ i ∈ mainCode p.main, Fit p i := by
  cases hmain : p.main with
  | none => exact nofun
  | some pair =>
    obtain ⟨slot, type⟩ := pair
    obtain ⟨hpos, g, hg, _⟩ := hl.describes.main slot type hmain
    obtain ⟨k, rfl⟩ : ∃ k, slot = k + 1 := ⟨slot - 1, by omega⟩
    obtain ⟨hk, fn, hfn⟩ := hl.lists g k (by
      simpa [ProgramTables.env] using (List.getElem?_eq_some_iff.mp hg).1)
    rw [mainCode, List.forall_mem_cons, List.forall_mem_singleton]
    exact ⟨.inl (by simp [Callee.room, Straight]), .inr ⟨k, fn, rfl, hk, hfn⟩⟩

/-- At the end of the entry function a run ends. -/
theorem ends_entry (hq : f.routine.code.size ∉ p.starts f.routine.slot.toNat)
    (hat : (trailSite p n d f []).At f.routine.code.size h m x) :
    m.act s = .halt m none ∧ x.marks = boundaries p (h ++ [m]) ∧ m.memory = x.machine.memory ∧
      m.input = x.machine.input ∧ m.output = x.machine.output := by
  obtain ⟨hst, hmarks, _⟩ := settle_trail hq hat
  refine ⟨?_, hmarks, hst.memory, hst.input, hst.output⟩
  simp [act, hst.frames, Frame.at]

/-- The initial values are assigned as the semantics says. -/
theorem leads_inits (hl : Laid s t p) {g : Function π} (hg : Holding s t 0 p.entryCode g)
    (hf : f.routine = g.routine) (htyped : (initBlock p.inits).Typed (t.env g) false)
    (hat : (trailSite p n n f []).At 0 h m x) :
    (watchTrail s p n).Leads h m (((initBlock p.inits).exec
      (machineLeaves s (callBody s p n n)) n 0).outcome x)
      fun _ => (trailSite p n n f []).At (initBlock p.inits).size := by
  have hsits : Sits f.routine.code.toList ((initBlock p.inits).code 0 ⟨0, 0⟩) 0 := by
    rw [hf, hg.code, code_initBlock]
    exact List.prefix_append _ _
  have hregion : Region f.routine.code.toList (p.starts f.routine.slot.toNat)
      ((initBlock p.inits).code 0 ⟨0, 0⟩) ((initBlock p.inits).starts 0) 0 := by
    refine ⟨hsits, fun q _ hq => ?_⟩
    rw [Block.length_code] at hq
    rw [hf, hg.slot, Core.Program.starts, List.mem_append, or_iff_left]
    split
    · rw [List.mem_singleton]
      omega
    · exact List.not_mem_nil
  have hinits := follows_block (carries_trail (calls hl n) (hf ▸ hg.long) (hl.lists g))
    (initBlock p.inits) htyped hregion nofun h m x hat
  refine (hinits.gives (gives_initBlock _ _)).imp ?_
  rintro _ h' m' y _ ⟨rfl, hafter⟩
  rwa [Site.after, Nat.zero_add] at hafter

/-- A run of a program that nothing cuts does what the semantics says. -/
theorem leads_reference (hl : Laid s t p) (m : Machine) :
    (watchTrail s p n).Leads [] (m.start s) ((p.reference s n).outcome ⟨m.start s, []⟩)
      fun _ h m' y => m'.act s = .halt m' none ∧ y.marks = boundaries p (h ++ [m']) ∧
        m'.memory = y.machine.memory ∧ m'.input = y.machine.input ∧
        m'.output = y.machine.output := by
  obtain ⟨g, hg, htyped, -⟩ := hl.entry
  have hsize := Laid.size_entry hg
  have hsits : Sits g.routine.code.toList (mainCode p.main) (initBlock p.inits).size := by
    have hall : Sits g.routine.code.toList
        ((initBlock p.inits).code 0 ⟨0, 0⟩ ++ mainCode p.main) 0 := by
      rw [hg.code, code_initBlock]
      exact List.prefix_refl _
    have := hall.right
    rwa [Block.length_code, Nat.zero_add] at this
  have hat : (trailSite p n n ⟨g.routine, 0, s.module.globals.size, s.module.globals.size⟩ []).At
      0 [] (m.start s) ⟨m.start s, []⟩ :=
    ⟨(Like.refl _).stands (frames_start m hg.routine), rfl, by simp⟩
  refine (leads_inits hl hg rfl htyped hat).bind ?_
  intro _ h' m' y _ hat'
  have hend : g.routine.code.size ∉ p.starts g.routine.slot.toNat := by
    rw [hg.slot, Core.Program.starts, List.mem_append]
    rintro (hq | hq)
    · have := Block.starts_bounds hq
      omega
    · split at hq
      · rename_i hmain
        obtain ⟨pair, hmain⟩ := Option.isSome_iff_exists.mp hmain
        rw [List.mem_singleton, hsize, hmain, mainCode] at hq
        simp at hq
      · cases hq
  cases hmain : p.main with
  | none =>
    rw [hmain, mainCode, List.length_nil, Nat.add_zero] at hsize
    rw [← hsize] at hat'
    exact Watch.leads_now (ends_entry hend hat')
  | some pair =>
    have hstart : (initBlock p.inits).size ∈ p.starts g.routine.slot.toNat := by
      simp [hg.slot, Core.Program.starts, hmain]
    obtain ⟨z, hmark, hon⟩ := mark_trail hstart hat'
    have hquiet : Quiet (p.starts g.routine.slot.toNat) (initBlock p.inits).size 2 := by
      intro q h₁ h₂ hq
      rw [hg.slot, Core.Program.starts, List.mem_append] at hq
      obtain hq | hq := hq
      · have := Block.starts_bounds hq
        omega
      · simp [hmain] at hq
        omega
    refine Watch.leads_bind_ok hmark ?_
    obtain ⟨slot, type⟩ := pair
    have hsplit : mainCode (some (slot, type))
        = [(Callee.function slot type).room] ++ [(Callee.function slot type).invoke] := rfl
    have hfit := hl.fit_main
    rw [hmain, hsplit] at hsits hsize hfit
    refine (leads_fits (calls hl n) hsits hfit hquiet hon).imp ?_
    intro _ h'' m'' z' _ hat''
    exact ends_entry hend (hsize ▸ hat'')

end

/-! ## Runs -/

/-- How the semantics says that a run ends, if it says so: for the reason for which it was cut, or
with the delivery of the output. -/
def Trail.runError (r : Except (Cut Stop) Unit × Trail) : Option RunError :=
  match r with
  | (.error (.trap stop), _) => some (.stopped stop)
  | (_, x) => if x.machine.output.flush.failed then some .flush else none

/-- A run of a machine goes as the structured semantics of a program says: it passes the same
statements in the same states and comes to the same end, unless it is cut short; then it has
passed the first of them. -/
structure RunsAs (p : Core.Program) (s : Setup) (rounds : Nat) (m : Machine) : Prop where
  passed : boundaries p (states s (s.maxSteps + 1) (m.start s))
    <+: ((p.reference s rounds).outcome ⟨m.start s, []⟩).2.marks
  ended : m.RunCut s ∨
    boundaries p (states s (s.maxSteps + 1) (m.start s))
        = ((p.reference s rounds).outcome ⟨m.start s, []⟩).2.marks ∧
      ((p.reference s rounds).outcome ⟨m.start s, []⟩).1 ≠ .error .timeout ∧
      (m.run s).2 = Trail.runError ((p.reference s rounds).outcome ⟨m.start s, []⟩) ∧
      (m.run s).1.memory
        = ((p.reference s rounds).outcome ⟨m.start s, []⟩).2.machine.memory ∧
      (m.run s).1.input = ((p.reference s rounds).outcome ⟨m.start s, []⟩).2.machine.input ∧
      (m.run s).1.output
        = ((p.reference s rounds).outcome ⟨m.start s, []⟩).2.machine.output.flush

section

variable {s : Setup} {p : Core.Program} {rounds : Nat} {m : Machine}
  {r : Except (Cut Stop) Unit × Trail}

theorem boundaries_mono {l₁ l₂ : List Machine} (h : l₁ <+: l₂) :
    boundaries p l₁ <+: boundaries p l₂ := by
  obtain ⟨l, rfl⟩ := h
  exact ⟨boundaries p l, by simp [boundaries]⟩

/-- A run that follows a path to its end, or is cut on it. -/
theorem runsAs_of_halt {ms : List Machine} {m' m'' : Machine} {stop : Option Stop}
    (hpath : Path s (m.start s) ms m') (hend : m'.act s = .halt m'' stop)
    (hr : (p.reference s rounds).outcome ⟨m.start s, []⟩ = r)
    (hmarks : r.2.marks = boundaries p (ms ++ [m'])) (htimeout : r.1 ≠ .error .timeout)
    (hstop : Trail.runError r = m''.runError stop)
    (hmemory : m''.memory = r.2.machine.memory) (hinput : m''.input = r.2.machine.input)
    (houtput : m''.output = r.2.machine.output) : RunsAs p s rounds m := by
  obtain ⟨hcut, hpassed⟩ | ⟨hstates, hrun⟩ := run_halts hpath hend
  · exact ⟨by rw [hr, hmarks]; exact boundaries_mono hpassed, .inl hcut⟩
  · rw [← hstop] at hrun
    refine ⟨⟨[], by rw [hr, hmarks, hstates, List.append_nil]⟩, .inr ?_⟩
    rw [hr, hrun, hstates]
    exact ⟨hmarks.symm, htimeout, rfl, hmemory, hinput, by rw [houtput]⟩

end

end TinyC
