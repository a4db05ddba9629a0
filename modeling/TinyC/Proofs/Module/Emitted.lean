import TinyC.Proofs.Module.Written

/-!
# What is laid out names what is there and can be written

The instructions for a typed program are of few kinds (`Env.Lists`): an operand is a word of its
own, a slot that the environment lists, the number of slots of a result, or the distance between two
places of one code. Tables and codes shorter than 2^31 leave room for all of these, so what is laid
out can be written.
-/

namespace TinyC.Core

/-- The operation names a slot. -/
def namesSlot : Opcode → Bool
  | .globa | .loca | .arga | .call | .callname => true
  | _ => false

/-- The instructions of a code of a length: they name nothing that the environment does not list,
and branches stay in the code. -/
inductive Env.Lists (Γ : Env) (length : Nat) : Instr → Prop
  | global {n : Nat} (h : n < Γ.globals.length) : Lists Γ length ⟨.globa, Int64.ofNat n⟩
  | local {n : Nat} (h : n < Γ.locals.length) : Lists Γ length ⟨.loca, Int64.ofNat n⟩
  | argument {n : Nat} (h : n < Γ.result.slots + Γ.params.length) :
    Lists Γ length ⟨.arga, Int64.ofNat n⟩
  | call {n : Nat} (hpos : 0 < n) (h : n < Γ.functions.length) :
    Lists Γ length ⟨.call, Int64.ofNat n⟩
  | builtin (b : Builtin) : Lists Γ length ⟨.callname, Int64.ofNat b.slot⟩
  | branch {source target : Nat} (hs : source < length) (ht : target ≤ length) :
    Lists Γ length (branch source target)
  | push (x : Int64) : Lists Γ length ⟨.push, x⟩
  | small {op : Opcode} {n : Nat} (hlisted : op.isListed = true) (hsize : op.operandSize = 4)
    (hslot : namesSlot op = false) (h : n ≤ 1) : Lists Γ length ⟨op, Int64.ofNat n⟩
  | plain {op : Opcode} (hlisted : op.isListed = true) (hsize : op.operandSize = 0) :
    Lists Γ length ⟨op, 0⟩

/-- Every instruction of a code is of these kinds. -/
def Env.ListsAll (Γ : Env) (length : Nat) (code : List Instr) : Prop :=
  ∀ i ∈ code, Γ.Lists length i

/-- The tables behind an environment are short enough for operands of four bytes. -/
structure Env.Short (Γ : Env) : Prop where
  globals : Γ.globals.length < 2 ^ 31
  functions : Γ.functions.length < 2 ^ 31
  params : Γ.params.length < 2 ^ 31
  locals : Γ.locals.length < 2 ^ 31

/-- What names a slot has an operand. -/
theorem namesSlot_eq_false {op : Opcode} (h : op.operandSize = 0) : namesSlot op = false := by
  cases op <;> first | rfl | cases h

theorem slots_le_one (type : Ty) : type.slots ≤ 1 := by
  cases type <;> decide

theorem slot_lt_length (b : Builtin) : b.slot < Builtin.all.length := by
  cases b <;> decide

/-- An instruction whose operand is a small number. -/
theorem writable_ofNat {op : Opcode} (hlisted : op.isListed = true) (hsize : op.operandSize = 4)
    {n : Nat} (h : n < 2 ^ 31) : Instr.Writable ⟨op, Int64.ofNat n⟩ := by
  refine ⟨hlisted, fun h0 => absurd (hsize.symm.trans h0) (by decide), fun _ => ?_⟩
  dsimp only
  rw [Int64.toInt_ofNat_of_lt (Nat.lt_trans h (by decide))]
  omega

variable {Γ : Env} {length : Nat}

/-- Where tables and code are short, instructions can be written and read back. -/
theorem Env.Lists.writable {i : Instr} (h : Γ.Lists length i) (hΓ : Γ.Short)
    (hlength : length < 2 ^ 31) : i.Writable := by
  cases h with
  | global h => exact writable_ofNat rfl rfl (Nat.lt_trans h hΓ.globals)
  | «local» h => exact writable_ofNat rfl rfl (Nat.lt_trans h hΓ.locals)
  | argument h =>
    have hslots := slots_le_one Γ.result
    have hparams := hΓ.params
    exact writable_ofNat rfl rfl (by omega)
  | call _ h => exact writable_ofNat rfl rfl (Nat.lt_trans h hΓ.functions)
  | builtin b => exact writable_ofNat rfl rfl (Nat.lt_trans (slot_lt_length b) (by decide))
  | branch hs ht =>
    refine ⟨rfl, fun h0 => (by cases h0), fun _ => ?_⟩
    simp only [Core.branch, branchOffset]
    rw [Int64.toInt_ofInt_of_le (by omega) (by omega)]
    omega
  | push x => exact ⟨rfl, fun h => (by cases h), fun h => (by cases h)⟩
  | small hlisted hsize _ h => exact writable_ofNat hlisted hsize (by omega)
  | plain hlisted hsize =>
    exact ⟨hlisted, fun _ => rfl, fun h4 => absurd (hsize.symm.trans h4) (by decide)⟩

namespace Env.ListsAll

theorem nil : Γ.ListsAll length [] :=
  List.forall_mem_nil _

theorem append {l m : List Instr} (hl : Γ.ListsAll length l) (hm : Γ.ListsAll length m) :
    Γ.ListsAll length (l ++ m) :=
  List.forall_mem_append.mpr ⟨hl, hm⟩

theorem cons {i : Instr} {l : List Instr} (hi : Γ.Lists length i) (hl : Γ.ListsAll length l) :
    Γ.ListsAll length (i :: l) :=
  List.forall_mem_cons.mpr ⟨hi, hl⟩

theorem single {i : Instr} (hi : Γ.Lists length i) : Γ.ListsAll length [i] :=
  .cons hi .nil

end Env.ListsAll

/-! ## Code that computes -/

/-- The operation neither branches nor returns nor stores. -/
def computes (op : Opcode) : Bool :=
  !op.isBranch && op != .ret && op != .store64

/-- All that the code does is compute. -/
def Computing (code : List Instr) : Prop :=
  ∀ i ∈ code, computes i.op = true

theorem computes_address (p : Place) : computes p.address.op = true := by
  unfold Place.address
  split <;> rfl

theorem computes_invoke (g : Callee) : computes g.invoke.op = true := by
  cases g <;> rfl

mutual

/-- Expressions compute. -/
theorem Expr.computing (e : Expr) : Computing e.code := by
  match e with
  | .int _ | .double _ | .text _ => exact List.forall_mem_singleton.mpr rfl
  | .load place _ =>
    exact List.forall_mem_cons.mpr ⟨computes_address place, List.forall_mem_singleton.mpr rfl⟩
  | .arith op type l r =>
    refine List.forall_mem_append.mpr ⟨List.forall_mem_append.mpr ⟨l.computing, r.computing⟩,
      List.forall_mem_singleton.mpr ?_⟩
    cases op <;> cases type <;> rfl
  | .negate type e =>
    refine List.forall_mem_append.mpr ⟨e.computing, List.forall_mem_singleton.mpr ?_⟩
    cases type <;> rfl
  | .convert source target e =>
    refine List.forall_mem_append.mpr ⟨e.computing, ?_⟩
    cases source <;> cases target <;> simp [Ty.conversion, computes, Opcode.isBranch]
  | .call g as =>
    exact List.forall_mem_cons.mpr ⟨rfl, List.forall_mem_append.mpr ⟨as.computing,
      List.forall_mem_singleton.mpr (computes_invoke g)⟩⟩

/-- Arguments compute. -/
theorem Args.computing (as : Args) : Computing as.code := by
  match as with
  | .nil => exact nofun
  | .cons e rest => exact List.forall_mem_append.mpr ⟨e.computing, rest.computing⟩

end

theorem callCode_eq (callee : Callee) (args : Args) :
    callCode callee args = (Expr.call callee args).code ++
      (if callee.result = .void then [] else [⟨.pop, 0⟩]) := by
  simp [callCode, Expr.code]

/-- The last instruction of a condition skips what stands behind it; all others compute. -/
theorem Cond.code_eq (c : Cond) :
    ∃ front, ∃ op : Opcode, (op = .brtrue ∨ op = .brfalse) ∧ c.code = front ++ [⟨op, 1⟩] ∧
      Computing front := by
  cases c with
  | nonzero e => exact ⟨e.code, .brtrue, .inl rfl, rfl, e.computing⟩
  | compare op type l r =>
    have htest : ∃ front, ∃ skip : Opcode, (skip = .brtrue ∨ skip = .brfalse) ∧
        op.test = front ++ [⟨skip, 1⟩] ∧ Computing front := by
      cases op with
      | lt | gt => exact ⟨[_], .brtrue, .inl rfl, rfl, List.forall_mem_singleton.mpr rfl⟩
      | le | ge => exact ⟨[_], .brfalse, .inr rfl, rfl, List.forall_mem_singleton.mpr rfl⟩
      | neq => exact ⟨[], .brtrue, .inl rfl, rfl, nofun⟩
      | eq => exact ⟨[], .brfalse, .inr rfl, rfl, nofun⟩
    obtain ⟨front, skip, hskip, heq, hfront⟩ := htest
    refine ⟨l.code ++ r.code ++ _ :: front, skip, hskip,
      by simp [Cond.code, RelOp.instrs, heq]; rfl, ?_⟩
    refine List.forall_mem_append.mpr
      ⟨List.forall_mem_append.mpr ⟨l.computing, r.computing⟩, List.forall_mem_cons.mpr ⟨?_, hfront⟩⟩
    cases type <;> rfl

/-- The entry function computes and stores. -/
theorem Program.computes_entryCode (p : Program) :
    ∀ i ∈ p.entryCode, computes i.op = true ∨ i.op = .store64 := by
  refine List.forall_mem_append.mpr ⟨fun i hi => ?_, fun i hi => .inl ?_⟩
  · obtain ⟨init, _, hi⟩ := List.mem_flatMap.mp hi
    obtain rfl | hi := List.mem_cons.mp hi
    · exact .inl rfl
    obtain hi | hi := List.mem_append.mp hi
    · exact .inl (Expr.computing _ i hi)
    · exact .inr (List.mem_singleton.mp hi ▸ rfl)
  · unfold mainCode at hi
    split at hi
    · cases hi
    · exact (Expr.call _ .nil).computing i hi

/-! ## Single instructions -/

theorem lists_address {p : Place} {type : Ty} (h : Γ.place? p = some type) :
    Γ.Lists length p.address := by
  obtain ⟨location, slot⟩ := p
  cases location with
  | global => exact .global (List.getElem?_eq_some_iff.mp h).1
  | param =>
    simp only [Env.place?] at h
    split at h
    · have hlt := (List.getElem?_eq_some_iff.mp h).1
      exact .argument (n := slot) (by omega)
    · cases h
  | «local» => exact .local (List.getElem?_eq_some_iff.mp h).1

theorem lists_room (g : Callee) : Γ.Lists length g.room :=
  .small rfl rfl rfl (slots_le_one g.result)

theorem lists_invoke {g : Callee} {types : List Ty} (h : g.Takes Γ types) :
    Γ.Lists length g.invoke := by
  cases g with
  | builtin b => exact .builtin b
  | function slot result => exact .call h.1 (List.getElem?_eq_some_iff.mp h.2.1).1

theorem lists_arith (op : ArithOp) (type : Ty) : Γ.Lists length (op.instr type) := by
  cases op <;> cases type <;> exact .plain rfl rfl

theorem lists_negation (type : Ty) : Γ.Lists length type.negation := by
  cases type <;> exact .plain rfl rfl

theorem lists_conversion (source target : Ty) : Γ.ListsAll length (source.conversion target) := by
  cases source <;> cases target <;> first | exact .nil | exact .single (.plain rfl rfl)

/-- A branch over the next instruction. -/
theorem lists_skip {op : Opcode} (hlisted : op.isListed = true) (hsize : op.operandSize = 4)
    (hslot : namesSlot op = false) : Γ.Lists length ⟨op, 1⟩ :=
  .small (n := 1) hlisted hsize hslot (Nat.le_refl 1)

theorem lists_compare (op : RelOp) (type : Ty) : Γ.ListsAll length (op.instrs type) := by
  refine .cons (by cases type <;> exact .plain rfl rfl) ?_
  cases op with
  | lt | gt | le | ge => exact .cons (.plain rfl rfl) (.single (lists_skip rfl rfl rfl))
  | neq | eq => exact .single (lists_skip rfl rfl rfl)

/-! ## Expressions and conditions -/

mutual

theorem Expr.Typed.lists {e : Expr} (he : e.Typed Γ) : Γ.ListsAll length e.code := by
  match e, he with
  | .int w, _ => exact .single (.push _)
  | .double w, _ => exact .single (.push _)
  | .text slot, _ => exact .single (.push _)
  | .load p t, he => exact .cons (lists_address he.1) (.single (.plain rfl rfl))
  | .arith op t l r, he =>
    exact (he.1.lists.append he.2.1.lists).append (.single (lists_arith op t))
  | .negate t e, he => exact he.1.lists.append (.single (lists_negation t))
  | .convert s t e, he => exact he.1.lists.append (lists_conversion s t)
  | .call g as, ⟨types, hg, has⟩ =>
    exact .cons (lists_room g) (has.lists.append (.single (lists_invoke hg)))

theorem Args.Typed.lists {as : Args} {types : List Ty} (has : as.Typed Γ types) :
    Γ.ListsAll length as.code := by
  match as, has with
  | .nil, _ => exact .nil
  | .cons e rest, ⟨_, _, he, _, hrest⟩ => exact he.lists.append hrest.lists

end

theorem Cond.Typed.lists {c : Cond} (hc : c.Typed Γ) : Γ.ListsAll length c.code := by
  cases c with
  | nonzero e => exact hc.1.lists.append (.single (lists_skip rfl rfl rfl))
  | compare op t l r => exact (hc.1.lists.append hc.2.1.lists).append (lists_compare op t)

theorem lists_store {p : Place} {e : Expr} (hp : Γ.Lists length p.address) (he : e.Typed Γ) :
    Γ.ListsAll length (p.store e) :=
  .cons hp (he.lists.append (.single (.plain rfl rfl)))

theorem lists_call {g : Callee} {as : Args} {types : List Ty} (hg : g.Takes Γ types)
    (has : as.Typed Γ types) : Γ.ListsAll length (callCode g as) := by
  refine .cons (lists_room g) (has.lists.append (.cons (lists_invoke hg) ?_))
  split
  · exact .nil
  · exact .single (.plain rfl rfl)

/-- A return with a value names the slot of the result. -/
theorem lists_return {e : Expr} (he : e.Typed Γ) (hresult : Γ.result ≠ .void) :
    Γ.ListsAll length (returnCode (some e)) := by
  have hslots : 0 < Γ.result.slots := by
    cases hr : Γ.result with
    | void => exact absurd hr hresult
    | _ => decide
  refine .cons (.argument (n := 0) (by omega)) (he.lists.append ?_)
  exact .cons (.plain rfl rfl) (.single (.plain rfl rfl))

/-! ## Statements

Branches lead from one place of a code to another, so the length of the code as a whole matters. -/

mutual

theorem Stmt.Typed.lists {start : Nat} {loop : Loop} {inLoop : Bool} {s : Stmt}
    (hs : s.Typed Γ inLoop) (hloop : inLoop = true → loop.test ≤ length ∧ loop.exit ≤ length)
    (hsize : start + s.size ≤ length) : Γ.ListsAll length (s.code start loop) := by
  match s, hs with
  | .skip, _ => exact .nil
  | .assign p e, hs => exact lists_store (lists_address hs.2.1) hs.1
  | .call g as, ⟨types, hg, has⟩ => exact lists_call hg has
  | .ret none, _ => exact .single (.plain rfl rfl)
  | .ret (some e), hs => exact lists_return hs.1 hs.2.2
  | .ifThen c b, hs =>
    simp only [Stmt.size] at hsize
    exact hs.1.lists.append (.cons (.branch (by omega) (by omega)) (hs.2.lists hloop (by omega)))
  | .ifElse c b a, hs =>
    simp only [Stmt.size] at hsize
    refine hs.1.lists.append (.cons (.branch (by omega) (by omega)) ?_)
    refine (hs.2.1.lists hloop (by omega)).append (.cons (.branch (by omega) (by omega)) ?_)
    exact hs.2.2.lists hloop (by omega)
  | .loop c b, hs =>
    simp only [Stmt.size] at hsize
    refine .cons (.branch (by omega) (by omega)) (hs.1.lists.append
      (.cons (.branch (by omega) (by omega)) ?_))
    refine (hs.2.lists (fun _ => ⟨?_, ?_⟩) (by omega)).append
      (.single (.branch (by omega) (by omega)))
    · show start + 1 ≤ length
      omega
    · show start + 1 + c.size + 1 + b.size + 1 ≤ length
      omega
  | .brk, hs =>
    simp only [Stmt.size] at hsize
    exact .single (.branch (by omega) (hloop hs).2)
  | .cont, hs =>
    simp only [Stmt.size] at hsize
    exact .single (.branch (by omega) (hloop hs).1)

theorem Block.Typed.lists {start : Nat} {loop : Loop} {inLoop : Bool} {b : Block}
    (hb : b.Typed Γ inLoop) (hloop : inLoop = true → loop.test ≤ length ∧ loop.exit ≤ length)
    (hsize : start + b.size ≤ length) : Γ.ListsAll length (b.code start loop) := by
  match b, hb with
  | .nil, _ => exact .nil
  | .cons s rest, hb =>
    simp only [Block.size] at hsize
    exact (hb.1.lists hloop (by omega)).append (hb.2.lists hloop (by omega))

end

theorem Fn.Typed.lists {f : Fn} (hf : f.Typed Γ) : Γ.ListsAll f.code.length f.code := by
  have hsize : f.body.size ≤ f.code.length := by
    simp [Fn.code, Block.outerCode, Block.length_code]
  refine (hf.body.lists (fun h => by cases h) (by omega)).append ?_
  split
  · exact .single (.plain rfl rfl)
  · exact .nil

end TinyC.Core
