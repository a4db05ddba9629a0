import TinyC.Proofs.Machine.Laid
import TinyC.Proofs.Machine.Values

/-!
# Plans of code

A plan says of every instruction of some code which operands lie on the stack before it, or that
the machine never comes to it. An operand is a value of a type, the address of a place, or room for
the result of a call that is being prepared. The statements behind one that always returns are
never come to, and neither is the end of a body that always returns.

The plan of a typed program is kept by every instruction (`Fn.sound`, `entry_sound`): from an
instruction that the machine comes to, with the operands that the plan says, it goes on to one
before which the plan says what operands the instruction has left. `Script.Allows` lists all the
ways to go on.

A function with a result comes to a return in one way only. Its stations tell where it has just
stored its result (`Station.leaving`), and nothing but the store of a return statement leads there.
-/

namespace TinyC.Core

variable {Γ : Env}

open Machine (Sits ne_void_of_isNumeric)

/-- What an operand is. -/
inductive Cell where
  | value (type : Ty)
  | address (place : Place)
  | room
  deriving Repr, DecidableEq

/-- Where a function is between two of its instructions: its operands, the top one first, and
whether its result is in its slot and nothing is left but to return. -/
structure Station where
  cells : List Cell
  leaving : Bool
  deriving Repr, DecidableEq

/-- What is said of an instruction: where the function is before it, if the machine ever comes to
it, and the type of the literal that it pushes. -/
structure Mark where
  station : Option Station
  literal : Option Ty
  deriving Repr, DecidableEq

namespace Mark

/-- The machine comes to the instruction with these operands. -/
def here (cells : List Cell) : Mark :=
  ⟨some ⟨cells, false⟩, none⟩

/-- The instruction pushes a literal. -/
def push (cells : List Cell) (type : Ty) : Mark :=
  ⟨some ⟨cells, false⟩, some type⟩

/-- The instruction is the return behind the store of a result. -/
def leave : Mark :=
  ⟨some ⟨[], true⟩, none⟩

/-- The machine never comes to the instruction. -/
def dead (k : Mark) : Mark :=
  { k with station := none }

end Mark

/-- The operands that the results of a type are. -/
def values (type : Ty) : List Cell :=
  List.replicate type.slots (.value type)

/-- The room for a result of a type. -/
def rooms (type : Ty) : List Cell :=
  List.replicate type.slots .room

/-- The operands that arguments of these types are. -/
def given (types : List Ty) : List Cell :=
  (types.map Cell.value).reverse

@[simp] theorem length_values (type : Ty) : (values type).length = type.slots :=
  List.length_replicate

@[simp] theorem length_rooms (type : Ty) : (rooms type).length = type.slots :=
  List.length_replicate

@[simp] theorem length_given (types : List Ty) : (given types).length = types.length := by
  simp [given]

theorem values_eq {type : Ty} (h : type ≠ .void) : values type = [.value type] := by
  cases type with
  | void => contradiction
  | _ => rfl

/-! ## The plan of a program -/

/-- The types of arguments. -/
def Args.types : Args → List Ty
  | .nil => []
  | .cons e rest => e.type :: rest.types

mutual

/-- The plan of an expression above some operands. -/
def Expr.plan (below : List Cell) : Expr → List Mark
  | .int _ => [.push below .int]
  | .double _ => [.push below .double]
  | .text _ => [.push below .string]
  | .load place _ => [.here below, .here (.address place :: below)]
  | .arith _ type left right =>
    left.plan below ++ right.plan (.value type :: below)
      ++ [.here (.value type :: .value type :: below)]
  | .negate type e => e.plan below ++ [.here (.value type :: below)]
  | .convert source target e =>
    e.plan below ++ (source.conversion target).map fun _ => .here (.value source :: below)
  | .call callee args =>
    .here below :: (args.plan (rooms callee.result ++ below)
      ++ [.here (given args.types ++ (rooms callee.result ++ below))])

/-- The plan of arguments above some operands. -/
def Args.plan (below : List Cell) : Args → List Mark
  | .nil => []
  | .cons e rest => e.plan below ++ rest.plan (.value e.type :: below)

end

/-- The plan of a condition. -/
def Cond.plan : Cond → List Mark
  | .nonzero e => e.plan [] ++ [.here [.value e.type]]
  | .compare op type left right =>
    left.plan [] ++ right.plan [.value type]
      ++ .here [.value type, .value type] :: op.test.map fun _ => .here [.value .int]

/-- The plan of a store. -/
def storePlan (p : Place) (e : Expr) : List Mark :=
  .here [] :: (e.plan [.address p] ++ [Mark.here [.value e.type, .address p]])

/-- The plan of a return. -/
def returnPlan : Option Expr → List Mark
  | none => [.here []]
  | some e => storePlan ⟨.param, 0⟩ e ++ [.leave]

/-- The plan of a call whose result is dropped. -/
def callPlan (callee : Callee) (args : Args) : List Mark :=
  (Expr.call callee args).plan [] ++
    (if callee.result = .void then [] else [.here [.value callee.result]])

/-- The marks, or the same for code that is never come to. -/
def deadIf (dead : Bool) (plan : List Mark) : List Mark :=
  if dead then plan.map Mark.dead else plan

mutual

/-- The plan of a statement. -/
def Stmt.plan : Stmt → List Mark
  | .skip => []
  | .assign place e => storePlan place e
  | .call callee args => callPlan callee args
  | .ret e => returnPlan e
  | .ifThen c body => c.plan ++ .here [] :: body.plan
  | .ifElse c body alternative =>
    c.plan ++ .here [] :: (body.plan ++ (deadIf body.terminates [.here []] ++ alternative.plan))
  | .loop c body =>
    .here [] :: (c.plan ++ .here [] :: (body.plan ++ deadIf body.terminates [.here []]))
  | .brk => [.here []]
  | .cont => [.here []]

/-- The plan of a block: what stands behind a statement that always returns is never come to. -/
def Block.plan : Block → List Mark
  | .nil => []
  | .cons s rest => s.plan ++ deadIf s.terminates rest.plan

end

/-- The plan of a function: the end of a body that always returns is never come to. -/
def Fn.plan (f : Fn) : List Mark :=
  f.body.plan ++ (if f.needsReturn then deadIf f.body.terminates [.here []] else [])

/-- The plan for the call of a main function, up to the end of the code. -/
def mainPlan : Option (Nat × Ty) → List Mark
  | none => [.here []]
  | some (_, type) => [.here [], .here (rooms type), .here (values type)]

/-- The plan of the entry function, up to the end of its code. -/
def Program.entryPlan (p : Program) : List Mark :=
  (initBlock p.inits).plan ++ mainPlan p.main

mutual

/-- The indices of the stores of return statements in the code of a statement. -/
def Stmt.resultStores (start : Nat) : Stmt → List Nat
  | .ret (some e) => [start + 1 + e.code.length]
  | .ifThen c body => body.resultStores (start + c.size + 1)
  | .ifElse c body alternative =>
    body.resultStores (start + c.size + 1)
      ++ alternative.resultStores (start + c.size + 1 + body.size + 1)
  | .loop c body => body.resultStores (start + 1 + c.size + 1)
  | _ => []

/-- The indices of the stores of return statements in the code of a block. -/
def Block.resultStores (start : Nat) : Block → List Nat
  | .nil => []
  | .cons s rest => s.resultStores start ++ rest.resultStores (start + s.size)

end

/-! ## Plans go with the code they are for -/

mutual

/-- The types of the literals of an expression in order. -/
def Expr.literals : Expr → List Ty
  | .int _ => [.int]
  | .double _ => [.double]
  | .text _ => [.string]
  | .load _ _ => []
  | .arith _ _ left right => left.literals ++ right.literals
  | .negate _ e => e.literals
  | .convert _ _ e => e.literals
  | .call _ args => args.literals

/-- The types of the literals of arguments. -/
def Args.literals : Args → List Ty
  | .nil => []
  | .cons e rest => e.literals ++ rest.literals

end

/-- The types of the literals of a condition. -/
def Cond.literals : Cond → List Ty
  | .nonzero e => e.literals
  | .compare _ _ left right => left.literals ++ right.literals

mutual

/-- The types of the literals of a statement. -/
def Stmt.literals : Stmt → List Ty
  | .assign _ e => e.literals
  | .call _ args => args.literals
  | .ret (some e) => e.literals
  | .ifThen c body => c.literals ++ body.literals
  | .ifElse c body alternative => c.literals ++ (body.literals ++ alternative.literals)
  | .loop c body => c.literals ++ body.literals
  | _ => []

/-- The types of the literals of a block. -/
def Block.literals : Block → List Ty
  | .nil => []
  | .cons s rest => s.literals ++ rest.literals

end

/-- The instruction neither pushes a literal nor stores. -/
def isPlain (i : Instr) : Bool :=
  i.op != .push && i.op != .store64

/-- A plan goes with a code: it has literals of these types where the code pushes, and a store that
the machine comes to finds a value above the address of one of the places. -/
inductive Marks (places : List Place) : List Instr → List Mark → List Ty → Prop
  | nil : Marks places [] [] []
  | cons {i : Instr} {k : Mark} {code : List Instr} {plan : List Mark} {types : List Ty}
    (hpush : k.literal.isSome = (i.op == .push))
    (hstore : i.op = .store64 → ∀ st, k.station = some st →
      ∃ type q, q ∈ places ∧ st.cells = [.value type, .address q])
    (rest : Marks places code plan types) :
    Marks places (i :: code) (k :: plan) (k.literal.toList ++ types)

namespace Marks

variable {ps qs : List Place} {i : Instr} {code code' : List Instr} {plan plan' : List Mark}
  {types types' : List Ty} {cells : List Cell}

theorem append (h : Marks ps code plan types) (k : Marks ps code' plan' types') :
    Marks ps (code ++ code') (plan ++ plan') (types ++ types') := by
  induction h with
  | nil => exact k
  | cons hpush hstore _ ih =>
    rw [List.append_assoc]
    exact .cons hpush hstore ih

/-- Code without literals comes behind other code. -/
theorem add (h : Marks ps code plan types) (k : Marks ps code' plan' []) :
    Marks ps (code ++ code') (plan ++ plan') types := by
  simpa using h.append k

theorem push (word : Int64) (type : Ty) : Marks ps [⟨.push, word⟩] [.push cells type] [type] :=
  .cons rfl nofun .nil

theorem here (hi : isPlain i = true) (h : Marks ps code plan types) :
    Marks ps (i :: code) (.here cells :: plan) types := by
  simp only [isPlain, Bool.and_eq_true, bne_iff_ne] at hi
  exact .cons (beq_eq_false_iff_ne.mpr hi.1).symm (fun hop => absurd hop hi.2) h

theorem straight (h : ∀ i ∈ code, isPlain i = true) :
    Marks ps code (code.map fun _ => .here cells) [] := by
  induction code with
  | nil => exact .nil
  | cons i code ih =>
    obtain ⟨hi, hcode⟩ := List.forall_mem_cons.mp h
    exact .here hi (ih hcode)

theorem mono (h : Marks ps code plan types) (hsub : ps ⊆ qs) : Marks qs code plan types := by
  induction h with
  | nil => exact .nil
  | cons hpush hstore _ ih =>
    refine .cons hpush (fun hop st hst => ?_) ih
    obtain ⟨type, q, hq, hcells⟩ := hstore hop st hst
    exact ⟨type, q, hsub hq, hcells⟩

/-- Code that is never come to has its literals as well. -/
theorem deadIf (h : Marks ps code plan types) (dead : Bool) :
    Marks ps code (Core.deadIf dead plan) types := by
  cases dead with
  | false => exact h
  | true =>
    induction h with
    | nil => exact .nil
    | cons hpush _ _ ih => exact .cons hpush nofun ih

theorem one (hi : isPlain i = true) (dead : Bool) :
    Marks ps [i] (Core.deadIf dead [.here cells]) [] :=
  (Marks.here hi .nil).deadIf dead

variable (h : Marks ps code plan types)
include h

theorem length_eq : plan.length = code.length := by
  induction h with
  | nil => rfl
  | cons _ _ _ ih => rw [List.length_cons, List.length_cons, ih]

theorem pushes : plan.map (·.literal.isSome) = code.map (·.op == .push) := by
  induction h with
  | nil => rfl
  | cons hpush _ _ ih => rw [List.map_cons, List.map_cons, ih, hpush]

theorem literals : plan.filterMap Mark.literal = types := by
  induction h with
  | nil => rfl
  | @cons _ k _ _ _ _ _ _ ih =>
    rw [List.filterMap_cons, ih]
    cases k.literal <;> rfl

theorem store {j : Nat} {st : Station} (hi : code[j]? = some i)
    (hop : i.op = .store64) (hst : (plan[j]?).bind Mark.station = some st) :
    ∃ type q, q ∈ ps ∧ st.cells = [.value type, .address q] := by
  induction h generalizing j with
  | nil => cases hi
  | cons _ hstore _ ih =>
    cases j with
    | zero =>
      cases hi
      exact hstore hop st hst
    | succ j => exact ih hi hst

end Marks

theorem isPlain_address (p : Place) : isPlain p.address = true := by
  unfold Place.address
  split <;> rfl

mutual

/-- Expressions store nothing. -/
theorem Expr.marks (ps : List Place) (below : List Cell) (e : Expr) :
    Marks ps e.code (e.plan below) e.literals := by
  match e with
  | .int _ | .double _ | .text _ => exact .push _ _
  | .load place _ => exact .here (isPlain_address place) (.here rfl .nil)
  | .arith op type l r =>
    refine ((l.marks ps below).append (r.marks ps _)).add (.here ?_ .nil)
    cases op <;> cases type <;> rfl
  | .negate type e =>
    refine (e.marks ps below).add (.here ?_ .nil)
    cases type <;> rfl
  | .convert source target e =>
    refine (e.marks ps below).add (.straight ?_)
    cases source <;> cases target <;> simp [Ty.conversion, isPlain]
  | .call g as =>
    refine .here rfl ((as.marks ps _).add (.here ?_ .nil))
    cases g <;> rfl

theorem Args.marks (ps : List Place) (below : List Cell) (as : Args) :
    Marks ps as.code (as.plan below) as.literals := by
  match as with
  | .nil => exact .nil
  | .cons e rest => exact (e.marks ps below).append (rest.marks ps _)

end

theorem Cond.marks (ps : List Place) (c : Cond) : Marks ps c.code c.plan c.literals := by
  cases c with
  | nonzero e => exact (e.marks ps []).add (.here rfl .nil)
  | compare op type l r =>
    refine ((l.marks ps []).append (r.marks ps _)).add (.here ?_ (.straight ?_))
    · cases type <;> rfl
    · cases op <;> simp [RelOp.test, isPlain]

theorem marks_store {ps : List Place} {p : Place} (hp : p ∈ ps) (e : Expr) :
    Marks ps (p.store e) (storePlan p e) e.literals :=
  .here (isPlain_address p) ((e.marks ps _).add
    (.cons rfl (fun _ _ hst => ⟨e.type, p, hp, by cases hst; rfl⟩) .nil))

mutual

/-- **A statement stores to the places that it assigns**, or it stores a result. -/
theorem Stmt.marks (start : Nat) (loop : Loop) (s : Stmt) :
    Marks (⟨.param, 0⟩ :: s.places) (s.code start loop) s.plan s.literals := by
  match s with
  | .skip => exact .nil
  | .assign place e => exact marks_store (by simp [Stmt.places]) e
  | .call g as =>
    rw [Stmt.code, callCode_eq]
    refine ((Expr.call g as).marks _ []).add ?_
    split
    · exact .nil
    · exact .here rfl .nil
  | .ret none => exact .here rfl .nil
  | .ret (some e) =>
    have hcode : returnCode (some e) = Place.store ⟨.param, 0⟩ e ++ [⟨.ret, 0⟩] := by
      simp [returnCode, Place.store, Place.address]
    rw [Stmt.code, hcode]
    exact (marks_store List.mem_cons_self e).add (.cons rfl nofun .nil)
  | .ifThen c body => exact (c.marks _).append (.here rfl (body.marks _ loop))
  | .ifElse c body alternative =>
    have hbody := (body.marks (start + c.size + 1) loop).mono
      (List.cons_subset_cons _ (List.subset_append_left body.places alternative.places))
    have halternative := (alternative.marks (start + c.size + 1 + body.size + 1) loop).mono
      (List.cons_subset_cons _ (List.subset_append_right body.places alternative.places))
    exact (c.marks _).append (.here rfl (hbody.append ((Marks.one rfl _).append halternative)))
  | .loop c body =>
    exact .here rfl ((c.marks _).append (.here rfl ((body.marks _ _).add (.one rfl _))))
  | .brk | .cont => exact .here rfl .nil

/-- So does a block. -/
theorem Block.marks (start : Nat) (loop : Loop) (b : Block) :
    Marks (⟨.param, 0⟩ :: b.places) (b.code start loop) b.plan b.literals := by
  match b with
  | .nil => exact .nil
  | .cons s rest =>
    refine ((s.marks start loop).mono ?_).append (((rest.marks _ loop).mono ?_).deadIf _)
    · exact List.cons_subset_cons _ (List.subset_append_left _ _)
    · exact List.cons_subset_cons _ (List.subset_append_right _ _)

end

theorem Fn.marks (f : Fn) : Marks (⟨.param, 0⟩ :: f.body.places) f.code f.plan f.body.literals := by
  refine (f.body.marks 0 ⟨0, 0⟩).add ?_
  split
  · exact .one rfl _
  · exact .nil

/-- The plan of the entry function goes on to the end of the code. -/
theorem marks_main (ps : List Place) (main : Option (Nat × Ty)) :
    Marks ps (mainCode main ++ [⟨.nop, 0⟩]) (mainPlan main) [] := by
  cases main with
  | none => exact .here rfl .nil
  | some pair => exact .here rfl (.here rfl (.here rfl .nil))

/-! Plans are as long as the code they are for. -/

@[simp] theorem length_deadIf (dead : Bool) (plan : List Mark) :
    (deadIf dead plan).length = plan.length := by
  unfold deadIf
  split <;> simp

@[simp] theorem Expr.length_plan (below : List Cell) (e : Expr) :
    (e.plan below).length = e.code.length :=
  (e.marks [] below).length_eq

@[simp] theorem Args.length_plan (below : List Cell) (as : Args) :
    (as.plan below).length = as.code.length :=
  (as.marks [] below).length_eq

@[simp] theorem Cond.length_plan (c : Cond) : c.plan.length = c.size :=
  (c.marks []).length_eq

@[simp] theorem Stmt.length_plan (s : Stmt) : s.plan.length = s.size := by
  rw [(s.marks 0 ⟨0, 0⟩).length_eq, Stmt.length_code]

@[simp] theorem Block.length_plan (b : Block) : b.plan.length = b.size := by
  rw [(b.marks 0 ⟨0, 0⟩).length_eq, Block.length_code]

/-! ## How code goes on -/

/-- What an instruction that leads to the next one makes of the operands. -/
inductive Moves (Γ : Env) : Instr → List Cell → List Cell → Prop
  | pop {type : Ty} {below : List Cell} : Moves Γ ⟨.pop, 0⟩ (.value type :: below) below
  | address {p : Place} {below : List Cell} : Moves Γ p.address below (.address p :: below)
  | load {p : Place} {type : Ty} {below : List Cell} (h : Γ.place? p = some type) :
    Moves Γ ⟨.load64, 0⟩ (.address p :: below) (.value type :: below)
  | store {p : Place} {type : Ty} {below : List Cell} (h : Γ.place? p = some type) :
    Moves Γ ⟨.store64, 0⟩ (.value type :: .address p :: below) below
  | room {callee : Callee} {below : List Cell} :
    Moves Γ callee.room below (rooms callee.result ++ below)
  | arith {op : ArithOp} {type : Ty} {below : List Cell} (h : type.isNumeric = true) :
    Moves Γ (op.instr type) (.value type :: .value type :: below) (.value type :: below)
  | negate {type : Ty} {below : List Cell} (h : type.isNumeric = true) :
    Moves Γ type.negation (.value type :: below) (.value type :: below)
  | convert {source target : Ty} {i : Instr} {below : List Cell}
    (h : source.conversion target = [i]) :
    Moves Γ i (.value source :: below) (.value target :: below)
  | compare {type : Ty} {below : List Cell} (h : type.isNumeric = true) :
    Moves Γ (if type = .double then ⟨.cmpf, 0⟩ else ⟨.cmpi, 0⟩)
      (.value type :: .value type :: below) (.value .int :: below)
  | sign {op : Opcode} {below : List Cell} (h : op = .setlt ∨ op = .setgt) :
    Moves Γ ⟨op, 0⟩ (.value .int :: below) (.value .int :: below)
  | builtin {b : Builtin} {below : List Cell} :
    Moves Γ ⟨.callname, Int64.ofNat b.slot⟩ (given b.paramTypes ++ (rooms b.result ++ below))
      (values b.result ++ below)

/-- Code with its plan, where the types of what it names are known. -/
structure Script where
  env : Env
  code : List Instr
  plan : List Mark
  /-- The indices of the stores of return statements. -/
  stores : List Nat
  /-- A function may be called without the arguments that it takes. -/
  starving : Prop

namespace Script

/-- Where the function is before an instruction. -/
def station (σ : Script) (i : Nat) : Option Station :=
  (σ.plan[i]?).bind Mark.station

/-- The type of the literal that an instruction pushes. -/
def literal (σ : Script) (i : Nat) : Option Ty :=
  (σ.plan[i]?).bind Mark.literal

/-- The plan says how the machine goes on from an instruction that it comes to. -/
inductive Allows (σ : Script) (i : Nat) : Instr → Station → Prop
  | push {x : Int64} {type : Ty} {below : List Cell} (hliteral : σ.literal i = some type)
    (hnext : σ.station (i + 1) = some ⟨.value type :: below, false⟩) :
    Allows σ i ⟨.push, x⟩ ⟨below, false⟩
  | move {instr : Instr} {cells cells' : List Cell} (h : Moves σ.env instr cells cells')
    (hnext : σ.station (i + 1) = some ⟨cells', false⟩) : Allows σ i instr ⟨cells, false⟩
  | call {slot : Nat} {params : List Ty} {result : Ty} {below : List Cell} (hslot : 0 < slot)
    (h : σ.env.functions[slot]? = some ⟨params, result⟩)
    (hnext : σ.station (i + 1) = some ⟨values result ++ below, false⟩) :
    Allows σ i ⟨.call, Int64.ofNat slot⟩ ⟨given params ++ (rooms result ++ below), false⟩
  | starve {slot : Nat} {params : List Ty} {result : Ty} {cells : List Cell} (hs : σ.starving)
    (h : σ.env.functions[slot]? = some ⟨params, result⟩)
    (hfew : cells.length < result.slots + params.length) :
    Allows σ i ⟨.call, Int64.ofNat slot⟩ ⟨cells, false⟩
  | result (hresult : σ.env.result ≠ .void) (hstore : i ∈ σ.stores)
    (hnext : σ.station (i + 1) = some ⟨[], true⟩) :
    Allows σ i ⟨.store64, 0⟩ ⟨[.value σ.env.result, .address ⟨.param, 0⟩], false⟩
  | leave {leaving : Bool} (h : leaving = true ↔ σ.env.result ≠ .void) :
    Allows σ i ⟨.ret, 0⟩ ⟨[], leaving⟩
  | branch {target : Nat} (h : σ.station target = some ⟨[], false⟩) :
    Allows σ i (branch i target) ⟨[], false⟩
  | test {op : Opcode} {type : Ty} (hop : op = .brtrue ∨ op = .brfalse)
    (htype : type.isNumeric = true) (hnext : σ.station (i + 1) = some ⟨[], false⟩)
    (hskip : σ.station (i + 2) = some ⟨[], false⟩) : Allows σ i ⟨op, 1⟩ ⟨[.value type], false⟩

/-- The machine comes to an instruction without operands. -/
def Clear (σ : Script) (i : Nat) : Prop :=
  σ.station i = some ⟨[], false⟩

/-- The plan is kept by an instruction. -/
def SoundAt (σ : Script) (i : Nat) : Prop :=
  ∀ instr st, σ.code[i]? = some instr → σ.station i = some st → σ.Allows i instr st

/-- The plan is kept by every instruction from one index up to another. -/
def Covers (σ : Script) (p q : Nat) : Prop :=
  ∀ i, p ≤ i → i < q → σ.SoundAt i

/-- The plan is kept by every instruction, and the code starts without operands. -/
structure Sound (σ : Script) : Prop where
  start : σ.station 0 = some ⟨[], false⟩
  sound : ∀ i, σ.SoundAt i
  length : σ.plan.length ≤ σ.code.length + 1

/-- Some code and a plan for it stand at an index. -/
structure Lays (σ : Script) (code : List Instr) (plan : List Mark) (q : Nat) : Prop where
  code : Sits σ.code code q
  plan : Sits σ.plan plan q

variable {σ : Script} {p q r : Nat}

theorem Covers.zero : σ.Covers p p :=
  fun i h₁ h₂ => by omega

theorem Covers.append (h : σ.Covers p q) (k : σ.Covers q r) : σ.Covers p r := by
  intro i h₁ h₂
  by_cases hi : i < q
  · exact h i h₁ hi
  · exact k i (by omega) h₂

theorem station_of_sits {k : Mark} {rest : List Mark} (h : Sits σ.plan (k :: rest) p) :
    σ.station p = k.station := by
  rw [station, h.head]
  rfl

/-- Behind the code there is nothing to keep. -/
theorem Sound.of_covers (hstart : σ.Clear 0) (h : σ.Covers 0 σ.code.length)
    (hlength : σ.plan.length ≤ σ.code.length + 1) : σ.Sound :=
  ⟨hstart, fun i instr st hi hst =>
    h i (Nat.zero_le i) (List.getElem?_eq_some_iff.mp hi).1 instr st hi hst, hlength⟩

namespace Lays

variable {i : Instr} {k : Mark} {code others : List Instr} {plan marks : List Mark}

theorem left (h : σ.Lays (code ++ others) (plan ++ marks) q) : σ.Lays code plan q :=
  ⟨h.code.left, h.plan.left⟩

theorem right (h : σ.Lays (code ++ others) (plan ++ marks) q)
    (hlen : plan.length = code.length := by simp) : σ.Lays others marks (q + code.length) :=
  ⟨h.code.right, hlen ▸ h.plan.right⟩

theorem tail (h : σ.Lays (i :: code) (k :: plan) q) : σ.Lays code plan (q + 1) :=
  ⟨h.code.tail, h.plan.tail⟩

theorem station (h : σ.Lays code (k :: plan) q) : σ.station q = k.station :=
  station_of_sits h.plan

/-- An instruction with its mark is kept if the plan says how it goes on. -/
theorem one {st : Station} (h : σ.Lays (i :: code) (k :: plan) q) (hst : k.station = some st)
    (hallows : σ.Allows q i st) : σ.Covers q (q + 1) := by
  intro j h₁ h₂ instr st' hi hst'
  obtain rfl : j = q := by omega
  rw [h.code.head] at hi
  cases hi
  rw [h.station, hst] at hst'
  cases hst'
  exact hallows

/-- Nothing has to be kept where the machine never comes. -/
theorem dead (h : σ.Lays code (plan.map Mark.dead) q) : σ.Covers q (q + plan.length) := by
  intro i h₁ h₂ instr st hc hst
  obtain ⟨k, rfl⟩ : ∃ k, i = q + k := ⟨i - q, by omega⟩
  have hk : (plan.map Mark.dead)[k]? = some (plan.get ⟨k, by omega⟩).dead := by
    simp [List.getElem?_eq_getElem (show k < plan.length by omega)]
  have hmark := getElem?_of_prefix h.plan hk
  rw [List.getElem?_drop] at hmark
  rw [Script.station, hmark] at hst
  cases hst

end Lays

end Script

/-! ## Typed programs keep their plans -/

/-- What a plan for arguments leaves is what was below, with the arguments on top. -/
theorem given_cons (type : Ty) (types : List Ty) (below : List Cell) :
    given (type :: types) ++ below = given types ++ (.value type :: below) := by
  simp [given]

theorem Args.Typed.types_eq {as : Args} {types : List Ty} (h : as.Typed Γ types) :
    as.types = types := by
  match as, h with
  | .nil, h => exact h.symm
  | .cons e rest, ⟨others, heq, _, _, hrest⟩ => rw [Args.types, heq, Args.Typed.types_eq hrest]

theorem Expr.head_plan (e : Expr) (below : List Cell) :
    ∃ k rest, e.plan below = k :: rest ∧ k.station = some ⟨below, false⟩ := by
  match e with
  | .int _ | .double _ | .text _ | .load _ _ | .call _ _ => exact ⟨_, _, rfl, rfl⟩
  | .arith _ _ l _ | .negate _ l | .convert _ _ l =>
    obtain ⟨k, rest, hl, hk⟩ := Expr.head_plan l below
    exact ⟨k, _, by rw [Expr.plan, hl]; rfl, hk⟩

section

variable {σ : Script} {q : Nat} {code : List Instr} {below : List Cell} {plan : List Mark}

/-- An expression starts with what lies below it. -/
theorem Expr.opens {e : Expr} (h : σ.Lays code (e.plan below) q) :
    σ.station q = some ⟨below, false⟩ := by
  obtain ⟨k, rest, hplan, hk⟩ := e.head_plan below
  rw [hplan] at h
  rw [h.station, hk]

/-- So do arguments, if there are none as well. -/
theorem Args.opens {as : Args} (h : σ.Lays as.code (as.plan below) q)
    (hend : σ.station (q + as.code.length) = some ⟨given as.types ++ below, false⟩) :
    σ.station q = some ⟨below, false⟩ := by
  cases as with
  | nil => exact hend
  | cons e rest => exact Expr.opens h.left

/-- A call that is prepared leads behind it. -/
theorem Callee.allows {callee : Callee} {types : List Ty} (h : callee.Takes σ.env types)
    (hend : σ.station (q + 1) = some ⟨values callee.result ++ below, false⟩) :
    σ.Allows q callee.invoke ⟨given types ++ (rooms callee.result ++ below), false⟩ := by
  cases callee with
  | builtin b =>
    cases h
    exact .move .builtin hend
  | function slot result =>
    obtain ⟨hslot, hsig, -⟩ := h
    exact .call hslot hsig hend

mutual

/-- The code of an expression keeps its plan. -/
theorem Expr.covers {e : Expr} {below : List Cell} {q : Nat}
    (h : σ.Lays e.code (e.plan below) q) (he : e.Typed σ.env)
    (hend : σ.station (q + e.code.length) = some ⟨values e.type ++ below, false⟩) :
    σ.Covers q (q + e.code.length) := by
  match e, he with
  | .int _, _ | .double _, _ | .text _, _ =>
    exact h.one rfl (.push (by rw [Script.literal, h.plan.head]; rfl) hend)
  | .load place type, ⟨hplace, htype⟩ =>
    rw [Expr.type, values_eq (ne_void_of_isNumeric htype)] at hend
    exact (h.one rfl (.move .address h.tail.station)).append
      (h.tail.one rfl (.move (.load hplace) hend))
  | .arith op type l r, ⟨hl, hr, htl, htr, htype⟩ =>
    have hvalues := values_eq (ne_void_of_isNumeric htype)
    have hright := h.left.right
    have hop := h.right
    rw [Expr.type, hvalues] at hend
    simp only [Expr.code, List.length_append, ← Nat.add_assoc] at hop hend ⊢
    refine (Expr.covers h.left.left hl ?_).append ((Expr.covers hright hr ?_).append
      (hop.one rfl (.move (.arith htype) hend)))
    · rw [htl, hvalues]
      exact Expr.opens hright
    · rw [htr, hvalues]
      exact hop.station
  | .negate type e, ⟨he, hte, htype⟩ =>
    have hvalues := values_eq (ne_void_of_isNumeric htype)
    rw [Expr.type, hvalues] at hend
    rw [Expr.code, List.length_append, ← Nat.add_assoc] at hend ⊢
    refine (Expr.covers h.left he ?_).append (h.right.one rfl (.move (.negate htype) hend))
    rw [hte, hvalues]
    exact h.right.station
  | .convert source target e, ⟨he, hte, hsource, htarget⟩ =>
    have hs := values_eq (ne_void_of_isNumeric hsource)
    have hop := h.right
    rw [Expr.type, values_eq (ne_void_of_isNumeric htarget)] at hend
    rw [Expr.code, List.length_append, ← Nat.add_assoc] at hend ⊢
    -- there is an instruction only where the types differ
    have hconv : source = target ∧ source.conversion target = [] ∨
        ∃ i, source.conversion target = [i] := by
      cases source <;> cases target <;>
        simp [Ty.isNumeric, Ty.conversion] at hsource htarget ⊢
    obtain ⟨rfl, hnone⟩ | ⟨i, hi⟩ := hconv
    · rw [hnone] at hend ⊢
      refine Expr.covers h.left he ?_
      rw [hte, hs]
      exact hend
    · rw [hi] at hop hend ⊢
      refine (Expr.covers h.left he ?_).append (hop.one rfl (.move (.convert hi) hend))
      rw [hte, hs]
      exact hop.station
  | .call callee args, ⟨types, htakes, hargs⟩ =>
    have hinvoke := h.tail.right
    have hlen : q + (Expr.call callee args).code.length = q + 1 + args.code.length + 1 := by
      simp [Expr.code]
      omega
    rw [hlen] at hend ⊢
    refine (h.one rfl (.move .room (Args.opens h.tail.left hinvoke.station))).append
      ((Args.covers h.tail.left hargs hinvoke.station).append (hinvoke.one rfl ?_))
    rw [hargs.types_eq]
    exact callee.allows htakes hend

/-- The code of arguments keeps its plan. -/
theorem Args.covers {as : Args} {types : List Ty} {below : List Cell} {q : Nat}
    (h : σ.Lays as.code (as.plan below) q) (has : as.Typed σ.env types)
    (hend : σ.station (q + as.code.length) = some ⟨given as.types ++ below, false⟩) :
    σ.Covers q (q + as.code.length) := by
  match as, has with
  | .nil, _ => exact .zero
  | .cons e rest, ⟨others, _, he, hvoid, hrest⟩ =>
    rw [Args.code, List.length_append, ← Nat.add_assoc] at hend ⊢
    rw [Args.types, given_cons] at hend
    refine (Expr.covers h.left he ?_).append (Args.covers h.right hrest hend)
    rw [values_eq hvoid]
    exact Args.opens h.right hend

end

/-- The last instructions of a comparison keep their plan. -/
theorem covers_test {op : RelOp} (h : σ.Lays op.test (op.test.map fun _ => .here [.value .int]) q)
    (hfails : σ.Clear (q + op.test.length)) (hholds : σ.Clear (q + op.test.length + 1)) :
    σ.Covers q (q + op.test.length) := by
  cases op with
  | neq => exact h.one rfl (.test (.inl rfl) rfl hfails hholds)
  | eq => exact h.one rfl (.test (.inr rfl) rfl hfails hholds)
  | lt | gt | le | ge =>
    exact (h.one rfl (.move (.sign (by simp)) h.tail.station)).append
      (h.tail.one rfl (.test (by simp) rfl hfails hholds))

theorem Cond.head_plan (c : Cond) :
    ∃ k rest, c.plan = k :: rest ∧ k.station = some ⟨[], false⟩ := by
  cases c with
  | nonzero e | compare _ _ e _ =>
    obtain ⟨k, rest, he, hk⟩ := e.head_plan []
    exact ⟨k, _, by rw [Cond.plan, he]; rfl, hk⟩

/-- The code of a condition keeps its plan: behind it the machine goes on with the next instruction
or the one behind that. -/
theorem Cond.covers {c : Cond} (h : σ.Lays c.code c.plan q) (ht : c.Typed σ.env)
    (hfails : σ.Clear (q + c.size)) (hholds : σ.Clear (q + c.size + 1)) :
    σ.Covers q (q + c.size) := by
  match c, ht with
  | .nonzero e, ⟨he, htype⟩ =>
    have hsize : q + (Cond.nonzero e).size = q + e.code.length + 1 := by
      simp [Cond.size, Cond.code, Nat.add_assoc]
    rw [hsize] at hfails hholds ⊢
    refine (Expr.covers h.left he ?_).append
      (h.right.one rfl (.test (.inl rfl) htype hfails hholds))
    rw [values_eq (ne_void_of_isNumeric htype)]
    exact h.right.station
  | .compare op type l r, ⟨hl, hr, htl, htr, htype⟩ =>
    have hvalues := values_eq (ne_void_of_isNumeric htype)
    have hright := h.left.right
    have hop := h.right
    have hsize : q + (Cond.compare op type l r).size
        = q + l.code.length + r.code.length + 1 + op.test.length := by
      simp [Cond.size, Cond.code, RelOp.instrs]
      omega
    rw [hsize] at hfails hholds ⊢
    rw [List.length_append, ← Nat.add_assoc] at hop
    have htest : σ.station (q + l.code.length + r.code.length + 1)
        = some ⟨[.value .int], false⟩ := by
      obtain ⟨i, rest, htest⟩ : ∃ i rest, op.test = i :: rest := by cases op <;> exact ⟨_, _, rfl⟩
      have htail := hop.tail
      rw [htest] at htail
      exact htail.station
    refine (Expr.covers h.left.left hl ?_).append ((Expr.covers hright hr ?_).append
      ((hop.one rfl (.move (.compare htype) htest)).append (covers_test hop.tail hfails hholds)))
    · rw [htl, hvalues]
      exact Expr.opens hright
    · rw [htr, hvalues]
      exact hop.station

/-- The address of a place and a value for it are laid out by the plan. -/
theorem covers_prepare {p : Place} {e : Expr}
    (h : σ.Lays (p.address :: (e.code ++ code)) (.here [] :: (e.plan [.address p] ++ plan)) q)
    (he : e.Typed σ.env) (hvoid : e.type ≠ .void)
    (hend : σ.station (q + 1 + e.code.length) = some ⟨[.value e.type, .address p], false⟩) :
    σ.Covers q (q + 1 + e.code.length) := by
  refine (h.one rfl (.move .address (Expr.opens h.tail.left))).append
    (Expr.covers h.tail.left he ?_)
  rw [values_eq hvoid]
  exact hend

/-- The code of a call whose result is dropped keeps its plan. -/
theorem covers_callCode {callee : Callee} {args : Args} {types : List Ty}
    (h : σ.Lays (callCode callee args) (callPlan callee args) q) (htakes : callee.Takes σ.env types)
    (hargs : args.Typed σ.env types) (hend : σ.Clear (q + (callCode callee args).length)) :
    σ.Covers q (q + (callCode callee args).length) := by
  rw [callCode_eq] at h hend ⊢
  rw [List.length_append, ← Nat.add_assoc] at hend ⊢
  have hpop := h.right
  by_cases hvoid : callee.result = .void
  · rw [if_pos hvoid] at hend ⊢
    refine Expr.covers h.left ⟨types, htakes, hargs⟩ ?_
    rw [Expr.type, hvoid]
    exact hend
  · rw [if_neg hvoid, if_neg hvoid] at hpop
    rw [if_neg hvoid] at hend ⊢
    refine (Expr.covers h.left ⟨types, htakes, hargs⟩ ?_).append (hpop.one rfl (.move .pop hend))
    rw [Expr.type, values_eq hvoid]
    exact hpop.station

/-- The code of a return keeps its plan: the last store of a result leads to the return behind it.
-/
theorem covers_returnCode {e : Option Expr} {inLoop : Bool}
    (h : σ.Lays (returnCode e) (returnPlan e) q) (he : (Stmt.ret e).Typed σ.env inLoop)
    (hstores : ∀ i ∈ (Stmt.ret e).resultStores q, i ∈ σ.stores) :
    σ.Covers q (q + (returnCode e).length) := by
  match e, he with
  | none, hvoid =>
    have hvoid : σ.env.result = .void := hvoid
    exact h.one rfl (.leave (by simpa using hvoid))
  | some e, ⟨he, htype, hvoid⟩ =>
    have hall : σ.Lays (Place.address ⟨.param, 0⟩ :: (e.code ++ [⟨.store64, 0⟩, ⟨.ret, 0⟩]))
        (.here [] :: (e.plan [.address ⟨.param, 0⟩]
          ++ [Mark.here [.value e.type, .address ⟨.param, 0⟩], .leave])) q := by
      simpa [returnPlan, storePlan, returnCode, Place.store, Place.address] using h
    have hstore := hall.tail.right
    have hlen : q + (returnCode (some e)).length = q + 1 + e.code.length + 1 + 1 := by
      simp [returnCode]
      omega
    rw [hlen]
    refine (covers_prepare hall he (htype ▸ hvoid) hstore.station).append
      ((hstore.one rfl ?_).append (hstore.tail.one rfl (.leave (by simpa using hvoid))))
    rw [htype]
    exact .result hvoid (hstores _ (by simp [Stmt.resultStores])) hstore.tail.station

theorem Stmt.head_plan (s : Stmt) :
    s = .skip ∨ ∃ k rest, s.plan = k :: rest ∧ k.station = some ⟨[], false⟩ := by
  cases s with
  | skip => exact .inl rfl
  | assign | call | loop | brk | cont => exact .inr ⟨_, _, rfl, rfl⟩
  | ret e => cases e <;> exact .inr ⟨_, _, rfl, rfl⟩
  | ifThen c _ | ifElse c _ _ =>
    obtain ⟨k, rest, hc, hk⟩ := c.head_plan
    exact .inr ⟨k, _, by rw [Stmt.plan, hc]; rfl, hk⟩

/-- A block starts without operands, if its end is come to without operands or not at all. -/
theorem Block.opens {b : Block} {q : Nat} (hp : Sits σ.plan b.plan q)
    (hend : b.terminates = false → σ.Clear (q + b.size)) : σ.Clear q := by
  match b with
  | .nil => exact hend rfl
  | .cons s rest =>
    obtain rfl | ⟨k, marks, hs, hk⟩ := s.head_plan
    · refine Block.opens (b := rest) hp fun hrest => ?_
      simpa [Block.size, Stmt.size] using hend hrest
    · rw [Block.plan, hs] at hp
      exact (Script.station_of_sits hp).trans hk

/-- A branch behind a block leads to where it should, if the block does not always return. -/
theorem covers_branch_behind {b : Block} {q target : Nat}
    (h : σ.Lays (branch q target :: code) (deadIf b.terminates [.here []] ++ plan) q)
    (htarget : b.terminates = false → σ.Clear target) : σ.Covers q (q + 1) := by
  cases hb : b.terminates with
  | true =>
    rw [hb] at h
    have hdead : σ.Lays _ ([Mark.here []].map Mark.dead) q := ⟨h.code, h.plan.left⟩
    exact hdead.dead
  | false =>
    rw [hb] at h
    exact h.one rfl (.branch (htarget hb))

/-- The branch behind a block starts without operands if the block does not always return. -/
theorem clear_behind {b : Block} (h : σ.Lays code (deadIf b.terminates [.here []] ++ plan) q)
    (hb : b.terminates = false) : σ.Clear q := by
  rw [hb] at h
  exact h.station

mutual

/-- **The code of a statement keeps its plan.** -/
theorem Stmt.covers {s : Stmt} {start : Nat} {loop : Loop} {inLoop : Bool}
    (h : σ.Lays (s.code start loop) s.plan start) (hs : s.Typed σ.env inLoop)
    (hstores : ∀ i ∈ s.resultStores start, i ∈ σ.stores)
    (hend : s.terminates = false → σ.Clear (start + s.size))
    (hloop : inLoop = true → σ.Clear loop.test ∧ σ.Clear loop.exit) :
    σ.Covers start (start + s.size) := by
  match s, hs with
  | .skip, _ => exact .zero
  | .assign place e, ⟨he, hplace, htype⟩ =>
    have hstore := h.tail.right
    have hsize : start + (Stmt.assign place e).size = start + 1 + e.code.length + 1 := by
      simp [Stmt.size, Place.store]
      omega
    have hend := hend rfl
    rw [hsize] at hend ⊢
    exact (covers_prepare h he (ne_void_of_isNumeric htype) hstore.station).append
      (hstore.one rfl (.move (.store hplace) hend))
  | .call callee args, ⟨types, htakes, hargs⟩ =>
    exact covers_callCode h htakes hargs (hend rfl)
  | .ret e, he => exact covers_returnCode h he hstores
  | .ifThen c body, ⟨hcond, hbody⟩ =>
    have hskip := h.right c.length_plan
    have hend := hend rfl
    simp only [Stmt.size, ← Nat.add_assoc] at hend ⊢
    refine (Cond.covers h.left hcond hskip.station
      (Block.opens hskip.tail.plan fun _ => hend)).append
        ((hskip.one rfl (.branch hend)).append ?_)
    exact Block.covers hskip.tail hbody hstores (fun _ => hend) hloop
  | .ifElse c body alternative, ⟨hcond, hbody, halt⟩ =>
    have hskip := h.right c.length_plan
    have hover := hskip.tail.right (by rw [Block.length_plan, Block.length_code])
    rw [Block.length_code] at hover
    have hlast : σ.Lays _ alternative.plan _ := ⟨hover.code.tail, by simpa using hover.plan.right⟩
    have hclear (h : body.terminates = false ∨ alternative.terminates = false) :=
      hend (by rw [Stmt.terminates, Bool.and_eq_false_iff]; exact h)
    simp only [Stmt.size, ← Nat.add_assoc] at hclear ⊢
    have halternative := Block.opens hlast.plan fun h => hclear (.inr h)
    refine (Cond.covers h.left hcond hskip.station
      (Block.opens hskip.tail.left.plan fun h => clear_behind hover h)).append
        ((hskip.one rfl (.branch halternative)).append (.append ?_ (.append
          (covers_branch_behind hover fun h => hclear (.inl h)) ?_)))
    · exact Block.covers hskip.tail.left hbody
        (fun i hi => hstores i (List.mem_append_left _ hi)) (fun h => clear_behind hover h) hloop
    · exact Block.covers hlast halt (fun i hi => hstores i (List.mem_append_right _ hi))
        (fun h => hclear (.inr h)) hloop
  | .loop c body, ⟨hcond, hbody⟩ =>
    have hskip := h.tail.right c.length_plan
    have hback := hskip.tail.right (by rw [Block.length_plan, Block.length_code])
    rw [Block.length_code, ← List.append_nil (deadIf body.terminates [.here []])] at hback
    have hend := hend rfl
    simp only [Stmt.size, ← Nat.add_assoc] at hend ⊢
    have htest : σ.Clear (start + 1) := by
      obtain ⟨k, rest, hplan, hk⟩ := c.head_plan
      have hopens := h.tail.plan
      rw [hplan] at hopens
      exact (Script.station_of_sits hopens).trans hk
    refine (h.one rfl (.branch htest)).append ((Cond.covers h.tail.left hcond hskip.station
      (Block.opens hskip.tail.left.plan fun h => clear_behind hback h)).append
        ((hskip.one rfl (.branch hend)).append (.append ?_
          (covers_branch_behind hback fun _ => htest))))
    exact Block.covers hskip.tail.left hbody hstores
      (fun h => clear_behind hback h) fun _ => ⟨htest, hend⟩
  | .brk, hin => exact h.one rfl (.branch (hloop hin).2)
  | .cont, hin => exact h.one rfl (.branch (hloop hin).1)

/-- The code of a block keeps its plan. -/
theorem Block.covers {b : Block} {start : Nat} {loop : Loop} {inLoop : Bool}
    (h : σ.Lays (b.code start loop) b.plan start) (hb : b.Typed σ.env inLoop)
    (hstores : ∀ i ∈ b.resultStores start, i ∈ σ.stores)
    (hend : b.terminates = false → σ.Clear (start + b.size))
    (hloop : inLoop = true → σ.Clear loop.test ∧ σ.Clear loop.exit) :
    σ.Covers start (start + b.size) := by
  match b, hb with
  | .nil, _ => exact .zero
  | .cons s rest, ⟨hs, hrest⟩ =>
    have hnext := h.right (by rw [Stmt.length_plan, Stmt.length_code])
    rw [Stmt.length_code] at hnext
    have hfirst := Stmt.covers h.left hs fun i hi => hstores i (List.mem_append_left _ hi)
    rw [Block.size, ← Nat.add_assoc] at hend ⊢
    cases hterm : s.terminates with
    | true =>
      rw [hterm] at hnext
      have hdead := Script.Lays.dead hnext
      rw [Block.length_plan] at hdead
      exact (hfirst (by simp [hterm]) hloop).append hdead
    | false =>
      rw [hterm] at hnext
      have hend' (h : rest.terminates = false) :=
        hend (by rw [Block.terminates, hterm, h]; rfl)
      exact (hfirst (fun _ => Block.opens hnext.plan hend') hloop).append (Block.covers hnext hrest
        (fun i hi => hstores i (List.mem_append_right _ hi)) hend' hloop)

end

end

/-- A function with its plan. -/
def Fn.script (Γ : Env) (f : Fn) : Script :=
  ⟨Γ, f.code, f.plan, f.body.resultStores 0, False⟩

/-- **A typed function keeps its plan.** -/
theorem Fn.sound {f : Fn} (h : f.Typed Γ) : (f.script Γ).Sound := by
  have hall : (f.script Γ).Lays f.code f.plan 0 := ⟨List.prefix_refl _, List.prefix_refl _⟩
  have hlast := hall.right (by rw [Block.length_plan, Block.outerCode, Block.length_code])
  rw [Block.outerCode, Block.length_code] at hlast
  have hend : f.body.terminates = false → (f.script Γ).Clear (0 + f.body.size) := by
    intro hterm
    rw [if_pos (h.needsReturn hterm), if_pos (h.needsReturn hterm), hterm] at hlast
    exact hlast.station
  have hlength : (f.script Γ).code.length = 0 + f.body.size + (if f.needsReturn then 1 else 0) := by
    simp only [Fn.script, Fn.code, Block.outerCode, List.length_append, Block.length_code]
    split <;> simp
  refine .of_covers (Block.opens hall.left.plan hend) ?_ ?_
  · rw [hlength]
    refine (Block.covers hall.left h.body (fun i hi => hi) hend (by simp)).append ?_
    split
    · rename_i hneeds
      rw [if_pos hneeds, if_pos hneeds] at hlast
      cases hterm : f.body.terminates with
      | true =>
        rw [hterm] at hlast
        exact Script.Lays.dead hlast
      | false =>
        -- only a function without a result comes to the end of its body
        have hvoid : Γ.result = .void := by
          rw [← h.result]
          by_cases hvoid : f.type = .void
          · exact hvoid
          · rw [h.returns hvoid] at hterm
            cases hterm
        rw [hterm] at hlast
        exact hlast.one rfl (.leave (by simpa [Fn.script] using hvoid))
    · exact .zero
  · rw [hlength]
    simp only [Fn.script, Fn.plan, List.length_append, Block.length_plan]
    split <;> simp

/-- The machine never comes to the end of a body that always returns. -/
theorem Fn.lt_size_of_station {f : Fn} (hterm : f.body.terminates = true) {i : Nat} {st : Station}
    (h : (f.script Γ).station i = some st) : i < f.body.size := by
  by_cases hlt : i < f.body.size
  · exact hlt
  · obtain ⟨k, hk, hst⟩ := Option.bind_eq_some_iff.mp h
    simp only [Fn.script, Fn.plan] at hk
    rw [List.getElem?_append_right (by simpa using hlt), hterm] at hk
    split at hk
    · obtain rfl := List.mem_singleton.mp (List.mem_of_getElem? hk)
      cases hst
    · cases hk

/-- The main function takes arguments, which the entry function does not have. -/
def Program.Starves (p : Program) (Γ : Env) : Prop :=
  ∃ slot type params, p.main = some (slot, type) ∧ Γ.functions[slot]? = some ⟨params, type⟩ ∧
    params ≠ []

/-- The entry function with its plan. -/
def Program.entryScript (Γ : Env) (p : Program) : Script :=
  ⟨Γ, p.entryCode, p.entryPlan, [], p.Starves Γ⟩

theorem resultStores_initBlock (is : List Init) (start : Nat) :
    (initBlock is).resultStores start = [] := by
  induction is generalizing start with
  | nil => rfl
  | cons i is ih => exact ih _

/-- **The entry function keeps its plan.** -/
theorem Program.entry_sound {p : Program} (hinits : (initBlock p.inits).Typed Γ false)
    (hmain : ∀ slot type, p.main = some (slot, type) →
      0 < slot ∧ ∃ params, Γ.functions[slot]? = some ⟨params, type⟩) : (p.entryScript Γ).Sound := by
  have hall : (p.entryScript Γ).Lays ((initBlock p.inits).code 0 ⟨0, 0⟩ ++ mainCode p.main)
      ((initBlock p.inits).plan ++ mainPlan p.main) 0 :=
    ⟨by rw [code_initBlock]; exact List.prefix_refl _, List.prefix_refl _⟩
  have hlast := hall.right (by rw [Block.length_plan, Block.length_code])
  rw [Block.length_code] at hlast
  have hclear : (p.entryScript Γ).Clear (0 + (initBlock p.inits).size) := by
    cases hmain : p.main <;> rw [hmain] at hlast <;> exact hlast.station
  have hlength : (p.entryScript Γ).code.length
      = 0 + (initBlock p.inits).size + (mainCode p.main).length := by
    simp only [entryScript, entryCode, ← code_initBlock p.inits 0 ⟨0, 0⟩, List.length_append,
      Block.length_code, Nat.zero_add]
  refine .of_covers (Block.opens hall.left.plan fun _ => hclear) ?_ ?_
  · rw [hlength]
    refine (Block.covers hall.left hinits (by simp [resultStores_initBlock]) (fun _ => hclear)
      (by simp)).append ?_
    cases hm : p.main with
    | none => exact .zero
    | some pair =>
      obtain ⟨slot, type⟩ := pair
      rw [hm] at hlast
      obtain ⟨hslot, params, hsig⟩ := hmain slot type hm
      refine .append (hlast.one rfl (.move .room ?_)) (hlast.tail.one rfl ?_)
      · rw [List.append_nil]
        exact hlast.tail.station
      · by_cases hparams : params = []
        · subst hparams
          have hstart : rooms type = given [] ++ (rooms type ++ []) := by simp [given]
          rw [hstart]
          exact .call hslot hsig (by rw [List.append_nil]; exact hlast.tail.tail.station)
        · refine .starve ⟨slot, type, params, hm, hsig, hparams⟩ hsig ?_
          have := List.length_pos_iff.mpr hparams
          rw [length_rooms]
          omega
  · rw [hlength]
    simp only [entryScript, entryPlan, List.length_append, Block.length_plan]
    cases p.main <;> simp [mainPlan, mainCode]

end TinyC.Core
