import TinyC.Proofs.Machine.Follow
import TinyC.Proofs.Module.Compiled

/-!
# Where branches lead

The targets of branches are said here relative to the tree of a program. `Stmt.Spans` divides the
stretch of code between two indices among the parts of a statement, and says of each branch
between the parts where it leads: behind a condition to what runs when it fails, from the end of a
block over the alternative, from the end of a loop and from a `continue` to the condition of the
loop, and from a `break` to what stands behind the loop. The parts that are left, conditions apart,
have no branches at all, so none is forgotten (`covers_block`).

That an accepted program is laid out so (`spans_block`) follows the walk through its tree, with the
indices that the branches of the enclosing loop lead to.
-/

namespace TinyC

open Core (Loop)
open Machine (Sits)
open Typing (Context State)
open Typing.Walk (Yields Passes)

/-! ## Branches and code without them -/

/-- The branch at an index leads to another one. Its operand counts from the instruction behind
it. -/
def Targets (code : List Instr) (i t : Nat) : Prop :=
  ∃ o, code[i]? = some ⟨.br, o⟩ ∧ Int64.ofNat (i + 1) + o = Int64.ofNat t ∧
    (code.length < 2 ^ 63 → (i : Int) + 1 + o.toInt = t)

/-- None of the instructions is a branch. -/
def Unbranched (is : List Instr) : Prop :=
  ∀ i ∈ is, i.op.isBranch = false

/-- What is asked of the instruction at an index: a branch leads to an index of the code or to its
end, and a conditional one skips a branch that stands behind it. -/
structure Orderly (code : List Instr) (i : Nat) : Prop where
  leads : ∀ o, code[i]? = some ⟨.br, o⟩ → ∃ t, t ≤ code.length ∧ Targets code i t
  skips : ∀ op o, code[i]? = some ⟨op, o⟩ → op = .brtrue ∨ op = .brfalse →
    o = 1 ∧ ∃ o', code[i + 1]? = some ⟨.br, o'⟩

/-- Between two indices stands code without branches. -/
structure Straight (code : List Instr) (a b : Nat) (is : List Instr) : Prop where
  sits : Sits code is a
  stop : b = a + is.length
  unbranched : Unbranched is

/-- Between two indices stands the code of a condition. -/
structure Tests (code : List Instr) (a b : Nat) (c : Core.Cond) : Prop where
  sits : Sits code c.code a
  stop : b = a + c.size

section

variable {code is js : List Instr} {a b i t : Nat}

@[simp] theorem unbranched_nil : Unbranched [] :=
  nofun

@[simp] theorem unbranched_cons {x : Instr} :
    Unbranched (x :: is) ↔ x.op.isBranch = false ∧ Unbranched is :=
  List.forall_mem_cons

@[simp] theorem unbranched_append : Unbranched (is ++ js) ↔ Unbranched is ∧ Unbranched js :=
  List.forall_mem_append

/-- A branch that is laid out to lead to an index of the code leads there. -/
theorem targets_branch (h : code[i]? = some (Core.branch i t)) (ht : t ≤ code.length) :
    Targets code i t := by
  refine ⟨_, h, ?_, fun hlong => ?_⟩
  · rw [branchOffset, ← Int64.ofInt_eq_ofNat, ← Int64.ofInt_eq_ofNat, ← Int64.ofInt_add]
    congr 1
    omega
  · have hi := (List.getElem?_eq_some_iff.mp h).1
    rw [branchOffset, Int64.toInt_ofInt_of_le (by omega) (by omega)]
    omega

theorem Targets.orderly (h : Targets code i t) (ht : t ≤ code.length) : Orderly code i := by
  refine ⟨fun _ _ => ⟨t, ht, h⟩, fun op o ho hop => ?_⟩
  obtain ⟨_, hi, _⟩ := h
  rw [hi] at ho
  cases ho
  obtain hop | hop := hop <;> cases hop

/-- Where no branch stands, nothing is asked. -/
theorem orderly_of_unbranched (h : ∀ x, code[i]? = some x → x.op.isBranch = false) :
    Orderly code i := by
  refine ⟨fun o ho => ?_, fun op o ho hop => ?_⟩
  · cases h _ ho
  · obtain rfl | rfl := hop <;> cases h _ ho

/-- An instruction of a stretch of code, from inside the stretch. -/
theorem Machine.Sits.getElem? (h : Sits code is a) (ha : a ≤ i) (hi : i < a + is.length) :
    code[i]? = is[i - a]? := by
  obtain ⟨rest, hrest⟩ := h
  have hget := congrArg (·[i - a]?) hrest
  simp only [List.getElem?_drop, List.getElem?_append_left (show i - a < is.length by omega)]
    at hget
  rw [hget, Nat.add_sub_cancel' ha]

theorem Straight.orderly (h : Straight code a b is) (ha : a ≤ i) (hb : i < b) : Orderly code i := by
  refine orderly_of_unbranched fun x hx => h.unbranched x ?_
  rw [h.sits.getElem? ha (h.stop ▸ hb)] at hx
  exact List.mem_of_getElem? hx

end

namespace Core

theorem Computing.unbranched {is : List Instr} (h : Computing is) : Unbranched is := by
  intro i hi
  have := h i hi
  simp only [computes, Bool.and_eq_true, Bool.not_eq_true'] at this
  exact this.1.1

/-- The code of a statement that has no parts. -/
def Stmt.straight? : Stmt → Option (List Instr)
  | .skip => some []
  | .assign place e => some (place.store e)
  | .call callee args => some (callCode callee args)
  | .ret e => some (returnCode e)
  | _ => none

theorem Stmt.code_of_straight? {s : Stmt} {is : List Instr} (h : s.straight? = some is)
    (start : Nat) (loop : Loop) : s.code start loop = is := by
  cases s with
  | skip | assign _ _ | call _ _ | ret _ =>
    cases h
    rfl
  | ifThen _ _ | ifElse _ _ _ | loop _ _ | brk | cont => cases h

theorem Place.unbranched_store (p : Place) (e : Expr) : Unbranched (p.store e) := by
  have haddress : Unbranched [p.address] :=
    Computing.unbranched (List.forall_mem_singleton.mpr (computes_address p))
  exact unbranched_append.mpr ⟨haddress,
    unbranched_append.mpr ⟨e.computing.unbranched, by simp [Opcode.isBranch]⟩⟩

theorem Stmt.unbranched_of_straight? {s : Stmt} {is : List Instr} (h : s.straight? = some is) :
    Unbranched is := by
  cases s with
  | skip =>
    cases h
    exact unbranched_nil
  | assign place e =>
    cases h
    exact place.unbranched_store e
  | call callee as =>
    cases h
    have hpop : Unbranched (if callee.result = .void then [] else [⟨.pop, 0⟩]) := by
      split <;> simp [Opcode.isBranch]
    rw [callCode_eq]
    exact unbranched_append.mpr ⟨(Expr.call callee as).computing.unbranched, hpop⟩
  | ret e =>
    cases h
    cases e with
    | none => simp [returnCode, Opcode.isBranch]
    | some e => simp [returnCode, e.computing.unbranched, Opcode.isBranch]
  | ifThen _ _ | ifElse _ _ _ | loop _ _ | brk | cont => cases h

/-- The entry function has no branches. -/
theorem Program.unbranched_entryCode (p : Program) : Unbranched p.entryCode := by
  intro i hi
  obtain h | h := p.computes_entryCode i hi
  · exact Computing.unbranched (List.forall_mem_singleton.mpr h) i List.mem_cons_self
  · rw [h]
    rfl

end Core

theorem straight_stmt {s : Core.Stmt} {is code : List Instr} (his : s.straight? = some is) {a : Nat}
    {l : Loop} (h : Sits code (s.code a l) a) : Straight code a (a + s.size) is := by
  have hcode := Core.Stmt.code_of_straight? his a l
  rw [← s.length_code a l]
  rw [hcode] at h ⊢
  exact ⟨h, rfl, Core.Stmt.unbranched_of_straight? his⟩

/-- Behind the body of a function stands at most a return. -/
theorem straight_end (fn : Core.Fn) :
    Sits fn.code (fn.body.code 0 ⟨0, 0⟩) 0 ∧ ∃ rest, (rest = [] ∨ rest = [⟨.ret, 0⟩]) ∧
      Straight fn.code (0 + fn.body.size) fn.code.length rest := by
  have hsits : Sits fn.code (fn.body.code 0 ⟨0, 0⟩ ++ _) 0 := List.prefix_refl _
  have hbehind := hsits.right
  rw [Core.Block.length_code] at hbehind
  refine ⟨hsits.left, _, ?_, hbehind, ?_, ?_⟩
  · split
    · exact .inr rfl
    · exact .inl rfl
  · rw [Core.Fn.code, List.length_append, Core.Block.outerCode, Core.Block.length_code,
      Nat.zero_add]
  · split <;> simp [Opcode.isBranch]

/-- Behind a condition stands a branch, which the condition skips. -/
theorem Tests.orderly {code : List Instr} {a b i t : Nat} {c : Core.Cond} (h : Tests code a b c)
    (hbehind : Targets code b t) (ha : a ≤ i) (hb : i < b) : Orderly code i := by
  obtain ⟨front, op, hop, heq, hfront⟩ := c.code_eq
  have hsits := h.sits
  rw [heq] at hsits
  have hstop : b = a + front.length + 1 := by
    rw [h.stop, Core.Cond.size, heq, List.length_append]
    rfl
  by_cases hi : i < a + front.length
  · exact Straight.orderly ⟨hsits.left, rfl, hfront.unbranched⟩ ha hi
  · have hlast : code[i]? = some ⟨op, 1⟩ := by
      rw [show i = a + front.length by omega]
      exact hsits.right.head
    refine ⟨fun o ho => ?_, fun op' o ho _ => ?_⟩
    · rw [hlast] at ho
      cases ho
      obtain hop | hop := hop <;> cases hop
    · rw [hlast] at ho
      cases ho
      obtain ⟨o', hbr, _⟩ := hbehind
      exact ⟨rfl, o', by rw [← hbr, show i + 1 = b by omega]⟩

namespace Syntax

/-! ## The parts of statements -/

/-- The condition is what the analysis makes of an expression or comparison. -/
def Relational.Becomes (r : Relational) (c : Core.Cond) : Prop :=
  ∃ ctx s s', Yields (Typing.condition ctx r) s c s'

/-- A statement without parts stands between two indices: the analysis makes of it a statement
whose code has no branches. -/
def Stmt.Fills (code : List Instr) (a b : Nat) (d : Stmt) (s : Core.Stmt) : Prop :=
  (∃ ctx t t', Yields (Typing.stmt ctx d) t s t') ∧
    ∃ is, s.straight? = some is ∧ Straight code a b is

mutual

/-- A statement stands between two indices of code, and the branches between its parts lead where
they should. Around it is a loop, if any, to whose condition or end other branches lead. -/
def Stmt.Spans (code : List Instr) (loop : Option Loop) (a b : Nat) :
    Stmt → Core.Stmt → Prop
  | .branch i, s => i.Spans code loop a b s
  | .loop _ cond body, s =>
    ∃ c t k m, s = .loop c t ∧ cond.Becomes c ∧
      Targets code a (a + 1) ∧ Tests code (a + 1) k c ∧ Targets code k b ∧
      body.Spans code (some ⟨a + 1, b⟩) (k + 1) m t ∧ Targets code m (a + 1) ∧ b = m + 1
  | .brk _ _, s => s = .brk ∧ b = a + 1 ∧ ∃ l, loop = some l ∧ Targets code a l.exit
  | .cont _ _, s => s = .cont ∧ b = a + 1 ∧ ∃ l, loop = some l ∧ Targets code a l.test
  | .empty, s => Stmt.Fills code a b .empty s
  | .declare d, s => Stmt.Fills code a b (.declare d) s
  | .ret ord value cl, s => Stmt.Fills code a b (.ret ord value cl) s
  | .call f as cl, s => Stmt.Fills code a b (.call f as cl) s
  | .assign x e cl, s => Stmt.Fills code a b (.assign x e cl) s
  | .unfinished _ _, _ => False
  | .gap _, _ => False

/-- The condition ends at index `k`, where a branch to the alternative stands, and the block ends
at index `m`. -/
def If.Spans (code : List Instr) (loop : Option Loop) (a b : Nat) : If → Core.Stmt → Prop
  | .mk cond body alternative, s =>
    ∃ c t o k m, s = .choice c t o ∧ cond.Becomes c ∧ Tests code a k c ∧
      body.Spans code loop (k + 1) m t ∧ alternative.Spans code loop k m b o

/-- The branch behind the condition leads to the alternative, or behind the whole if there is none;
the block before an alternative ends in a branch behind the whole. -/
def Else.Spans (code : List Instr) (loop : Option Loop) (k m b : Nat) :
    Else → Option Core.Block → Prop
  | .none, o => o = none ∧ b = m ∧ Targets code k b
  | .block body, o =>
    ∃ t, o = some t ∧ Targets code k (m + 1) ∧ Targets code m b ∧
      body.Spans code loop (m + 1) b t
  | .branch i, o =>
    ∃ s, o = some (.cons s .nil) ∧ Targets code k (m + 1) ∧ Targets code m b ∧
      i.Spans code loop (m + 1) b s
  | .gap _, _ => False

/-- The statements of a block stand one behind the other. -/
def Block.Spans (code : List Instr) (loop : Option Loop) (a b : Nat) :
    Block → Core.Block → Prop
  | .stmts ss, t => ss.Spans code loop a b t
  | .gap _, _ => False

/-- Statements stand one behind the other. -/
def Stmts.Spans (code : List Instr) (loop : Option Loop) (a b : Nat) :
    Stmts → Core.Block → Prop
  | .done _, t => t = .nil ∧ b = a
  | .more d rest, t =>
    ∃ s u m, t = .cons s u ∧ d.Spans code loop a m s ∧ rest.Spans code loop m b u

end

/-! ## No branch is forgotten -/

/-- All branches of a stretch of code are in order. -/
def Covers (code : List Instr) (a b : Nat) : Prop :=
  ∀ i, a ≤ i → i < b → Orderly code i

section

variable {code : List Instr} {a b m : Nat}

theorem Covers.append (h : Covers code a m) (h' : Covers code m b) : Covers code a b := by
  intro i ha hb
  by_cases hi : i < m
  · exact h i ha hi
  · exact h' i (by omega) hb

theorem covers_jump {t : Nat} (h : code[a]? = some (Core.branch a t)) (ht : t ≤ code.length) :
    Covers code a (a + 1) := by
  intro i ha hb
  obtain rfl : i = a := by omega
  exact (targets_branch h ht).orderly ht

/-- A condition and the branch behind it. -/
theorem covers_tests {c : Core.Cond} {t : Nat} {is : List Instr}
    (h : Sits code (c.code ++ Core.branch (a + c.size) t :: is) a) (ht : t ≤ code.length) :
    Covers code a (a + c.size + 1) := by
  have hbranch := h.right.head
  exact Covers.append
    (fun i ha hb => Tests.orderly ⟨h.left, rfl⟩ (targets_branch hbranch ht) ha hb)
    (covers_jump hbranch ht)

mutual

theorem covers_stmt (s : Core.Stmt) {a : Nat} {l : Loop}
    (hl : l.test ≤ code.length ∧ l.exit ≤ code.length) (h : Sits code (s.code a l) a)
    (hle : a + s.size ≤ code.length) : Covers code a (a + s.size) := by
  match s with
  | .skip | .assign _ _ | .call _ _ | .ret _ => exact fun i => (straight_stmt rfl h).orderly
  | .ifThen c b =>
    simp only [Core.Stmt.size, ← Nat.add_assoc] at hle ⊢
    exact (covers_tests h hle).append (covers_block b hl h.right.tail hle)
  | .ifElse c b o =>
    simp only [Core.Stmt.size, ← Nat.add_assoc] at hle ⊢
    have hblock : Sits code _ (a + c.size + 1) := h.right.tail
    have hover := hblock.right
    rw [b.length_code] at hover
    exact ((covers_tests h (by omega)).append (covers_block b hl hblock.left (by omega))).append
      ((covers_jump hover.head hle).append (covers_block o hl hover.tail hle))
  | .loop c b =>
    simp only [Core.Stmt.size, ← Nat.add_assoc] at hle ⊢
    have hblock : Sits code _ (a + 1 + c.size + 1) := h.tail.right.tail
    have hback := hblock.right.head
    rw [b.length_code] at hback
    exact ((covers_jump h.head (by omega)).append (covers_tests h.tail hle)).append
      ((covers_block b ⟨by dsimp only; omega, hle⟩ hblock.left (by omega)).append
        (covers_jump hback (by omega)))
  | .brk => exact covers_jump h.head hl.2
  | .cont => exact covers_jump h.head hl.1

theorem covers_block (b : Core.Block) {a : Nat} {l : Loop}
    (hl : l.test ≤ code.length ∧ l.exit ≤ code.length) (h : Sits code (b.code a l) a)
    (hle : a + b.size ≤ code.length) : Covers code a (a + b.size) := by
  match b with
  | .nil => exact fun i ha hb => absurd ha (Nat.not_le_of_lt hb)
  | .cons s rest =>
    simp only [Core.Block.size, ← Nat.add_assoc] at hle ⊢
    have hrest := h.right
    rw [s.length_code] at hrest
    exact (covers_stmt s hl h.left (by omega)).append (covers_block rest hl hrest hle)

end

end

/-! ## Accepted statements -/

/-- Where the walk is inside a loop, that loop is the one around the code, and its branches stay
within the code. -/
def Around (code : List Instr) (c : Context) (l : Loop) (loop : Option Loop) : Prop :=
  c.inLoop = true → loop = some l ∧ l.test ≤ code.length ∧ l.exit ≤ code.length

/-- Where the branch behind the condition of an `if` leads, if the block ends at an index. -/
def elseTarget (m : Nat) : Option Core.Block → Nat
  | none => m
  | some _ => m + 1

/-- The index behind an `if` whose block ends at an index. -/
def elseStop (m : Nat) : Option Core.Block → Nat
  | none => m
  | some t => m + 1 + t.size

/-- The code behind the block of an `if`. -/
def elseCode (m : Nat) (l : Loop) : Option Core.Block → List Instr
  | none => []
  | some t => Core.branch m (m + 1 + t.size) :: t.code (m + 1) l

theorem code_choice (c : Core.Cond) (t : Core.Block) (o : Option Core.Block) (a : Nat) (l : Loop) :
    (Core.Stmt.choice c t o).code a l =
      c.code ++ Core.branch (a + c.size) (elseTarget (a + c.size + 1 + t.size) o) ::
        (t.code (a + c.size + 1) l ++ elseCode (a + c.size + 1 + t.size) l o) := by
  cases o with
  | none => exact congrArg (c.code ++ _ :: ·) (List.append_nil _).symm
  | some e => rfl

theorem size_choice (c : Core.Cond) (t : Core.Block) (o : Option Core.Block) (a : Nat) :
    a + (Core.Stmt.choice c t o).size = elseStop (a + c.size + 1 + t.size) o := by
  cases o with
  | none =>
    simp only [Core.Stmt.choice, Core.Stmt.size, elseStop]
    omega
  | some e =>
    simp only [Core.Stmt.choice, Core.Stmt.size, elseStop]
    omega

section

variable {code : List Instr}

theorem fills_stmt {c : Context} {d : Stmt} {s s' : State} {t : Core.Stmt} {is : List Instr}
    (h : Passes (Typing.stmt c d) s t s') (his : t.straight? = some is) {a : Nat} {l : Loop}
    (hsits : Sits code (t.code a l) a) : Stmt.Fills code a (a + t.size) d t := by
  obtain ⟨u, u', _, h, _⟩ := h
  exact ⟨⟨c, u, u', h⟩, is, his, straight_stmt his hsits⟩

mutual

/-- An accepted statement spans the code that is laid out for it. -/
theorem spans_stmt (c : Context) (d : Stmt) {s s' : State} {t : Core.Stmt}
    (h : Passes (Typing.stmt c d) s t s') {a : Nat} {l : Loop} {loop : Option Loop}
    (hl : Around code c l loop) (hsits : Sits code (t.code a l) a)
    (hle : a + t.size ≤ code.length) : d.Spans code loop a (a + t.size) t := by
  match d with
  | .empty =>
    obtain ⟨rfl, _⟩ := h.pure
    exact fills_stmt h rfl hsits
  | .declare d =>
    obtain ⟨⟨slot, init⟩, _, _, hrest⟩ := h.bind
    cases init <;> obtain ⟨rfl, _⟩ := hrest.pure <;> exact fills_stmt h rfl hsits
  | .branch i => exact spans_branch c i h hl hsits hle
  | .loop ord cond body =>
    obtain ⟨tc, _, ⟨s₁, s₂, _, hcond, _⟩, h⟩ := h.look.emit.bind
    obtain ⟨b, _, hbody, h⟩ := h.emit.bind
    obtain ⟨rfl, _⟩ := h.emit.pure
    have hstop : a + (Core.Stmt.loop tc b).size = a + 1 + tc.size + 1 + b.size + 1 := by
      simp only [Core.Stmt.size]
      omega
    rw [hstop] at hle ⊢
    have htest : Sits code _ (a + 1) := hsits.tail
    have hinside : Sits code _ (a + 1 + tc.size + 1) := htest.right.tail
    have hback := hinside.right.head
    rw [b.length_code] at hback
    have haround : Around code { c with inLoop := true } _
        (some ⟨a + 1, a + 1 + tc.size + 1 + b.size + 1⟩) :=
      fun _ => ⟨rfl, by dsimp only; omega, hle⟩
    have hblock := spans_block _ body hbody haround hinside.left (by omega)
    exact ⟨tc, b, a + 1 + tc.size, a + 1 + tc.size + 1 + b.size, rfl, ⟨c, s₁, s₂, hcond⟩,
      targets_branch hsits.head (by omega), ⟨htest.left, rfl⟩,
      targets_branch htest.right.head hle, hblock, targets_branch hback (by omega), rfl⟩
  | .ret ord value cl =>
    obtain ⟨_, _, rfl, _⟩ | ⟨_, _, _, _, _, _, rfl⟩ :=
      Typing.passes_returned (Typing.passes_closed h)
    · exact fills_stmt h rfl hsits
    · exact fills_stmt h rfl hsits
  | .brk ord cl =>
    obtain ⟨hin, rfl, _⟩ := Typing.passes_jump h
    obtain ⟨hloop, _, hexit⟩ := hl hin
    exact ⟨rfl, rfl, l, hloop, targets_branch hsits.head hexit⟩
  | .cont ord cl =>
    obtain ⟨hin, rfl, _⟩ := Typing.passes_jump h
    obtain ⟨hloop, htest, _⟩ := hl hin
    exact ⟨rfl, rfl, l, hloop, targets_branch hsits.head htest⟩
  | .call f as cl =>
    obtain ⟨_, _, _, _, _, _, rfl⟩ := Typing.passes_dropped (Typing.passes_closed h)
    exact fills_stmt h rfl hsits
  | .assign x e cl =>
    obtain ⟨_, _, _, _, _, _, _, _, _, rfl, _⟩ :=
      Typing.passes_assignment (Typing.passes_closed h)
    exact fills_stmt h rfl hsits
  | .unfinished _ _ => exact absurd h Passes.not_stuck
  | .gap _ => exact absurd h Passes.not_stuck

theorem spans_branch (c : Context) (i : If) {s s' : State} {t : Core.Stmt}
    (h : Passes (Typing.branch c i) s t s') {a : Nat} {l : Loop} {loop : Option Loop}
    (hl : Around code c l loop) (hsits : Sits code (t.code a l) a)
    (hle : a + t.size ≤ code.length) : i.Spans code loop a (a + t.size) t := by
  match i with
  | .mk cond body alternative =>
    obtain ⟨tc, _, ⟨s₁, s₂, _, hcond, _⟩, h⟩ := h.bind
    obtain ⟨b, _, hbody, h⟩ := h.emit.bind
    obtain ⟨o, _, halt, h⟩ := h.look.bind
    obtain rfl : t = Core.Stmt.choice tc b o := by
      cases o <;> exact h.pure.1
    rw [code_choice] at hsits
    rw [size_choice] at hle ⊢
    have hinside : Sits code _ (a + tc.size + 1) := hsits.right.tail
    have hbehind := hinside.right
    rw [b.length_code] at hbehind
    have hmb : a + tc.size + 1 + b.size ≤ elseStop (a + tc.size + 1 + b.size) o := by
      cases o with
      | none => exact Nat.le_refl _
      | some e =>
        simp only [elseStop]
        omega
    exact ⟨tc, b, o, a + tc.size, a + tc.size + 1 + b.size, rfl, ⟨c, s₁, s₂, hcond⟩,
      ⟨hsits.left, rfl⟩, spans_block c body hbody hl hinside.left (by omega),
      spans_otherwise c alternative halt hl hsits.right.head hbehind hle⟩

/-- What stands behind a block, and the branch that leads there from index `k`. -/
theorem spans_otherwise (c : Context) (e : Else) {s s' : State} {o : Option Core.Block}
    (h : Passes (Typing.otherwise c e) s o s') {k m : Nat} {l : Loop}
    {loop : Option Loop} (hl : Around code c l loop)
    (hk : code[k]? = some (Core.branch k (elseTarget m o))) (hsits : Sits code (elseCode m l o) m)
    (hle : elseStop m o ≤ code.length) : e.Spans code loop k m (elseStop m o) o := by
  match e with
  | .none =>
    obtain ⟨rfl, _⟩ := h.pure
    exact ⟨rfl, rfl, targets_branch hk hle⟩
  | .block body =>
    obtain ⟨t, _, hblock, h⟩ := h.emit.bind
    obtain ⟨rfl, _⟩ := h.pure
    have hm : m + 1 ≤ code.length := Nat.le_trans (Nat.le_add_right _ _) hle
    exact ⟨t, rfl, targets_branch hk hm, targets_branch hsits.head hle,
      spans_block c body hblock hl hsits.tail hle⟩
  | .branch i =>
    obtain ⟨t, _, hbranch, h⟩ := h.emit.bind
    obtain ⟨rfl, _⟩ := h.pure
    have hm : m + 1 ≤ code.length := Nat.le_trans (Nat.le_add_right _ _) hle
    have hin : Sits code (t.code (m + 1) l ++ []) (m + 1) := hsits.tail
    exact ⟨t, rfl, targets_branch hk hm, targets_branch hsits.head hle,
      spans_branch c i hbranch hl hin.left hle⟩
  | .gap g => exact absurd h.emit Passes.not_stuck

theorem spans_block (c : Context) (body : Block) {s s' : State} {t : Core.Block}
    (h : Passes (Typing.block c body) s t s') {a : Nat} {l : Loop}
    {loop : Option Loop} (hl : Around code c l loop) (hsits : Sits code (t.code a l) a)
    (hle : a + t.size ≤ code.length) : body.Spans code loop a (a + t.size) t := by
  match body with
  | .stmts ss => exact spans_stmts c ss h hl hsits hle
  | .gap _ => exact absurd h Passes.not_stuck

theorem spans_stmts (c : Context) (ss : Stmts) {s s' : State} {t : Core.Block}
    (h : Passes (Typing.stmts c ss) s t s') {a : Nat} {l : Loop} {loop : Option Loop}
    (hl : Around code c l loop) (hsits : Sits code (t.code a l) a)
    (hle : a + t.size ≤ code.length) : ss.Spans code loop a (a + t.size) t := by
  match ss with
  | .done ord =>
    obtain ⟨rfl, _⟩ := h.look.pure
    exact ⟨rfl, rfl⟩
  | .more d rest =>
    obtain ⟨t', _, hstmt, h⟩ := h.bind
    obtain ⟨ts, _, hrest, h⟩ := h.bind
    obtain ⟨rfl, _⟩ := h.pure
    have hsize : a + (Core.Block.cons t' ts).size = a + t'.size + ts.size :=
      (Nat.add_assoc _ _ _).symm
    have hright := hsits.right
    rw [t'.length_code] at hright
    rw [hsize] at hle ⊢
    exact ⟨t', ts, a + t'.size, rfl, spans_stmt c d hstmt hl hsits.left (by omega),
      spans_stmts c rest hrest hl hright hle⟩

end

end

/-! ## Functions and programs -/

/-- A function of the tree and its code: the body comes first, and behind it at most a return. -/
def Fn.Spans (code : List Instr) (d : Fn) (fn : Core.Fn) : Prop :=
  ∃ x ps body m rest, d = .mk x ps (.ok (fn.type, body)) ∧ body.Spans code none 0 m fn.body ∧
    (rest = [] ∨ rest = [⟨.ret, 0⟩]) ∧ Straight code m code.length rest

/-- An accepted function spans its code. -/
theorem spans_function {d : Fn} {slot : Nat} {fn : Core.Fn} {s : State}
    (h : Typing.Walked d slot fn s) : d.Spans fn.code fn := by
  obtain ⟨u, x, ps, f, t, body, t', u', rfl, _, hw, _, _, _⟩ := h
  obtain ⟨hsits, rest, hrest, hend⟩ := straight_end fn
  have hle := hend.stop
  exact ⟨x, ps, body, 0 + fn.body.size, rest, rfl, spans_block _ body (.of_yields hw.body)
    (l := ⟨0, 0⟩) (fun hin => nomatch hin) hsits (by omega), hrest, hend⟩

/-- All branches of a function are in order. -/
theorem orderly_function (fn : Core.Fn) (i : Nat) : Orderly fn.code i := by
  obtain ⟨hsits, rest, -, hend⟩ := straight_end fn
  have hle := hend.stop
  by_cases hi : i < fn.code.length
  · exact (covers_block fn.body ⟨Nat.zero_le _, Nat.zero_le _⟩ hsits (by omega)).append
      (fun i => hend.orderly) i (Nat.zero_le i) hi
  · exact orderly_of_unbranched fun x hx => absurd (List.getElem?_eq_some_iff.mp hx).1 hi

end Syntax

/-- The branches of an accepted program, relative to its tree: the entry function has none, each
function of the tree spans the code in its row, and all branches are in order. -/
structure BranchLayout (p : Syntax.Program) (a : Analysis) : Prop where
  entry : ∃ f : Function Position, a.tables.functions.rows[0]? = some f ∧ Unbranched f.code
  orderly : ∀ f ∈ a.tables.functions.rows, ∀ i, Orderly f.code i
  rows : a.tables.functions.rows.length = p.functions.length + 1
  functions : ∀ k (d : Syntax.Fn), p.functions[k]? = some d →
    ∃ (f : Function Position) (fn : Core.Fn), a.tables.functions.rows[k + 1]? = some f ∧
      a.core.functions[k]? = some fn ∧ d.Spans f.code fn

/-- **Branches lead where the tree says.** In an accepted program the entry function has no
branches. In the code of every function a conditional branch skips just the branch behind it, and
all others stay within the code. They lead where the tree of the program has them lead: around
blocks and alternatives, to the condition of the innermost loop or behind it, whether or not they
can be reached. -/
theorem branches_follow_the_tree {p : Program} {a : Analysis} (ha : p.analyse.result = .ok a) :
    BranchLayout p.source.tree a := by
  obtain ⟨s, hwalk, _⟩ := walk_of_analyse (Program.outcome_source ha)
  have hp := Typing.yields_program p.source.plain_tree hwalk
  have hd := Program.describes ha
  have hcodes : a.tables.functions.rows.map Function.code = a.core.codes := hd.codes
  have hcode (k : Nat) (f : Function Position)
      (hf : a.tables.functions.rows[k + 1]? = some f) :
      ∃ fn, a.core.functions[k]? = some fn ∧ fn.code = f.code := by
    have hcode := hd.code_eq hf
    rwa [Core.Program.codes, List.getElem?_cons_succ, List.getElem?_map,
      Option.map_eq_some_iff] at hcode
  have hentry (f : Function Position) (hf : a.tables.functions.rows[0]? = some f) :
      Unbranched f.code := by
    have hcode : a.core.entryCode = f.code := Option.some.inj (hd.code_eq hf)
    rw [← hcode]
    exact a.core.unbranched_entryCode
  have hrows : a.tables.functions.rows.length = p.source.tree.functions.length + 1 := by
    have hlength := congrArg List.length hcodes
    rw [List.length_map, Core.Program.codes, List.length_cons, List.length_map,
      hp.functions_length] at hlength
    exact hlength
  refine ⟨?_, fun f hf i => ?_, hrows, fun k d hk => ?_⟩
  · obtain ⟨f, hf, _⟩ := hd.entry
    exact ⟨f, hf, hentry f hf⟩
  · obtain ⟨k, hk⟩ := List.mem_iff_getElem?.mp hf
    cases k with
    | zero =>
      exact orderly_of_unbranched fun x hx => hentry f hk x (List.mem_of_getElem? hx)
    | succ k =>
      obtain ⟨fn, _, hcode⟩ := hcode k f hk
      rw [← hcode]
      exact Syntax.orderly_function fn i
  · have hlt : k + 1 < a.tables.functions.rows.length := by
      have := (List.getElem?_eq_some_iff.mp hk).1
      omega
    have hf := List.getElem?_eq_getElem hlt
    obtain ⟨fn, hfn, hcode⟩ := hcode k _ hf
    obtain ⟨d', hd', hwalked⟩ := hp.functions k fn hfn
    rw [hk] at hd'
    cases hd'
    exact ⟨_, fn, hf, hfn, hcode ▸ Syntax.spans_function hwalked⟩

/-- A program with two loops, one in the other, that are left and continued from inside a condition
with two alternatives, and with statements that are never reached. -/
def leaping : Program where
  name := "leaping"
  bytes := Text.bytesOf
    ("fn main() -> void \x7b let i: int = 9; while i > 0 \x7b i = i - 1; while 1 \x7b "
      ++ "if i == 4 \x7b break; continue; \x7d else if i < 4 \x7b i = i - 2; break; \x7d "
      ++ "else \x7b continue; \x7d \x7d if i == 7 \x7b continue; \x7d break; \x7d \x7d")

theorem branches_follow_the_tree_leaping :
    ∃ a, leaping.analyse.result = .ok a ∧ BranchLayout leaping.source.tree a := by
  obtain ⟨a, ha, -⟩ := exists_ok (r := leaping.analyse.result) (p := fun _ => true)
    (by
      rw [leaping, Text.bytesOf_concat, Text.bytesOf_concat, Text.bytesOf_ofList]
      decide +kernel)
  exact ⟨a, ha, branches_follow_the_tree ha⟩

end TinyC
