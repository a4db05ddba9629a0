import TinyC.Core.Layout
import TinyC.Proofs.Core.Typed

/-!
# The structured semantics of statements

Statements run in order, a condition picks a block, a loop tests its condition before every
iteration, `break` and `continue` concern the innermost loop, and `return` leaves the function.
That is all this semantics says. What single statements and conditions do is left to `Leaves`:
they are performed in some state, and told the index at which their code starts, so that the same
semantics can be read over the machine itself and over the values of variables.

Loops and calls need not end. The semantics is given so many rounds for each of them, and is cut
with `Cut.timeout` where they do not suffice.
-/

namespace TinyC.Core

/-- Why statements do not come to an end: something went wrong, or the rounds did not suffice. -/
inductive Cut (τ : Type) where
  | trap (t : τ)
  | timeout
  deriving Repr, DecidableEq

/-- An action on a state that can be cut. -/
abbrev Act (τ σ : Type) := ExceptT (Cut τ) (StateM σ)

namespace Act

variable {τ σ α β : Type}

/-- What comes of an action that starts from a state, and the state in which it ends. -/
def outcome (w : Act τ σ α) (x : σ) : Except (Cut τ) α × σ :=
  w.run.run x

theorem outcome_bind (w : Act τ σ α) (f : α → Act τ σ β) (x : σ) :
    outcome (w >>= f) x =
      match w.outcome x with
      | (.ok a, y) => (f a).outcome y
      | (.error c, y) => (.error c, y) := by
  show (match w.outcome x with
    | (r, y) => (ExceptT.bindCont f r : σ → Except (Cut τ) β × σ) y) = _
  rcases w.outcome x with ⟨c | a, y⟩ <;> rfl

@[simp] theorem outcome_get (x : σ) : outcome (get : Act τ σ σ) x = (.ok x, x) :=
  rfl

@[simp] theorem outcome_set (x y : σ) : outcome (set y : Act τ σ PUnit) x = (.ok ⟨⟩, y) :=
  rfl

end Act

/-- How a statement ends. -/
inductive Signal where
  | normal
  | brk
  | cont
  | ret
  deriving Repr, DecidableEq

/-- What the end of its body makes of a loop: it goes on, or it ends in turn. -/
def Signal.afterBody : Signal → Option Signal
  | normal => none
  | cont => none
  | brk => some normal
  | ret => some ret

/-- What single statements and conditions do. Each is told the index at which its code starts. -/
structure Leaves (τ σ : Type) where
  /-- A statement is about to run. -/
  mark : Nat → Act τ σ Unit
  /-- An assignment, a call or a return computes. -/
  perform : Nat → Stmt → Act τ σ Unit
  /-- A condition is tested. -/
  test : Nat → Cond → Act τ σ Bool

section

variable {τ σ : Type}

/-- Repeats a round until it gives a signal. -/
def iterate (round : Act τ σ (Option Signal)) : Nat → Act τ σ Signal
  | 0 => throw .timeout
  | k + 1 => do
    match ← round with
    | some signal => pure signal
    | none => iterate round k

mutual

/-- Runs a statement whose code starts at an index. -/
def Stmt.exec (L : Leaves τ σ) (rounds start : Nat) : Stmt → Act τ σ Signal
  | .skip => pure .normal
  | .assign place e => do
    L.mark start
    L.perform start (.assign place e)
    pure .normal
  | .call callee args => do
    L.mark start
    L.perform start (.call callee args)
    pure .normal
  | .ret e => do
    L.mark start
    L.perform start (.ret e)
    pure .ret
  | .ifThen c body => do
    L.mark start
    if ← L.test start c then body.exec L rounds (start + c.size + 1)
    else pure .normal
  | .ifElse c body alternative => do
    L.mark start
    if ← L.test start c then body.exec L rounds (start + c.size + 1)
    else alternative.exec L rounds (start + c.size + 1 + body.size + 1)
  | .loop c body => do
    L.mark start
    iterate (do
      if ← L.test (start + 1) c then
        let signal ← body.exec L rounds (start + 1 + c.size + 1)
        pure signal.afterBody
      else pure (some .normal)) rounds
  | .brk => do
    L.mark start
    pure .brk
  | .cont => do
    L.mark start
    pure .cont

/-- Runs the statements of a block whose code starts at an index. -/
def Block.exec (L : Leaves τ σ) (rounds start : Nat) : Block → Act τ σ Signal
  | .nil => pure .normal
  | .cons s rest => do
    match ← s.exec L rounds start with
    | .normal => rest.exec L rounds (start + s.size)
    | signal => pure signal

end

end

mutual

/-- The indices at which the code of a statement and of those inside it starts. A statement
without code has none. -/
def Stmt.starts (start : Nat) : Stmt → List Nat
  | .skip => []
  | .ifThen c body => start :: body.starts (start + c.size + 1)
  | .ifElse c body alternative =>
    start :: (body.starts (start + c.size + 1)
      ++ alternative.starts (start + c.size + 1 + body.size + 1))
  | .loop c body => start :: body.starts (start + 1 + c.size + 1)
  | _ => [start]

/-- The indices at which the code of the statements of a block starts. -/
def Block.starts (start : Nat) : Block → List Nat
  | .nil => []
  | .cons s rest => s.starts start ++ rest.starts (start + s.size)

end

/-- A condition has code. -/
theorem Cond.size_pos (c : Cond) : 0 < c.size := by
  cases c with
  | nonzero e => simp [Cond.size, Cond.code]
  | compare op type l r =>
    simp only [Cond.size, Cond.code, RelOp.instrs, List.length_append, List.length_cons]
    omega

mutual

/-- The code of a statement starts inside its code. -/
theorem Stmt.starts_bounds {start q : Nat} {s : Stmt} (h : q ∈ s.starts start) :
    start ≤ q ∧ q < start + s.size := by
  cases s with
  | skip => cases h
  | ifThen c body =>
    obtain rfl | h := List.mem_cons.mp h
    · simp only [Stmt.size]
      omega
    · have := Block.starts_bounds h
      simp only [Stmt.size]
      omega
  | ifElse c body alternative =>
    obtain rfl | h := List.mem_cons.mp h
    · simp only [Stmt.size]
      omega
    · simp only [Stmt.size]
      obtain h | h := List.mem_append.mp h
      · have := Block.starts_bounds h
        omega
      · have := Block.starts_bounds h
        omega
  | loop c body =>
    obtain rfl | h := List.mem_cons.mp h
    · simp only [Stmt.size]
      omega
    · have := Block.starts_bounds h
      simp only [Stmt.size]
      omega
  | ret e =>
    obtain rfl := List.mem_singleton.mp h
    cases e <;> simp [Stmt.size, returnCode]
  | _ =>
    obtain rfl := List.mem_singleton.mp h
    simp [Stmt.size, Place.store, callCode]

/-- The code of the statements of a block starts inside the code of the block. -/
theorem Block.starts_bounds {start q : Nat} {b : Block} (h : q ∈ b.starts start) :
    start ≤ q ∧ q < start + b.size := by
  cases b with
  | nil => cases h
  | cons s rest =>
    simp only [Block.size]
    obtain h | h := List.mem_append.mp h
    · have := Stmt.starts_bounds h
      omega
    · have := Block.starts_bounds h
      omega

end

/-! ## How statements end -/

/-- If an action gives a result, it is one of these. -/
def Act.Gives {τ σ α : Type} (w : Act τ σ α) (R : α → Prop) : Prop :=
  ∀ x a y, w.outcome x = (.ok a, y) → R a

section

variable {τ σ α β : Type}

theorem Act.gives_pure {a : α} {R : α → Prop} (h : R a) : (pure a : Act τ σ α).Gives R := by
  intro x b y hb
  cases hb
  exact h

theorem Act.Gives.bind {w : Act τ σ α} {f : α → Act τ σ β} {P : α → Prop} {R : β → Prop}
    (hw : w.Gives P) (hf : ∀ a, P a → (f a).Gives R) : (w >>= f).Gives R := by
  intro x b z hb
  rw [Act.outcome_bind] at hb
  rcases hr : w.outcome x with ⟨c | a, y⟩
  · rw [hr] at hb
    cases hb
  · rw [hr] at hb
    exact hf a (hw x a y hr) y b z hb

/-- Whatever the first action gives. -/
theorem Act.gives_bind {w : Act τ σ α} {f : α → Act τ σ β} {R : β → Prop}
    (hf : ∀ a, (f a).Gives R) : (w >>= f).Gives R :=
  Act.Gives.bind (P := fun _ => True) (fun _ _ _ _ => trivial) fun a _ => hf a

theorem gives_iterate {round : Act τ σ (Option Signal)} {R : Signal → Prop}
    (h : round.Gives fun o => ∀ signal, o = some signal → R signal) (k : Nat) :
    (iterate round k).Gives R := by
  induction k with
  | zero => exact fun x a y h => by cases h
  | succ k ih =>
    refine Act.Gives.bind h ?_
    rintro (_ | signal) ho
    · exact ih
    · exact Act.gives_pure (ho signal rfl)

/-- How a statement outside any loop ends, if every way through it returns or not. -/
def Signal.Fits (terminates : Bool) (signal : Signal) : Prop :=
  signal = .ret ∨ signal = .normal ∧ terminates = false

variable {Γ : Env} {L : Leaves τ σ} {rounds : Nat}

mutual

/-- A statement outside any loop comes to its end or returns; it returns if it has to. -/
theorem Stmt.gives_exec {s : Stmt} {start : Nat} (hs : s.Typed Γ false) :
    (s.exec L rounds start).Gives (Signal.Fits s.terminates) := by
  match s, hs with
  | .skip, _ => exact Act.gives_pure (.inr ⟨rfl, rfl⟩)
  | .assign _ _, _ =>
    exact Act.gives_bind fun _ => Act.gives_bind fun _ => Act.gives_pure (.inr ⟨rfl, rfl⟩)
  | .call _ _, _ =>
    exact Act.gives_bind fun _ => Act.gives_bind fun _ => Act.gives_pure (.inr ⟨rfl, rfl⟩)
  | .ret _, _ => exact Act.gives_bind fun _ => Act.gives_bind fun _ => Act.gives_pure (.inl rfl)
  | .ifThen c body, hs =>
    refine Act.gives_bind fun _ => Act.gives_bind fun b => ?_
    cases b with
    | false => exact Act.gives_pure (.inr ⟨rfl, rfl⟩)
    | true =>
      intro x a y h
      obtain ha | ⟨ha, _⟩ := Block.gives_exec hs.2 x a y h
      · exact .inl ha
      · exact .inr ⟨ha, rfl⟩
  | .ifElse c body alternative, hs =>
    refine Act.gives_bind fun _ => Act.gives_bind fun b => ?_
    cases b with
    | false =>
      intro x a y h
      obtain ha | ⟨ha, hb⟩ := Block.gives_exec hs.2.2 x a y h
      · exact .inl ha
      · exact .inr ⟨ha, by rw [Stmt.terminates, hb, Bool.and_false]⟩
    | true =>
      intro x a y h
      obtain ha | ⟨ha, hb⟩ := Block.gives_exec hs.2.1 x a y h
      · exact .inl ha
      · exact .inr ⟨ha, by rw [Stmt.terminates, hb, Bool.false_and]⟩
  | .loop c body, _ =>
    refine Act.gives_bind fun _ => gives_iterate ?_ rounds
    refine Act.gives_bind fun b => ?_
    cases b with
    | false => exact Act.gives_pure fun signal h => .inr ⟨(Option.some.inj h).symm, rfl⟩
    | true =>
      refine Act.gives_bind fun signal => Act.gives_pure fun signal' h => ?_
      cases signal with
      | normal | cont => cases h
      | brk => exact .inr ⟨(Option.some.inj h).symm, rfl⟩
      | ret => exact .inl (Option.some.inj h).symm
  | .brk, hs => cases hs
  | .cont, hs => cases hs

/-- A block outside any loop comes to its end or returns; it returns if it has to. -/
theorem Block.gives_exec {b : Block} {start : Nat} (hb : b.Typed Γ false) :
    (b.exec L rounds start).Gives (Signal.Fits b.terminates) := by
  match b, hb with
  | .nil, _ => exact Act.gives_pure (.inr ⟨rfl, rfl⟩)
  | .cons s rest, hb =>
    refine Act.Gives.bind (Stmt.gives_exec hb.1) ?_
    rintro _ (rfl | ⟨rfl, hs⟩)
    · exact Act.gives_pure (.inl rfl)
    · intro x a y h
      rw [Block.terminates, hs, Bool.false_or]
      exact Block.gives_exec hb.2 x a y h

end

end

end TinyC.Core
