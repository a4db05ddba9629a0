import TinyC.Proofs.Text.Utf8
import TinyC.Typing.Program

/-!
# Walks taken apart

A walk that comes to its end has passed through every one of its steps. `Walk.Yields` says that a
walk leads from one state to another and what it gives; the lemmas below take a walk apart into
its steps, so that what is said of an analysis can follow its text. A walk that was stopped
yields nothing.
-/

namespace TinyC

/-- A result that passes a test is there. -/
theorem exists_ok {ε α : Type} {r : Except ε α} {p : α → Bool} (h : r.toOption.any p = true) :
    ∃ a, r = .ok a ∧ p a = true := by
  cases r with
  | error e => cases h
  | ok a => exact ⟨a, rfl, h⟩

namespace Typing

open Syntax (Gap Close)

/-- The state with an instruction entered in its journal. -/
def State.noting (s : State) (i : Instr) : State :=
  { s with emitted := s.emitted + 1, journal := ⟨s.seen, i, s.emitted⟩ :: s.journal }

/-- The state in which a token has been looked at. -/
def State.looking (s : State) (ord : Nat) : State :=
  { s with seen := max s.seen (ord + 1) }

namespace Walk

variable {α β : Type} {s s' : State} {a : Unit}

/-- What comes of a walk that starts from a state, and the state in which it ends. -/
def outcome (w : Walk α) (s : State) : Except Fault α × State :=
  w.run.run s

/-- The walk goes from one state to another and gives a result. -/
def Yields (w : Walk α) (s : State) (a : α) (s' : State) : Prop :=
  w.outcome s = (.ok a, s')

theorem outcome_bind (w : Walk α) (f : α → Walk β) (s : State) :
    outcome (w >>= f) s =
      match w.outcome s with
      | (.ok a, t) => (f a).outcome t
      | (.error e, t) => (.error e, t) := by
  show (match w.outcome s with
    | (r, t) => (ExceptT.bindCont f r : State → Except Fault β × State) t) = _
  rcases w.outcome s with ⟨e | a, t⟩ <;> rfl

theorem yields_pure {a b : α} : Yields (pure a) s b s' ↔ b = a ∧ s' = s := by
  show ((Except.ok a, s) : Except Fault α × State) = (.ok b, s') ↔ _
  simp [eq_comm]

/-- Two walks in a row yield what the second yields from where the first ended. -/
theorem yields_bind {w : Walk α} {f : α → Walk β} {b : β} :
    Yields (w >>= f) s b s' ↔ ∃ a t, Yields w s a t ∧ Yields (f a) t b s' := by
  unfold Yields
  rw [outcome_bind]
  constructor
  · intro h
    rcases hw : w.outcome s with ⟨e | a, t⟩
    · rw [hw] at h
      simp at h
    · rw [hw] at h
      exact ⟨a, t, rfl, h⟩
  · rintro ⟨a, t, hw, h⟩
    rw [hw]
    exact h

theorem yields_get {a s s' : State} : Yields (get : Walk State) s a s' ↔ a = s ∧ s' = s := by
  show ((Except.ok s, s) : Except Fault State × State) = (.ok a, s') ↔ _
  simp [eq_comm]

theorem yields_modify {g : State → State} : Yields (modify g : Walk Unit) s a s' ↔ s' = g s := by
  show ((Except.ok (), g s) : Except Fault Unit × State) = (.ok a, s') ↔ _
  simp [eq_comm]

theorem not_yields_reject {cause : Cause} {ord : Nat} {a : α} :
    ¬ Yields (reject cause ord) s a s' := by
  show ¬ ((Except.error _, s) : Except Fault α × State) = (.ok a, s')
  simp

theorem yields_look {ord : Nat} : Yields (look ord) s a s' ↔ s' = s.looking ord :=
  yields_modify

theorem yields_emit {i : Instr} : Yields (emit i) s a s' ↔ s' = s.noting i :=
  yields_modify

theorem yields_emitAll {is : List Instr} :
    Yields (emitAll is) s a s' ↔ s' = is.foldl State.noting s := by
  induction is generalizing s with
  | nil => exact yields_pure.trans (by simp)
  | cons i is ih => exact yields_bind.trans (by simp [yields_emit, ← ih, emitAll])

theorem not_yields_stuck {g : Gap} {a : α} : ¬ Yields (stuck g) s a s' := by
  simp [stuck, yields_bind, not_yields_reject]

/-- A phrase is closed only by a token, never by a gap. -/
theorem yields_close {c : Close} :
    Yields (close c) s a s' ↔ ∃ ord, c = .word ord ∧ s' = s.looking ord := by
  cases c with
  | word ord => simp [close, yields_look]
  | gap g => simp [close, not_yields_stuck]

end Walk

end Typing

end TinyC
