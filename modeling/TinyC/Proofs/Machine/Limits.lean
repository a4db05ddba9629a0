import TinyC.Proofs.Machine.Delivery

/-!
# Runs with different limits

A limit on the number of instructions does nothing but cut a run short. Two machines that differ in
their limits take the same steps until the smaller limit is used up (`step_allowing`). So either the
run with the smaller limit comes to its end, and then the other one is the same run, or it is cut at
a state that the other one passes as well (`advance_allowing`). The bytes written up to there are
the front of those written in the end (`written_advance`).

The number of instructions is counted apart from the machine's own count of steps
(`Machine.executed`), which is one more than that when a run has been cut.
-/

namespace TinyC

/-- The setup with another limit. -/
def Setup.allowing (s : Setup) (n : Nat) : Setup :=
  { s with maxSteps := n }

/-- A machine that can be set up with a limit can be set up with a larger one. -/
theorem Setup.make_allowing {name : String} {module : Module} {o : Options} {n k : Int} {s : Setup}
    (h : Setup.make name module { o with maxSteps := n } = .ok s) (hle : n ≤ k) :
    s = s.allowing n.toNat ∧ s.cancelled = o.cancelled ∧
      Setup.make name module { o with maxSteps := k } = .ok (s.allowing k.toNat) := by
  unfold Setup.make at h ⊢
  dsimp only at h ⊢
  split at h
  · cases h
  rename_i hpos
  rw [if_neg (by omega)]
  split at h
  · cases h
  rename_i hregistered
  rw [if_neg hregistered]
  split at h
  · cases h
  rename_i hentry
  rw [if_neg hentry]
  split at h
  · cases h
  · cases h
    exact ⟨rfl, rfl, rfl⟩

/-! ## The bytes that an open output was given -/

namespace Output

/-- All bytes that were written, delivered or not. -/
def written (o : Output) : List UInt8 :=
  o.delivered.toList ++ o.buffer.toList

theorem Open.accounts {o : Output} (h : o.Open) : o.Accounts o.written where
  inOrder := List.prefix_append _ _
  within l hl := by rw [h.limit] at hl; cases hl
  waiting _ := rfl
  refused hfailed := by rw [h.failed] at hfailed; cases hfailed

theorem ledger_open : Ledger fun _ o => o.Open :=
  ⟨fun h b => (blind_put b _ h).1, fun h cs => (blind_write cs _ h).1,
    fun h => (blind_flush _ h).1⟩

/-- In the end everything that was written is delivered. -/
theorem Open.delivered_flush {o : Output} (h : o.Open) : o.flush.delivered.toList = o.written := by
  rw [h.flush, written]
  exact Array.toList_append

end Output

namespace Machine

/-! ## No instruction is stopped by the limit -/

/-- Instructions fail for many reasons, but not because of the limit. -/
theorem execute_ne_stepLimit (s : Setup) (f : Frame) (i : Instr) (m : Machine) (n : Nat) :
    (m.execute s f i).2 ≠ some (.stepLimit n) := by
  by_cases hcall : i.op = .call
  · simp only [execute, hcall]
    obtain ⟨t, heq, hordinary⟩ | ⟨r, -, args, -, -, heq⟩ := callRoutine_cases s f i m
    · rw [heq]
      intro h
      cases h
      exact hordinary
    · simp [heq, done]
  by_cases hret : i.op = .ret
  · simp only [execute, hret, leave]
    split <;> simp [done, trapped]
  · exact (works_execute hcall hret).ordinary _

/-! ## Steps under a limit -/

/-- The run ended because its limit was used up. -/
def Exhausted (s : Setup) (stop : Option Stop) : Prop :=
  ∃ e, stop = some (.error e) ∧ e.trap = .stepLimit s.maxSteps

/-- There is an instruction to be carried out next. -/
def waits (m : Machine) : Bool :=
  match m.frames with
  | [] => false
  | f :: _ => (f.routine.code[f.pc]?).isSome

/-- The next step carries out an instruction: there is one, and the run is not cut short. -/
def carriesOut (s : Setup) (m : Machine) : Bool :=
  m.waits && decide (m.steps < s.maxSteps) &&
    !(s.cancelled && decide ((m.steps + 1) % cancelPeriod = 0))

/-- The number of instructions that a run carries out in its first steps. -/
def executed (s : Setup) : Nat → Machine → Nat
  | 0, _ => 0
  | n + 1, m =>
    (m.carriesOut s).toNat +
      match m.step s with
      | .next m => executed s n m
      | .halt _ _ => 0

section

variable {s : Setup} {m m₁ : Machine} {n k : Nat}

/-- A step within the limit is one that nothing cuts. Where there is an instruction, it is carried
out. -/
theorem step_within (hcancel : s.cancelled = false) (h : m.waits = true → m.steps < s.maxSteps) :
    m.step s = m.act s ∧ m.carriesOut s = m.waits := by
  unfold carriesOut waits step act at *
  cases hframes : m.frames with
  | nil => exact ⟨rfl, rfl⟩
  | cons f outer =>
    rw [hframes] at h
    cases hcode : f.routine.code[f.pc]? with
    | none => exact ⟨by simp only [hcode], by simp [hcode]⟩
    | some i =>
      have hlt : m.steps < s.maxSteps := h (by simp [hcode])
      refine ⟨?_, by simp [hcode, hlt, hcancel]⟩
      simp only [hcode]
      rw [if_neg (by omega), if_neg (by simp [hcancel])]

/-- A step within the limit does not end a run because of it. -/
theorem not_exhausted_step {stop : Option Stop} (hcancel : s.cancelled = false)
    (h : m.waits = true → m.steps < s.maxSteps) (hstep : m.step s = .halt m₁ stop) :
    ¬Exhausted s stop := by
  rintro ⟨e, rfl, he⟩
  have hstepped := stepped s m
  rw [hstep] at hstepped
  generalize hstop : some (Stop.error e) = stop at hstepped
  cases hstepped with
  | ended _ _ hend =>
    subst hstop
    obtain hend | ⟨e', hend, htrap⟩ := hend
    · cases hend
    · cases hend
      rw [he] at htrap
      cases htrap
  | cut hframes hcode hcuts =>
    have hlt := h (by simp [waits, hframes, hcode])
    obtain hlimit | ⟨hcancelled, -⟩ := hcuts
    · omega
    · rw [hcancel] at hcancelled
      cases hcancelled
  | @fails f outer i _ _ t _ _ _ hexec =>
    cases t with
    | stepLimit n => exact execute_ne_stepLimit s f.next i _ n (congrArg Prod.snd hexec)
    | memorySize => cases hstop
    | _ =>
      cases hstop
      cases he

/-- A step for which the limit leaves no room ends the run there. -/
theorem step_beyond (hwaits : m.waits = true) (h : s.maxSteps ≤ m.steps) :
    m.carriesOut s = false ∧ ∃ y stop, m.step s = .halt y stop ∧ Exhausted s stop ∧
      y.output = m.output := by
  unfold carriesOut waits step at *
  cases hframes : m.frames with
  | nil => simp [hframes] at hwaits
  | cons f outer =>
    simp only [hframes] at hwaits ⊢
    obtain ⟨i, hcode⟩ := Option.isSome_iff_exists.mp hwaits
    refine ⟨by simp [Nat.not_lt.mpr h], ?_⟩
    simp only [hcode]
    rw [if_pos (by omega)]
    exact ⟨_, _, rfl, ⟨_, rfl, rfl⟩, rfl⟩

/-- Only an instruction leads on to another state. -/
theorem waits_of_act (h : m.act s = .next m₁) : m.waits = true := by
  obtain ⟨f, outer, i, hframes, hcode, -⟩ := act_eq_next h
  simp [waits, hframes, hcode]

/-- Where there is room under both limits, machines take the same step. -/
theorem step_allowing (hcancel : s.cancelled = false) (hle : n ≤ k)
    (h : m.waits = true → m.steps < n) :
    m.step (s.allowing n) = m.act s ∧ m.step (s.allowing k) = m.act s ∧
      m.carriesOut (s.allowing n) = m.waits := by
  obtain ⟨hn, hcarries⟩ := step_within (s := s.allowing n) hcancel h
  have hk := (step_within (s := s.allowing k) hcancel fun hwaits =>
    Nat.lt_of_lt_of_le (h hwaits) hle).1
  exact ⟨hn, hk, hcarries⟩

/-! ## Runs under a limit -/

/-- A run with the smaller limit is the same as one with the larger, or it is cut at a state of the
larger one after as many instructions as it may carry out. -/
theorem advance_allowing (hcancel : s.cancelled = false) (hle : n ≤ k) {a b : Nat}
    (ha : a + m.steps = n + 1) (hb : b + m.steps = k + 1) (hm : m.steps ≤ n) :
    (¬Exhausted (s.allowing n) (advance (s.allowing n) a m).2 ∧
        advance (s.allowing n) a m = advance (s.allowing k) b m) ∨
      (Exhausted (s.allowing n) (advance (s.allowing n) a m).2 ∧
        executed (s.allowing n) a m + m.steps = n ∧
        ∃ d c, (advance (s.allowing n) a m).1.output = (advance (s.allowing k) d m).1.output ∧
          advance (s.allowing k) b m =
            advance (s.allowing k) c (advance (s.allowing k) d m).1) := by
  induction a generalizing b m with
  | zero => omega
  | succ a ih =>
    obtain ⟨b, rfl⟩ : ∃ j, b = j + 1 := ⟨b - 1, by omega⟩
    by_cases hroom : m.waits = true → m.steps < n
    · obtain ⟨hn, hk, hcarries⟩ := step_allowing hcancel hle hroom
      cases hact : m.act s with
      | halt y stop =>
        refine .inl ?_
        simp only [advance, hn, hk, hact]
        exact ⟨not_exhausted_step (s := s.allowing n) hcancel hroom (hn.trans hact), trivial⟩
      | next m₁ =>
        have hwaits := waits_of_act hact
        have hsteps := steps_act hact
        have hlt := hroom hwaits
        have hcount : executed (s.allowing n) (a + 1) m = 1 + executed (s.allowing n) a m₁ := by
          simp [executed, hcarries, hwaits, hn, hact]
        have hadvn : advance (s.allowing n) (a + 1) m = advance (s.allowing n) a m₁ := by
          simp [advance, hn, hact]
        have hadvk (j : Nat) : advance (s.allowing k) (j + 1) m = advance (s.allowing k) j m₁ := by
          simp [advance, hk, hact]
        rw [hadvn, hadvk, hcount]
        obtain hsame | ⟨hend, hexec, d, c, hout, hrest⟩ :=
          ih (m := m₁) (b := b) (by omega) (by omega) (by omega)
        · exact .inl hsame
        · refine .inr ⟨hend, by omega, d + 1, c, ?_, ?_⟩
          · rw [hadvk]
            exact hout
          · rw [hadvk]
            exact hrest
    · obtain ⟨hwaits, hge⟩ := Classical.not_imp.mp hroom
      obtain ⟨hcarries, y, stop, hhalt, hend, hout⟩ :=
        step_beyond (s := s.allowing n) hwaits (Nat.not_lt.mp hge)
      have hadv : advance (s.allowing n) (a + 1) m = (y, stop) := by simp [advance, hhalt]
      have hcount : executed (s.allowing n) (a + 1) m = 0 := by
        simp [executed, hcarries, hhalt]
      rw [hadv, hcount]
      exact .inr ⟨hend, by omega, 0, b + 1, hout, rfl⟩

/-- What has been written stays written. -/
theorem written_advance (hopen : m.output.Open) (hm : m.memo.Sound s.module) (n : Nat) :
    (advance s n m).1.output.Open ∧ m.output.written <+: (advance s n m).1.output.written := by
  rw [← advanceUnder_const]
  have hend := ledger_advanceUnder (w := []) Output.ledger_open (fun _ => s.cancelled) n hopen hm
  have hall := ledger_advanceUnder Output.ledger_accounts (fun _ => s.cancelled) n
    hopen.accounts hm
  exact ⟨hend, _, (hall.waiting hend.failed).symm⟩

/-- How a run comes out is settled when its steps have been taken, and its output is delivered
then. -/
theorem run_eq (hm : AtRest s.module m) :
    m.run s =
      ({ (advance s (s.maxSteps + 1) (m.start s)).1 with
          output := (advance s (s.maxSteps + 1) (m.start s)).1.output.flush },
        (advance s (s.maxSteps + 1) (m.start s)).2.map .stopped) := by
  have hend := (written_advance (output_start s m ▸ hm.opened) (memo_start s m ▸ hm.memo)
    (s.maxSteps + 1)).1
  have hflushed : (advance s (s.maxSteps + 1) (m.start s)).1.output.flush.failed = false :=
    (Output.ledger_open.flush (w := []) hend).failed
  unfold run
  generalize advance s (s.maxSteps + 1) (m.start s) = r at hflushed ⊢
  obtain ⟨y, _ | stop⟩ := r
  · simp [hflushed]
  · rfl

end

/-! ## Two limits -/

/-- The number of instructions that a run carries out. -/
def instructions (s : Setup) (m : Machine) : Nat :=
  executed s (s.maxSteps + 1) (m.start s)

/-- A run fails because its limit was used up. -/
def EndsAtLimit (s : Setup) (m : Machine) : Prop :=
  ∃ e, (m.run s).2 = some (.stopped (.error e)) ∧ e.trap = .stepLimit s.maxSteps

/-- A run with one limit is a run with another one, cut short if at all. -/
structure CutsShort (s s' : Setup) (m : Machine) : Prop where
  /-- A run that does not use up its limit is the same with the other one: in its outcome, its
  output, the input that it leaves unread and everything else. -/
  same : ¬m.EndsAtLimit s → m.run s' = m.run s
  /-- A run that uses it up has carried out as many instructions as it may, and what it has
  delivered is the front of what the other one delivers. -/
  cut : m.EndsAtLimit s → m.instructions s = s.maxSteps ∧
    (m.run s).1.output.delivered.toList <+: (m.run s').1.output.delivered.toList

section

variable {s : Setup} {m : Machine}

theorem endsAtLimit_iff (hm : AtRest s.module m) :
    m.EndsAtLimit s ↔ Exhausted s (advance s (s.maxSteps + 1) (m.start s)).2 := by
  unfold EndsAtLimit Exhausted
  rw [run_eq hm]
  generalize (advance s (s.maxSteps + 1) (m.start s)).2 = stop
  constructor
  · rintro ⟨e, he, htrap⟩
    obtain ⟨_, rfl, heq⟩ := Option.map_eq_some_iff.mp he
    cases heq
    exact ⟨e, rfl, htrap⟩
  · rintro ⟨e, rfl, htrap⟩
    exact ⟨e, rfl, htrap⟩

/-- What a run delivers in the end is what has been written when its last step is taken. -/
theorem delivered_run (hm : AtRest s.module m) :
    (m.run s).1.output.delivered.toList =
      (advance s (s.maxSteps + 1) (m.start s)).1.output.written := by
  rw [run_eq hm]
  exact (written_advance (output_start s m ▸ hm.opened) (memo_start s m ▸ hm.memo)
    (s.maxSteps + 1)).1.delivered_flush

theorem cutsShort_allowing {n k : Nat} (hcancel : s.cancelled = false) (hle : n ≤ k)
    (hm : AtRest s.module m) : CutsShort (s.allowing n) (s.allowing k) m := by
  have hn : AtRest (s.allowing n).module m := hm
  have hk : AtRest (s.allowing k).module m := hm
  have hsteps := steps_start s m
  have hruns := advance_allowing (m := m.start s) (a := n + 1) (b := k + 1) hcancel hle
    (by omega) (by omega) (by omega)
  refine ⟨fun hends => ?_, fun hends => ?_⟩
  · rw [endsAtLimit_iff hn] at hends
    obtain ⟨-, heq⟩ | ⟨hend, -⟩ := hruns
    · rw [run_eq hn, run_eq hk]
      change advance (s.allowing n) (n + 1) (m.start (s.allowing n)) =
        advance (s.allowing k) (k + 1) (m.start (s.allowing k)) at heq
      simp only [Setup.allowing] at heq ⊢
      rw [heq]
    · exact absurd hend hends
  · rw [endsAtLimit_iff hn] at hends
    obtain ⟨hend, -⟩ | ⟨-, hcount, d, c, hout, hrest⟩ := hruns
    · exact absurd hends hend
    · refine ⟨by rw [hsteps] at hcount; exact hcount, ?_⟩
      rw [delivered_run hn, delivered_run hk]
      change (advance (s.allowing n) (n + 1) (m.start s)).1.output.written <+:
        (advance (s.allowing k) (k + 1) (m.start s)).1.output.written
      have hopen := (written_advance (s := s.allowing k) (output_start s m ▸ hm.opened)
        (memo_start s m ▸ hm.memo) d).1
      have hmemo := sound_advance (s := s.allowing k) d (memo_start s m ▸ hm.memo)
      rw [hout, hrest]
      exact (written_advance hopen hmemo c).2

end

end Machine

open Machine

/-- **Limits only cut runs short.** Of two runs of a module that differ in the limit alone, the one
with the smaller limit is the same as the other, or it ends after exactly as many instructions as it
may carry out, with the front of the other's output. -/
theorem limits_only_cut_runs_short {name : String} {module : Module} {o : Options} {n k : Int}
    {s : Setup} (hs : Setup.make name module { o with maxSteps := n } = .ok s) (hle : n ≤ k)
    (hcancel : o.cancelled = false) {m : Machine} (hm : AtRest module m) :
    ∃ s', Setup.make name module { o with maxSteps := k } = .ok s' ∧ s'.maxSteps = k.toNat ∧
      s.maxSteps = n.toNat ∧ CutsShort s s' m := by
  obtain rfl := Setup.module_make hs
  obtain ⟨heq, hsame, hmake⟩ := Setup.make_allowing hs hle
  rw [heq] at hm ⊢
  exact ⟨_, hmake, rfl, rfl, cutsShort_allowing (hsame.trans hcancel) (Int.toNat_le_toNat hle) hm⟩

/-- A module that ends lines for ever. -/
def endless : Module :=
  ⟨Module.standardMagic, Module.standardVersion, #[⟨true, [112, 117, 116, 108, 110]⟩],
    #[⟨0, 0, 0, 0, #[⟨.callname, 0⟩, ⟨.br, -2⟩]⟩]⟩

/-- A machine for it. -/
def endlessSetup (limit : Nat) : Setup :=
  ⟨"endless", endless, limit, false, false⟩

/-- Of five instructions every other one ends a line, and so it is with eight. -/
theorem limits_only_cut_runs_short_endless :
    (∃ s', Setup.make "endless" endless ⟨8, false, false, 0⟩ = .ok s' ∧ s'.maxSteps = 8 ∧
      (endlessSetup 5).maxSteps = 5 ∧ CutsShort (endlessSetup 5) s' unfed) ∧
    unfed.instructions (endlessSetup 5) = 5 ∧
    (unfed.run (endlessSetup 5)).1.output.delivered = #[10, 10, 10] ∧
    (unfed.run (endlessSetup 8)).1.output.delivered = #[10, 10, 10, 10] :=
  ⟨limits_only_cut_runs_short (o := ⟨0, false, false, 0⟩) (n := 5)
    (show Setup.make "endless" endless ⟨5, false, false, 0⟩ = .ok (endlessSetup 5) from rfl)
    (by decide) rfl (atRest_fresh endless _), by decide +kernel, by decide +kernel,
    by decide +kernel⟩

end TinyC
