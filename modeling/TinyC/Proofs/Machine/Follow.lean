import TinyC.Proofs.Core.Structured
import TinyC.Proofs.Machine.Course

/-!
# Flat code follows structured statements

The code of a statement has branches where the statement has structure. This module shows, once
and for all readings of the structured semantics, that the machine on the code of a statement
goes where the semantics goes: `Carries` lists what has to be known of single statements,
conditions and branches, and `follows_stmt` derives the same for every statement, however nested.

What a path has to do with a state of the semantics is told by predicates on the states that the
machine has left so far, the state it is in, and the state of the semantics. The states left so
far also count the steps: where the semantics runs out of rounds, the machine has taken at least
that many steps.
-/

namespace TinyC.Machine

open Core

/-! ## Code inside code -/

/-- Code, or what is said of it one instruction after the other, contains a stretch from an index
on. -/
def Sits {α : Type} (code seg : List α) (p : Nat) : Prop :=
  seg <+: code.drop p

namespace Sits

variable {α : Type} {code seg a b : List α} {p : Nat} {i : α}

theorem left (h : Sits code (a ++ b) p) : Sits code a p :=
  (List.prefix_append a b).trans h

theorem right (h : Sits code (a ++ b) p) : Sits code b (p + a.length) := by
  obtain ⟨rest, hrest⟩ := h
  have hdrop : code.drop (p + a.length) = (code.drop p).drop a.length := List.drop_drop.symm
  exact ⟨rest, by rw [hdrop, ← hrest, List.append_assoc, List.drop_left]⟩

theorem head (h : Sits code (i :: a) p) : code[p]? = some i := by
  obtain ⟨c, hc⟩ := h
  have hp : (code.drop p)[0]? = some i := by rw [← hc]; rfl
  rwa [List.getElem?_drop, Nat.add_zero] at hp

theorem instr {code : Array α} (h : Sits code.toList (i :: a) p) : code[p]? = some i := by
  rw [← Array.getElem?_toList, h.head]

theorem tail (h : Sits code (i :: a) p) : Sits code a (p + 1) :=
  right (a := [i]) h

/-- Code that is not empty ends inside the code it sits in. -/
theorem length_le (h : Sits code seg p) (hseg : 0 < seg.length) : p + seg.length ≤ code.length := by
  have hlen := List.IsPrefix.length_le h
  rw [List.length_drop] at hlen
  omega

end Sits

/-- No statement starts behind the first index of a stretch of code. -/
def Quiet (starts : List Nat) (p n : Nat) : Prop :=
  ∀ q, p < q → q < p + n → q ∉ starts

/-- A stretch of code in which exactly the statements start whose indices are listed. Indices
outside the stretch may be listed as well. -/
structure Region (code : List Instr) (starts : List Nat) (seg : List Instr) (l : List Nat)
    (p : Nat) : Prop where
  sits : Sits code seg p
  starts : ∀ q, p ≤ q → q < p + seg.length → (q ∈ starts ↔ q ∈ l)

namespace Region

variable {code seg a b : List Instr} {starts l l' : List Nat} {p n : Nat} {i : Instr}

theorem tail (h : Region code starts (i :: a) l p) : Region code starts a l (p + 1) :=
  ⟨h.sits.tail, fun q h₁ h₂ => h.starts q (by omega) (by rw [List.length_cons]; omega)⟩

theorem right (h : Region code starts (a ++ b) l p) (hn : a.length = n := by rfl) :
    Region code starts b l (p + n) :=
  ⟨hn ▸ h.sits.right,
    fun q h₁ h₂ => h.starts q (by omega) (by rw [List.length_append]; omega)⟩

/-- An index in front of the stretch need not be listed. -/
theorem drop (h : Region code starts seg (n :: l) p) (hn : n < p) : Region code starts seg l p :=
  ⟨h.sits, fun q h₁ h₂ => by
    rw [h.starts q h₁ h₂, List.mem_cons, or_iff_right (by omega)]⟩

/-- The index in front of those that are listed. -/
theorem free (h : Region code starts seg l p) (hseg : seg ≠ []) (hl : ∀ q ∈ l, p < q) :
    p ∉ starts := by
  rw [h.starts p (Nat.le_refl _) (Nat.lt_add_of_pos_right (List.length_pos_iff.mpr hseg))]
  exact fun hp => Nat.lt_irrefl p (hl p hp)

theorem mem (h : Region code starts seg (p :: l) p) (hseg : seg ≠ []) : p ∈ starts := by
  rw [h.starts p (Nat.le_refl _) (Nat.lt_add_of_pos_right (List.length_pos_iff.mpr hseg))]
  exact List.mem_cons_self

theorem quiet (h : Region code starts seg l p) (hn : n ≤ seg.length)
    (hl : ∀ q ∈ l, q ≤ p ∨ p + n ≤ q) : Quiet starts p n := by
  intro q h₁ h₂ hmem
  have := hl q ((h.starts q (by omega) (by omega)).mp hmem)
  omega

/-- What starts in a stretch and behind it is listed one after the other. -/
theorem split (h : Region code starts (a ++ b) (l ++ l') p) (hn : a.length = n)
    (hl : ∀ q ∈ l, p ≤ q ∧ q < p + n) (hl' : ∀ q ∈ l', p + n ≤ q) :
    Region code starts a l p ∧ Region code starts b l' (p + n) := by
  have hright := h.right hn
  constructor
  · refine ⟨h.sits.left, fun q h₁ h₂ => ?_⟩
    rw [h.starts q h₁ (by rw [List.length_append]; omega), List.mem_append, or_iff_left]
    intro hq
    have := hl' q hq
    omega
  · refine ⟨hright.sits, fun q h₁ h₂ => ?_⟩
    rw [hright.starts q h₁ h₂, List.mem_append, or_iff_right]
    intro hq
    have := hl q hq
    omega

/-- A statement with code ends inside the code. -/
theorem le_length {s : Stmt} {loop : Loop} (h : Region code starts (s.code p loop) l p)
    (hs : 0 < s.size) : p + s.size ≤ code.length := by
  have hlen := h.sits.length_le (by rwa [Stmt.length_code])
  rwa [Stmt.length_code] at hlen

end Region

/-! ## Paths and outcomes -/

/-- How the states of a semantics are read off a machine. -/
structure Watch (τ σ : Type) where
  setup : Setup
  /-- The number of rounds that the semantics is given. -/
  rounds : Nat
  /-- The machine has come to a state of which nothing more is said. -/
  lost : Machine → Prop
  /-- The machine ends where something goes wrong in the semantics. -/
  fails : τ → List Machine → Machine → σ → Prop
  /-- The machine is where the semantics runs out of rounds. -/
  late : List Machine → Machine → σ → Prop

section

variable {τ σ α β : Type} {W : Watch τ σ}

/-- From a machine that has left some states, a path leads to where an outcome of the semantics
says. -/
def Watch.Leads (W : Watch τ σ) (h : List Machine) (m : Machine) (r : Except (Cut τ) α × σ)
    (Q : α → List Machine → Machine → σ → Prop) : Prop :=
  ∃ ms m', Path W.setup m ms m' ∧ (W.lost m' ∨
    match r with
    | (.ok a, x) => Q a (h ++ ms) m' x
    | (.error .timeout, x) => W.rounds ≤ (h ++ ms).length ∧ W.late (h ++ ms) m' x
    | (.error (.trap t), x) => W.fails t (h ++ ms) m' x)

namespace Watch

variable {h : List Machine} {m m₁ : Machine} {x : σ} {a : α}
  {P Q : α → List Machine → Machine → σ → Prop} {w : Act τ σ α}

theorem leads_now (hq : Q a h m x) : W.Leads h m (.ok a, x) Q :=
  ⟨[], m, .nil m, .inr (by simpa using hq)⟩

theorem leads_step {r : Except (Cut τ) α × σ} (hact : m.act W.setup = .next m₁)
    (hr : W.Leads (h ++ [m]) m₁ r Q) : W.Leads h m r Q := by
  obtain ⟨ms, m', hpath, hend⟩ := hr
  refine ⟨m :: ms, m', .cons hact hpath, ?_⟩
  rwa [List.append_assoc] at hend

/-- A path to where one outcome leads goes on from there. -/
theorem Leads.bind {f : α → Act τ σ β} {R : β → List Machine → Machine → σ → Prop}
    (hw : W.Leads h m (w.outcome x) P)
    (hf : ∀ a h' m' x', h.length ≤ h'.length → P a h' m' x' → W.Leads h' m' ((f a).outcome x') R) :
    W.Leads h m ((w >>= f).outcome x) R := by
  obtain ⟨ms, m', hpath, hend⟩ := hw
  rw [Act.outcome_bind]
  obtain hlost | hend := hend
  · exact ⟨ms, m', hpath, .inl hlost⟩
  · generalize w.outcome x = r at hend ⊢
    obtain ⟨(t | _) | a, y⟩ := r
    · exact ⟨ms, m', hpath, .inr hend⟩
    · exact ⟨ms, m', hpath, .inr hend⟩
    · obtain ⟨ms', m'', hpath', hend'⟩ := hf a _ _ _ (by simp) hend
      refine ⟨ms ++ ms', m'', hpath.append hpath', ?_⟩
      rwa [List.append_assoc] at hend'

/-- A path can go on where the semantics has nothing more to do. -/
theorem Leads.andThen (hw : W.Leads h m (w.outcome x) P)
    (hf : ∀ a h' m' x', h.length ≤ h'.length → P a h' m' x' → W.Leads h' m' (.ok a, x') Q) :
    W.Leads h m (w.outcome x) Q := by
  have hbind := hw.bind (f := pure) hf
  rwa [bind_pure] at hbind

theorem Leads.imp {r : Except (Cut τ) α × σ} (hr : W.Leads h m r P)
    (hf : ∀ a h' m' x', h.length ≤ h'.length → P a h' m' x' → Q a h' m' x') : W.Leads h m r Q := by
  obtain ⟨ms, m', hpath, hend⟩ := hr
  refine ⟨ms, m', hpath, hend.imp_right fun hend => ?_⟩
  obtain ⟨(t | _) | a, y⟩ := r
  · exact hend
  · exact hend
  · exact hf a _ _ _ (by simp) hend

/-- What is known of the results of an action is known where it leads. -/
theorem Leads.gives {R : α → Prop} (hw : W.Leads h m (w.outcome x) Q) (hr : w.Gives R) :
    W.Leads h m (w.outcome x) fun a h m x => R a ∧ Q a h m x := by
  obtain ⟨ms, m', hpath, hend⟩ := hw
  refine ⟨ms, m', hpath, hend.imp_right fun hend => ?_⟩
  rcases hx : w.outcome x with ⟨(t | _) | a, y⟩
  · simpa only [hx] using hend
  · simpa only [hx] using hend
  · simp only [hx] at hend
    exact ⟨hr x a y hx, hend⟩

/-- An action that cannot be seen on the machine comes before another. -/
theorem leads_bind_ok {f : α → Act τ σ β} {y : σ} {R : β → List Machine → Machine → σ → Prop}
    (hw : w.outcome x = (.ok a, y)) (hf : W.Leads h m ((f a).outcome y) R) :
    W.Leads h m ((w >>= f).outcome x) R := by
  rw [Act.outcome_bind, hw]
  exact hf

end Watch

end

/-! ## Statements -/

/-- How a machine in the frame of a function corresponds to a state of the semantics. -/
structure Site (σ : Type) where
  /-- The machine is at an index of the code. -/
  At : Nat → List Machine → Machine → σ → Prop
  /-- Moreover, if a statement starts there, it has been marked. -/
  On : Nat → List Machine → Machine → σ → Prop
  /-- The function has returned. -/
  Left : List Machine → Machine → σ → Prop

/-- What has to be known of single statements, conditions and branches in the code of a
function. -/
structure Carries {τ σ : Type} (W : Watch τ σ) (L : Leaves τ σ) (Γ : Env) (code : List Instr)
    (starts : List Nat) (S : Site σ) : Prop where
  mark {p h m x} : p ∈ starts → S.At p h m x →
    ∃ y, (L.mark p).outcome x = (.ok (), y) ∧ S.On p h m y
  settle {p h m x} : p ∉ starts → S.At p h m x → S.On p h m x
  late {p h m x} : S.On p h m x → W.late h m x
  hop {p q h m x} : code[p]? = some (branch p q) → q ≤ code.length → S.On p h m x →
    ∃ m₁, m.act W.setup = .next m₁ ∧ S.At q (h ++ [m]) m₁ x
  assign {place e b p h m x} : (Stmt.assign place e).Typed Γ b → Sits code (place.store e) p →
    Quiet starts p (place.store e).length → S.On p h m x →
    W.Leads h m ((L.perform p (.assign place e)).outcome x)
      fun _ => S.At (p + (place.store e).length)
  call {g as b p h m x} : (Stmt.call g as).Typed Γ b → Sits code (callCode g as) p →
    Quiet starts p (callCode g as).length → S.On p h m x →
    W.Leads h m ((L.perform p (.call g as)).outcome x) fun _ => S.At (p + (callCode g as).length)
  ret {e b p h m x} : (Stmt.ret e).Typed Γ b → Sits code (returnCode e) p →
    Quiet starts p (returnCode e).length → S.On p h m x →
    W.Leads h m ((L.perform p (.ret e)).outcome x) fun _ => S.Left
  test {c p h m x} : c.Typed Γ → Sits code c.code p → p + c.size < code.length →
    Quiet starts p (c.size + 1) → S.On p h m x →
    W.Leads h m ((L.test p c).outcome x)
      fun b h' m' y => h.length < h'.length ∧ S.At (p + c.size + b.toNat) h' m' y

/-- Where the machine is behind a statement that ends with a signal. -/
def Site.after {σ : Type} (S : Site σ) (inLoop : Bool) (loop : Loop) (stop : Nat) :
    Signal → List Machine → Machine → σ → Prop
  | .normal, h, m, x => S.At stop h m x
  | .brk, h, m, x => inLoop = true ∧ S.At loop.exit h m x
  | .cont, h, m, x => inLoop = true ∧ S.At loop.test h m x
  | .ret, h, m, x => S.Left h m x

section

variable {τ σ : Type} {W : Watch τ σ} {L : Leaves τ σ} {Γ : Env} {code : List Instr}
  {starts : List Nat} {S : Site σ} {h : List Machine} {m : Machine} {x : σ} {c : Cond}

/-- Rounds that each take a step follow the semantics, or there are too many of them. -/
theorem follows_iterate {round : Act τ σ (Option Signal)}
    {I : List Machine → Machine → σ → Prop} {Q : Signal → List Machine → Machine → σ → Prop}
    (hlate : ∀ h m x, I h m x → W.late h m x)
    (hround : ∀ h m x, I h m x → W.Leads h m (round.outcome x) fun o h' m' y =>
      h.length < h'.length ∧
        match o with
        | none => I h' m' y
        | some signal => Q signal h' m' y) (k : Nat) (hk : W.rounds ≤ h.length + k) (hi : I h m x) :
    W.Leads h m ((iterate round k).outcome x) Q := by
  induction k generalizing h m x with
  | zero => exact ⟨[], m, .nil m, .inr ⟨by simpa using hk, by simpa using hlate h m x hi⟩⟩
  | succ k ih =>
    refine (hround h m x hi).bind ?_
    rintro (_ | signal) h' m' y - ⟨hlen, ho⟩
    · exact ih (by omega) ho
    · exact Watch.leads_now ho

/-- A branch leads to its target. -/
theorem Carries.branch (C : Carries W L Γ code starts S) {α : Type} {r : Except (Cut τ) α × σ}
    {Q : α → List Machine → Machine → σ → Prop} {p q : Nat}
    (hcode : code[p]? = some (branch p q)) (hq : q ≤ code.length) (hon : S.On p h m x)
    (hr : ∀ m₁, S.At q (h ++ [m]) m₁ x → W.Leads (h ++ [m]) m₁ r Q) : W.Leads h m r Q := by
  obtain ⟨m₁, hact, hend⟩ := C.hop hcode hq hon
  exact Watch.leads_step hact (hr m₁ hend)

/-- The machine follows statements from one index to another. -/
def Site.Follows (S : Site σ) (W : Watch τ σ) (inLoop : Bool) (loop : Loop) (start stop : Nat)
    (w : Act τ σ Signal) : Prop :=
  ∀ h m x, S.At start h m x → W.Leads h m (w.outcome x) (S.after inLoop loop stop)

variable {inLoop : Bool} {loop : Loop} {start : Nat}

/-- A statement is marked before it does something. -/
theorem Carries.marked (C : Carries W L Γ code starts S) {α : Type} {w : Act τ σ α}
    {Q : α → List Machine → Machine → σ → Prop} (hstart : start ∈ starts)
    (hat : S.At start h m x) (hw : ∀ y, S.On start h m y → W.Leads h m (w.outcome y) Q) :
    W.Leads h m ((L.mark start >>= fun _ => w).outcome x) Q := by
  obtain ⟨y, hmark, hon⟩ := C.mark hstart hat
  exact Watch.leads_bind_ok hmark (hw y hon)

/-- No statement starts at the branch behind a condition. -/
theorem Quiet.behind {p : Nat} (hquiet : Quiet starts p (c.size + 1)) : p + c.size ∉ starts := by
  have := c.size_pos
  exact hquiet _ (by omega) (by omega)

/-- The machine follows a block in a loop, wherever its code is. -/
def Site.Tracks (S : Site σ) (W : Watch τ σ) (L : Leaves τ σ) (code : List Instr)
    (starts : List Nat) (inLoop : Bool) (loop : Loop) (body : Block) : Prop :=
  ∀ p, Region code starts (body.code p loop) (body.starts p) p →
    S.Follows W inLoop loop p (p + body.size) (body.exec L W.rounds p)

variable (C : Carries W L Γ code starts S)
include C

theorem follows_ifThen {body : Block} (hc : c.Typed Γ)
    (hr : Region code starts ((Stmt.ifThen c body).code start loop)
      ((Stmt.ifThen c body).starts start) start) (hbody : S.Tracks W L code starts inLoop loop body)
    :
    S.Follows W inLoop loop start (start + (Stmt.ifThen c body).size)
      ((Stmt.ifThen c body).exec L W.rounds start) := by
  intro h m x hat
  have hlen := hr.le_length (by rw [Stmt.size]; omega)
  simp only [Stmt.size, Stmt.code, Stmt.starts, Stmt.exec, ← Nat.add_assoc] at hlen hr ⊢
  have hquiet : Quiet starts start (c.size + 1) :=
    hr.quiet (by simp [Cond.size]) (List.forall_mem_cons.mpr
      ⟨.inl (Nat.le_refl _), fun q hq => .inr (Block.starts_bounds hq).1⟩)
  have hinner := hr.right.drop (Nat.lt_add_of_pos_right c.size_pos)
  refine C.marked (hr.mem (by simp)) hat fun y hon => ?_
  refine (C.test hc hr.sits.left (by omega) hquiet hon).bind ?_
  rintro (_ | _) h' m' z - ⟨-, hz⟩
  · exact C.branch hinner.sits.head hlen (C.settle hquiet.behind hz) fun m₁ => Watch.leads_now
  · exact hbody _ hinner.tail h' m' z hz

theorem follows_ifElse {body alternative : Block} (hc : c.Typed Γ)
    (hr : Region code starts ((Stmt.ifElse c body alternative).code start loop)
      ((Stmt.ifElse c body alternative).starts start) start)
    (hbody : S.Tracks W L code starts inLoop loop body)
    (halternative : S.Tracks W L code starts inLoop loop alternative) :
    S.Follows W inLoop loop start (start + (Stmt.ifElse c body alternative).size)
      ((Stmt.ifElse c body alternative).exec L W.rounds start) := by
  intro h m x hat
  have hlen := hr.le_length (by rw [Stmt.size]; omega)
  simp only [Stmt.size, Stmt.code, Stmt.starts, Stmt.exec, ← Nat.add_assoc] at hlen hr ⊢
  have hother : ∀ q ∈ alternative.starts (start + c.size + 1 + body.size + 1),
      start + c.size + 1 + body.size < q := fun q hq => (Block.starts_bounds hq).1
  have hquiet : Quiet starts start (c.size + 1) := by
    refine hr.quiet (by simp [Cond.size]) (List.forall_mem_cons.mpr ⟨.inl (Nat.le_refl _), ?_⟩)
    refine List.forall_mem_append.mpr ⟨fun q hq => .inr (Block.starts_bounds hq).1, ?_⟩
    intro q hq
    have := hother q hq
    omega
  have hinner := hr.right.drop (Nat.lt_add_of_pos_right c.size_pos)
  obtain ⟨hfirst, hrest⟩ := hinner.tail.split (Block.length_code _ _ _)
    (fun q => Block.starts_bounds) (fun q hq => Nat.le_of_lt (hother q hq))
  refine C.marked (hr.mem (by simp)) hat fun y hon => ?_
  refine (C.test hc hr.sits.left (by omega) hquiet hon).bind ?_
  rintro (_ | _) h' m' z - ⟨-, hz⟩
  · exact C.branch hinner.sits.head (by omega) (C.settle hquiet.behind hz) fun m₁ =>
      halternative _ hrest.tail _ _ _
  · refine (hbody _ hfirst h' m' z hz).andThen ?_
    rintro (_ | _ | _ | _) h'' m'' z' - hz'
    · -- The branch over the alternative stands between the two blocks.
      exact C.branch hrest.sits.head hlen (C.settle (hrest.free nofun hother) hz') fun m₁ =>
        Watch.leads_now
    · exact Watch.leads_now hz'
    · exact Watch.leads_now hz'
    · exact Watch.leads_now hz'

theorem follows_loop {body : Block} (hc : c.Typed Γ)
    (hr : Region code starts ((Stmt.loop c body).code start loop)
      ((Stmt.loop c body).starts start) start)
    (hbody : ∀ loop : Loop, loop.test ≤ code.length ∧ loop.exit ≤ code.length →
      S.Tracks W L code starts true loop body) :
    S.Follows W inLoop loop start (start + (Stmt.loop c body).size)
      ((Stmt.loop c body).exec L W.rounds start) := by
  intro h m x hat
  have hlen := hr.le_length (by rw [Stmt.size]; omega)
  simp only [Stmt.size, Stmt.code, Stmt.starts, Stmt.exec, ← Nat.add_assoc] at hlen hr ⊢
  have htest := hr.tail.drop (Nat.lt_succ_self _)
  have hin : ∀ q ∈ body.starts (start + 1 + c.size + 1), start + 1 + c.size + 1 ≤ q :=
    fun q hq => (Block.starts_bounds hq).1
  have hquiet : Quiet starts (start + 1) (c.size + 1) :=
    htest.quiet (by simp [Cond.size]) fun q hq => .inr (hin q hq)
  have hloop : ∀ h m x, S.At (start + 1) h m x → S.On (start + 1) h m x := fun h m x =>
    C.settle (htest.free (by simp) fun q hq => by have := hin q hq; omega)
  have hinner := htest.right
  rw [← List.append_nil (body.starts _)] at hinner
  obtain ⟨hfirst, hback⟩ := hinner.tail.split (Block.length_code _ _ _)
    (fun q => Block.starts_bounds) nofun
  refine C.marked (hr.mem (by simp)) hat fun y hon => ?_
  refine C.branch hr.sits.head (by omega) hon fun m₁ hstart => ?_
  refine follows_iterate (I := S.On (start + 1)) (fun _ _ _ => C.late) ?_ W.rounds (by omega)
    (hloop _ _ _ hstart)
  intro h m x hon
  refine (C.test hc htest.sits.left (by omega) hquiet hon).bind ?_
  rintro (_ | _) h' m' z - ⟨hlt, hz⟩
  · exact C.branch hinner.sits.head hlen (C.settle hquiet.behind hz) fun m₂ hend =>
      Watch.leads_now ⟨by simp; omega, hend⟩
  · refine (hbody _ ⟨by simp only; omega, by simp only; omega⟩ _ hfirst h' m' z hz).bind ?_
    rintro (_ | _ | _ | _) h'' m'' z' hle hz'
    · exact C.branch hback.sits.head (by omega) (C.settle (hback.free nofun nofun) hz')
        fun m₂ hend =>
        Watch.leads_now ⟨by simp; omega, hloop _ _ _ hend⟩
    · exact Watch.leads_now ⟨by omega, hz'.2⟩
    · exact Watch.leads_now ⟨by omega, hloop _ _ _ hz'.2⟩
    · exact Watch.leads_now ⟨by omega, hz'⟩

set_option linter.unusedSectionVars false

mutual

/-- The machine follows every statement, wherever its code is. -/
theorem follows_stmt (s : Stmt) {inLoop : Bool} {loop : Loop} {start : Nat} (hs : s.Typed Γ inLoop)
    (hr : Region code starts (s.code start loop) (s.starts start) start)
    (hloop : inLoop = true → loop.test ≤ code.length ∧ loop.exit ≤ code.length) :
    S.Follows W inLoop loop start (start + s.size) (s.exec L W.rounds start) := by
  have halone : ∀ {seg}, Region code starts seg [start] start → Quiet starts start seg.length :=
    fun hr => hr.quiet (Nat.le_refl _) (by simp)
  match s, hs with
  | .skip, _ => exact fun h m x hat => Watch.leads_now hat
  | .assign place e, hs =>
    intro h m x hat
    refine C.marked (hr.mem (by simp [Stmt.code, Core.Place.store])) hat fun y hon => ?_
    refine (C.assign hs hr.sits (halone hr) hon).bind ?_
    exact fun _ h' m' z _ hz => Watch.leads_now hz
  | .call g as, hs =>
    intro h m x hat
    refine C.marked (hr.mem (by simp [Stmt.code, callCode])) hat fun y hon => ?_
    refine (C.call (b := inLoop) hs hr.sits (halone hr) hon).bind ?_
    exact fun _ h' m' z _ hz => Watch.leads_now hz
  | .ret e, hs =>
    intro h m x hat
    refine C.marked (hr.mem (by cases e <;> simp [Stmt.code, returnCode])) hat fun y hon => ?_
    refine (C.ret hs hr.sits (halone hr) hon).bind ?_
    exact fun _ h' m' z _ hz => Watch.leads_now hz
  | .ifThen c body, hs =>
    exact follows_ifThen C hs.1 hr fun p hp => follows_block body hs.2 hp hloop
  | .ifElse c body alternative, hs =>
    exact follows_ifElse C hs.1 hr (fun p hp => follows_block body hs.2.1 hp hloop)
      fun p hp => follows_block alternative hs.2.2 hp hloop
  | .loop c body, hs =>
    exact follows_loop C hs.1 hr fun loop hloop p hp =>
      follows_block body hs.2 hp fun _ => hloop
  | .brk, hs =>
    intro h m x hat
    refine C.marked (hr.mem (by simp [Stmt.code])) hat fun y hon => ?_
    exact C.branch hr.sits.head (hloop hs).2 hon fun m₁ hend => Watch.leads_now ⟨hs, hend⟩
  | .cont, hs =>
    intro h m x hat
    refine C.marked (hr.mem (by simp [Stmt.code])) hat fun y hon => ?_
    exact C.branch hr.sits.head (hloop hs).1 hon fun m₁ hend => Watch.leads_now ⟨hs, hend⟩

/-- The machine follows every block, wherever its code is. -/
theorem follows_block (b : Block) {inLoop : Bool} {loop : Loop}
    {start : Nat} (hb : b.Typed Γ inLoop)
    (hr : Region code starts (b.code start loop) (b.starts start) start)
    (hloop : inLoop = true → loop.test ≤ code.length ∧ loop.exit ≤ code.length) :
    S.Follows W inLoop loop start (start + b.size) (b.exec L W.rounds start) := by
  match b, hb with
  | .nil, _ => exact fun h m x hat => Watch.leads_now hat
  | .cons s rest, hb =>
    obtain ⟨hfirst, hrest⟩ := hr.split (Stmt.length_code _ _ _) (fun q => Stmt.starts_bounds)
      fun q hq => (Block.starts_bounds hq).1
    intro h m x hat
    refine (follows_stmt s hb.1 hfirst hloop h m x hat).bind ?_
    rw [Block.size, ← Nat.add_assoc]
    rintro (_ | _ | _ | _) h' m' y - hy
    · exact follows_block rest hb.2 hrest hloop h' m' y hy
    · exact Watch.leads_now hy
    · exact Watch.leads_now hy
    · exact Watch.leads_now hy

end

end

end TinyC.Machine
