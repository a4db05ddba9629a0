import TinyC.Proofs.Typing.Resolved
import TinyC.Proofs.Typing.Traces

/-!
# Code in the same pass

The analysis lays code out when a function is known as a whole. Code can also be produced while the
text is read: every instruction goes to the end of a listing, a branch without its target, and the
target is set once it is known. Such a pass can break down in ways that have no place in the
analysis. The instruction to be patched may be missing or no branch, a scope may have no table, and
a table may refuse a name.

`OnePass.program` is this pass, and every one of these steps in it can break down. `Follows` says
that it does what the walk of the analysis does, and that it never breaks down. For statements this
rests on `Completes`: patching the breaks of a statement, whatever else the listing holds, turns
what was emitted for it into its code.
-/

namespace TinyC

/-- The listing in which all branches at some indices lead to one index. -/
def Listing.patchAll (l : Listing) (is : List Nat) (target : Nat) : Except PatchError Listing :=
  is.foldlM (fun (l : Listing) (i : Nat) => l.patch i target) l

namespace Typing

variable {is : List Instr}

open Walk State
open Syntax (Gap Close Name)

/-- How a pass can break down. -/
inductive Breakdown where
  | patch (e : PatchError)
  | noTable
  | taken (name : String)
  deriving Repr, DecidableEq

/-- Why a pass stops: for a fault of the program, or because it breaks down. -/
inductive Stop where
  | fault (f : Fault)
  | broken (b : Breakdown)

/-- What a pass has at hand: what is known of the program, the code of the function at hand, and
the code of the entry function once the globals are done. -/
structure Pass where
  state : State := {}
  code : Listing := {}
  entry : Listing := {}

/-- A step of a pass. -/
abbrev OnePass (α : Type) := ExceptT Stop (StateM Pass) α

/-- The instructions that were entered in the journal on the way from one state to another. -/
def State.entered (s s' : State) : List Instr :=
  (s'.journal.take (s'.journal.length - s.journal.length)).reverse.map Emission.instr

namespace OnePass

/-- What comes of a pass, and where it ends. -/
def outcome {α : Type} (m : OnePass α) (p : Pass) : Except Stop α × Pass :=
  m.run.run p

/-- A part of the walk in which no target has to be set. Its instructions are emitted. -/
def phrase {α : Type} (w : Walk α) : OnePass α := do
  let p ← get
  let (r, s) := w.outcome p.state
  set { p with state := s, code := ⟨p.code.instrs ++ p.state.entered s⟩ }
  match r with
  | .ok a => pure a
  | .error f => throw (.fault f)

/-- The index of the next instruction. -/
def here : OnePass Nat :=
  return (← get).code.length

/-- Emits a branch whose target is not yet known, and gives its index. -/
def branchHere : OnePass Nat := do
  let i ← here
  phrase emitBranch
  pure i

/-- Makes branches lead to an index. -/
def patch (is : List Nat) (target : Nat) : OnePass Unit := do
  let p ← get
  match p.code.patchAll is target with
  | .ok l => set { p with code := l }
  | .error e => throw (.broken (.patch e))

/-- The table that declarations go into, and where its variables live. -/
def innermost (c : Context) : OnePass (Table (Entry Nat) × Location) := do
  match ((← get).state.scope c).innermost? with
  | some found => pure found
  | none => throw (.broken .noTable)

/-- Puts an entry into the table that declarations go into. -/
def insert (c : Context) (e : Entry Nat) : OnePass Unit := do
  let (t, _) ← innermost c
  match t.insert? e with
  | some t => phrase (modify fun s => s.setTable c t)
  | none => throw (.broken (.taken e.name))

/-- The word that a global starts from, as the code from an index on tells. -/
def folded (l : Location) (start : Nat) : OnePass UInt64 := do
  let p ← get
  return if l = .global then literalWord (p.code.instrs.drop start) else 0

/-- Passes through a declaration. -/
def declaration (c : Context) : Syntax.Decl → OnePass Unit
  | .gap g => phrase (stuck g)
  | .mk constant x type init cl => do
    phrase (look (x.ord + 2))
    let (t, l) ← innermost c
    if t.has x.text then
      phrase (reject (.alreadyDeclared x.text) x.ord)
    else
      let kind : EntryKind := if constant then .constant else .variable
      let (e, t) := t.reserve { name := x.text, kind, type, pos := some x.ord }
      phrase (modify fun s => s.setTable c t)
      phrase (look (x.ord + 3))
      match init with
      | some i =>
        phrase (emit (Core.Place.address ⟨l, e.slot⟩))
        let start ← here
        let _ ← phrase (initial c x type i)
        let value ← folded l start
        phrase (emit ⟨.store64, 0⟩)
        phrase (close cl)
        insert c { e with initialized := true, value }
      | none =>
        if constant then phrase (reject (.constantNeedsValue x.text) x.ord)
        else
          phrase (close cl)
          insert c { e with initialized := false, value := 0 }

/-- What a statement tells what stands around it: the branches that have to lead behind the loop,
and whether every way through it returns. -/
structure Result where
  breaks : List Nat := []
  terminates : Bool := false
  deriving Repr, DecidableEq

mutual

/-- Passes through a statement; around it is a loop, if any, whose condition has an index. -/
def stmt (c : Context) (loop : Option Nat) : Syntax.Stmt → OnePass Result
  | .empty => pure {}
  | .declare d => do
    declaration c d
    pure {}
  | .branch i => branch c loop i
  | .loop ord cond body => do
    phrase (look ord)
    let _ ← branchHere
    let test ← here
    let _ ← phrase (condition c cond)
    let exit ← branchHere
    let r ← block { c with inLoop := true } (some test) body
    let back ← branchHere
    patch [back] test
    let stop ← here
    patch [exit] stop
    patch r.breaks stop
    pure {}
  | .ret ord value cl => do
    let _ ← phrase (returned c ord value)
    phrase (close cl)
    pure { terminates := true }
  | .brk ord cl => do
    phrase (close cl)
    match loop with
    | none => phrase (reject .breakOutsideLoop ord)
    | some _ =>
      let i ← branchHere
      pure { breaks := [i] }
  | .cont ord cl => do
    phrase (close cl)
    match loop with
    | none => phrase (reject .continueOutsideLoop ord)
    | some test =>
      let i ← branchHere
      patch [i] test
      pure {}
  | .call f as cl => do
    let _ ← phrase (dropped c f as)
    phrase (close cl)
    pure {}
  | .assign x e cl => do
    let _ ← phrase (assignment c x e)
    phrase (close cl)
    pure {}
  | .unfinished _ g => phrase (stuck g)
  | .gap g => phrase (stuck g)

/-- Passes through a condition with its blocks. -/
def branch (c : Context) (loop : Option Nat) : Syntax.If → OnePass Result
  | .mk cond body alternative => do
    let _ ← phrase (condition c cond)
    let skip ← branchHere
    let r ← block c loop body
    phrase (look body.stop)
    otherwise c loop skip r alternative

/-- Passes through what stands behind the block of a condition, which told `r` and is skipped by the
branch at `skip`. -/
def otherwise (c : Context) (loop : Option Nat) (skip : Nat) (r : Result) :
    Syntax.Else → OnePass Result
  | .none => do
    patch [skip] (← here)
    pure { r with terminates := false }
  | .block b => do
    let jump ← branchHere
    patch [skip] (← here)
    let a ← block c loop b
    patch [jump] (← here)
    pure ⟨r.breaks ++ a.breaks, r.terminates && a.terminates⟩
  | .branch i => do
    let jump ← branchHere
    patch [skip] (← here)
    let a ← branch c loop i
    patch [jump] (← here)
    pure ⟨r.breaks ++ a.breaks, r.terminates && a.terminates⟩
  | .gap g => do
    let _ ← branchHere
    patch [skip] (← here)
    phrase (stuck g)

/-- Passes through a block. -/
def block (c : Context) (loop : Option Nat) : Syntax.Block → OnePass Result
  | .stmts ss => stmts c loop ss
  | .gap g => phrase (stuck g)

/-- Passes through statements up to the closing brace. -/
def stmts (c : Context) (loop : Option Nat) : Syntax.Stmts → OnePass Result
  | .done ord => do
    phrase (look ord)
    pure {}
  | .more s rest => do
    let r ← stmt c loop s
    let rs ← stmts c loop rest
    pure ⟨r.breaks ++ rs.breaks, r.terminates || rs.terminates⟩

end

/-- Starts on the body of a function. The entry function calls it if it is the main function. -/
def enter (f : Function Nat) : OnePass Unit := do
  let p ← get
  match p.state.functions.add? f with
  | none => throw (.broken (.taken f.name))
  | some _ =>
    let callee : Core.Callee := .function p.state.functions.count f.type
    phrase (Typing.enter f)
    modify fun q =>
      { q with
        code := {}
        entry := if f.name = "main" then (p.entry.emit callee.room).emit callee.invoke
          else p.entry }

/-- Ends a function with a return where it needs one, and keeps its code. -/
def finish (name : String) (type : Ty) : OnePass Unit := do
  let p ← get
  if type = .void ∨ p.code.last?.map Instr.op ≠ some .ret then
    phrase (emit ⟨.ret, 0⟩)
  let p ← get
  phrase (leave name p.code.instrs)

/-- Passes through a function. -/
def function : Syntax.Fn → OnePass Unit
  | .gap g => phrase (stuck g)
  | .mk x ps rest => do
    phrase (look x.ord)
    if (Builtin.ofName? x.text).isSome || (← get).state.functions.has x.text then
      phrase (reject (.functionDeclared x.text) x.ord)
    else
      let f ← phrase (parameters (Function.start x.text .void (some x.ord)) ps)
      match rest with
      | .error g => phrase (stuck g)
      | .ok (type, body) =>
        enter { f with type }
        let r ← block ⟨some (x.text, type), false⟩ none body
        if type ≠ .void ∧ r.terminates = false then
          phrase (reject (.missingReturn x.text) x.ord)
        else
          finish x.text type

/-- Passes through the tree of a program and gives its tables. -/
def program (t : Syntax.Program) : OnePass (ProgramTables Nat) := do
  t.decls.forM (declaration ⟨none, false⟩)
  modify fun p => { p with entry := p.code }
  t.functions.forM function
  phrase (close t.close)
  let p ← get
  return {
    globals := p.state.globals
    functions := { p.state.functions with
      rows := p.state.functions.rows.modifyHead fun f => { f with code := p.entry.instrs } }
    main := p.state.main }

end OnePass

/-! ## Setting targets -/

theorem Listing.eq_mk {l : Listing} (h : l.instrs = is) : l = ⟨is⟩ := by
  rw [← h]

theorem patch_branch (front back : List Instr) (o : Int64) (target : Nat) :
    Listing.patchAll ⟨front ++ ⟨.br, o⟩ :: back⟩ [front.length] target =
      .ok ⟨front ++ Core.branch front.length target :: back⟩ := by
  have hget : Listing.get ⟨front ++ ⟨.br, o⟩ :: back⟩ front.length = .ok ⟨.br, o⟩ := by
    simp [Listing.get]
  have hpatch : Listing.patch ⟨front ++ ⟨.br, o⟩ :: back⟩ front.length target =
      .ok ⟨front ++ Core.branch front.length target :: back⟩ := by
    unfold Listing.patch
    rw [hget]
    simp [Opcode.isBranch, Core.branch]
  simp only [Listing.patchAll, List.foldlM_cons, hpatch, List.foldlM_nil]
  rfl

/-- A branch to the instruction behind it. -/
theorem branch_next (i : Nat) : Core.branch i (i + 1) = ⟨.br, 0⟩ := by
  simp [Core.branch, branchOffset]

/-- What was emitted for a statement that starts at an index becomes its code, which depends on
where the loop around it ends, when the branches at `breaks` are made to lead there. -/
def Completes (start : Nat) (is : List Instr) (breaks : List Nat) (code : Nat → List Instr) :
    Prop :=
  ∀ exit, (code exit).length = is.length ∧
    ∀ front back : List Instr, front.length = start →
      Listing.patchAll ⟨front ++ is ++ back⟩ breaks exit = .ok ⟨front ++ code exit ++ back⟩

theorem completes_straight (start : Nat) (is : List Instr) : Completes start is [] fun _ => is :=
  fun _ => ⟨rfl, fun _ _ _ => rfl⟩

theorem completes_break (start : Nat) :
    Completes start [⟨.br, 0⟩] [start] fun exit => [Core.branch start exit] := by
  refine fun exit => ⟨rfl, ?_⟩
  rintro front back rfl
  simpa using patch_branch front back 0 exit

theorem Completes.append {start start' : Nat} {is js : List Instr} {bs cs : List Nat}
    {code code' : Nat → List Instr} (h : Completes start is bs code)
    (h' : Completes start' js cs code') (hstart : start' = start + is.length) :
    Completes start (is ++ js) (bs ++ cs) fun exit => code exit ++ code' exit := by
  intro exit
  obtain ⟨hlen, hpatch⟩ := h exit
  obtain ⟨hlen', hpatch'⟩ := h' exit
  refine ⟨by simp [hlen, hlen'], fun front back hfront => ?_⟩
  have hfirst := hpatch front (js ++ back) hfront
  have hsecond := hpatch' (front ++ code exit) back (by simp [hlen, hfront, hstart])
  simp only [List.append_assoc] at hfirst hsecond ⊢
  unfold Listing.patchAll at hfirst hsecond ⊢
  rw [List.foldlM_append, hfirst]
  exact hsecond

/-- An instruction that needs no patching stands before what was emitted. -/
theorem Completes.cons {start : Nat} {bs : List Nat} {code : Nat → List Instr}
    (h : Completes (start + 1) is bs code) (i : Instr) :
    Completes start (i :: is) bs fun exit => i :: code exit :=
  (completes_straight start [i]).append h rfl

/-- What was emitted for a block is as long as its code. -/
theorem Completes.length_block {start start' test : Nat} {bs : List Nat} {b : Core.Block}
    (h : Completes start is bs fun exit => b.code start' ⟨test, exit⟩) : is.length = b.size := by
  rw [← (h 0).1, b.length_code]

/-! ## Following a walk -/

/-- From a point on, the pass does what the walk does: both give something, and what they give is
related, or both stop with the same fault. -/
def OnePass.Follows {α β : Type} (m : OnePass β) (w : Walk α) (p : Pass)
    (R : α → β → Pass → Prop) : Prop :=
  (∃ a b q, w.Yields p.state a q.state ∧ m.outcome p = (.ok b, q) ∧ R a b q) ∨
  ∃ f q, w.outcome p.state = (.error f, q.state) ∧ m.outcome p = (.error (.fault f), q)

/-- Instructions were emitted between two points of a function. -/
structure Pass.Grows (p q : Pass) (is : List Instr) : Prop where
  code : q.code.instrs = p.code.instrs ++ is
  entry : q.entry = p.entry

theorem Pass.Grows.trans {p q r : Pass} {is js : List Instr} (h : p.Grows q is)
    (h' : q.Grows r js) : p.Grows r (is ++ js) :=
  ⟨by rw [h'.code, h.code, List.append_assoc], h'.entry.trans h.entry⟩

theorem Pass.Grows.length {p q : Pass} (h : p.Grows q is) :
    q.code.length = p.code.length + is.length := by
  simp [Listing.length, h.code]

theorem State.Writes.entered_eq {s s' : State} (h : s.Writes s' is) : s.entered s' = is := by
  obtain ⟨es, hjournal, rfl⟩ := h
  simp [State.entered, hjournal]

namespace OnePass

variable {α β γ δ : Type}

theorem outcome_bind (m : OnePass α) (k : α → OnePass β) (p : Pass) :
    (m >>= k).outcome p =
      match m.outcome p with
      | (.ok a, q) => (k a).outcome q
      | (.error e, q) => (.error e, q) := by
  show (match m.outcome p with
    | (r, q) => (ExceptT.bindCont k r : Pass → Except Stop β × Pass) q) = _
  rcases m.outcome p with ⟨e | a, q⟩ <;> rfl

variable {m : OnePass γ} {k : γ → OnePass β} {w : Walk δ} {j : δ → Walk α} {p q : Pass}
  {P : δ → γ → Pass → Prop} {R S : α → β → Pass → Prop}

theorem Follows.imp {m : OnePass β} {w : Walk α} (h : Follows m w p R)
    (himp : ∀ a b q, R a b q → S a b q) : Follows m w p S := by
  obtain ⟨a, b, q, hw, hm, hR⟩ | hfault := h
  · exact .inl ⟨a, b, q, hw, hm, himp a b q hR⟩
  · exact .inr hfault

theorem Follows.bind (h : Follows m w p P)
    (hk : ∀ a b q, w.Yields p.state a q.state → P a b q → Follows (k b) (j a) q R) :
    Follows (m >>= k) (w >>= j) p R := by
  obtain ⟨a, b, q, hw, hm, hP⟩ | ⟨f, q, hw, hm⟩ := h
  · obtain ⟨a', b', r, hj, hk, hR⟩ | ⟨f, r, hj, hk⟩ := hk a b q hw hP
    · refine .inl ⟨a', b', r, yields_bind.mpr ⟨a, q.state, hw, hj⟩, ?_, hR⟩
      rw [outcome_bind, hm]
      exact hk
    · refine .inr ⟨f, r, ?_, ?_⟩
      · rw [Walk.outcome_bind, show w.outcome p.state = (.ok a, q.state) from hw]
        exact hj
      · rw [outcome_bind, hm]
        exact hk
  · refine .inr ⟨f, q, ?_, ?_⟩
    · rw [Walk.outcome_bind, hw]
    · rw [outcome_bind, hm]

/-- A step that the walk does not have. -/
theorem Follows.ahead {w : Walk α} {b : γ} (hm : m.outcome p = (.ok b, q))
    (hstate : q.state = p.state) (h : Follows (k b) w q R) : Follows (m >>= k) w p R := by
  have hout : (m >>= k).outcome p = (k b).outcome q := by
    rw [outcome_bind, hm]
  obtain ⟨a, b', r, hw, hk, hR⟩ | ⟨f, r, hw, hk⟩ := h
  · exact .inl ⟨a, b', r, hstate ▸ hw, hout.trans hk, hR⟩
  · exact .inr ⟨f, r, hstate ▸ hw, hout.trans hk⟩

theorem follows_pure {a : α} {b : β} (h : R a b p) : Follows (pure b : OnePass β) (pure a) p R :=
  .inl ⟨a, b, p, yields_pure.mpr ⟨rfl, rfl⟩, rfl, h⟩

theorem outcome_phrase (w : Walk α) (p : Pass) :
    (OnePass.phrase w).outcome p =
      match w.outcome p.state with
      | (.ok a, s) =>
        (.ok a, { p with state := s, code := ⟨p.code.instrs ++ p.state.entered s⟩ })
      | (.error f, s) =>
        (.error (.fault f),
          { p with state := s, code := ⟨p.code.instrs ++ p.state.entered s⟩ }) := by
  show (match (w.outcome p.state).1 with
    | .ok a => pure a
    | .error f => throw (.fault f) : OnePass α).outcome
      { p with
        state := (w.outcome p.state).2
        code := ⟨p.code.instrs ++ p.state.entered (w.outcome p.state).2⟩ } = _
  rcases w.outcome p.state with ⟨f | a, s⟩ <;> rfl

variable {n hi : Nat} {H : Prop}

/-- A phrase gives what the walk gives, and the instructions of it are emitted. -/
theorem follows_phrase {w : Walk α} {Q : α → List Instr → Prop} (ht : w.Traces n 0 hi H Q) :
    Follows (OnePass.phrase w) w p fun a b q => b = a ∧ ∃ is, p.Grows q is ∧ Q a is := by
  have htraces := ht p.state (Nat.zero_le _)
  have hphrase := outcome_phrase w p
  rcases hout : w.outcome p.state with ⟨f | a, s⟩
  · rw [hout] at hphrase
    exact .inr ⟨f, _, hout, hphrase⟩
  · rw [hout] at htraces hphrase
    obtain ⟨-, -, -, is, hwrites, hQ⟩ := htraces
    refine .inl ⟨a, a, { p with state := s, code := ⟨p.code.instrs ++ p.state.entered s⟩ }, hout,
      hphrase, rfl, is, ⟨?_, rfl⟩, hQ⟩
    rw [hwrites.entered_eq]

/-- A phrase, and what comes behind it. -/
theorem Follows.phrase {w : Walk δ} {k : δ → OnePass β} {Q : δ → List Instr → Prop}
    (ht : w.Traces n 0 hi H Q)
    (hk : ∀ a is q, w.Yields p.state a q.state → p.Grows q is → Q a is →
      Follows (k a) (j a) q R) : Follows (OnePass.phrase w >>= k) (w >>= j) p R := by
  refine (follows_phrase ht).bind ?_
  rintro a _ q hw ⟨rfl, is, hgrows, hQ⟩
  exact hk _ is q hw hgrows hQ

/-- A phrase that enters always the same, and what comes behind it. -/
theorem Follows.step {w : Walk Unit} {j : Unit → Walk α} {k : Unit → OnePass β}
    {is : List Instr} (ht : w.Traces n 0 hi H fun _ js => js = is)
    (hk : ∀ q, w.Yields p.state () q.state → p.Grows q is → Follows (k ()) (j ()) q R) :
    Follows (OnePass.phrase w >>= k) (w >>= j) p R := by
  refine .phrase ht ?_
  rintro _ _ q hw hgrows rfl
  exact hk q hw hgrows

theorem Follows.look {j : Unit → Walk α} {k : Unit → OnePass β} {ord : Nat}
    (hk : ∀ q, (look ord).Yields p.state () q.state → p.Grows q [] → Follows (k ()) (j ()) q R) :
    Follows (OnePass.phrase (look ord) >>= k) (look ord >>= j) p R :=
  Follows.step (traces_look (Nat.lt_succ_self ord)) hk

theorem Follows.emit {j : Unit → Walk α} {k : Unit → OnePass β} {i : Instr}
    (hk : ∀ q, (emit i).Yields p.state () q.state → p.Grows q [i] → Follows (k ()) (j ()) q R) :
    Follows (OnePass.phrase (emit i) >>= k) (emit i >>= j) p R :=
  Follows.step (n := 0) (traces_emit i) hk

/-- A change of the tables emits nothing. -/
theorem follows_tables {g : State → State} (hg : (g p.state).journal = p.state.journal) :
    Follows (OnePass.phrase (modify g)) (modify g : Walk Unit) p fun _ _ q => p.Grows q [] :=
  .inl ⟨(), (), { p with
      state := g p.state, code := ⟨p.code.instrs ++ p.state.entered (g p.state)⟩ }, rfl,
    outcome_phrase _ p, by simp [State.entered, hg], rfl⟩

/-- Where both walks stop for the same fault, the pass stops for it too. -/
theorem follows_stop {w : Walk α} {v : Walk β} {f : Fault} {s : State}
    (hw : w.outcome p.state = (.error f, s)) (hv : v.outcome p.state = (.error f, s)) :
    Follows (OnePass.phrase v) w p R := by
  have hphrase := outcome_phrase v p
  rw [hv] at hphrase
  exact .inr ⟨f, _, hw, hphrase⟩

theorem follows_reject {cause : Cause} {ord : Nat} :
    Follows (OnePass.phrase (reject cause ord : Walk β)) (reject cause ord : Walk α) p R :=
  follows_stop rfl rfl

theorem follows_stuck {g : Gap} :
    Follows (OnePass.phrase (stuck g : Walk β)) (stuck g : Walk α) p R :=
  follows_stop rfl rfl

theorem Follows.close {j : Unit → Walk α} {k : Unit → OnePass β} {c : Close}
    (hk : ∀ q, (close c).Yields p.state () q.state → p.Grows q [] → Follows (k ()) (j ()) q R) :
    Follows (OnePass.phrase (close c) >>= k) (close c >>= j) p R := by
  cases c with
  | word ord => exact .look hk
  | gap g => exact (follows_stuck (R := fun _ _ _ => False)).bind fun _ _ _ _ h => h.elim

theorem Follows.branchHere {k : Nat → OnePass β} {j : Unit → Walk α}
    (hk : ∀ q, p.Grows q [⟨.br, 0⟩] → Follows (k p.code.length) (j ()) q R) :
    Follows (OnePass.branchHere >>= k) (emitBranch >>= j) p R := by
  have hassoc : (OnePass.branchHere >>= k) =
      (here >>= fun i => OnePass.phrase emitBranch >>= fun _ => k i) := by
    simp [OnePass.branchHere, bind_assoc]
  rw [hassoc]
  refine .ahead rfl rfl ?_
  exact .emit fun q _ hgrows => hk q hgrows

/-- Targets are set. -/
theorem Follows.patch {k : Unit → OnePass β} {w : Walk α} {is : List Nat} {target : Nat}
    {l : Listing} (hpatch : p.code.patchAll is target = .ok l)
    (hk : ∀ q : Pass, q.state = p.state → q.entry = p.entry → q.code = l →
      Follows (k ()) w q R) : Follows (OnePass.patch is target >>= k) w p R := by
  have hrun : (OnePass.patch is target).outcome p = (.ok (), { p with code := l }) := by
    show (match p.code.patchAll is target with
      | .ok l => set { p with code := l }
      | .error e => throw (.broken (.patch e)) : OnePass Unit).outcome p = _
    rw [hpatch]
    rfl
  exact .ahead hrun rfl (hk _ rfl rfl rfl)

/-- The target of a branch is set that stands behind `front`. -/
theorem Follows.patchBranch {k : Unit → OnePass β} {w : Walk α} {front back : List Instr}
    {o : Int64} {i target : Nat} (hcode : p.code.instrs = front ++ ⟨.br, o⟩ :: back)
    (hi : i = front.length)
    (hk : ∀ q : Pass, q.state = p.state → q.entry = p.entry →
      q.code.instrs = front ++ Core.branch i target :: back → Follows (k ()) w q R) :
    Follows (OnePass.patch [i] target >>= k) w p R := by
  subst hi
  have hpatch := patch_branch front back o target
  rw [← Listing.eq_mk hcode] at hpatch
  exact .patch hpatch fun q hstate hentry hq => hk q hstate hentry (congrArg _ hq)

/-- A change of the pass that the walk does not have. -/
theorem follows_modify {R : Unit → Unit → Pass → Prop} {g : Pass → Pass}
    (hg : (g p).state = p.state) (h : R () () (g p)) :
    Follows (modify g : OnePass Unit) (pure ()) p R :=
  .inl ⟨(), (), g p, yields_pure.mpr ⟨rfl, hg⟩, rfl, h⟩

/-- The walk asks for what is known. -/
theorem Follows.get {m : OnePass β} {j : State → Walk α} (h : Follows m (j p.state) p R) :
    Follows m (get >>= j) p R :=
  h

/-- Walks that do the same are followed by the same passes. -/
theorem Follows.congr {m : OnePass β} {w v : Walk α} (h : Follows m w p R)
    (hv : v.outcome p.state = w.outcome p.state) : Follows m v p R := by
  obtain ⟨a, b, q, hw, hm, hR⟩ | ⟨f, q, hw, hm⟩ := h
  · exact .inl ⟨a, b, q, hv.trans hw, hm, hR⟩
  · exact .inr ⟨f, q, hv.trans hw, hm⟩

/-- The walk only rewords what it gives. -/
theorem Follows.behind {m : OnePass β} {P : δ → β → Pass → Prop} {f : δ → α}
    (h : Follows m w p P) (himp : ∀ a b q, P a b q → R (f a) b q) :
    Follows m (w >>= fun a => pure (f a)) p R := by
  rw [← bind_pure m]
  exact h.bind fun a b q _ hP => follows_pure (himp a b q hP)

end OnePass

/-! ## Declarations -/

theorem State.innermost?_scope (s : State) (c : Context) :
    (s.scope c).innermost? = some (s.table c, c.home) := by
  obtain ⟨_ | owner, _⟩ := c <;> rfl

theorem State.table_setTable (s : State) (c : Context) (t : Table (Entry Nat)) :
    (s.setTable c t).table c = t := by
  obtain ⟨_ | owner, _⟩ := c <;> rfl

/-- Texts take no names. -/
theorem State.Adds.has_table {s s' : State} {ts : List String} (h : s.Adds s' ts) (c : Context)
    (x : String) : (s'.table c).has x = (s.table c).has x := by
  obtain ⟨_ | owner, _⟩ := c
  · exact congrArg Option.isSome (h.find?_globals x)
  · show s'.locals.has x = s.locals.has x
    rw [h.locals]

namespace OnePass

variable {α β : Type} {p : Pass} {R : α → β → Pass → Prop} {n : Nat}

/-- Where there is a function or a program at hand, there is a table for declarations. -/
theorem Follows.innermost {c : Context} {k : Table (Entry Nat) × Location → OnePass β}
    {w : Walk α} (h : Follows (k (p.state.table c, c.home)) w p R) :
    Follows (OnePass.innermost c >>= k) w p R := by
  have hrun : (OnePass.innermost c).outcome p = (.ok (p.state.table c, c.home), p) := by
    show (match (p.state.scope c).innermost? with
      | some found => pure found
      | none => throw (.broken .noTable) : OnePass _).outcome p = _
    rw [State.innermost?_scope]
    rfl
  exact .ahead hrun rfl h

/-- A name that is not taken is inserted. -/
theorem follows_insert {c : Context} {e e' : Entry Nat} {init : Option Core.Expr}
    (hentry : e' = { e with
      initialized := init.isSome
      value := match init with
        | some a => if c.isTop then literalWord a.code else 0
        | none => 0 }) (hhas : (p.state.table c).has e.name = false) :
    Follows (insert c e') (declared c e init) p fun _ _ q => p.Grows q [] := by
  have hname : (p.state.table c).has (Symbol.name e') = false := by
    rw [hentry]
    exact hhas
  have hdeclared : (declared c e init).outcome p.state =
      (.ok (), p.state.setTable c (((p.state.table c).insert? e').getD (p.state.table c))) := by
    rw [hentry]
    rfl
  cases hinsert : (p.state.table c).insert? e' with
  | none =>
    rw [Table.insert?_eq_none_iff, hname] at hinsert
    cases hinsert
  | some t =>
    refine .innermost ?_
    dsimp only
    rw [hinsert]
    refine .congr (follows_tables (p.state.setTable_traceless c t).1) ?_
    rw [hdeclared, hinsert]
    rfl

/-- A declaration puts its variable in and emits the code that stores the initial value. -/
theorem follows_declaration (c : Context) (d : Syntax.Decl) (hp : d.Plain) (hw : d.Within n)
    (p : Pass) :
    Follows (declaration c d) (Typing.declaration c d) p fun given _ q =>
      p.Grows q (match given.2 with
        | some e => Core.Place.store ⟨c.home, given.1⟩ e
        | none => []) := by
  cases d with
  | gap g => exact follows_stuck
  | mk constant x type init cl =>
    obtain ⟨-, hinit, -⟩ := hp
    unfold declaration Typing.declaration
    refine .look fun p₁ _ h₁ => ?_
    refine .innermost (Follows.get ?_)
    dsimp only
    split
    · exact follows_reject
    rename_i hhas
    refine .get ?_
    refine (follows_tables ?_).bind fun _ _ p₂ hreserve h₂ => ?_
    · exact (State.setTable_traceless _ c _).1
    have hfree : (p₂.state.table c).has x.text = false := by
      rw [yields_modify.mp hreserve, State.table_setTable]
      simpa using hhas
    refine .look fun p₃ hlook h₃ => ?_
    cases init with
    | some i =>
      refine .emit fun p₄ hemit h₄ => ?_
      refine .ahead rfl rfl ?_
      refine .phrase (traces_initial c x type i (hinit i rfl) (hw.2.1 i rfl)) ?_
      rintro a _ p₅ hinitial h₅ rfl
      refine .ahead rfl rfl ?_
      refine .emit fun p₆ hstore h₆ => ?_
      refine .close fun p₇ hclose h₇ => ?_
      obtain ⟨ts, hsame, -⟩ := reads_expr c i (hinit i rfl)
        (passes_initial ⟨_, _, (adds_look hlook).trans (adds_emit hemit), hinitial,
          (adds_emit hstore).trans (adds_close hclose)⟩).1
      refine .behind (follows_insert ?_ ?_) fun _ _ q h₈ => ?_
      · have hcode : p₅.code.instrs.drop p₄.code.length = a.code := by
          rw [h₅.code]
          exact List.drop_left
        obtain ⟨_ | owner, _⟩ := c <;> simp [Context.home, Context.isTop, hcode]
      · rw [hsame.has_table]
        exact hfree
      · simpa [Core.Place.store] using h₁.trans (h₂.trans (h₃.trans (h₄.trans (h₅.trans
          (h₆.trans (h₇.trans h₈))))))
    | none =>
      dsimp only
      split
      · exact follows_reject
      refine .close fun p₄ hclose h₄ => ?_
      refine .behind (follows_insert rfl ?_) fun _ _ q h₅ => ?_
      · rw [((adds_look hlook).trans (adds_close hclose)).has_table]
        exact hfree
      · exact h₁.trans (h₂.trans (h₃.trans (h₄.trans h₅)))

end OnePass

/-! ## Statements -/

/-- A point behind a statement: what was emitted for it stands behind `front` and can be completed
to its code, no break of it leaves the function, and it is known whether it always returns. -/
structure Pass.Holds (q : Pass) (entry : Listing) (front : List Instr) (loop : Option Nat)
    (r : OnePass.Result) (code : Nat → List Instr) (terminates : Bool) : Prop where
  entry : q.entry = entry
  outside : loop = none → r.breaks = []
  emitted : ∃ is, q.code.instrs = front ++ is ∧ Completes front.length is r.breaks code
  terminates : r.terminates = terminates

/-- Behind a statement. -/
def Pass.Behind (p : Pass) (loop : Option Nat) (a : Core.Stmt) (r : OnePass.Result) (q : Pass) :
    Prop :=
  q.Holds p.entry p.code.instrs loop r
    (fun exit => a.code p.code.length ⟨loop.getD 0, exit⟩) a.terminates

/-- Behind a block. -/
def Pass.BehindBlock (p : Pass) (loop : Option Nat) (a : Core.Block) (r : OnePass.Result)
    (q : Pass) : Prop :=
  q.Holds p.entry p.code.instrs loop r
    (fun exit => a.code p.code.length ⟨loop.getD 0, exit⟩) a.terminates

theorem Pass.Grows.behind {p q : Pass} (h : p.Grows q is) {a : Core.Stmt}
    (ha : a.straight? = some is) (loop : Option Nat) :
    p.Behind loop a { terminates := a.terminates } q where
  entry := h.entry
  outside := fun _ => rfl
  emitted := by
    refine ⟨is, h.code, ?_⟩
    simp only [Core.Stmt.code_of_straight? ha]
    exact completes_straight _ is
  terminates := rfl

namespace OnePass

variable {loop : Option Nat} {n hi : Nat} {H : Prop}

open Syntax (elseTarget elseCode)

variable {p : Pass}

/-- Behind an `if` whose block `t` stands behind `front` and the branch that skips it. -/
def BehindElse (entry : Listing) (front : List Instr) (loop : Option Nat) (t : Core.Block)
    (o : Option Core.Block) (r : Result) (q : Pass) : Prop :=
  q.Holds entry front loop r
    (fun exit => Core.branch front.length (elseTarget (front.length + 1 + t.size) o) ::
      (t.code (front.length + 1) ⟨loop.getD 0, exit⟩ ++
        elseCode (front.length + 1 + t.size) ⟨loop.getD 0, exit⟩ o))
    (match o with
      | none => false
      | some a => t.terminates && a.terminates)

/-- An alternative is skipped by the block before it, and both branches are patched. -/
theorem follows_alternative {δ : Type} {m : OnePass Result} {w : Walk δ} {g : δ → Core.Block}
    {front is : List Instr} {t : Core.Block} {r : Result}
    (hcode : p.code.instrs = front ++ ⟨.br, 0⟩ :: is) (houtside : loop = none → r.breaks = [])
    (hbody : Completes (front.length + 1) is r.breaks
      fun exit => t.code (front.length + 1) ⟨loop.getD 0, exit⟩)
    (hterm : r.terminates = t.terminates)
    (hm : ∀ p : Pass, Follows m w p fun a b q => p.BehindBlock loop (g a) b q) :
    Follows (do
        let jump ← branchHere
        patch [front.length] (← here)
        let a ← m
        patch [jump] (← here)
        pure ⟨r.breaks ++ a.breaks, r.terminates && a.terminates⟩)
      (do emitBranch; return some (g (← w))) p
      (fun o b q => BehindElse p.entry front loop t o b q) := by
  have hsize := hbody.length_block
  refine .branchHere fun p₁ h₁ => ?_
  have hover : p.code.length = front.length + 1 + t.size := by
    simp [Listing.length, hcode, hsize]
    omega
  have hcode₁ : p₁.code.instrs = front ++ ⟨.br, 0⟩ :: (is ++ [⟨.br, 0⟩]) := by
    simp [h₁.code, hcode]
  refine .ahead rfl rfl (Follows.patchBranch hcode₁ rfl fun p₂ _ hentry₂ hcode₂ => ?_)
  refine (hm p₂).bind fun a b p₃ _ h₃ => ?_
  obtain ⟨js, hjs, halt⟩ := h₃.emitted
  have hcode₃ : p₃.code.instrs =
      (front ++ Core.branch front.length p₁.code.length :: is) ++ ⟨.br, 0⟩ :: js := by
    simp [hjs, hcode₂]
  have hlength : p.code.length =
      (front ++ Core.branch front.length p₁.code.length :: is).length := by
    simp [hover, hsize]
    omega
  refine .ahead rfl rfl (Follows.patchBranch hcode₃ hlength fun p₄ _ hentry₄ hcode₄ => ?_)
  refine follows_pure ⟨?_, fun hloop => ?_, ?_, ?_⟩
  · rw [hentry₄, h₃.entry, hentry₂, h₁.entry]
  · rw [houtside hloop, h₃.outside hloop]
    rfl
  · have hstop : p₁.code.length = front.length + 1 + t.size + 1 := by
      simp [Listing.length, hcode₁, hsize]
      omega
    have hend : p₃.code.length = front.length + 1 + t.size + 1 + (g a).size := by
      rw [← halt.length_block]
      simp [Listing.length, hcode₃, hsize]
      omega
    have hmiddle : p₂.code.length = front.length + 1 + t.size + 1 := by
      simp [Listing.length, hcode₂, hsize]
      omega
    have halt' : Completes (p.code.length + 1) js b.breaks
        fun exit => (g a).code (p.code.length + 1) ⟨loop.getD 0, exit⟩ := by
      rw [show p.code.length + 1 = p₂.code.length by omega]
      exact halt
    refine ⟨_, by rw [hcode₄, List.append_assoc], ?_⟩
    rw [hover] at halt'
    rw [hstop, hend, hover]
    exact (hbody.append (halt'.cons _) (by omega)).cons _
  · show (r.terminates && b.terminates) = _
    rw [hterm, h₃.terminates]

/-- A phrase that makes a statement without branches, and the semicolon behind it. -/
theorem follows_closed {w : Walk Core.Stmt} {cl : Close} {terminates : Bool}
    (ht : w.Traces n 0 hi H fun a is => a.straight? = some is)
    (hterm : ∀ a s, w.Yields p.state a s → a.terminates = terminates) :
    Follows (do let _ ← phrase w; phrase (close cl); pure { terminates })
      (do let a ← w; close cl; pure a) p (p.Behind loop) := by
  refine .phrase ht fun a is p₁ hw h₁ ha => ?_
  refine .close fun p₂ _ h₂ => ?_
  refine follows_pure ?_
  rw [← hterm a _ hw]
  exact (h₁.trans h₂).behind (by rw [List.append_nil, ha]) loop

/-- A loop is entered, and when its body is done all its targets are set. -/
theorem follows_loop {c : Context} {ord : Nat} {cond : Syntax.Relational} {m : Nat → OnePass Result}
    {w : Walk Core.Block} (hcond : cond.Plain) (hwithin : cond.Within n)
    (hm : ∀ (test : Nat) (p : Pass), Follows (m test) w p (p.BehindBlock (some test))) :
    Follows (do
        phrase (look ord)
        let _ ← branchHere
        let test ← here
        let _ ← phrase (condition c cond)
        let exit ← branchHere
        let r ← m test
        let back ← branchHere
        patch [back] test
        let stop ← here
        patch [exit] stop
        patch r.breaks stop
        pure {})
      (do
        look ord
        emitBranch
        let t ← condition c cond
        emitBranch
        let b ← w
        emitBranch
        pure (.loop t b)) p (p.Behind loop) := by
  refine .look fun p₁ _ h₁ => ?_
  refine .branchHere fun p₂ h₂ => Follows.ahead rfl rfl ?_
  refine .phrase (traces_condition c cond hcond hwithin) ?_
  rintro t _ p₃ - h₃ rfl
  refine .branchHere fun p₄ h₄ => ?_
  refine (hm p₂.code.length p₄).bind fun b r p₅ _ h₅ => ?_
  obtain ⟨is, hcode₅, hbody⟩ := h₅.emitted
  refine .branchHere fun p₆ h₆ => ?_
  have hsize := hbody.length_block
  have htest : p₂.code.length = p.code.length + 1 := (h₁.trans h₂).length
  have hexit : p₃.code.length = p.code.length + 1 + t.size := by
    rw [← htest]
    exact h₃.length
  have hinside : p₄.code.length = p.code.length + 1 + t.size + 1 := by
    rw [← hexit]
    exact h₄.length
  have hback : p₅.code.length = p.code.length + 1 + t.size + 1 + b.size := by
    rw [← hinside]
    simp [Listing.length, hcode₅, hsize]
  have hcode₆ : p₆.code.instrs =
      (p.code.instrs ++ ⟨.br, 0⟩ :: (t.code ++ ⟨.br, 0⟩ :: is)) ++ ⟨.br, 0⟩ :: [] := by
    simp [h₆.code, hcode₅, h₄.code, h₃.code, h₂.code, h₁.code]
  refine .patchBranch hcode₆ ?_ fun p₇ _ hentry₇ hcode₇ => Follows.ahead rfl rfl ?_
  · rw [hback]
    simp [hsize, Listing.length, Core.Cond.size]
    omega
  have hstop : p₇.code.length = p.code.length + 1 + t.size + 1 + b.size + 1 := by
    simp [Listing.length, hcode₇, hsize, Core.Cond.size]
    omega
  have hcode₇' : p₇.code.instrs = (p.code.instrs ++ ⟨.br, 0⟩ :: t.code) ++
      ⟨.br, 0⟩ :: (is ++ [Core.branch p₅.code.length p₂.code.length]) := by
    simp [hcode₇]
  refine .patchBranch hcode₇' ?_ fun p₈ _ hentry₈ hcode₈ => ?_
  · rw [hexit]
    simp [Listing.length, Core.Cond.size]
    omega
  -- The body is completed where it stands, between the two branches of the loop.
  have hpatch := (hbody p₇.code.length).2
    (p.code.instrs ++ ⟨.br, 0⟩ :: t.code ++ [Core.branch p₃.code.length p₇.code.length])
    [Core.branch p₅.code.length p₂.code.length] (by
      show _ = p₄.code.length
      rw [hinside]
      simp [Listing.length, Core.Cond.size]
      omega)
  rw [← Listing.eq_mk (show p₈.code.instrs = _ by simp [hcode₈])] at hpatch
  refine .patch hpatch fun p₉ _ hentry₉ hcode₉ => follows_pure ?_
  refine ⟨?_, fun _ => rfl, ⟨(Core.Stmt.loop t b).code p.code.length ⟨0, 0⟩, ?_, ?_⟩, rfl⟩
  · rw [hentry₉, hentry₈, hentry₇, h₆.entry, h₅.entry, h₄.entry, h₃.entry, h₂.entry, h₁.entry]
  · rw [hcode₉, hstop, hback, hinside, hexit, htest]
    simp [Core.Stmt.code, branch_next]
  · exact completes_straight _ _

theorem behind_choice {front : List Instr} {loop : Option Nat} {tc : Core.Cond} {t : Core.Block}
    {o : Option Core.Block} {r : Result} {q : Pass} (hfront : front = p.code.instrs ++ tc.code)
    (h : BehindElse p.entry front loop t o r q) : p.Behind loop (.choice tc t o) r q := by
  subst hfront
  have hlength : (p.code.instrs ++ tc.code).length = p.code.length + tc.size :=
    List.length_append
  obtain ⟨hentry, houtside, ⟨js, hcode, hrest⟩, hterm⟩ := h
  refine ⟨hentry, houtside, ⟨tc.code ++ js, by rw [hcode, List.append_assoc], ?_⟩, ?_⟩
  · simp only [Syntax.code_choice]
    rw [hlength] at hrest
    exact (completes_straight _ tc.code).append hrest rfl
  · rw [hterm]
    cases o <;> rfl

mutual

/-- The pass through a statement does what the walk does. -/
theorem follows_stmt (c : Context) (loop : Option Nat) (hloop : c.inLoop = loop.isSome)
    (howner : c.owner ≠ none) (s : Syntax.Stmt) (hp : s.Plain) (hw : s.Within n) (p : Pass) :
    Follows (stmt c loop s) (Typing.stmt c s) p (p.Behind loop) := by
  match s with
  | .empty =>
    rw [stmt, Typing.stmt]
    exact follows_pure (Pass.Grows.behind ⟨(List.append_nil _).symm, rfl⟩ rfl loop)
  | .declare d =>
    rw [stmt, Typing.stmt]
    refine (follows_declaration c d hp hw p).bind fun given _ q _ hgrows => ?_
    obtain ⟨slot, init⟩ := given
    have hhome : c.home = .local := by
      obtain ⟨_ | owner, _⟩ := c
      · exact absurd rfl howner
      · rfl
    rw [hhome] at hgrows
    cases init with
    | none => exact follows_pure (hgrows.behind rfl loop)
    | some a => exact follows_pure (hgrows.behind rfl loop)
  | .branch i =>
    rw [stmt, Typing.stmt]
    exact follows_branch c loop hloop howner i hp hw p
  | .loop ord cond body =>
    rw [stmt, Typing.stmt]
    exact follows_loop hp.1 hw.2.1 fun test p =>
      follows_block { c with inLoop := true } (some test) rfl howner body hp.2 hw.2.2 p
  | .ret ord value cl =>
    rw [stmt, Typing.stmt]
    refine follows_closed (traces_returned c ord value hp.1 ⟨hw.1, hw.2.1⟩) fun a s ha => ?_
    obtain ⟨-, -, rfl, -⟩ | ⟨_, _, -, -, -, -, rfl⟩ := passes_returned (.of_yields ha) <;> rfl
  | .brk ord cl =>
    cases loop with
    | none =>
      rw [stmt, Typing.stmt, hloop]
      exact .close fun _ _ _ => follows_reject
    | some test =>
      rw [stmt, Typing.stmt, hloop]
      refine .close fun p₁ _ h₁ => ?_
      refine .branchHere fun p₂ h₂ => follows_pure ?_
      have hlength : p₁.code.length = p.code.length := h₁.length
      rw [hlength]
      exact ⟨(h₁.trans h₂).entry, nofun, ⟨_, (h₁.trans h₂).code, completes_break _⟩, rfl⟩
  | .cont ord cl =>
    cases loop with
    | none =>
      rw [stmt, Typing.stmt, hloop]
      exact .close fun _ _ _ => follows_reject
    | some test =>
      rw [stmt, Typing.stmt, hloop]
      refine .close fun p₁ _ h₁ => ?_
      refine .branchHere fun p₂ h₂ => ?_
      refine .patchBranch h₂.code rfl fun p₃ _ hentry hcode => follows_pure ?_
      have hlength : p₁.code.length = p.code.length := h₁.length
      rw [hlength, h₁.code, List.append_nil] at hcode
      exact ⟨hentry.trans (h₁.trans h₂).entry, nofun, ⟨_, hcode, completes_straight _ _⟩, rfl⟩
  | .call f as cl =>
    rw [stmt, Typing.stmt]
    refine follows_closed (traces_dropped c f as hp.1 ⟨hw.1, hw.2.1⟩) fun a s ha => ?_
    obtain ⟨_, _, _, _, -, -, rfl⟩ := passes_dropped (.of_yields ha)
    rfl
  | .assign x e cl =>
    rw [stmt, Typing.stmt]
    refine follows_closed (traces_assignment c x e hp.1 ⟨hw.1, hw.2.1⟩) fun a s ha => ?_
    obtain ⟨_, _, _, _, -, -, -, -, -, rfl, -⟩ := passes_assignment (.of_yields ha)
    rfl
  | .unfinished _ g =>
    rw [stmt, Typing.stmt]
    exact follows_stuck
  | .gap g =>
    rw [stmt, Typing.stmt]
    exact follows_stuck

theorem follows_branch (c : Context) (loop : Option Nat) (hloop : c.inLoop = loop.isSome)
    (howner : c.owner ≠ none) (i : Syntax.If) (hp : i.Plain) (hw : i.Within n) (p : Pass) :
    Follows (branch c loop i) (Typing.branch c i) p (p.Behind loop) := by
  match i with
  | .mk cond body alternative =>
    rw [branch, Typing.branch]
    refine .phrase (traces_condition c cond hp.1 hw.1) ?_
    rintro tc _ p₁ - h₁ rfl
    refine .branchHere fun p₂ h₂ => ?_
    refine (follows_block c loop hloop howner body hp.2.1 hw.2.1 p₂).bind fun t r p₃ _ h₃ => ?_
    refine .look fun p₄ _ h₄ => ?_
    obtain ⟨is, hcode₃, hbody⟩ := h₃.emitted
    have hlength : p₂.code.length = p₁.code.instrs.length + 1 := h₂.length
    have hcode₄ : p₄.code.instrs = p₁.code.instrs ++ ⟨.br, 0⟩ :: is := by
      simp [h₄.code, hcode₃, h₂.code]
    have hentry : p₄.entry = p.entry := by
      rw [h₄.entry, h₃.entry, h₂.entry, h₁.entry]
    rw [show p₂.code.instrs.length = p₁.code.instrs.length + 1 from hlength, hlength] at hbody
    have hrest := follows_otherwise c loop hloop howner alternative hp.2.2 hw.2.2 p₄ hcode₄
      h₃.outside hbody h₃.terminates
    refine .congr (hrest.behind fun o b q h => behind_choice h₁.code (hentry ▸ h)) ?_
    show Walk.outcome (_ >>= _) _ = _
    congr 2
    funext o
    cases o <;> rfl

theorem follows_otherwise (c : Context) (loop : Option Nat) (hloop : c.inLoop = loop.isSome)
    (howner : c.owner ≠ none) (e : Syntax.Else) (hp : e.Plain) (hw : e.Within n) (p : Pass)
    {front is : List Instr} {t : Core.Block} {r : Result}
    (hcode : p.code.instrs = front ++ ⟨.br, 0⟩ :: is) (houtside : loop = none → r.breaks = [])
    (hbody : Completes (front.length + 1) is r.breaks
      fun exit => t.code (front.length + 1) ⟨loop.getD 0, exit⟩)
    (hterm : r.terminates = t.terminates) :
    Follows (otherwise c loop front.length r e) (Typing.otherwise c e) p
      (BehindElse p.entry front loop t) := by
  match e with
  | .none =>
    rw [otherwise, Typing.otherwise]
    refine .ahead rfl rfl (Follows.patchBranch hcode rfl fun p₁ _ hentry hcode₁ => ?_)
    refine follows_pure ⟨hentry, houtside, ⟨_, hcode₁, ?_⟩, rfl⟩
    have hsize := hbody.length_block
    have hstop : p.code.length = front.length + 1 + t.size := by
      simp [Listing.length, hcode, hsize]
      omega
    simp only [elseTarget, elseCode, List.append_nil, hstop]
    exact hbody.cons _
  | .block b =>
    rw [otherwise, Typing.otherwise]
    exact follows_alternative hcode houtside hbody hterm fun p =>
      follows_block c loop hloop howner b hp hw p
  | .branch i =>
    rw [otherwise, Typing.otherwise]
    refine follows_alternative hcode houtside hbody hterm fun p => ?_
    refine (follows_branch c loop hloop howner i hp hw p).imp fun a b q h => ?_
    simpa [Pass.Behind, Pass.BehindBlock, Core.Block.code, Core.Block.terminates] using h
  | .gap g =>
    rw [otherwise, Typing.otherwise]
    refine .branchHere fun p₁ h₁ => ?_
    have hcode₁ : p₁.code.instrs = front ++ ⟨.br, 0⟩ :: (is ++ [⟨.br, 0⟩]) := by
      simp [h₁.code, hcode]
    refine .ahead rfl rfl (Follows.patchBranch hcode₁ rfl fun p₂ _ _ _ => ?_)
    exact follows_stuck

theorem follows_block (c : Context) (loop : Option Nat) (hloop : c.inLoop = loop.isSome)
    (howner : c.owner ≠ none) (b : Syntax.Block) (hp : b.Plain) (hw : b.Within n) (p : Pass) :
    Follows (block c loop b) (Typing.block c b) p (p.BehindBlock loop) := by
  match b with
  | .stmts ss =>
    rw [block, Typing.block]
    exact follows_stmts c loop hloop howner ss hp hw p
  | .gap g =>
    rw [block, Typing.block]
    exact follows_stuck

theorem follows_stmts (c : Context) (loop : Option Nat) (hloop : c.inLoop = loop.isSome)
    (howner : c.owner ≠ none) (ss : Syntax.Stmts) (hp : ss.Plain) (hw : ss.Within n) (p : Pass) :
    Follows (stmts c loop ss) (Typing.stmts c ss) p (p.BehindBlock loop) := by
  match ss with
  | .done ord =>
    rw [stmts, Typing.stmts]
    refine .look fun p₁ _ h₁ => ?_
    exact follows_pure ⟨h₁.entry, fun _ => rfl, ⟨[], h₁.code, completes_straight _ _⟩, rfl⟩
  | .more s rest =>
    rw [stmts, Typing.stmts]
    refine (follows_stmt c loop hloop howner s hp.1 hw.1 p).bind fun a r p₁ _ h₁ => ?_
    refine (follows_stmts c loop hloop howner rest hp.2 hw.2 p₁).bind fun b rs p₂ _ h₂ => ?_
    refine follows_pure ⟨h₂.entry.trans h₁.entry, fun hnone => ?_, ?_, ?_⟩
    · rw [h₁.outside hnone, h₂.outside hnone]
      rfl
    · obtain ⟨is, hcode₁, hfirst⟩ := h₁.emitted
      obtain ⟨js, hcode₂, hrest⟩ := h₂.emitted
      have hsize : is.length = a.size := by rw [← (hfirst 0).1, a.length_code]
      have hlength : p₁.code.length = p.code.length + a.size := by
        simp [Listing.length, hcode₁, hsize]
      simp only [hlength] at hrest
      refine ⟨is ++ js, by rw [hcode₂, hcode₁, List.append_assoc], ?_⟩
      exact hfirst.append hrest (by rw [hcode₁, List.length_append])
    · show (r.terminates || rs.terminates) = _
      rw [h₁.terminates, h₂.terminates]
      rfl

end

end OnePass

end Typing

end TinyC
