import TinyC.Proofs.Symbol.Operations

/-!
# Two ways to find a name

What a name stands for in a function can be found in two ways. A scope is a stack of tables, those
of the globals, of the parameters and of the local variables, and the innermost one with the name
counts. Or else the name is looked up in the table of the local variables, which has the parameters
behind it, and then in that of the globals. The table of the parameters is made with the first
parameter, and linked to that of the local variables then. Whatever is done to a function keeps the
two in line (`Workbench.Linked`), so both ways lead to the same entry.
-/

namespace TinyC

namespace Scope

variable {τ κ α : Type}

/-- The new innermost table comes first, if there is one. -/
theorem resolve_push (s : Scope τ κ) (t : Option τ) (k : κ) (find? : τ → String → Option α)
    (name : String) :
    (s.push t k).resolve find? name
      = ((t.bind (find? · name)).map (·, k)).or (s.resolve find? name) := by
  cases t with
  | none => rfl
  | some t =>
    simp only [push, resolve, List.findSome?_cons, Option.bind_some]
    cases find? t name <;> rfl

end Scope

/-- What is done to a function: a parameter is added, or something is done to the table of its local
variables. -/
inductive FunctionOp where
  | param (e : Int)
  | locals (op : TableOp)

/-- The operation on one of the tables of the function that it comes to. -/
def FunctionOp.tableOp : FunctionOp → TableOp
  | param e => .add e
  | locals op => op

namespace Workbench

/-- The workbench behind operations on a function and the table of its local variables, the newest
of which comes first. Some of them may have been refused. -/
def built (fn lt : Int) (w : Workbench) : List FunctionOp → Workbench
  | [] => w
  | .param e :: before => ((param fn e).run.run (built fn lt w before)).2
  | .locals op :: before => ((op.run lt).run.run (built fn lt w before)).2

/-- Looks a name up in a table and those behind it. -/
def lookupIn (w : Workbench) (t : Nat) (name : String) : Option Nat :=
  w.findFrom name (w.tables.size + 1) (some t)

/-- The scope of a number. -/
def scopeAt (w : Workbench) (s : Int) : Scope Nat Int :=
  (if 0 ≤ s then w.scopes[s.toNat]? else none).getD {}

/-- The tables that are visible in a function. -/
def functionScope (w : Workbench) (f g : Nat) : Scope Nat Location :=
  ((Scope.push {} (some g) .global).push (w.entryAt f).params .param).push
    (w.entryAt f).locals .local

/-- Behind the table of the local variables of a function there is that of its parameters, if it has
one, and behind that and the globals there is nothing. -/
structure Linked (w : Workbench) (f l g : Nat) : Prop where
  entry : f < w.entries.size
  table : l < w.tables.size
  globals : g < w.tables.size
  apart : g ≠ l
  root : (w.tableAt g).fallback = none
  locals : (w.entryAt f).locals = some l
  link : (w.tableAt l).fallback = (w.entryAt f).params
  last : ∀ t, (w.entryAt f).params = some t → (w.tableAt t).fallback = none

/-- Numbers stand for what they stood for. -/
structure Extends (w w' : Workbench) : Prop where
  shownEntries : w'.shownEntries = w.shownEntries
  entries : w'.entries.size = w.entries.size
  shownTables : ∀ t k, w.tableShown? t = some k → w'.tableShown? t = some k

section

variable {w w' w'' : Workbench} {f l g t : Nat} {fn lt e : Int} {op : TableOp}

theorem Extends.trans (h : w.Extends w') (h' : w'.Extends w'') : w.Extends w'' :=
  ⟨h'.shownEntries.trans h.shownEntries, h'.entries.trans h.entries,
    fun t k ht => h'.shownTables t k (h.shownTables t k ht)⟩

theorem Alike.extends (h : w.Alike w') : w.Extends w' :=
  ⟨h.shownEntries, h.entries, fun t _ ht => (h.tableShown? t).trans ht⟩

theorem Extends.entryShown? (h : w.Extends w') (e : Int) : w'.entryShown? e = w.entryShown? e := by
  rw [Workbench.entryShown?, Workbench.entryShown?, h.shownEntries]

theorem Extends.knows (h : w.Extends w') (hop : w.Knows op) : w'.Knows op := by
  intro e he
  obtain ⟨i, hi, hlt⟩ := hop e he
  exact ⟨i, (h.entryShown? e).trans hi, by rwa [h.entries]⟩

namespace Linked

theorem of_alike (h : w.Linked f l g) (ha : w.Alike w') : w'.Linked f l g where
  entry := ha.entries ▸ h.entry
  table := ha.tables ▸ h.table
  globals := ha.tables ▸ h.globals
  apart := h.apart
  root := (ha.links g).trans h.root
  locals := (ha.owned f).2.trans h.locals
  link := by rw [ha.links, (ha.owned f).1, h.link]
  last t ht := by
    rw [(ha.owned f).1] at ht
    rw [ha.links, h.last t ht]

/-- The name is looked for among the local variables and then among the parameters. -/
theorem lookupIn_locals (h : w.Linked f l g) (name : String) :
    w.lookupIn l name
      = (w.findIn l name).or ((w.entryAt f).params.bind (w.findIn · name)) := by
  obtain ⟨n, hn⟩ : ∃ n, w.tables.size = n + 1 := ⟨w.tables.size - 1, by have := h.table; omega⟩
  rw [lookupIn, hn, findFrom, h.link, Option.orElse_eq_orElse, Option.orElse_eq_or]
  cases ht : (w.entryAt f).params with
  | none => rfl
  | some t =>
    rw [findFrom, h.last t ht, Option.orElse_eq_orElse, Option.orElse_eq_or]
    have hnone : w.findFrom name n none = none := by cases n <;> rfl
    rw [hnone, Option.or_none]
    rfl

theorem lookupIn_globals (h : w.Linked f l g) (name : String) :
    w.lookupIn g name = w.findIn g name := by
  rw [lookupIn, findFrom, h.root, Option.orElse_eq_orElse, Option.orElse_eq_or]
  have hnone : w.findFrom name w.tables.size none = none := by cases w.tables.size <;> rfl
  rw [hnone, Option.or_none]

/-- What a name stands for in a function: the innermost table that has it counts. -/
theorem resolve_eq (h : w.Linked f l g) (name : String) :
    (w.functionScope f g).resolve w.findIn name
      = ((w.findIn l name).map (·, .local)).or
        ((((w.entryAt f).params.bind (w.findIn · name)).map (·, .param)).or
          ((w.findIn g name).map (·, .global))) := by
  rw [functionScope, Scope.resolve_push, Scope.resolve_push, Scope.resolve_push, h.locals]
  simp [Scope.resolve]

end Linked

/-! ## What is done to a function -/

/-- The workbench with a table for the parameters of a function, behind that of its local
variables. -/
def withParams (w : Workbench) (f l : Nat) : Workbench :=
  { w with
    entries := w.entries.modify f fun b => { b with params := some w.tables.size }
    tables := (w.tables.push {}).modify l fun b => { b with fallback := some w.tables.size } }

theorem entryAt_withParams (hf : f < w.entries.size) :
    (w.withParams f l).entryAt f = { w.entryAt f with params := some w.tables.size } := by
  simp only [entryAt, withParams, Array.getElem?_modify, if_true]
  rw [Array.getElem?_eq_getElem hf]
  rfl

theorem fallback_withParams {j : Nat} (hj : j ≠ l) :
    ((w.withParams f l).tableAt j).fallback = (w.tableAt j).fallback := by
  simp only [tableAt, withParams, Array.getElem?_modify, if_neg (Ne.symm hj), Array.getElem?_push]
  split
  · rename_i heq
    rw [heq, Array.getElem?_eq_none (Nat.le_refl _)]
    rfl
  · rfl

/-- The first parameter makes the link. -/
theorem linked_withParams (h : w.Linked f l g) : (w.withParams f l).Linked f l g := by
  have hentry := entryAt_withParams (l := l) h.entry
  have hsize : (w.withParams f l).tables.size = w.tables.size + 1 := by simp [withParams]
  refine ⟨by simpa [withParams] using h.entry, by have := h.table; omega,
    by have := h.globals; omega, h.apart, ?_, by rw [hentry]; exact h.locals, ?_, fun t ht => ?_⟩
  · rw [fallback_withParams h.apart, h.root]
  · rw [hentry]
    simp only [tableAt, withParams, Array.getElem?_modify, if_true, Array.getElem?_push]
    rw [if_neg (Nat.ne_of_lt h.table), Array.getElem?_eq_getElem h.table]
    rfl
  · rw [hentry] at ht
    cases ht
    rw [fallback_withParams (Nat.ne_of_gt h.table), tableAt,
      Array.getElem?_eq_none (Nat.le_refl _)]
    rfl

theorem run_paramsOf (h : w.Linked f l g) :
    ∃ t w', (paramsOf f).run.run w = (.ok t, w') ∧ w'.Linked f l g ∧ w.Extends w' := by
  cases hp : (w.entryAt f).params with
  | some t =>
    refine ⟨t, w, ?_, h, (Alike.refl w).extends⟩
    rw [paramsOf, run_bind (run_get w), hp]
    rfl
  | none =>
    refine ⟨w.tables.size, w.withParams f l, ?_, linked_withParams h,
      ⟨rfl, by simp [withParams], fun _ _ ht => ht⟩⟩
    have hlocals : ((w.withParams f l).entryAt f).locals = some l := by
      rw [entryAt_withParams h.entry, h.locals]
    let w₁ : Workbench := { w with tables := w.tables.push {} }
    let w₂ : Workbench :=
      { w₁ with entries := w.entries.modify f fun b => { b with params := some w.tables.size } }
    have hnew : (newTable none).run.run w = (.ok w.tables.size, w₁) := rfl
    have hseen : (modifyEntry f fun b => { b with params := some w.tables.size }).run.run w₁
        = (.ok (), w₂) := rfl
    rw [paramsOf, run_bind (run_get w), hp]
    show (makeParams f).run.run w = _
    rw [makeParams, run_bind hnew, run_bind hseen, run_bind (run_get w₂),
      show (w₂.entryAt f).locals = some l from hlocals]
    rfl

/-- Adding an entry to a table keeps the links. -/
theorem alike_addTo (w : Workbench) (k i : Nat) : w.Alike ((addTo k i).run.run w).2 := by
  rw [run_addTo]
  split
  · exact .refl w
  · exact (alike_withTable ..).trans (alike_withSlot ..)

/-- The number under which something is shown, and what is shown then. -/
def numbered (shown : Array Nat) (k : Nat) : Nat × Array Nat :=
  match shown.findIdx? (· == k) with
  | some n => (n, shown)
  | none => (shown.size, shown.push k)

/-- What is shown has its number, and other things keep theirs. -/
theorem getElem?_numbered (shown : Array Nat) (k : Nat) :
    (numbered shown k).2[(numbered shown k).1]? = some k ∧
      ∀ (j k' : Nat), shown[j]? = some k' → (numbered shown k).2[j]? = some k' := by
  unfold numbered
  split
  · rename_i n hfound
    obtain ⟨hn, heq, -⟩ := Array.findIdx?_eq_some_iff_getElem.mp hfound
    exact ⟨by rw [Array.getElem?_eq_getElem hn, beq_iff_eq.mp heq], fun _ _ h => h⟩
  · refine ⟨Array.getElem?_push_size, fun j k' hj => ?_⟩
    obtain ⟨hlt, -⟩ := Array.getElem?_eq_some_iff.mp hj
    rw [Array.getElem?_push_lt hlt, ← Array.getElem?_eq_getElem hlt, hj]

theorem run_showTable (w : Workbench) (k : Nat) : (showTable k).run.run w =
    (.ok (numbered w.shownTables k).1,
      { w with shownTables := (numbered w.shownTables k).2 }) := by
  rw [showTable, run_bind (run_get w), numbered]
  cases w.shownTables.findIdx? (· == k) <;> rfl

theorem run_showEntry (w : Workbench) (i : Nat) : (showEntry i).run.run w =
    (.ok (numbered w.shownEntries i).1,
      { w with shownEntries := (numbered w.shownEntries i).2 }) := by
  rw [showEntry, run_bind (run_get w), numbered]
  cases w.shownEntries.findIdx? (· == i) <;> rfl

/-- A parameter, taken or refused, keeps the links. -/
theorem linked_param (h : w.Linked f l g) (hfn : w.entryShown? fn = some f)
    (he : w.Knows (.add e)) :
    (((param fn e).run.run w).2).Linked f l g ∧ w.Extends ((param fn e).run.run w).2 := by
  obtain ⟨t, w₁, hparams, hlinked, hextends⟩ := run_paramsOf h
  obtain ⟨i, hi, -⟩ := he e rfl
  have hadd := alike_addTo w₁ t i
  rw [param, run_bind (run_entryOf hfn), run_bind hparams,
    run_bind (run_entryOf ((hextends.entryShown? e).trans hi)), ExceptT.run_bind, StateT.run_bind]
  generalize (addTo t i).run.run w₁ = r at hadd ⊢
  obtain ⟨error | slot, w₂⟩ := r
  · exact ⟨hlinked.of_alike hadd, hextends.trans hadd.extends⟩
  · show Linked ((showTable t >>= fun number => _).run.run w₂).2 f l g ∧
      w.Extends ((showTable t >>= fun number => _).run.run w₂).2
    rw [run_bind (run_showTable w₂ t)]
    have h₂ := hlinked.of_alike hadd
    refine ⟨⟨h₂.entry, h₂.table, h₂.globals, h₂.apart, h₂.root, h₂.locals, h₂.link, h₂.last⟩,
      (hextends.trans hadd.extends).trans ⟨rfl, rfl, fun j k hj => ?_⟩⟩
    unfold tableShown? at hj ⊢
    split at hj
    · rw [if_pos ‹_›]
      exact (getElem?_numbered _ t).2 _ _ hj
    · cases hj

/-- An operation on the local variables, carried out or refused, keeps the links. -/
theorem linked_run (h : w.Linked f l g) (hlt : w.tableShown? lt = some l) (hop : w.Knows op) :
    (((op.run lt).run.run w).2).Linked f l g ∧ w.Extends ((op.run lt).run.run w).2 := by
  obtain ⟨slot, w', hrun, hdone⟩ | ⟨i, -, -, -, hrun⟩ := stepped hlt h.table hop
  · rw [hrun]
    exact ⟨h.of_alike hdone.alike, hdone.alike.extends⟩
  · rw [hrun]
    exact ⟨h, (Alike.refl w).extends⟩

/-- **Whatever is done to a function keeps the links.** -/
theorem linked_built (h : w.Linked f l g) (hfn : w.entryShown? fn = some f)
    (hlt : w.tableShown? lt = some l) {ops : List FunctionOp}
    (hops : ∀ op ∈ ops, w.Knows op.tableOp) :
    (built fn lt w ops).Linked f l g ∧ w.Extends (built fn lt w ops) := by
  induction ops with
  | nil => exact ⟨h, (Alike.refl w).extends⟩
  | cons op before ih =>
    obtain ⟨hop, hbefore⟩ := List.forall_mem_cons.mp hops
    obtain ⟨hlinked, hextends⟩ := ih hbefore
    cases op with
    | param e =>
      obtain ⟨hnext, hmore⟩ := linked_param hlinked ((hextends.entryShown? fn).trans hfn)
        (hextends.knows hop)
      exact ⟨hnext, hextends.trans hmore⟩
    | locals op =>
      obtain ⟨hnext, hmore⟩ := linked_run hlinked (hextends.shownTables lt l hlt)
        (hextends.knows hop)
      exact ⟨hnext, hextends.trans hmore⟩

end

/-! ## New functions -/

section

variable {w₀ w : Workbench} {g : Nat} {x : String} {type : Int} {pos : Option Position}
  {v : EntryView}

/-- A new function has a table of local variables with nothing behind it. -/
theorem linked_function (h : (function x type pos).run.run w₀ = (.ok v, w))
    (hg : g < w₀.tables.size) (hroot : (w₀.tableAt g).fallback = none) :
    w.Linked w₀.entries.size w₀.tables.size g ∧ w.entryShown? v.number = some w₀.entries.size ∧
      w.tableShown? v.locals = some w₀.tables.size := by
  cases htype : Ty.ofNumber? type with
  | none =>
    rw [function, typeOf, htype] at h
    cases h
  | some ty =>
    let b : BenchEntry :=
      { entry := (Function.start x ty pos).toEntry, locals := some w₀.tables.size, code := some [] }
    let w₁ : Workbench :=
      { w₀ with tables := w₀.tables.push {}, entries := w₀.entries.push b }
    have hb : w₁.entryAt w₀.entries.size = b := by simp [w₁, entryAt]
    have hrun : (function x type pos).run.run w₀ =
        (.ok ⟨(numbered w₀.shownEntries w₀.entries.size).1, b.entry, 0, -1,
            (numbered w₀.shownTables w₀.tables.size).1⟩,
          { w₁ with
            shownEntries := (numbered w₀.shownEntries w₀.entries.size).2
            shownTables := (numbered w₀.shownTables w₀.tables.size).2 }) := by
      rw [function, typeOf, htype]
      show (showEntry w₀.entries.size >>= fun number => do
        let params ← showTable? (w₁.entryAt w₀.entries.size).params
        let locals ← showTable? (w₁.entryAt w₀.entries.size).locals
        return EntryView.mk number (w₁.entryAt w₀.entries.size).entry
          ((← get).paramCount (w₁.entryAt w₀.entries.size)) params locals).run.run w₁ = _
      rw [run_bind (run_showEntry w₁ _), hb]
      show ((showTable w₀.tables.size >>= fun k => pure (k : Int)) >>=
        fun locals => _).run.run _ = _
      rw [bind_assoc, run_bind (run_showTable _ _)]
      rfl
    rw [hrun] at h
    cases h
    have hnew : (w₁.tableAt w₀.tables.size).fallback = none := by simp [w₁, tableAt]
    have hold : (w₁.tableAt g).fallback = none := by
      rw [← hroot]
      simp [w₁, tableAt, Array.getElem?_push, Nat.ne_of_lt hg]
    refine ⟨⟨by simp [w₁], by simp [w₁], by simp [w₁]; omega, Nat.ne_of_lt hg, hold,
      congrArg BenchEntry.locals hb, hnew.trans (congrArg BenchEntry.params hb).symm,
      fun t ht => ?_⟩, ?_, ?_⟩
    · cases (congrArg BenchEntry.params hb).symm.trans ht
    · simpa [entryShown?] using (getElem?_numbered w₀.shownEntries w₀.entries.size).1
    · simpa [tableShown?] using (getElem?_numbered w₀.shownTables w₀.tables.size).1

/-- A scope that is there is not changed by pushing a table onto it, or onto another one. -/
theorem resolve_behind_push (w : Workbench) (s t k : Int) {s' : Int}
    (hs' : s'.toNat < w.scopes.size) (name : String) :
    (((push s t k).run.run w).2.scopeAt s').resolve ((push s t k).run.run w).2.findIn name
      = (w.scopeAt s').resolve w.findIn name := by
  obtain ⟨scope, hpush⟩ : ∃ scope,
      ((push s t k).run.run w).2 = { w with scopes := w.scopes.push scope } := ⟨_, rfl⟩
  rw [hpush]
  unfold scopeAt
  dsimp only
  rw [Array.getElem?_push_lt hs', ← Array.getElem?_eq_getElem hs']
  rfl

/-- **The two ways to find a name agree.** A function is made, and then parameters are added to it
and things are done to the table of its local variables, some of which may be refused. In the scope
of the globals, the parameters and the local variables a name stands for the entry that is found by
looking it up in the table of the local variables or else in that of the globals, and its place is
that of the innermost table that holds the name. Pushing a table onto a scope makes a new scope and
leaves the others as they are. -/
theorem name_resolutions_agree (hnew : (function x type pos).run.run w₀ = (.ok v, w))
    (hg : g < w₀.tables.size) (hroot : (w₀.tableAt g).fallback = none) {ops : List FunctionOp}
    (hops : ∀ op ∈ ops, w.Knows op.tableOp) (name : String) :
    let w' := built v.number v.locals w ops
    let f := w₀.entries.size
    let l := w₀.tables.size
    let found := (w'.functionScope f g).resolve w'.findIn name
    found.map Prod.fst = (w'.lookupIn l name).or (w'.lookupIn g name) ∧
    (lookup v.locals name).run.run w' = (view? (w'.lookupIn l name)).run.run w' ∧
    (∀ e place, found = some (e, place) ↔
      place = .local ∧ w'.findIn l name = some e ∨
      w'.findIn l name = none ∧
        (place = .param ∧ (∃ t, (w'.entryAt f).params = some t ∧ w'.findIn t name = some e) ∨
        (∀ t, (w'.entryAt f).params = some t → w'.findIn t name = none) ∧
          place = .global ∧ w'.findIn g name = some e)) ∧
    ∀ s t k s', s'.toNat < w'.scopes.size →
      (((push s t k).run.run w').2.scopeAt s').resolve ((push s t k).run.run w').2.findIn name
        = (w'.scopeAt s').resolve w'.findIn name := by
  obtain ⟨hlinked, hfn, hlt⟩ := linked_function hnew hg hroot
  obtain ⟨h, hextends⟩ := linked_built hlinked hfn hlt hops
  refine ⟨?_, ?_, fun e place => ?_, fun s t k s' hs' => resolve_behind_push _ s t k hs' name⟩
  · rw [h.resolve_eq, h.lookupIn_locals, h.lookupIn_globals]
    generalize (built v.number v.locals w ops).findIn _ name = a
    generalize Option.bind _ _ = b
    generalize (built v.number v.locals w ops).findIn _ name = c
    cases a <;> cases b <;> cases c <;> rfl
  · show (view? ((built v.number v.locals w ops).findFrom name _
      ((built v.number v.locals w ops).tableShown? v.locals))).run.run _ = _
    rw [hextends.shownTables _ _ hlt]
    rfl
  · rw [h.resolve_eq]
    have hmap (o : Option Nat) (k : Location) :
        o.map (·, k) = some (e, place) ↔ place = k ∧ o = some e := by
      cases o <;> simp [eq_comm, and_comm]
    simp only [Option.or_eq_some_iff, Option.map_eq_none_iff, hmap, Option.bind_eq_some_iff,
      Option.bind_eq_none_iff]

end

/-- A workbench with a table of two globals and three more entries of the same names. -/
def stocked : Workbench where
  entries := (["x", "y", "x", "x", "y"].map fun name => { entry := Entry.ofText name "" }).toArray
  tables := #[{ table := ⟨[⟨0, "x"⟩, ⟨1, "y"⟩], 2⟩ }]
  shownEntries := #[0, 1, 2, 3, 4]
  shownTables := #[0]

/-- What is done to a function there, the newest first. The second parameter is refused. -/
def stockedOps : List FunctionOp :=
  [.locals (.add 4), .param 3, .param 2]

/-- The parameter and the local variable hide the globals. -/
theorem name_resolutions_agree_stocked :
    let w := built 5 1 ((function "f" 0 none).run.run stocked).2 stockedOps
    (w.functionScope 5 0).resolve w.findIn "x" = some (2, .param) ∧
    (w.functionScope 5 0).resolve w.findIn "y" = some (4, .local) ∧
    (w.lookupIn 1 "x").or (w.lookupIn 0 "x") = some 2 ∧
    (w.lookupIn 1 "y").or (w.lookupIn 0 "y") = some 4 := by
  have hnew : (function "f" 0 none).run.run stocked
      = (.ok ⟨5, (Function.start "f" .void none).toEntry, 0, -1, 1⟩,
        ((function "f" 0 none).run.run stocked).2) := by
    with_unfolding_all rfl
  have hops : ∀ op ∈ stockedOps, ((function "f" 0 none).run.run stocked).2.Knows op.tableOp := by
    intro op hop
    simp only [stockedOps, List.mem_cons, List.not_mem_nil, or_false] at hop
    rcases hop with rfl | rfl | rfl <;> intro e he <;> cases he
    · exact ⟨4, by decide +kernel⟩
    · exact ⟨3, by decide +kernel⟩
    · exact ⟨2, by decide +kernel⟩
  obtain ⟨hx, -⟩ := name_resolutions_agree (g := 0) hnew (by decide) rfl hops "x"
  obtain ⟨hy, -⟩ := name_resolutions_agree (g := 0) hnew (by decide) rfl hops "y"
  refine ⟨by decide +kernel, by decide +kernel, hx.symm.trans ?_, hy.symm.trans ?_⟩
  · decide +kernel
  · decide +kernel

end Workbench

end TinyC
