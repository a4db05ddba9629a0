import TinyC.Proofs.Typing.Branches

/-!
# What a walk leaves behind

A walk through a phrase enters the code of the phrase in the journal, one instruction after the
other. When it stops with a fault, the fault is reported at a token that the walk has looked at,
and if it is a gap of the tree it tells what could have stood there.

A walk through the tree of a row looks only at tokens of the row. So do the journal that it keeps
and the tables that it builds: whatever number of a token stands in them is that of a token of the
row (`State.Before`). And the walk goes through to its end only if the tree has no gap, and stops
for want of a token only if there is one.

All this is said at once by `Walk.Traces`, which also keeps account of how many tokens have been
looked at: at least `lo` before the walk and at least `hi` behind it. A fault is mostly reported at
the first token of a phrase, long after that token was looked at. From the steps of a walk it is put
together for phrases, statements, functions and programs (`traces_program`).
-/

namespace TinyC

/-! ## Places in tables -/

section

variable {α : Type} {a : α}

/-- All symbols of the table have a property. -/
def Table.Holds (P : α → Prop) (t : Table α) : Prop :=
  ∀ a ∈ t.rows, P a

variable [Symbol α] {P : α → Prop} {t : Table α}

theorem Table.Holds.insert (h : t.Holds P) (ha : P a) : ((t.insert? a).getD t).Holds P := by
  unfold Table.insert?
  split
  · exact h
  · exact List.forall_mem_append.2 ⟨h, List.forall_mem_singleton.2 ha⟩

theorem Table.Holds.of_add {t' : Table α} (h : t.Holds P) (ha : P (Symbol.seat a t.count))
    (heq : t.add? a = some t') : t'.Holds P := by
  have hinsert : (t.reserve a).2.insert? (t.reserve a).1 = some t' := heq
  have hrows : (t.reserve a).2.Holds P := h
  have hall := hrows.insert ha
  rw [show (t.reserve a).2.insert? (Symbol.seat a t.count) = some t' from hinsert] at hall
  exact hall

theorem Table.Holds.add (h : t.Holds P) (ha : P (Symbol.seat a t.count)) :
    ((t.add? a).getD t).Holds P := by
  cases heq : t.add? a with
  | none => exact h
  | some t' => exact h.of_add ha heq

theorem Table.Holds.modify {name : String} {f : α → α} (h : t.Holds P)
    (hf : ∀ a, P a → P (f a)) : (t.modify name f).Holds P := by
  intro b hb
  obtain ⟨a, ha, rfl⟩ := List.mem_map.1 hb
  split
  · exact hf a (h a ha)
  · exact h a ha

end

/-- A symbol was declared at one of `n` tokens, if it was declared at all. -/
def Entry.Before (n : Nat) (e : Entry Nat) : Prop :=
  ∀ ord, e.pos = some ord → ord < n

/-- A function, its parameters and its local variables were declared at tokens among `n`. -/
structure Function.Before (n : Nat) (f : Function Nat) : Prop where
  entry : f.toEntry.Before n
  params : ∀ t, f.params = some t → t.Holds (Entry.Before n)
  locals : f.locals.Holds (Entry.Before n)

/-- All that tables name was declared at tokens among `n`. -/
structure ProgramTables.Before (n : Nat) (t : ProgramTables Nat) : Prop where
  globals : t.globals.Holds (Entry.Before n)
  functions : t.functions.Holds (Function.Before n)

section

variable {n : Nat} {ρ : Type} {g g' : Nat → ρ}

theorem Entry.Before.mapPos_congr {e : Entry Nat} (h : e.Before n)
    (hg : ∀ ord < n, g ord = g' ord) : e.mapPos g = e.mapPos g' := by
  unfold Entry.mapPos
  rw [Option.map_congr fun ord hord => hg ord (h ord hord)]

theorem Table.Holds.mapPos_congr {t : Table (Entry Nat)} (h : t.Holds (Entry.Before n))
    (hg : ∀ ord < n, g ord = g' ord) : t.map (Entry.mapPos g) = t.map (Entry.mapPos g') := by
  unfold Table.map
  rw [List.map_congr_left fun e he => (h e he).mapPos_congr hg]

theorem Function.Before.mapPos_congr {f : Function Nat} (h : f.Before n)
    (hg : ∀ ord < n, g ord = g' ord) : f.mapPos g = f.mapPos g' := by
  unfold Function.mapPos
  rw [h.entry.mapPos_congr hg, h.locals.mapPos_congr hg,
    Option.map_congr fun t ht => (h.params t ht).mapPos_congr hg]

/-- Tables in places depend only on the places of tokens before the last. -/
theorem ProgramTables.Before.mapPos_congr {t : ProgramTables Nat} (h : t.Before n)
    (hg : ∀ ord < n, g ord = g' ord) : t.mapPos g = t.mapPos g' := by
  unfold ProgramTables.mapPos
  rw [h.globals.mapPos_congr hg]
  have hfunctions : t.functions.map (Function.mapPos g) = t.functions.map (Function.mapPos g') := by
    unfold Table.map
    rw [List.map_congr_left fun f hf => (h.functions f hf).mapPos_congr hg]
  rw [hfunctions]

end

namespace Typing

variable {v : Operand}

open Syntax (Gap Close Name ValuePlain ValueWhole ValueWithin)

/-- What has been looked at is among `n` tokens: by the walk, when it settled on an instruction and
where something was declared. -/
structure State.Before (n : Nat) (s : State) : Prop where
  seen : s.seen ≤ n
  journal : ∀ e ∈ s.journal, e.seen ≤ n
  globals : s.globals.Holds (Entry.Before n)
  functions : s.functions.Holds (Function.Before n)
  params : ∀ t, s.params = some t → t.Holds (Entry.Before n)
  locals : s.locals.Holds (Entry.Before n)

/-- Instructions were entered in the journal on the way from one state to another. -/
def State.Writes (s s' : State) (is : List Instr) : Prop :=
  ∃ es : List Emission, s'.journal = es ++ s.journal ∧ es.reverse.map Emission.instr = is

/-- A fault is reported at a token that was looked at, and a gap tells what could stand there. -/
structure Fault.Located (f : Fault) (s : State) : Prop where
  seen : f.ord < s.seen
  want : ∀ ks, f.cause = .expected ks → ks ≠ []

/-- Where `lo` tokens have been looked at, the walk enters instructions that fit what it gives, and
then `hi` tokens have been looked at; or it stops with a fault that is located. It goes through only
where `P` holds, and where `P` holds does not stop for want of a token. And it looks at `n` tokens
only. -/
def Walk.Traces {α : Type} (n lo : Nat) (w : Walk α) (hi : Nat) (P : Prop)
    (Q : α → List Instr → Prop) : Prop :=
  ∀ s : State, lo ≤ s.seen →
    match w.outcome s with
    | (.ok a, s') => (s.Before n → s'.Before n) ∧ P ∧ hi ≤ s'.seen ∧ ∃ is, s.Writes s' is ∧ Q a is
    | (.error f, s') =>
      (s.Before n → s'.Before n) ∧ f.Located s' ∧ (P → f.cause.code ≠ .expectedToken)

theorem State.Writes.refl (s : State) : s.Writes s [] :=
  ⟨[], rfl, rfl⟩

theorem State.Writes.trans {s s' s'' : State} {is js : List Instr} (h : s.Writes s' is)
    (h' : s'.Writes s'' js) : s.Writes s'' (is ++ js) := by
  obtain ⟨es, hes, rfl⟩ := h
  obtain ⟨fs, hfs, rfl⟩ := h'
  refine ⟨fs ++ es, by rw [hfs, hes, List.append_assoc], ?_⟩
  rw [List.reverse_append, List.map_append]

namespace Walk

variable {α β : Type} {P P' : Prop} {n lo m hi : Nat} {w : Walk α} {k : α → Walk β}
  {Q : α → List Instr → Prop} {R : β → List Instr → Prop} {ord : Nat}

/-- Two walks in a row need what both need. -/
theorem Traces.bind (hw : w.Traces n lo m P Q)
    (hk : ∀ a is, Q a is → (k a).Traces n m hi P' fun b js => R b (is ++ js)) :
    (w >>= k).Traces n lo hi (P ∧ P') R := by
  intro s hs
  have hfirst := hw s hs
  rw [outcome_bind]
  rcases hout : w.outcome s with ⟨f | a, t⟩
  · rw [hout] at hfirst
    exact ⟨hfirst.1, hfirst.2.1, fun h => hfirst.2.2 h.1⟩
  · rw [hout] at hfirst
    obtain ⟨hbefore, hP, hm, is, hwrites, ha⟩ := hfirst
    have hrest := hk a is ha t hm
    dsimp only
    rcases hout' : (k a).outcome t with ⟨f | b, u⟩
    · rw [hout'] at hrest
      exact ⟨fun hs => hrest.1 (hbefore hs), hrest.2.1, fun h => hrest.2.2 h.2⟩
    · rw [hout'] at hrest
      obtain ⟨hbefore', hP', hhi, js, hwrites', hb⟩ := hrest
      exact ⟨fun hs => hbefore' (hbefore hs), ⟨hP, hP'⟩, hhi, is ++ js,
        hwrites.trans hwrites', hb⟩

theorem Traces.of_iff (h : w.Traces n lo hi P Q) (hiff : P ↔ P') : w.Traces n lo hi P' Q := by
  rwa [← propext hiff]

/-- The second of two walks needs nothing. -/
theorem Traces.after (hw : w.Traces n lo m P Q)
    (hk : ∀ a is, Q a is → (k a).Traces n m hi True fun b js => R b (is ++ js)) :
    (w >>= k).Traces n lo hi P R :=
  (hw.bind hk).of_iff (iff_of_eq (and_true P))

/-- The first of two walks needs nothing, and writes nothing that depends on what it gives. -/
theorem Traces.andThen {is : List Instr} (hw : w.Traces n lo m True fun _ js => js = is)
    (hk : ∀ a, (k a).Traces n m hi P fun b js => R b (is ++ js)) :
    (w >>= k).Traces n lo hi P R := by
  refine (hw.bind fun a js hjs => ?_).of_iff (iff_of_eq (true_and P))
  rw [hjs]
  exact hk a

theorem Traces.lower {hi' : Nat} (h : w.Traces n lo hi P Q) (hle : hi' ≤ hi) :
    w.Traces n lo hi' P Q := by
  intro s hs
  have h := h s hs
  rcases hout : w.outcome s with ⟨f | a, t⟩
  · rw [hout] at h
    exact h
  · rw [hout] at h
    exact ⟨h.1, h.2.1, Nat.le_trans hle h.2.2.1, h.2.2.2⟩

theorem Traces.imp {Q' : α → List Instr → Prop} (h : w.Traces n lo hi P Q)
    (himp : ∀ a is, Q a is → Q' a is) : w.Traces n lo hi P Q' := by
  intro s hs
  have h := h s hs
  rcases hout : w.outcome s with ⟨f | a, t⟩
  · rw [hout] at h
    exact h
  · rw [hout] at h
    obtain ⟨hbefore, hP, hhi, is, hwrites, ha⟩ := h
    exact ⟨hbefore, hP, hhi, is, hwrites, himp a is ha⟩

theorem traces_pure {a : α} (h : Q a []) (hle : hi ≤ lo) :
    (pure a : Walk α).Traces n lo hi True Q :=
  fun s hs => ⟨id, trivial, Nat.le_trans hle hs, [], .refl s, h⟩

/-- Where a walk is stopped anyway, it can be said to need anything. -/
theorem traces_reject {cause : Cause} (hord : ord < lo)
    (hcause : cause.code ≠ .expectedToken := by rintro ⟨⟩) :
    (reject cause ord : Walk α).Traces n lo hi P Q := by
  refine fun s hs => ⟨id, ⟨Nat.lt_of_lt_of_le hord hs, ?_⟩, fun _ => hcause⟩
  rintro ks rfl
  exact absurd rfl hcause

/-- Tables can change without leaving a trace. -/
theorem traces_modify {g : State → State}
    (hg : ∀ s, (g s).journal = s.journal ∧ (g s).seen = s.seen)
    (hbefore : ∀ s, s.Before n → (g s).Before n) :
    (modify g : Walk Unit).Traces n lo lo True fun _ is => is = [] := by
  intro s hs
  obtain ⟨hjournal, hseen⟩ := hg s
  exact ⟨hbefore s, trivial, show lo ≤ (g s).seen from hseen ▸ hs, [],
    ⟨[], hjournal, rfl⟩, rfl⟩

theorem traces_look (h : ord < n) :
    (look ord).Traces n lo (max lo (ord + 1)) True fun _ is => is = [] := by
  intro s hs
  have hseen : max lo (ord + 1) ≤ max s.seen (ord + 1) := by omega
  exact ⟨fun hs => { hs with seen := Nat.max_le.2 ⟨hs.seen, h⟩ }, trivial, hseen, [],
    .refl s, rfl⟩

theorem traces_emit (i : Instr) : (emit i).Traces n lo lo True fun _ is => is = [i] :=
  fun s hs =>
    ⟨fun hs => { hs with journal := List.forall_mem_cons.2 ⟨hs.seen, hs.journal⟩ }, trivial, hs,
      [i], ⟨[⟨s.seen, i, s.emitted⟩], rfl, rfl⟩, rfl⟩

theorem traces_get : (get : Walk State).Traces n lo lo True fun _ is => is = [] :=
  fun s hs => ⟨id, trivial, hs, [], .refl s, rfl⟩

/-- A change of the state at hand, which may depend on it, leaves no trace. -/
theorem Traces.update {g : State → State → State} {f : State → Walk β}
    (hg : ∀ s, (g s s).journal = s.journal ∧ (g s s).seen = s.seen)
    (hbefore : ∀ s, s.Before n → (g s s).Before n) (hf : ∀ s, (f s).Traces n lo hi P R) :
    (do let s ← get; modify (g s); f s : Walk β).Traces n lo hi P R :=
  fun s hs => ((traces_modify (g := fun s => g s s) hg hbefore).andThen fun _ => hf s) s hs

theorem Traces.look {f : Unit → Walk β} (h : ord < n)
    (hf : (f ()).Traces n (max lo (ord + 1)) hi P R) : (look ord >>= f).Traces n lo hi P R :=
  (traces_look h).andThen fun _ => hf

theorem Traces.emit {f : Unit → Walk β} {i : Instr}
    (hf : (f ()).Traces n lo hi P fun b is => R b (i :: is)) : (emit i >>= f).Traces n lo hi P R :=
  (traces_emit i).andThen fun _ => hf

theorem traces_emitAll (is : List Instr) :
    (emitAll is).Traces n lo lo True fun _ js => js = is := by
  induction is with
  | nil => exact traces_pure rfl (Nat.le_refl lo)
  | cons i is ih => exact .emit (ih.imp fun _ _ hjs => by rw [hjs])

theorem traces_stuck {g : Gap} (h : g.Definite) (hw : g.ord < n) :
    (stuck g : Walk α).Traces n lo hi False Q := by
  refine .look hw fun s hs => ⟨id, ⟨?_, ?_⟩, False.elim⟩
  · show g.ord < s.seen
    omega
  · rintro _ ⟨⟩
    exact h

theorem traces_close {c : Close} (h : c.Definite) (hw : c.EndsWithin n) :
    (close c).Traces n lo lo c.Whole fun _ is => is = [] := by
  cases c with
  | word ord => exact (traces_look hw).lower (Nat.le_max_left _ _)
  | gap g => exact traces_stuck h hw

/-- The semicolon behind a word shows that the word has been looked at. -/
theorem traces_close_behind {c : Close} (h : c.Definite) (hbehind : c.Behind ord)
    (hw : c.EndsWithin n) :
    (close c).Traces n lo (max lo (ord + 1)) c.Whole fun _ is => is = [] := by
  cases c with
  | word o =>
    have hlt : ord < o := hbehind
    exact (traces_look hw).lower (by omega)
  | gap g => exact traces_stuck h hw

end Walk

open Walk

variable {n lo : Nat} (c : Context)

/-! ## Expressions -/

theorem traces_combine {ord hi : Nat} {op : ArithOp} {l r : Operand} (hord : ord < lo)
    (hle : hi ≤ lo) :
    (combine ord op l r).Traces n lo hi True fun v is => l.code ++ r.code ++ is = v.code := by
  unfold combine
  split
  · rename_i a b hab
    obtain ⟨rfl, rfl, _, _⟩ := Operand.numbers?_eq_some hab
    exact .emit (traces_pure rfl hle)
  · exact traces_reject hord

theorem traces_compare {ord : Nat} {op : RelOp} {l r : Operand} (hord : ord < lo) :
    (compare ord op l r).Traces n lo lo True fun v is => l.code ++ r.code ++ is = v.code := by
  unfold compare
  split
  · rename_i a b hab
    obtain ⟨rfl, rfl, _, _⟩ := Operand.numbers?_eq_some hab
    refine (traces_emitAll _).andThen fun _ => traces_pure ?_ (Nat.le_refl lo)
    rw [List.append_nil]
    rfl
  · exact traces_reject hord

theorem traces_convert {ord : Nat} {target : Ty} (hord : ord < lo) :
    (convert ord target v).Traces n lo lo True fun u is => v.code ++ is = u.code := by
  unfold convert
  split
  · rename_i e he
    obtain ⟨rfl, _⟩ := Operand.number?_eq_some he
    refine (traces_emitAll _).andThen fun _ => traces_pure ?_ (Nat.le_refl lo)
    rw [List.append_nil]
    rfl
  · exact traces_reject hord

theorem traces_negateAll (e : Core.Expr) (ss : List Bool) :
    (negateAll e ss).Traces n lo lo True fun a is => e.code ++ is = a.code := by
  induction ss generalizing e with
  | nil => exact traces_pure (List.append_nil _) (Nat.le_refl lo)
  | cons minus ss ih =>
    cases minus with
    | false => exact ih e
    | true =>
      refine .emit ((ih (.negate e.type e)).imp fun a is ha => ?_)
      rw [← ha, Core.Expr.code, List.append_assoc]
      rfl

theorem traces_sign {ord hi : Nat} {ss : List Bool} (hord : ord < lo) (hle : hi ≤ lo) :
    (sign ord ss v).Traces n lo hi True fun u is => v.code ++ is = u.code := by
  unfold sign
  split
  · split
    · rename_i e he
      obtain ⟨rfl, _⟩ := Operand.number?_eq_some he
      refine (traces_negateAll e ss).after fun a is ha => traces_pure ?_ hle
      rw [List.append_nil]
      exact ha
    · exact traces_reject hord
  · exact traces_pure (List.append_nil _) hle

theorem traces_argument {f : Name} {number ord : Nat} {type : Ty} (hord : ord < lo) :
    (argument f number type ord v).Traces n lo lo True
      fun e is => is = [] ∧ v.code = e.code := by
  unfold argument
  split
  · rename_i e he
    obtain ⟨rfl, _⟩ := Operand.valueOf?_eq_some he
    exact traces_pure ⟨rfl, rfl⟩ (Nat.le_refl lo)
  · exact traces_reject hord

theorem traces_resolve {c : Context} {x : Name} (hord : x.ord < lo) :
    (resolve c x).Traces n lo lo True fun _ is => is = [] := by
  refine traces_get.andThen fun s => ?_
  split
  · exact traces_reject hord
  · split
    · exact traces_pure rfl (Nat.le_refl lo)
    · exact traces_reject hord

theorem traces_load {c : Context} {x : Name} (hord : x.ord < lo) :
    (load c x).Traces n lo lo True fun v is => is = v.code := by
  refine (traces_resolve hord).andThen fun found => ?_
  obtain ⟨e, l⟩ := found
  dsimp only
  split
  · exact traces_reject hord
  · exact .emit (.emit (traces_pure rfl (Nat.le_refl lo)))

theorem traces_callee {f : Name} (hord : f.ord < lo) :
    (callee f).Traces n lo lo True fun _ is => is = [] := by
  unfold callee
  split
  · exact traces_pure rfl (Nat.le_refl lo)
  · refine traces_get.andThen fun s => ?_
    split
    · exact traces_pure rfl (Nat.le_refl lo)
    · exact traces_reject hord

mutual

theorem traces_expr {lo : Nat} (e : Syntax.Expr) (h : e.Plain) (hw : e.Within n) :
    (expr c e).Traces n lo (max lo (e.start + 1)) e.Whole fun v is => is = v.code := by
  match e with
  | .term t =>
    rw [expr]
    exact traces_term t h hw
  | .sum l op r =>
    rw [expr]
    refine (traces_expr l h.1 hw.1).bind fun a is ha => ?_
    refine (traces_term r h.2 hw.2).after fun b js hb => ?_
    refine (traces_combine (by omega) (Nat.le_max_left _ _)).imp fun v ks hv => ?_
    rw [ha, hb, ← List.append_assoc]
    exact hv

theorem traces_term {lo : Nat} (t : Syntax.Term) (h : t.Plain) (hw : t.Within n) :
    (term c t).Traces n lo (max lo (t.start + 1)) t.Whole fun v is => is = v.code := by
  match t with
  | .factor f =>
    rw [term]
    exact traces_factor f h hw
  | .product l op r =>
    rw [term]
    refine (traces_term l h.1 hw.1).bind fun a is ha => ?_
    refine (traces_factor r h.2 hw.2).after fun b js hb => ?_
    refine (traces_combine (by omega) (Nat.le_max_left _ _)).imp fun v ks hv => ?_
    rw [ha, hb, ← List.append_assoc]
    exact hv

theorem traces_factor {lo : Nat} (f : Syntax.Factor) (h : f.Plain) (hw : f.Within n) :
    (factor c f).Traces n lo (max lo (Syntax.Term.start (.factor f) + 1)) f.Whole
      fun v is => is = v.code := by
  match f with
  | .mk ord ss body =>
    rw [factor]
    refine .look hw.1 ?_
    refine (traces_casted body h hw.2).after fun v is hv => ?_
    have hord : ord < max lo (ord + 1) := by omega
    refine (traces_sign hord (Nat.le_refl _)).imp fun u js hu => ?_
    rw [hv]
    exact hu

theorem traces_casted {lo : Nat} (b : Syntax.Casted) (h : b.Plain)
    (hw : b.Within n) : (casted c b).Traces n lo lo b.Whole fun v is => is = v.code := by
  match b with
  | .primary p =>
    have hw : p.Within n := hw
    rw [casted]
    refine (traces_primary p h hw).after fun v is hv => ?_
    refine .look hw.stop_lt (traces_pure ?_ (Nat.le_max_left _ _))
    rw [hv, List.append_nil]
  | .cast body ord target =>
    have hord : ord + 2 < n := hw.2
    rw [casted]
    refine (traces_casted body h.1 hw.1).after fun v is hv => ?_
    refine .look (Nat.lt_of_succ_lt hord) ?_
    refine (traces_convert (by omega)).after fun u js hu => ?_
    refine .look hord (traces_pure ?_ (by omega))
    rw [hv, ← hu]
    simp
  | .untyped body ord g =>
    rw [casted]
    refine ((traces_casted body h.1 hw.1).bind fun v is hv => ?_).of_iff
      (iff_of_eq (and_false _))
    exact traces_stuck h.2 hw.2.2

theorem traces_primary {lo : Nat} (p : Syntax.Primary) (h : p.Plain) (hw : p.Within n) :
    (primary c p).Traces n lo lo p.Whole fun v is => is = v.code := by
  match p with
  | .name x =>
    rw [primary]
    exact .look hw ((traces_load (by omega)).lower (Nat.le_max_left _ _))
  | .call f as =>
    rw [primary]
    refine .look hw.1 ((traces_callee (by omega)).andThen fun found => ?_)
    obtain ⟨g, types⟩ := found
    refine .emit ((traces_args f types.length 1 types as h hw.2).after
      fun es is hes => .emit (traces_pure ?_ (Nat.le_max_left _ _)))
    rw [hes]
    rfl
  | .int word ord | .double bits ord =>
    rw [primary]
    exact .look (Nat.lt_of_succ_lt hw) (.emit (traces_pure rfl (Nat.le_max_left _ _)))
  | .text s ord =>
    rw [primary]
    refine .look (Nat.lt_of_succ_lt hw) (traces_get.andThen fun st => ?_)
    refine Traces.andThen (traces_modify (fun _ => ⟨rfl, rfl⟩) fun st hst => ?_)
      fun _ => .emit (traces_pure rfl (Nat.le_max_left _ _))
    -- the text is put into the table of globals, and was declared nowhere
    exact { hst with globals := hst.globals.add nofun }
  | .paren ord inner cl =>
    rw [primary]
    refine .look (Nat.lt_of_succ_lt hw.1) ?_
    refine (traces_relational inner h.1 hw.2.1).bind fun v is hv => ?_
    refine (traces_close h.2 hw.2.2.ends).after fun _ js hjs => traces_pure ?_ (by omega)
    rw [hv, hjs]
    simp
  | .gap g =>
    rw [primary]
    exact traces_stuck h hw

theorem traces_relational {lo : Nat} (r : Syntax.Relational) (h : r.Plain) (hw : r.Within n) :
    (relational c r).Traces n lo (max lo (r.start + 1)) r.Whole fun v is => is = v.code := by
  match r with
  | .value e =>
    rw [relational]
    exact traces_expr e h hw
  | .compare l op r =>
    rw [relational]
    refine (traces_expr l h.1 hw.1).bind fun a is ha => ?_
    refine (traces_expr r h.2 hw.2).after fun b js hb => ?_
    have hord : l.start < max (max lo (l.start + 1)) (r.start + 1) := by omega
    refine ((traces_compare hord).lower (Nat.le_max_left _ _)).imp fun v ks hv => ?_
    rw [ha, hb, ← List.append_assoc]
    exact hv

theorem traces_args {lo : Nat} (f : Name) (want number : Nat) (types : List Ty)
    (as : Syntax.Args) (h : as.Plain) (hw : as.Within n) :
    (args c f want number types as).Traces n lo lo as.Whole fun es is => is = es.code := by
  match as with
  | .done ord =>
    rw [args]
    refine .look (Nat.lt_of_succ_lt hw) ?_
    split
    · exact traces_pure rfl (Nat.le_max_left _ _)
    · exact traces_reject (by omega)
  | .more e rest =>
    have hstart : e.start < n := hw.1.start_lt
    match types with
    | [] =>
      rw [args]
      exact .look hstart (traces_reject (by omega))
    | type :: types =>
      rw [args]
      refine .look hstart ((traces_expr e h.1 hw.1).bind fun v is hv => ?_)
      refine ((traces_argument (by omega)).bind fun a js ha => ?_).of_iff (iff_of_eq (true_and _))
      refine (traces_args f want (number + 1) types rest h.2 hw.2).after
        fun es ks hes => traces_pure ?_ (by omega)
      rw [hv, ha.1, ha.2, hes]
      simp [Core.Args.code]
  | .gap g =>
    rw [args]
    exact traces_stuck h hw

end

theorem traces_condition (r : Syntax.Relational) (h : r.Plain) (hw : r.Within n) :
    (condition c r).Traces n lo lo r.Whole fun t is => is = t.code := by
  unfold condition
  refine .look hw.start_lt ?_
  refine (traces_relational c r h hw).after fun v is hv => ?_
  split
  · refine traces_pure ?_ (by omega)
    rw [hv]
    simp [Operand.code]
  · split
    · refine .emit (traces_pure ?_ (by omega))
      rw [hv]
      simp [Operand.code, Core.Cond.code]
    · exact traces_reject (by omega)

/-! ## Declarations and statements -/

theorem traces_initial (x : Name) (type : Ty) (e : Syntax.Expr) (h : e.Plain) (hw : e.Within n) :
    (initial c x type e).Traces n lo lo e.Whole fun a is => is = a.code := by
  unfold initial
  refine .look hw.start_lt ((traces_expr c e h hw).after fun v is hv => ?_)
  split
  · rename_i a ha
    obtain ⟨rfl, _⟩ := Operand.valueOf?_eq_some ha
    refine traces_pure ?_ (by omega)
    rw [hv]
    simp [Operand.code]
  · exact traces_reject (by omega)

theorem traces_returned (ord : Nat) (value : Option Syntax.Expr)
    (h : ValuePlain value) (hw : ord + 1 < n ∧ ValueWithin n value) :
    (returned c ord value).Traces n lo lo (ValueWhole value)
      fun t is => t.straight? = some is := by
  unfold returned
  refine .look hw.1 ?_
  dsimp only
  cases value with
  | none =>
    refine Traces.of_iff ?_ (iff_of_true trivial nofun)
    dsimp only
    split
    · exact .emit (traces_pure rfl (Nat.le_max_left _ _))
    · exact traces_reject (by omega)
  | some e =>
    refine Traces.of_iff ?_ Syntax.valueWhole_some.symm
    dsimp only
    split
    · exact traces_reject (by omega)
    · refine .emit ((traces_expr c e (h e rfl) (hw.2 e rfl)).after fun v is hv => ?_)
      split
      · rename_i a ha
        obtain ⟨rfl, _⟩ := Operand.valueOf?_eq_some ha
        refine .emit (.emit (traces_pure ?_ (by omega)))
        rw [hv]
        simp [Operand.code, Core.Stmt.straight?, Core.returnCode]
      · exact traces_reject (by omega)

theorem State.Before.markAssigned {s : State} (h : s.Before n) (l : Location) (name : String) :
    (s.markAssigned l name).Before n := by
  have hdone {t : Table (Entry Nat)} (ht : t.Holds (Entry.Before n)) :
      (t.modify name fun e => { e with initialized := true }).Holds (Entry.Before n) :=
    ht.modify fun _ he => he
  cases l with
  | global => exact { h with globals := hdone h.globals }
  | param =>
    refine { h with params := ?_ }
    intro t ht
    obtain ⟨u, hu, rfl⟩ := Option.map_eq_some_iff.1 ht
    exact hdone (h.params u hu)
  | «local» => exact { h with locals := hdone h.locals }

theorem traces_assignment (x : Name) (e : Syntax.Expr)
    (h : e.Plain) (hw : x.ord + 1 < n ∧ e.Within n) :
    (assignment c x e).Traces n lo lo e.Whole fun t is => t.straight? = some is := by
  unfold assignment
  refine .look hw.1 ((traces_resolve (by omega)).andThen fun found => ?_)
  obtain ⟨entry, l⟩ := found
  dsimp only
  split
  · exact traces_reject (by omega)
  · refine .emit ((traces_expr c e h hw.2).after fun v is hv => ?_)
    split
    · rename_i a ha
      obtain ⟨rfl, _⟩ := Operand.valueOf?_eq_some ha
      refine .emit (Traces.andThen (traces_modify ?_ fun s hs => hs.markAssigned l x.text)
        fun _ => traces_pure ?_ (by omega))
      · intro s
        cases l <;> exact ⟨rfl, rfl⟩
      · rw [hv]
        simp [Operand.code, Core.Stmt.straight?, Core.Place.store]
    · exact traces_reject (by omega)

theorem traces_dropped (f : Name) (as : Syntax.Args) (h : as.Plain)
    (hw : f.ord + 1 < n ∧ as.Within n) :
    (dropped c f as).Traces n lo lo as.Whole fun t is => t.straight? = some is := by
  unfold dropped
  refine .look hw.1 ((traces_callee (by omega)).andThen fun found => ?_)
  obtain ⟨g, types⟩ := found
  refine .emit ((traces_args c f types.length 1 types as h hw.2).after
    fun es is hes => .emit ?_)
  dsimp only
  split
  · rename_i hvoid
    refine traces_pure ?_ (Nat.le_max_left _ _)
    rw [hes]
    simp [Core.Stmt.straight?, Core.callCode, hvoid]
  · rename_i hvalue
    refine .emit (traces_pure ?_ (Nat.le_max_left _ _))
    rw [hes]
    simp [Core.Stmt.straight?, Core.callCode, hvalue]

theorem State.Before.table {s : State} (h : s.Before n) (c : Context) :
    (s.table c).Holds (Entry.Before n) := by
  unfold State.table
  split
  · exact h.globals
  · exact h.locals

theorem State.Before.setTable {s : State} (h : s.Before n) (c : Context) {t : Table (Entry Nat)}
    (ht : t.Holds (Entry.Before n)) : (s.setTable c t).Before n := by
  unfold State.setTable
  split
  · exact { h with globals := ht }
  · exact { h with locals := ht }

theorem State.setTable_traceless (s : State) (c : Context) (t : Table (Entry Nat)) :
    (s.setTable c t).journal = s.journal ∧ (s.setTable c t).seen = s.seen := by
  unfold State.setTable
  split <;> exact ⟨rfl, rfl⟩

theorem traces_declared {c : Context} {e : Entry Nat} {init : Option Core.Expr}
    (h : e.Before n) : (declared c e init).Traces n lo lo True fun _ is => is = [] :=
  traces_modify (fun s => s.setTable_traceless c _) fun _ hs =>
    hs.setTable c ((hs.table c).insert h)

theorem traces_declaration (d : Syntax.Decl) (h : d.Plain)
    (hw : d.Within n) : (declaration c d).Traces n lo lo d.Whole fun _ _ => True := by
  cases d with
  | gap g => exact traces_stuck h hw
  | mk constant x type init cl =>
    obtain ⟨-, hplain, hdefinite⟩ := h
    obtain ⟨hx, hinit, hclose⟩ := hw
    have hentry (kind : EntryKind) (slot : Nat) (initialized : Bool) (word : UInt64) :
        Entry.Before n ⟨x.text, kind, type, slot, initialized, some x.ord, word, ""⟩ := by
      rintro _ ⟨⟩
      omega
    unfold declaration
    refine .look (by omega) (traces_get.andThen fun s => ?_)
    split
    · exact traces_reject (by omega)
    refine .update (fun s => s.setTable_traceless c _) (fun s hs => hs.setTable c (hs.table c))
      fun s => .look hx ?_
    cases init with
    | some i =>
      refine .emit (((traces_initial c x type i (hplain i rfl) (hinit i rfl)).of_iff
        Syntax.valueWhole_some.symm).bind fun a is _ => .emit ?_)
      refine (traces_close hdefinite hclose.ends).after fun _ _ _ => ?_
      exact (traces_declared (hentry _ _ _ _)).andThen fun _ => traces_pure trivial (by omega)
    | none =>
      dsimp only
      split
      · exact traces_reject (by omega)
      · refine Traces.of_iff ?_ (and_iff_right (show ValueWhole none from nofun)).symm
        refine (traces_close hdefinite hclose.ends).after fun _ _ _ => ?_
        exact (traces_declared (hentry _ _ _ _)).andThen fun _ => traces_pure trivial (by omega)

/-- What a walk gives can be put in other words. -/
theorem Walk.Traces.reworded {α β : Type} {w : Walk α} {hi : Nat} {P : Prop}
    {Q : α → List Instr → Prop} (h : w.Traces n lo hi P Q) (f : α → β) :
    (do return f (← w) : Walk β).Traces n lo hi P fun _ _ => True :=
  h.after fun _ _ _ => traces_pure trivial (Nat.le_refl hi)

/-- What makes a statement, and the semicolon behind it. -/
theorem Walk.Traces.closed {w : Walk Core.Stmt} {P : Prop} {Q : Core.Stmt → List Instr → Prop}
    {cl : Close} (ht : w.Traces n lo lo P Q) (h : cl.Definite) (hw : cl.Within n) :
    (do let a ← w; close cl; pure a : Walk Core.Stmt).Traces n lo lo (P ∧ cl.Whole)
      fun _ _ => True :=
  ht.bind fun _ _ _ => (traces_close h hw.ends).reworded _

/-- A statement that has a semicolon and is a branch, and in the wrong place is refused. -/
theorem traces_jump {ord : Nat} {cl : Close} {a : Core.Stmt} {inLoop : Bool} {cause : Cause}
    (h : cl.Definite ∧ cl.Behind ord) (hw : cl.Within n) (hcause : cause.code ≠ .expectedToken) :
    (do
      close cl
      if inLoop then
        emitBranch
        pure a
      else reject cause ord : Walk Core.Stmt).Traces n lo lo cl.Whole fun _ _ => True := by
  refine (traces_close_behind h.1 h.2 hw.ends).after fun _ _ _ => ?_
  split
  · exact .emit (traces_pure trivial (Nat.le_max_left _ _))
  · exact traces_reject (by omega) hcause

mutual

theorem traces_stmt {lo : Nat} (c : Context) (s : Syntax.Stmt) (h : s.Plain) (hw : s.Within n) :
    (stmt c s).Traces n lo lo s.Whole fun _ _ => True := by
  match s with
  | .empty =>
    rw [stmt]
    exact traces_pure trivial (Nat.le_refl lo)
  | .declare d =>
    rw [stmt]
    apply (traces_declaration c d h hw).after
    rintro ⟨slot, _ | a⟩ _ _ <;> exact traces_pure trivial (Nat.le_refl lo)
  | .branch i =>
    rw [stmt]
    exact traces_branch c i h hw
  | .loop ord cond body =>
    obtain ⟨hord, hcond, hbody⟩ := hw
    rw [stmt]
    refine .look (Nat.lt_of_succ_lt hord) (.emit ?_)
    refine (traces_condition c cond h.1 hcond).bind fun t _ _ => .emit ?_
    refine (traces_block _ body h.2 hbody).after fun b _ _ => ?_
    exact .emit (traces_pure trivial (Nat.le_max_left _ _))
  | .ret ord value cl =>
    rw [stmt]
    exact (traces_returned c ord value h.1 ⟨hw.1, hw.2.1⟩).closed h.2 hw.2.2
  | .brk ord cl | .cont ord cl =>
    rw [stmt]
    exact traces_jump h hw.2 nofun
  | .call f as cl =>
    rw [stmt]
    exact (traces_dropped c f as h.1 ⟨hw.1, hw.2.1⟩).closed h.2 hw.2.2
  | .assign x e cl =>
    rw [stmt]
    exact (traces_assignment c x e h.1 ⟨hw.1, hw.2.1⟩).closed h.2 hw.2.2
  | .unfinished x g =>
    rw [stmt]
    exact traces_stuck h hw.2
  | .gap g =>
    rw [stmt]
    exact traces_stuck h hw

theorem traces_branch {lo : Nat} (c : Context) (i : Syntax.If) (h : i.Plain) (hw : i.Within n) :
    (branch c i).Traces n lo lo i.Whole fun _ _ => True := by
  match i with
  | .mk cond body alternative =>
    obtain ⟨hcond, hbody, halternative⟩ := hw
    rw [branch]
    refine (traces_condition c cond h.1 hcond).bind fun t _ _ => .emit ?_
    refine (traces_block c body h.2.1 hbody).bind fun b _ _ => .look hbody.stop_lt ?_
    refine (traces_otherwise c alternative h.2.2 halternative).after fun a _ _ => ?_
    split <;> exact traces_pure trivial (Nat.le_max_left _ _)

theorem traces_otherwise {lo : Nat} (c : Context) (a : Syntax.Else) (h : a.Plain)
    (hw : a.Within n) : (otherwise c a).Traces n lo lo a.Whole fun _ _ => True := by
  match a with
  | .none =>
    rw [otherwise]
    exact traces_pure trivial (Nat.le_refl lo)
  | .block b =>
    rw [otherwise]
    exact .emit ((traces_block c b h hw).reworded _)
  | .branch i =>
    rw [otherwise]
    exact .emit ((traces_branch c i h hw).reworded _)
  | .gap g =>
    rw [otherwise]
    exact .emit (traces_stuck h hw)

theorem traces_block {lo : Nat} (c : Context) (b : Syntax.Block) (h : b.Plain)
    (hw : b.Within n) : (block c b).Traces n lo lo b.Whole fun _ _ => True := by
  match b with
  | .stmts ss =>
    rw [block]
    exact traces_stmts c ss h hw
  | .gap g =>
    rw [block]
    exact traces_stuck h hw

theorem traces_stmts {lo : Nat} (c : Context) (ss : Syntax.Stmts) (h : ss.Plain)
    (hw : ss.Within n) : (stmts c ss).Traces n lo lo ss.Whole fun _ _ => True := by
  match ss with
  | .done ord =>
    rw [stmts]
    exact .look (Nat.lt_of_succ_lt hw) (traces_pure trivial (Nat.le_max_left _ _))
  | .more s rest =>
    rw [stmts]
    refine (traces_stmt c s h.1 hw.1).bind fun a _ _ => ?_
    exact (traces_stmts c rest h.2 hw.2).reworded _

end

/-! ## Functions and programs -/

/-- Parameters are declared at their tokens. -/
theorem traces_parameters (f : Function Nat) (ps : List Syntax.Param)
    (hw : ∀ p ∈ ps, p.x.ord + 3 < n) :
    (parameters f ps).Traces n lo lo True
      fun g is => is = [] ∧ (f.Before n → g.Before n) := by
  induction ps generalizing lo f with
  | nil => exact traces_pure ⟨rfl, id⟩ (Nat.le_refl lo)
  | cons p ps ih =>
    obtain ⟨hp, hps⟩ := List.forall_mem_cons.1 hw
    unfold parameters
    refine .look (Nat.lt_of_succ_lt hp) ?_
    dsimp only
    split
    · rename_i f' hadd
      refine ((ih f' hps).lower (Nat.le_max_left _ _)).imp fun g is hg => ⟨hg.1, fun hf => ?_⟩
      obtain ⟨t, ht, rfl⟩ := Option.map_eq_some_iff.1 hadd
      refine hg.2 { hf with params := ?_ }
      rintro _ ⟨⟩
      have hold : (f.params.getD {}).Holds (Entry.Before n) := by
        cases hparams : f.params with
        | none => exact nofun
        | some t => exact hf.params t hparams
      refine hold.of_add ?_ ht
      rintro _ ⟨⟩
      exact Nat.lt_of_add_right_lt hp
    · exact traces_reject (by omega)

theorem traces_enter {f : Function Nat} (hf : f.Before n) :
    (enter f).Traces n lo lo True fun _ is => is = [] :=
  traces_modify (fun _ => ⟨rfl, rfl⟩) fun _ hs =>
    { hs with
      functions := hs.functions.add { hf with }
      params := hf.params
      locals := nofun }

theorem traces_leave (name : String) (code : List Instr) :
    (leave name code).Traces n lo lo True fun _ is => is = [] :=
  traces_modify (fun _ => ⟨rfl, rfl⟩) fun _ hs =>
    { hs with
      functions := hs.functions.modify fun _ hf =>
        { entry := hf.entry, params := hs.params, locals := hs.locals } }

theorem traces_function (f : Syntax.Fn) (h : f.Plain) (hw : f.Within n) :
    (function f).Traces n lo lo f.Whole fun _ _ => True := by
  match f with
  | .gap g => exact traces_stuck h hw
  | .mk x ps rest =>
    obtain ⟨hord, hps, hrest⟩ := hw
    unfold function
    refine .look (Nat.lt_of_succ_lt hord) (traces_get.andThen fun s => ?_)
    split
    · exact traces_reject (by omega)
    have hstart : (Function.start x.text .void (some x.ord)).Before n := by
      refine ⟨?_, nofun, nofun⟩
      rintro _ ⟨⟩
      exact Nat.lt_of_succ_lt hord
    refine ((traces_parameters _ ps hps).bind fun g _ hg => ?_).of_iff (iff_of_eq (true_and _))
    match rest with
    | .error gap => exact traces_stuck h.2.2 hrest
    | .ok (type, body) =>
      refine (traces_enter (f := { g with type }) { hg.2 hstart with }).andThen fun _ => ?_
      refine (traces_block _ body h.2.2.2 hrest).after fun b _ _ => ?_
      have hleave : (do leave x.text (Core.Fn.code ⟨type, b⟩); pure ⟨type, b⟩ :
          Walk Core.Fn).Traces n
          (max lo (x.ord + 1)) lo True fun _ _ => True :=
        (traces_leave _ _).andThen fun _ => traces_pure trivial (Nat.le_max_left _ _)
      dsimp only
      split
      · exact traces_reject (by omega)
      · split
        · exact .emit hleave
        · exact hleave

theorem traces_globals (ds : List Syntax.Decl) (h : ∀ d ∈ ds, d.Plain) (hw : ∀ d ∈ ds, d.Within n) :
    (globals ds).Traces n lo lo (∀ d ∈ ds, d.Whole) fun _ _ => True := by
  induction ds with
  | nil => exact (traces_pure trivial (Nat.le_refl lo)).of_iff (by simp)
  | cons d ds ih =>
    obtain ⟨hd, hds⟩ := List.forall_mem_cons.1 h
    obtain ⟨hdw, hdsw⟩ := List.forall_mem_cons.1 hw
    refine Traces.of_iff ?_ List.forall_mem_cons.symm
    unfold globals
    apply (traces_declaration _ d hd hdw).bind
    rintro ⟨slot, _ | a⟩ _ _
    · exact ih hds hdsw
    · exact (ih hds hdsw).reworded _

theorem traces_functions (fs : List Syntax.Fn) (h : ∀ f ∈ fs, f.Plain) (hw : ∀ f ∈ fs, f.Within n) :
    (functions fs).Traces n lo lo (∀ f ∈ fs, f.Whole) fun _ _ => True := by
  induction fs with
  | nil => exact (traces_pure trivial (Nat.le_refl lo)).of_iff (by simp)
  | cons f fs ih =>
    obtain ⟨hf, hfs⟩ := List.forall_mem_cons.1 h
    obtain ⟨hfw, hfsw⟩ := List.forall_mem_cons.1 hw
    refine Traces.of_iff ?_ List.forall_mem_cons.symm
    unfold functions
    refine (traces_function f hf hfw).bind fun g _ _ => ?_
    exact (ih hfs hfsw).reworded _

/-- **A walk through the tree of a row looks at no token that is not in the row**; it goes through
only if the tree has no gap, stops for want of a token only if it has one, and reports what stops it
at a token that it has looked at. -/
theorem traces_program (p : Syntax.Program) (h : p.Plain) (hw : p.Within n) :
    (program p).Traces n 0 0 p.Whole fun _ _ => True := by
  have hwalk : (program p).Traces n 0 0
      ((∀ d ∈ p.decls, d.Whole) ∧ (∀ f ∈ p.functions, f.Whole) ∧ p.close.Whole)
      fun _ _ => True := by
    unfold program
    refine (traces_globals p.decls h.decls hw.decls).bind fun inits _ _ => ?_
    refine (traces_functions p.functions h.functions hw.functions).bind fun fns _ _ => ?_
    refine (traces_close h.close hw.close).after fun _ _ _ => ?_
    exact traces_get.andThen fun s => traces_pure trivial (Nat.le_refl 0)
  refine hwalk.of_iff ⟨?_, fun h => ⟨h.decls, h.functions, h.close⟩⟩
  rintro ⟨hdecls, hfunctions, hclose⟩
  exact ⟨hdecls, hfunctions, hclose⟩

/-- Nothing has been looked at before a walk. -/
theorem State.before_start : State.Before n {} where
  seen := Nat.zero_le n
  journal := nofun
  globals := by
    intro e he
    obtain ⟨b, hb, rfl⟩ := List.mem_map.1 he
    exact nofun
  functions := List.forall_mem_singleton.2 ⟨nofun, nofun, nofun⟩
  params := nofun
  locals := nofun

theorem State.Before.tables {s : State} (h : s.Before n) (p : Core.Program) :
    (tables s p).Before n := by
  refine ⟨h.globals, ?_⟩
  have hrows := h.functions
  unfold Table.Holds at hrows
  show ∀ f ∈ s.functions.rows.modifyHead _, Function.Before n f
  cases hcons : s.functions.rows with
  | nil => exact nofun
  | cons f fs =>
    rw [hcons] at hrows
    obtain ⟨hf, hfs⟩ := List.forall_mem_cons.1 hrows
    exact List.forall_mem_cons.2 ⟨{ hf with }, hfs⟩

end Typing

end TinyC
