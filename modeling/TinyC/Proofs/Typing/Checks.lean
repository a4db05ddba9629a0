import TinyC.Proofs.Syntax.Static
import TinyC.Proofs.Syntax.Whole
import TinyC.Proofs.Typing.Resolved

/-!
# Walks that check

A walk checks a property of what it walks through: it goes through if the property holds, and only
then. `Walk.Checks` says so of a walk that starts where the tables are of one form and ends where
they are of another. What a walk gives counts only as far as it is looked at: of an operand, its
form.

Checks are put together from the steps of a walk, in both directions at once. So the analysis of
every phrase of an expression is shown to decide the rules for it (`checks_expr` and its
companions).
-/

namespace TinyC

namespace Table

variable {α : Type} [Symbol α]

/-- The symbols that have a name. -/
def named (t : Table α) : List α :=
  t.rows.filter (Symbol.name · != "")

/-- What is found under a name is the first of the named symbols that has it. -/
theorem map_find? {β : Type} (t : Table α) {g : α → β} {name : β → String}
    (hg : ∀ a, name (g a) = Symbol.name a) (x : String) :
    (t.find? x).map g = (t.named.map g).find? (name · == x) := by
  have hcomp : (fun b => name b == x) ∘ g = fun a => Symbol.name a == x := by
    funext a
    simp [hg]
  rw [List.find?_map, hcomp, named, List.find?_filter]
  unfold find?
  by_cases hx : x = ""
  · rw [if_pos hx, List.find?_eq_none.mpr]
    intro a _
    simp [hx]
  · rw [if_neg hx]
    congr 2
    funext a
    by_cases ha : Symbol.name a = x
    · simp [ha, hx]
    · simp [ha]

/-- A name is taken if a named symbol has it. -/
theorem has_iff (t : Table α) {x : String} : t.has x = true ↔ x ∈ t.named.map Symbol.name := by
  have hfind := map_find? t (g := id) (fun _ => rfl) x
  rw [Option.map_id, id_eq, List.map_id] at hfind
  unfold has
  rw [hfind]
  simp

/-- A symbol that has a name and is put in comes last. -/
theorem named_concat {t : Table α} {a : α} (ha : Symbol.name a ≠ "") (n : Nat) :
    (⟨t.rows ++ [a], n⟩ : Table α).named = t.named ++ [a] := by
  simp [named, ha]

/-- A change that leaves the names as they are is made to the named symbols. -/
theorem named_modify (t : Table α) (x : String) {g : α → α}
    (hg : ∀ a, Symbol.name (g a) = Symbol.name a) :
    (t.modify x g).named = t.named.map fun a => if Symbol.name a == x then g a else a := by
  simp only [named, modify, List.filter_map]
  congr 1
  refine List.filter_congr ?_
  intro a _
  simp only [Function.comp_apply]
  split
  · rw [hg]
  · rfl

/-- A name that is not empty is taken if some symbol has it. -/
theorem has_iff_rows (t : Table α) {x : String} (hx : x ≠ "") :
    t.has x = true ↔ x ∈ t.rows.map Symbol.name := by
  rw [has_iff, List.mem_map, List.mem_map]
  constructor
  · rintro ⟨a, ha, rfl⟩
    exact ⟨a, (List.mem_filter.mp ha).1, rfl⟩
  · rintro ⟨a, ha, rfl⟩
    exact ⟨a, List.mem_filter.mpr ⟨ha, bne_iff_ne.mpr hx⟩, rfl⟩

end Table

namespace Typing

variable {v : Operand} {type : Ty}

open Walk
open Syntax (Name Var Heading Event Known Form builtinNames declaredIn ValuedIn)

/-! ## Walks that check -/

/-- The tables of a state. -/
structure Ledger where
  globals : Table (Entry Nat)
  functions : Table (Function Nat)
  params : Option (Table (Entry Nat))
  locals : Table (Entry Nat)

/-- The tables of a state, without its journal. -/
def State.ledger (s : State) : Ledger :=
  ⟨s.globals, s.functions, s.params, s.locals⟩

/-- From tables of one form, the walk goes through to tables of another form just where what it
gives, as far as it is looked at, has a property. -/
structure Walk.Checks {α β : Type} (w : Walk α) (R R' : Ledger → Prop) (view : α → β)
    (P : β → Prop) : Prop where
  sound : ∀ s a s', R s.ledger → w.Yields s a s' → P (view a) ∧ R' s'.ledger
  complete : ∀ s b, R s.ledger → P b → ∃ a s', w.Yields s a s' ∧ view a = b

namespace Walk

variable {α β γ δ : Type} {w : Walk α} {f : α → Walk γ} {R S T : Ledger → Prop} {view : α → β}
  {sight : γ → δ} {P : β → Prop} {Q : δ → Prop} {p : Prop}

/-- Two walks in a row check what both check. -/
theorem Checks.bind {Q : β → δ → Prop} (hw : w.Checks R S view P)
    (hf : ∀ a b, view a = b → P b → (f a).Checks S T sight (Q b)) :
    (w >>= f).Checks R T sight (fun d => ∃ b, P b ∧ Q b d) := by
  constructor
  · intro s c s' hs hy
    obtain ⟨a, t, ha, hc⟩ := yields_bind.mp hy
    obtain ⟨hP, ht⟩ := hw.sound s a t hs ha
    obtain ⟨hQ, hs'⟩ := (hf a _ rfl hP).sound t c s' ht hc
    exact ⟨⟨view a, hP, hQ⟩, hs'⟩
  · rintro s d hs ⟨b, hP, hQ⟩
    obtain ⟨a, t, ha, hb⟩ := hw.complete s b hs hP
    obtain ⟨-, ht⟩ := hw.sound s a t hs ha
    obtain ⟨c, s', hc, hd⟩ := (hf a b hb hP).complete t d ht hQ
    exact ⟨c, s', yields_bind.mpr ⟨a, t, ha, hc⟩, hd⟩

theorem Checks.of_iff {Q : β → Prop} (hw : w.Checks R S view P) (h : ∀ b, P b ↔ Q b) :
    w.Checks R S view Q := by
  have heq : P = Q := funext fun b => propext (h b)
  exact heq ▸ hw

/-- Two walks in a row, of which the first gives nothing that is looked at. -/
theorem Checks.also (hw : w.Checks R S (fun _ => ()) (fun _ => p))
    (hf : p → ∀ a, (f a).Checks S T sight Q) : (w >>= f).Checks R T sight (fun d => p ∧ Q d) := by
  refine (hw.bind fun a _ _ hp => hf hp a).of_iff fun d => ?_
  exact exists_const Unit

/-- Two walks in a row, of which the first gives what is known beforehand. -/
theorem Checks.settled {b : β} (hw : w.Checks R S view (fun d => p ∧ d = b))
    (hf : ∀ a, view a = b → p → (f a).Checks S T sight Q) :
    (w >>= f).Checks R T sight (fun d => p ∧ Q d) := by
  refine (hw.bind (Q := fun _ => Q) ?_).of_iff fun d => ?_
  · rintro a _ rfl ⟨hp, ha⟩
    exact hf a ha hp
  · constructor
    · rintro ⟨_, ⟨hp, -⟩, hd⟩
      exact ⟨hp, hd⟩
    · rintro ⟨hp, hd⟩
      exact ⟨b, ⟨hp, rfl⟩, hd⟩

/-- What comes behind a walk hands on what it gives. -/
theorem Checks.through {f : α → Walk α} (hw : w.Checks R S view P)
    (hf : ∀ a, (f a).Checks S S view (· = view a)) : (w >>= f).Checks R S view P := by
  refine (hw.bind (Q := fun b d => d = b) ?_).of_iff fun d => exists_eq_right'
  rintro a b rfl _
  exact hf a

/-- A walk that changes nothing in the tables and always goes through. -/
def Silent (w : Walk α) : Prop :=
  ∀ s, ∃ a s', w.Yields s a s' ∧ s'.ledger = s.ledger

theorem Yields.unique {s : State} {a b : α} {s' t : State} (h : w.Yields s a s')
    (h' : w.Yields s b t) : a = b ∧ s' = t := by
  have heq := h.symm.trans h'
  simpa using heq

/-- A silent walk can come before any other. -/
theorem Silent.before (hw : w.Silent) (hf : ∀ a, (f a).Checks R S sight Q) :
    (w >>= f).Checks R S sight Q := by
  constructor
  · intro s c s' hs hy
    obtain ⟨a, t, ha, hc⟩ := yields_bind.mp hy
    obtain ⟨a', t', ha', ht⟩ := hw s
    obtain ⟨rfl, rfl⟩ := ha.unique ha'
    exact (hf a).sound t c s' (ht ▸ hs) hc
  · intro s d hs hQ
    obtain ⟨a, t, ha, ht⟩ := hw s
    obtain ⟨c, s', hc, hd⟩ := (hf a).complete t d (ht ▸ hs) hQ
    exact ⟨c, s', yields_bind.mpr ⟨a, t, ha, hc⟩, hd⟩

section

variable {f : Unit → Walk γ}

theorem silent_look {ord : Nat} : (look ord).Silent :=
  fun s => ⟨(), s.looking ord, yields_look.mpr rfl, rfl⟩

theorem Checks.look {ord : Nat} (hf : (f ()).Checks R S sight Q) :
    (Typing.look ord >>= f).Checks R S sight Q :=
  silent_look.before fun _ => hf

theorem Checks.emit {i : Instr} (hf : (f ()).Checks R S sight Q) :
    (Typing.emit i >>= f).Checks R S sight Q := by
  have hsilent : (Typing.emit i).Silent := fun s => ⟨(), s.noting i, yields_emit.mpr rfl, rfl⟩
  exact hsilent.before fun _ => hf

theorem Checks.emitAll {is : List Instr} (hf : (f ()).Checks R S sight Q) :
    (Typing.emitAll is >>= f).Checks R S sight Q := by
  have hsilent : (Typing.emitAll is).Silent := by
    intro s
    refine ⟨(), is.foldl State.noting s, yields_emitAll.mpr rfl, ?_⟩
    induction is generalizing s with
    | nil => rfl
    | cons i is ih => exact ih (s.noting i)
  exact hsilent.before fun _ => hf

/-- What closes a phrase without a gap is passed over. -/
theorem Checks.close {c : Syntax.Close} (hc : c.Whole) (hf : (f ()).Checks R S sight Q) :
    (Typing.close c >>= f).Checks R S sight Q := by
  cases c with
  | word ord => exact hf.look
  | gap g => exact hc.elim

end

theorem checks_pure {a : α} : (pure a : Walk α).Checks R R view (fun b => b = view a) := by
  constructor
  · intro s a' s' hs hy
    obtain ⟨rfl, rfl⟩ := yields_pure.mp hy
    exact ⟨rfl, hs⟩
  · rintro s b hs rfl
    exact ⟨a, s, yields_pure.mpr ⟨rfl, rfl⟩, rfl⟩

theorem checks_pure_and {a : α} (hp : p) :
    (pure a : Walk α).Checks R R view (fun b => p ∧ b = view a) :=
  checks_pure.of_iff fun _ => (and_iff_right hp).symm

/-- A walk that is stopped checks what cannot be. -/
theorem checks_reject {cause : Cause} {ord : Nat} (h : ∀ b, ¬P b) :
    (reject cause ord : Walk α).Checks R S view P := by
  constructor
  · intro s a s' _ hy
    exact absurd hy not_yields_reject
  · intro s b _ hb
    exact absurd hb (h b)

/-- What closes a phrase changes nothing in what the phrase gives. -/
theorem Checks.closed {c : Syntax.Close} (hw : w.Checks R S view P) (hc : c.Whole) :
    (w >>= fun a => Typing.close c >>= fun _ => pure a).Checks R S view P := by
  exact hw.through fun a => .close hc checks_pure

/-- What comes next may depend on the state. -/
theorem checks_get {f : State → Walk γ}
    (hf : ∀ s : State, R s.ledger → (f s).Checks (· = s.ledger) S sight Q) :
    (get >>= f).Checks R S sight Q := by
  constructor
  · intro s c s' hs hy
    obtain ⟨s₀, t, hget, hc⟩ := yields_bind.mp hy
    obtain ⟨hs₀, ht⟩ := yields_get.mp hget
    subst hs₀ ht
    exact (hf t hs).sound t c s' rfl hc
  · intro s d hs hQ
    obtain ⟨c, s', hc, hd⟩ := (hf s hs).complete s d rfl hQ
    exact ⟨c, s', yields_bind.mpr ⟨s, s, yields_get.mpr ⟨rfl, rfl⟩, hc⟩, hd⟩

/-- A change of the tables before what comes next. -/
theorem checks_modify {g : State → State} {f : Unit → Walk γ}
    (hg : ∀ s, R s.ledger → S (g s).ledger) (hf : (f ()).Checks S T sight Q) :
    (modify g >>= f).Checks R T sight Q := by
  constructor
  · intro s c s' hs hy
    obtain ⟨u, t, hmod, hc⟩ := yields_bind.mp hy
    cases yields_modify.mp hmod
    exact hf.sound (g s) c s' (hg s hs) hc
  · intro s d hs hQ
    obtain ⟨c, s', hc, hd⟩ := hf.complete (g s) d (hg s hs) hQ
    exact ⟨c, s', yields_bind.mpr ⟨(), g s, yields_modify.mpr rfl, hc⟩, hd⟩

/-- More is known of the tables at the start, and less is asked for at the end. -/
theorem Checks.within {R' S' : Ledger → Prop} (hw : w.Checks R S view P) (hR : ∀ l, R' l → R l)
    (hS : ∀ l, S l → S' l) : w.Checks R' S' view P := by
  constructor
  · intro s a s' hs hy
    obtain ⟨hP, hs'⟩ := hw.sound s a s' (hR _ hs) hy
    exact ⟨hP, hS _ hs'⟩
  · intro s b hs hP
    exact hw.complete s b (hR _ hs) hP

end Walk

/-! ## What tables show -/

/-- The entry as a variable. -/
def entryVar (e : Entry Nat) : Var :=
  ⟨e.name, e.isConstant, e.type⟩

/-- The function as its calls see it. -/
def functionHeading (f : Function Nat) : Heading :=
  ⟨f.name, f.paramTypes, f.type⟩

/-- The names of the built-in functions as they stand among the globals. -/
def builtinVars : List Var :=
  Builtin.all.map fun b => ⟨b.name, true, .string⟩

/-- The tables say what is known: after the built-in functions the globals, with texts among them;
the functions; the parameters; and the local variables, with a mark on those that the text has
given a value. -/
structure Ledger.Shows (l : Ledger) (K : Known) : Prop where
  globals : l.globals.named.map entryVar = builtinVars ++ K.globals
  functions : l.functions.named.map functionHeading = K.functions
  params : (l.params.getD {}).rows.map entryVar = K.params
  locals : l.locals.named.map entryVar = K.locals
  valued : ∀ e ∈ l.locals.named, e.initialized = true ↔ ValuedIn e.name K.before

/-- What holds of all that is known in a program whose declarations are those of numbers, as far as
it has been checked. -/
structure Proper (K : Known) : Prop where
  numeric : ∀ v ∈ K.globals ++ (K.params ++ K.locals), v.type.isNumeric = true
  named : ∀ v ∈ K.params, v.name ≠ ""
  apart : ∀ v ∈ K.globals, v.name ∉ builtinNames
  distinct : (K.locals.map Var.name).Nodup

/-- Outside of functions there are no parameters and local variables. -/
def Context.Stands (c : Context) (K : Known) : Prop :=
  c.isTop = true → K.params = [] ∧ K.before = []

section

variable {K : Known} {c : Context} {s : State}

theorem mem_named_of_find? {t : Table (Entry Nat)} {x : String} {e : Entry Nat}
    (h : t.find? x = some e) : e ∈ t.named ∧ e.name = x := by
  obtain ⟨hx, hname, hmem⟩ := Table.find?_eq_some h
  refine ⟨List.mem_filter.mpr ⟨hmem, ?_⟩, hname⟩
  rw [hname]
  simpa using hx

namespace Ledger.Shows

variable (hs : s.ledger.Shows K)
include hs

theorem find_local (x : String) :
    (s.locals.find? x).map entryVar = K.locals.find? (·.name == x) := by
  rw [← hs.locals]
  exact Table.map_find? s.locals (g := entryVar) (fun _ => rfl) x

theorem find_param (hK : Proper K) (x : String) :
    (s.params.bind (·.find? x)).map entryVar = K.params.find? (·.name == x) := by
  have hnamed : ((s.params.getD {}).named).map entryVar = K.params := by
    rw [← hs.params]
    refine congrArg (List.map entryVar) (List.filter_eq_self.mpr ?_)
    intro e he
    have hmem : entryVar e ∈ K.params := by
      rw [← hs.params]
      exact List.mem_map_of_mem he
    exact bne_iff_ne.mpr (hK.named _ hmem)
  rw [← hnamed, ← Table.map_find? _ (g := entryVar) (fun _ => rfl) x]
  cases s.params with
  | none => simp [Table.find?]
  | some t => rfl

theorem find_global (x : String) :
    (s.globals.find? x).map entryVar =
      (builtinVars.find? (·.name == x)).or (K.globals.find? (·.name == x)) := by
  rw [← List.find?_append, ← hs.globals]
  exact Table.map_find? s.globals (g := entryVar) (fun _ => rfl) x

/-- Of the globals that can be found by name, those that are numbers are the variables. -/
theorem global_numbers (hK : Proper K) (x : String) :
    ((s.globals.find? x).filter (·.type.isNumeric)).map entryVar =
      K.globals.find? (·.name == x) := by
  have hfind := hs.find_global x
  cases hb : builtinVars.find? (·.name == x) with
  | some b =>
    obtain ⟨f, -, hf⟩ := List.mem_map.mp (List.mem_of_find?_eq_some hb)
    have hname : b.name = x := by simpa using List.find?_some hb
    have hnone : K.globals.find? (·.name == x) = none := by
      rw [List.find?_eq_none]
      intro v hv heq
      have hmem : v.name ∈ builtinNames := by
        rw [beq_iff_eq.mp heq, ← hname, ← hf]
        exact List.mem_map_of_mem (by cases f <;> decide)
      exact hK.apart v hv hmem
    rw [hb, Option.some_or, Option.map_eq_some_iff] at hfind
    obtain ⟨e, he, hvar⟩ := hfind
    have htype : e.type = .string := by
      have htype := congrArg Var.type (hvar.trans hf.symm)
      exact htype
    rw [hnone, he]
    simp [Option.filter_some, htype, Ty.isNumeric]
  | none =>
    rw [hb, Option.none_or] at hfind
    rw [← hfind]
    cases he : s.globals.find? x with
    | none => rfl
    | some e =>
      have hmem : entryVar e ∈ K.globals := by
        rw [he] at hfind
        exact List.mem_of_find?_eq_some hfind.symm
      have hnum : e.type.isNumeric = true :=
        hK.numeric (entryVar e) (List.mem_append_left _ hmem)
      simp [Option.filter_some, hnum]

/-- The numbers that names stand for are the variables that are known. -/
theorem resolve (hK : Proper K) (hc : c.Stands K) (x : String) :
    (((s.scope c).resolve Table.find? x).filter (·.1.type.isNumeric)).map
      (fun found => (found.2, entryVar found.1)) = K.var? x := by
  have hlocal := hs.find_local x
  have hparam := hs.find_param hK x
  have hglobal := hs.global_numbers hK x
  have hnumeric {l : List Var} (hl : ∀ v ∈ l, v.type.isNumeric = true) {e : Entry Nat}
      (he : l.find? (·.name == x) = some (entryVar e)) : e.type.isNumeric = true :=
    hl (entryVar e) (List.mem_of_find?_eq_some he)
  have houter : (((s.globals.find? x).map (·, Location.global)).filter (·.1.type.isNumeric)).map
      (fun found => (found.2, entryVar found.1)) =
        (K.globals.find? (·.name == x)).map (Location.global, ·) := by
    rw [← hglobal]
    cases s.globals.find? x with
    | none => rfl
    | some e => cases hnum : e.type.isNumeric <;> simp [Option.filter_some, hnum]
  cases hown : c.owner with
  | none =>
    have htop : c.isTop = true := by simp [Context.isTop, hown]
    obtain ⟨hparams, hbefore⟩ := hc htop
    have hlocals : K.locals = [] := by simp [Known.locals, hbefore, declaredIn]
    rw [resolve_outside hown, houter]
    simp [Known.var?, hlocals, hparams]
  | some owner =>
    rw [resolve_inside hown]
    cases hl : s.locals.find? x with
    | some e =>
      rw [hl, Option.map_some] at hlocal
      have hnum := hnumeric (fun v hv => hK.numeric v (by simp [hv])) hlocal.symm
      simp [Known.var?, ← hlocal, Option.filter_some, hnum]
    | none =>
      rw [hl, Option.map_none] at hlocal
      cases hp : s.params.bind (·.find? x) with
      | some e =>
        rw [hp, Option.map_some] at hparam
        have hnum := hnumeric (fun v hv => hK.numeric v (by simp [hv])) hparam.symm
        simp [Known.var?, ← hlocal, ← hparam, Option.filter_some, hnum]
      | none =>
        rw [hp, Option.map_none] at hparam
        rw [Known.var?, ← hlocal, ← hparam]
        exact houter

end Ledger.Shows

end

/-! ## Checks on operands -/

/-- What an operand is, as far as checks go. -/
def Operand.form : Operand → Form
  | .value e => .value e.type
  | .test _ => .truth

theorem Operand.number?_of_form (hv : v.form = .value type) (hnum : type.isNumeric = true) :
    ∃ e, v.number? = some e := by
  cases v with
  | test t => cases hv
  | value e =>
    cases hv
    exact ⟨e, if_pos hnum⟩

/-- What is no number has not the form of one. -/
theorem Operand.not_numeric (hv : v.number? = none) :
    ¬∃ type : Ty, type.isNumeric = true ∧ v.form = .value type := by
  rintro ⟨type, hnum, hform⟩
  obtain ⟨e, he⟩ := Operand.number?_of_form hform hnum
  cases hv.symm.trans he

theorem Operand.form_of_valueOf? {e : Core.Expr} (h : v.valueOf? type = some e) :
    v.form = .value type := by
  obtain ⟨rfl, htype⟩ := Operand.valueOf?_eq_some h
  exact congrArg Form.value htype

theorem Operand.form_ne_of_valueOf? (h : v.valueOf? type = none) : v.form ≠ .value type := by
  intro hv
  cases v with
  | test t => cases hv
  | value e =>
    cases hv
    simp [Operand.valueOf?] at h

theorem Operand.numbers?_of_form {l r : Operand} (hl : l.form = .value type)
    (hr : r.form = .value type) (hnum : type.isNumeric = true) :
    ∃ pair, l.numbers? r = some pair := by
  obtain ⟨a, ha⟩ := Operand.number?_of_form hl hnum
  obtain ⟨b, hb⟩ := Operand.number?_of_form hr hnum
  have htypes : a.type = b.type := by
    obtain ⟨rfl, -⟩ := Operand.number?_eq_some ha
    obtain ⟨rfl, -⟩ := Operand.number?_eq_some hb
    exact (Form.value.inj hl).trans (Form.value.inj hr).symm
  refine ⟨(a, b), ?_⟩
  unfold Operand.numbers?
  rw [ha, hb]
  exact if_pos htypes

open Operand (form)

section

variable {R : Ledger → Prop} {v : Operand} {u : Form} {ord : Nat}

/-- Operands that are numbers of one type go on, and others stop. -/
theorem checks_numbers {l r : Operand} {f : Core.Expr → Core.Expr → Walk Operand} {V : Ty → Form}
    {cause : Cause} (hf : ∀ a b, (f a b).Checks R R form (· = V a.type)) :
    (match l.numbers? r with
      | some (a, b) => f a b
      | none => reject cause ord).Checks R R form (fun v => ∃ type : Ty,
        type.isNumeric = true ∧ l.form = Form.value type ∧
          r.form = Form.value type ∧ v = V type) := by
  split
  · rename_i a b hab
    obtain ⟨rfl, rfl, htype, hnum⟩ := Operand.numbers?_eq_some hab
    apply (hf a b).of_iff
    intro v
    constructor
    · intro hv
      exact ⟨a.type, hnum, rfl, congrArg Form.value htype, hv⟩
    · rintro ⟨type, -, ha, -, hv⟩
      cases ha
      exact hv
  · rename_i hnone
    apply checks_reject
    rintro v ⟨type, hnum, hl, hr, -⟩
    obtain ⟨pair, hpair⟩ := Operand.numbers?_of_form hl hr hnum
    cases hnone.symm.trans hpair

theorem checks_combine {op : ArithOp} (l r : Operand) :
    (combine ord op l r).Checks R R form (fun v => ∃ type : Ty, type.isNumeric = true ∧
      l.form = .value type ∧ r.form = .value type ∧ v = .value type) :=
  checks_numbers (V := .value) fun _ _ => .emit checks_pure

theorem checks_compare {op : RelOp} (l r : Operand) :
    (compare ord op l r).Checks R R form (fun v => ∃ type : Ty, type.isNumeric = true ∧
      l.form = .value type ∧ r.form = .value type ∧ v = .truth) :=
  checks_numbers (V := fun _ => .truth) fun _ _ => .emitAll checks_pure

theorem checks_convert {target : Ty} (hv : v.form = u) :
    (convert ord target v).Checks R R form (fun b =>
      (∃ type : Ty, type.isNumeric = true ∧ u = .value type) ∧ b = .value target) := by
  subst hv
  unfold convert
  split
  · rename_i e he
    obtain ⟨rfl, hnum⟩ := Operand.number?_eq_some he
    exact .emitAll (checks_pure_and ⟨e.type, hnum, rfl⟩)
  · rename_i hnone
    apply checks_reject
    rintro form ⟨hnumeric, -⟩
    exact Operand.not_numeric hnone hnumeric

theorem checks_negateAll {e : Core.Expr} {ss : List Bool} :
    (negateAll e ss).Checks R R Core.Expr.type (· = e.type) := by
  induction ss generalizing e with
  | nil => exact checks_pure
  | cons minus ss ih =>
    cases minus with
    | false => exact ih
    | true =>
      exact .emit ih

theorem checks_sign {ss : List Bool} (hv : v.form = u) :
    (sign ord ss v).Checks R R form (fun b =>
      (true ∈ ss → ∃ type : Ty, type.isNumeric = true ∧ u = .value type) ∧ b = u) := by
  subst hv
  unfold sign
  split
  · rename_i hany
    have hmem : true ∈ ss := by simpa using hany
    split
    · rename_i e he
      obtain ⟨rfl, hnum⟩ := Operand.number?_eq_some he
      refine (checks_negateAll.bind (Q := fun type v => v = .value type) ?_).of_iff fun b => ?_
      · rintro a type rfl -
        exact checks_pure
      · rw [exists_eq_left, and_iff_right fun _ => ⟨e.type, hnum, rfl⟩]
        rfl
    · rename_i hnone
      apply checks_reject
      rintro b ⟨hnumeric, -⟩
      exact Operand.not_numeric hnone (hnumeric hmem)
  · rename_i hany
    have hmem : true ∉ ss := by simpa using hany
    exact checks_pure_and fun h => absurd h hmem

theorem checks_argument {f : Name} {number ord : Nat} {type : Ty} (hv : v.form = u) :
    (argument f number type ord v).Checks R R (fun _ => ()) (fun _ => u = .value type) := by
  unfold argument
  split
  · rename_i e he
    apply checks_pure.of_iff
    intro b
    exact iff_of_true rfl (hv.symm.trans (Operand.form_of_valueOf? he))
  · rename_i hnone
    apply checks_reject
    intro b hu
    exact Operand.form_ne_of_valueOf? hnone (hv.trans hu)

end

/-! ## Checks on names -/

section

variable {K : Known} {c : Context}

/-- The variable can be used where it stands: a local one has to have a value. -/
def usable (found : Entry Nat × Location) : Bool :=
  found.2 != .local || found.1.initialized

theorem checks_resolve (hK : Proper K) (hc : c.Stands K) (x : Name) :
    (resolve c x).Checks (·.Shows K) (·.Shows K)
      (fun found => (found.2, entryVar found.1, usable found))
      (fun b => K.var? x.text = some (b.1, b.2.1) ∧
        (b.2.2 = true ↔ (b.1 = .local → ValuedIn x.text K.before))) := by
  apply checks_get
  intro s hs
  have hvar := hs.resolve hK hc x.text
  split
  · rename_i hnone
    apply checks_reject
    rintro b ⟨hb, -⟩
    rw [hnone, hb] at hvar
    cases hvar
  · rename_i e l hfound
    rw [hfound, Option.filter_some] at hvar
    split
    · rename_i hnum
      rw [if_pos hnum, Option.map_some] at hvar
      have huse : usable (e, l) = true ↔ (l = .local → ValuedIn x.text K.before) := by
        cases l with
        | «local» =>
          have hlocal : s.locals.find? x.text = some e := by
            rcases scope_cases hfound with ⟨hl, -⟩ | ⟨_, _, -, hl, -⟩ | ⟨_, -, -, hfind⟩
            · cases hl
            · cases hl
            · exact hfind
          obtain ⟨hmem, hname⟩ := mem_named_of_find? hlocal
          have hvalued := hs.valued e hmem
          rw [hname] at hvalued
          simpa [usable] using hvalued
        | global => simp [usable]
        | param => simp [usable]
      refine (checks_pure.of_iff ?_).within (fun _ h => h) (fun l h => h ▸ hs)
      rintro ⟨l', y, usable'⟩
      constructor
      · intro heq
        cases heq
        exact ⟨hvar.symm, huse⟩
      · rintro ⟨hy, hu⟩
        obtain ⟨rfl, rfl⟩ := Prod.mk.inj (Option.some.inj (hvar.trans hy))
        exact congrArg (fun b => (l, entryVar e, b)) (Bool.eq_iff_iff.mpr (hu.trans huse.symm))
    · rename_i hnum
      rw [if_neg hnum] at hvar
      apply checks_reject
      rintro b ⟨hb, -⟩
      rw [hb] at hvar
      cases hvar

theorem checks_load (hK : Proper K) (hc : c.Stands K) (x : Name) :
    (load c x).Checks (·.Shows K) (·.Shows K) form (fun v => ∃ l y,
      K.var? x.text = some (l, y) ∧ (l = .local → ValuedIn x.text K.before) ∧
        v = .value y.type) := by
  refine ((checks_resolve hK hc x).bind
    (Q := fun b v => b.2.2 = true ∧ v = .value b.2.1.type) ?_).of_iff fun v => ?_
  · rintro ⟨e, l⟩ b rfl hb
    dsimp only
    split
    · rename_i hbad
      apply checks_reject
      rintro v ⟨huse, -⟩
      obtain ⟨rfl, hinit⟩ := hbad
      simp [usable, hinit] at huse
    · rename_i hgood
      have huse : usable (e, l) = true := by
        by_cases hl : l = .local
        · have hinit : e.initialized = true := by
            cases hinit : e.initialized with
            | true => rfl
            | false => exact absurd ⟨hl, hinit⟩ hgood
          simp [usable, hinit]
        · simp [usable, hl]
      exact .emit (.emit (checks_pure_and huse))
  · constructor
    · rintro ⟨⟨l, y, b⟩, ⟨hvar, hb⟩, rfl, hv⟩
      exact ⟨l, y, hvar, hb.mp rfl, hv⟩
    · rintro ⟨l, y, hvar, hvalued, hv⟩
      exact ⟨(l, y, true), ⟨hvar, iff_of_true rfl hvalued⟩, rfl, hv⟩

theorem Ledger.Shows.find_function {s : State} (hs : s.ledger.Shows K) (f : String) :
    (s.functions.find? f).map functionHeading = K.functions.find? (·.name == f) := by
  rw [← hs.functions]
  exact Table.map_find? s.functions (g := functionHeading) (fun _ => rfl) f

theorem checks_callee (f : Name) :
    (callee f).Checks (·.Shows K) (·.Shows K) (fun found => (found.1.result, found.2))
      (fun b => ∃ g, K.heading? f.text = some g ∧ b = (g.result, g.params)) := by
  unfold callee
  split
  · rename_i b hb
    have hheading : K.heading? f.text = some ⟨b.name, b.paramTypes, b.result⟩ := by
      simp [Known.heading?, hb]
    apply checks_pure.of_iff
    intro d
    constructor
    · intro hd
      exact ⟨_, hheading, hd⟩
    · rintro ⟨g, hg, hd⟩
      cases hheading.symm.trans hg
      exact hd
  · rename_i hb
    apply checks_get
    intro s hs
    have hfind := hs.find_function f.text
    have hheading : K.heading? f.text = K.functions.find? (·.name == f.text) := by
      simp [Known.heading?, hb]
    rw [← hheading] at hfind
    split
    · rename_i g hg
      rw [hg, Option.map_some] at hfind
      refine (checks_pure.of_iff ?_).within (fun _ h => h) (fun l h => h ▸ hs)
      intro d
      constructor
      · intro hd
        exact ⟨_, hfind.symm, hd⟩
      · rintro ⟨g', hg', hd⟩
        cases hfind.trans hg'
        exact hd
    · rename_i hnone
      apply checks_reject
      rintro d ⟨g, hg, -⟩
      rw [hnone, hg] at hfind
      cases hfind

end

/-! ## Expressions -/

section

variable {K : Known} {c : Context}

/-- A text goes among the globals, where no name finds it. -/
theorem Ledger.Shows.text {s : State} (hs : s.ledger.Shows K) (text : String) :
    (State.ledger { s with
      globals := (s.globals.add? (Entry.ofText "" text)).getD s.globals }).Shows K := by
  have hadd : s.globals.add? (Entry.ofText "" text) =
      some ⟨s.globals.rows ++ [{ Entry.ofText "" text with slot := s.globals.count }],
        s.globals.count + 1⟩ :=
    Table.insert?_of_name_empty rfl
  have hnamed : (⟨s.globals.rows ++ [{ Entry.ofText "" text with slot := s.globals.count }],
      s.globals.count + 1⟩ : Table (Entry Nat)).named = s.globals.named := by
    simp [Table.named, Symbol.name, Entry.ofText]
  rw [hadd, Option.getD_some]
  refine ⟨?_, hs.functions, hs.params, hs.locals, hs.valued⟩
  exact (congrArg (List.map entryVar) hnamed).trans hs.globals

section

variable {R : Ledger → Prop} {w₁ w₂ : Walk Operand} {P Q : Form → Prop}

/-- What is asked of two operands together is asked of what comes before it. -/
theorem checks_both {f : Operand → Operand → Walk Operand} {V : Ty → Form → Prop}
    (h₁ : w₁.Checks R R form P) (h₂ : w₂.Checks R R form Q)
    (hf : ∀ a b, (f a b).Checks R R form (fun v => ∃ type : Ty, type.isNumeric = true ∧
      a.form = .value type ∧ b.form = .value type ∧ V type v)) :
    (w₁ >>= fun a => w₂ >>= fun b => f a b).Checks R R form (fun v => ∃ type : Ty,
      type.isNumeric = true ∧ P (.value type) ∧ Q (.value type) ∧ V type v) := by
  refine (h₁.bind (Q := fun u v => ∃ w, Q w ∧ ∃ type : Ty, type.isNumeric = true ∧
    u = .value type ∧ w = .value type ∧ V type v) ?_).of_iff fun v => ?_
  · rintro a _ rfl _
    apply h₂.bind
    rintro b _ rfl _
    exact hf a b
  · constructor
    · rintro ⟨_, hP, _, hQ, type, hnum, rfl, rfl, hv⟩
      exact ⟨type, hnum, hP, hQ, hv⟩
    · rintro ⟨type, hnum, hP, hQ, hv⟩
      exact ⟨_, hP, _, hQ, type, hnum, rfl, rfl, hv⟩

end

section

set_option linter.unusedSectionVars false

variable (hK : Proper K) (hc : c.Stands K)
include hK hc

mutual

theorem checks_expr (e : Syntax.Expr) (he : e.Whole) :
    (expr c e).Checks (·.Shows K) (·.Shows K) form (e.Gives K) := by
  match e with
  | .term t =>
    rw [expr]
    exact checks_term t he
  | .sum l op r =>
    rw [expr]
    exact checks_both (checks_expr l he.1) (checks_term r he.2) checks_combine

theorem checks_term (t : Syntax.Term) (ht : t.Whole) :
    (term c t).Checks (·.Shows K) (·.Shows K) form (t.Gives K) := by
  match t with
  | .factor f =>
    rw [term]
    exact checks_factor f ht
  | .product l op r =>
    rw [term]
    exact checks_both (checks_term l ht.1) (checks_factor r ht.2) checks_combine

theorem checks_factor (f : Syntax.Factor) (hf : f.Whole) :
    (factor c f).Checks (·.Shows K) (·.Shows K) form (f.Gives K) := by
  match f with
  | .mk ord ss body =>
    rw [factor]
    refine .look (((checks_casted body hf).bind fun a u ha _ => checks_sign ha).of_iff ?_)
    intro v
    exact exists_eq_right_right'

theorem checks_casted (b : Syntax.Casted) (hb : b.Whole) :
    (casted c b).Checks (·.Shows K) (·.Shows K) form (b.Gives K) := by
  match b with
  | .primary p =>
    rw [casted]
    apply (checks_primary p hb).through
    intro v
    exact .look checks_pure
  | .cast body ord target =>
    rw [casted]
    refine ((checks_casted body hb).bind fun a u ha _ =>
      .look ((checks_convert ha).through fun _ => .look checks_pure)).of_iff fun v => ?_
    constructor
    · rintro ⟨_, hu, ⟨type, hnum, rfl⟩, rfl⟩
      exact ⟨⟨type, hnum, hu⟩, rfl⟩
    · rintro ⟨⟨type, hnum, hu⟩, rfl⟩
      exact ⟨_, hu, ⟨type, hnum, rfl⟩, rfl⟩
  | .untyped _ _ _ => exact hb.elim

theorem checks_primary (p : Syntax.Primary) (hp : p.Whole) :
    (primary c p).Checks (·.Shows K) (·.Shows K) form (p.Gives K) := by
  match p with
  | .name x =>
    rw [primary]
    exact .look (checks_load hK hc x)
  | .call f as =>
    rw [primary]
    refine .look (((checks_callee f).bind
      (Q := fun b v => as.Give K b.2 ∧ v = .value b.1) ?_).of_iff fun v => ?_)
    · rintro ⟨g, types⟩ b rfl _
      refine .emit ((checks_args f types.length 1 types as hp).also fun _ es => ?_)
      exact .emit checks_pure
    · constructor
      · rintro ⟨_, ⟨g, hg, rfl⟩, has, hv⟩
        exact ⟨g, hg, has, hv⟩
      · rintro ⟨g, hg, has, hv⟩
        exact ⟨_, ⟨g, hg, rfl⟩, has, hv⟩
  | .int word ord =>
    rw [primary]
    exact .look (.emit checks_pure)
  | .double bits ord =>
    rw [primary]
    exact .look (.emit checks_pure)
  | .text s ord =>
    rw [primary]
    refine .look ?_
    apply checks_get
    intro st hst
    apply checks_modify (S := (·.Shows K))
    · intro t ht
      exact Ledger.Shows.text (ht ▸ hst) s
    · exact .emit checks_pure
  | .paren ord inner cl =>
    rw [primary]
    exact .look ((checks_relational inner hp.1).closed hp.2)
  | .gap g => exact hp.elim

theorem checks_relational (r : Syntax.Relational) (hr : r.Whole) :
    (relational c r).Checks (·.Shows K) (·.Shows K) form (r.Gives K) := by
  match r with
  | .value e =>
    rw [relational]
    exact checks_expr e hr
  | .compare l op r =>
    rw [relational]
    refine (checks_both (checks_expr l hr.1) (checks_expr r hr.2)
      checks_compare).of_iff ?_
    intro v
    constructor
    · rintro ⟨type, hnum, hl, hr, hv⟩
      exact ⟨⟨type, hnum, hl, hr⟩, hv⟩
    · rintro ⟨⟨type, hnum, hl, hr⟩, hv⟩
      exact ⟨type, hnum, hl, hr, hv⟩

theorem checks_args (f : Name) (want number : Nat) (types : List Ty) (as : Syntax.Args)
    (has : as.Whole) :
    (args c f want number types as).Checks (·.Shows K) (·.Shows K) (fun _ => ())
      (fun _ => as.Give K types) := by
  match as with
  | .done ord =>
    rw [args]
    refine .look ?_
    cases types with
    | nil => exact checks_pure.of_iff fun _ => iff_of_true rfl rfl
    | cons type types => exact checks_reject nofun
  | .more e rest =>
    match types with
    | [] =>
      rw [args]
      refine .look ?_
      apply checks_reject
      rintro _ ⟨type, others, htypes, -⟩
      cases htypes
    | type :: types =>
      rw [args]
      refine .look (((checks_expr e has.1).bind fun v u hv _ =>
        (checks_argument hv).also fun _ a =>
          (checks_args f want (number + 1) types rest has.2).through fun _ =>
            checks_pure).of_iff fun _ => ?_)
      constructor
      · rintro ⟨_, he, rfl, hrest⟩
        exact ⟨type, types, rfl, he, hrest⟩
      · rintro ⟨type', types', htypes, he, hrest⟩
        cases htypes
        exact ⟨_, he, rfl, hrest⟩
  | .gap g => exact has.elim

end

end

/-- What goes on with the value of an expression of a given type, and stops at any other. -/
theorem checks_valued {γ δ : Type} {S : Ledger → Prop} {sight : γ → δ} {Q : δ → Prop}
    (hK : Proper K) (hc : c.Stands K) (e : Syntax.Expr) (he : e.Whole) (type : Ty)
    {f : Core.Expr → Walk γ} {cause : Operand → Cause} {ord : Nat}
    (hf : ∀ a, (f a).Checks (·.Shows K) S sight Q) :
    (expr c e >>= fun v => match v.valueOf? type with
      | some a => f a
      | none => reject (cause v) ord).Checks (·.Shows K) S sight
      (fun d => e.Gives K (.value type) ∧ Q d) := by
  refine ((checks_expr hK hc e he).bind (Q := fun u d => u = .value type ∧ Q d) ?_).of_iff
    fun d => ?_
  · rintro v _ rfl _
    split
    · rename_i a ha
      apply (hf a).of_iff
      intro d
      exact (and_iff_right (Operand.form_of_valueOf? ha)).symm
    · rename_i hnone
      apply checks_reject
      rintro d ⟨hform, -⟩
      exact Operand.form_ne_of_valueOf? hnone hform
  · constructor
    · rintro ⟨_, hgives, rfl, hd⟩
      exact ⟨hgives, hd⟩
    · rintro ⟨hgives, hd⟩
      exact ⟨_, hgives, rfl, hd⟩

/-- Analysis decides what a condition can be. -/
theorem checks_condition (hK : Proper K) (hc : c.Stands K) (r : Syntax.Relational) (hr : r.Whole) :
    (condition c r).Checks (·.Shows K) (·.Shows K) (fun _ => ()) (fun _ => r.Tests K) := by
  unfold condition
  refine .look (((checks_relational hK hc r hr).bind (Q := fun u _ => u = .truth ∨
    ∃ type : Ty, type.isNumeric = true ∧ u = .value type) ?_).of_iff fun _ => ?_)
  · rintro (e | t) u rfl _
    · dsimp only
      split
      · rename_i hnum
        exact .emit (checks_pure.of_iff fun _ => iff_of_true rfl (.inr ⟨e.type, hnum, rfl⟩))
      · rename_i hnum
        apply checks_reject
        rintro _ (htruth | ⟨type, htype, heq⟩)
        · cases htruth
        · cases heq
          exact hnum htype
    · exact checks_pure.of_iff fun _ => iff_of_true rfl (.inl rfl)
  · constructor
    · rintro ⟨_, hu, rfl | ⟨type, hnum, rfl⟩⟩
      · exact .inl hu
      · exact .inr ⟨type, hnum, hu⟩
    · rintro (hu | ⟨type, hnum, hu⟩)
      · exact ⟨_, hu, .inl rfl⟩
      · exact ⟨_, hu, .inr ⟨type, hnum, rfl⟩⟩

end

end Typing

end TinyC
