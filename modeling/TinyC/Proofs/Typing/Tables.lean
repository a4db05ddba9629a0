import TinyC.Proofs.Core.Typed
import TinyC.Proofs.Typing.Walk

/-!
# What the tables of a walk say

A table is *dense* if every symbol in it stands at its slot, *full* if every slot that was handed
out has its symbol, and *keyed* if no two symbols have one name. While an initial value is read the
table of the declared name is not full, and a text that came into the table of globals then would
stand at the wrong slot.

`State.Sound` is what every point of a walk has, and `State.Adds` says that only texts were added.
-/

namespace TinyC

namespace Table

variable {α β : Type} [Symbol α] [Symbol β] {t : Table α} {a : α}

/-- Every symbol stands at its slot. -/
def Dense (t : Table α) : Prop :=
  ∀ i a, t.rows[i]? = some a → Symbol.slot a = i

omit [Symbol α] in
/-- Every slot that was handed out has its symbol. -/
def Full (t : Table α) : Prop :=
  t.count = t.rows.length

/-- No two symbols have one name, unless they have none. -/
def Keyed (t : Table α) : Prop :=
  t.rows.Pairwise fun a b => Symbol.name a = Symbol.name b → Symbol.name a = ""

/-- What is found under a name is one of the rows, and has that name. -/
theorem find?_eq_some {x : String} (h : t.find? x = some a) :
    x ≠ "" ∧ Symbol.name a = x ∧ a ∈ t.rows := by
  unfold find? at h
  split at h
  · cases h
  · rename_i hx
    exact ⟨hx, by simpa using List.find?_some h, List.mem_of_find?_eq_some h⟩

/-- A symbol is added at the next slot, unless its name is taken. -/
theorem add?_eq_some_iff {t u : Table α} :
    t.add? a = some u ↔ t.has (Symbol.name (Symbol.seat a t.count)) = false ∧
      u = ⟨t.rows ++ [Symbol.seat a t.count], t.count + 1⟩ := by
  show (if t.has (Symbol.name (Symbol.seat a t.count)) = true then none
    else some ⟨t.rows ++ [Symbol.seat a t.count], t.count + 1⟩) = some u ↔ _
  cases t.has (Symbol.name (Symbol.seat a t.count)) with
  | true => simp
  | false => simp [eq_comm]

/-- In a dense table a row is found again at its slot. -/
theorem Dense.rows_slot (h : t.Dense) (ha : a ∈ t.rows) : t.rows[Symbol.slot a]? = some a := by
  obtain ⟨i, hi⟩ := List.mem_iff_getElem?.mp ha
  rw [h i a hi]
  exact hi

/-- A row for the next slot keeps a table dense. -/
theorem Dense.concat (h : t.Dense) (ha : Symbol.slot a = t.rows.length) (n : Nat) :
    Dense (⟨t.rows ++ [a], n⟩ : Table α) := by
  intro i b hb
  rcases Nat.lt_or_ge i t.rows.length with hi | hi
  · exact h i b (by rwa [List.getElem?_append_left hi] at hb)
  · rw [List.getElem?_append_right hi] at hb
    obtain ⟨hlt, rfl⟩ := List.getElem?_eq_some_iff.mp hb
    simp only [List.length_singleton] at hlt
    simp only [List.getElem_singleton, ha]
    omega

/-- Changing the symbols of a name leaves a table dense if their slots stay. -/
theorem Dense.modify (h : t.Dense) (x : String) {f : α → α}
    (hf : ∀ a, Symbol.slot (f a) = Symbol.slot a) : (t.modify x f).Dense := by
  intro i b hb
  simp only [Table.modify, List.getElem?_map, Option.map_eq_some_iff] at hb
  obtain ⟨a, ha, rfl⟩ := hb
  split
  · rw [hf, h i a ha]
  · exact h i a ha

/-- A name that is not taken is the name of no row. -/
theorem name_ne_of_has {x : String} (hx : x ≠ "") (h : t.has x = false) :
    ∀ a ∈ t.rows, Symbol.name a ≠ x := by
  intro a ha hname
  have hnone : t.rows.find? (Symbol.name · == x) = none := by
    simpa [has, find?, hx] using h
  exact List.find?_eq_none.mp hnone a ha (beq_iff_eq.mpr hname)

/-- A row whose name is not taken keeps a table keyed. -/
theorem Keyed.concat (h : t.Keyed) (ha : t.has (Symbol.name a) = false) (n : Nat) :
    Keyed (⟨t.rows ++ [a], n⟩ : Table α) := by
  refine List.pairwise_append.mpr ⟨h, List.pairwise_singleton _ a, fun b hb c hc heq => ?_⟩
  rw [List.mem_singleton.mp hc] at heq
  rw [heq]
  by_cases hname : Symbol.name a = ""
  · exact hname
  · exact absurd heq (name_ne_of_has hname ha b hb)

/-- In a keyed table every symbol is found under its name. -/
theorem Keyed.find? (h : t.Keyed) (ha : a ∈ t.rows) (hname : Symbol.name a ≠ "") :
    t.find? (Symbol.name a) = some a := by
  obtain ⟨before, after, hrows⟩ := List.append_of_mem ha
  rw [Keyed, hrows, List.pairwise_append] at h
  rw [Table.find?, if_neg hname, List.find?_eq_some_iff_append]
  refine ⟨beq_self_eq_true _, before, after, hrows, fun b hb => ?_⟩
  -- a symbol further up has another name
  have hapart := h.2.2 b hb a List.mem_cons_self
  simp only [Bool.not_eq_true', beq_eq_false_iff_ne]
  exact fun heq => hname (heq ▸ hapart heq)

/-- Only the names of the symbols matter. -/
theorem Keyed.congr (h : t.Keyed) {t' : Table β}
    (hnames : t'.rows.map Symbol.name = t.rows.map Symbol.name) : t'.Keyed := by
  have hpairwise : (t.rows.map Symbol.name).Pairwise fun x y => x = y → x = "" :=
    List.pairwise_map.mpr h
  rw [← hnames] at hpairwise
  exact List.pairwise_map.mp hpairwise

theorem Keyed.map (h : t.Keyed) {f : α → β} (hf : ∀ a, Symbol.name (f a) = Symbol.name a) :
    (t.map f).Keyed :=
  h.congr (by simp [Table.map, Function.comp_def, hf])

theorem Keyed.modify (h : t.Keyed) (x : String) {f : α → α}
    (hf : ∀ a, Symbol.name (f a) = Symbol.name a) : (t.modify x f).Keyed := by
  refine Keyed.map (f := fun a => if Symbol.name a == x then f a else a) h fun a => ?_
  split
  · exact hf a
  · rfl

/-- Rows without names leave a table keyed. -/
theorem Keyed.append (h : t.Keyed) {as : List α} (has : ∀ a ∈ as, Symbol.name a = "") (n : Nat) :
    Keyed (⟨t.rows ++ as, n⟩ : Table α) := by
  refine List.pairwise_append.mpr ⟨h, ?_, fun a _ b hb heq => heq.trans (has b hb)⟩
  exact List.pairwise_iff_forall_sublist.mpr fun hab _ => has _ (hab.subset List.mem_cons_self)

/-- The symbols stand at their slots, no slot is without its symbol, and the names, if there are
any, are different: each symbol is found under its own. -/
structure Orderly (t : Table α) : Prop where
  dense : t.Dense
  full : t.Full
  keyed : t.Keyed
  found : ∀ a ∈ t.rows, Symbol.name a ≠ "" → t.find? (Symbol.name a) = some a

theorem orderly (hdense : t.Dense) (hfull : t.Full) (hkeyed : t.Keyed) : t.Orderly :=
  ⟨hdense, hfull, hkeyed, fun _ ha hname => hkeyed.find? ha hname⟩

end Table

/-- The tables of a function are orderly. -/
structure Function.Orderly {π : Type} (f : Function π) : Prop where
  params : ∀ t, f.params = some t → t.Orderly
  locals : f.locals.Orderly

namespace Typing

/-- The rows that texts make from a slot on. -/
def textRows (slot : Nat) : List String → List (Entry Nat)
  | [] => []
  | t :: ts => { Entry.ofText "" t with slot } :: textRows (slot + 1) ts

@[simp] theorem length_textRows (slot : Nat) (ts : List String) :
    (textRows slot ts).length = ts.length := by
  induction ts generalizing slot with
  | nil => rfl
  | cons t ts ih => simp [textRows, ih]

theorem textRows_append (slot : Nat) (ts us : List String) :
    textRows slot (ts ++ us) = textRows slot ts ++ textRows (slot + ts.length) us := by
  induction ts generalizing slot with
  | nil => rfl
  | cons t ts ih => simp [textRows, ih, Nat.add_assoc, Nat.add_comm 1]

/-- Texts have no names. -/
theorem name_of_mem_textRows {slot : Nat} {ts : List String} {e : Entry Nat}
    (h : e ∈ textRows slot ts) : e.name = "" := by
  induction ts generalizing slot with
  | nil => cases h
  | cons t ts ih =>
    rcases List.mem_cons.mp h with rfl | h
    · rfl
    · exact ih h

theorem textRows_dense {t : Table (Entry Nat)} (h : t.Dense) (ts : List String) (n : Nat) :
    Table.Dense (⟨t.rows ++ textRows t.rows.length ts, n⟩ : Table (Entry Nat)) := by
  induction ts generalizing t with
  | nil => exact fun i e he => h i e (by simpa [textRows] using he)
  | cons s ts ih =>
    have hs := h.concat (a := { Entry.ofText "" s with slot := t.rows.length }) rfl n
    simpa [textRows] using ih hs

/-- What is known of a function from outside. -/
def signature (f : Function Nat) : Core.Signature :=
  ⟨f.paramTypes, f.type⟩

namespace State

/-- The types of the parameters of the function at hand. -/
def paramTypes (s : State) : List Ty :=
  (s.params.map fun t => t.rows.map Entry.type).getD []

/-- The types of what can be named at a point of the walk. -/
def env (s : State) (c : Context) : Core.Env where
  globals := s.globals.rows.map Entry.type
  functions := s.functions.rows.map signature
  params := s.paramTypes
  locals := s.locals.rows.map Entry.type
  result := (c.owner.map Prod.snd).getD .void

/-- What every point of a walk has: rows stand at their slots, the entry function comes first, and
functions take numbers and give no texts. -/
structure Sound (s : State) : Prop where
  globals : s.globals.Dense
  functions : s.functions.Dense
  params : ∀ t, s.params = some t → t.Dense
  locals : s.locals.Dense
  entry : s.functions.rows.head? = some (Function.start "" .void none)
  signatures : ∀ f ∈ s.functions.rows, f.type ≠ .string ∧ ∀ t ∈ f.paramTypes, t.isNumeric = true

/-- Every table is keyed. -/
structure Keyed (s : State) : Prop where
  globals : s.globals.Keyed
  functions : s.functions.Keyed
  params : ∀ t, s.params = some t → t.Keyed
  locals : s.locals.Keyed

/-- No function has been declared yet. -/
structure Bare (s : State) : Prop where
  functions : ∀ x, s.functions.find? x = none
  params : s.params = none
  locals : s.locals = {}

/-- The walk has only put texts into the table of globals. -/
structure Adds (s s' : State) (ts : List String) : Prop where
  rows : s'.globals.rows = s.globals.rows ++ textRows s.globals.count ts
  count : s'.globals.count = s.globals.count + ts.length
  functions : s'.functions = s.functions
  main : s'.main = s.main
  params : s'.params = s.params
  locals : s'.locals = s.locals

namespace Adds

variable {s s' s'' : State} {ts us : List String}

theorem none (s : State) : s.Adds s [] :=
  ⟨by simp [textRows], rfl, rfl, rfl, rfl, rfl⟩

theorem trans (h : s.Adds s' ts) (k : s'.Adds s'' us) : s.Adds s'' (ts ++ us) where
  rows := by rw [k.rows, h.rows, h.count, textRows_append, List.append_assoc]
  count := by rw [k.count, h.count, List.length_append, Nat.add_assoc]
  functions := k.functions.trans h.functions
  main := k.main.trans h.main
  params := k.params.trans h.params
  locals := k.locals.trans h.locals

theorem looking (s : State) (ord : Nat) : s.Adds (s.looking ord) [] :=
  ⟨by simp [State.looking, textRows], rfl, rfl, rfl, rfl, rfl⟩

theorem noting (s : State) (is : List Instr) : s.Adds (is.foldl State.noting s) [] := by
  induction is generalizing s with
  | nil => exact none s
  | cons i is ih =>
    have h : s.Adds (s.noting i) [] := ⟨by simp [State.noting, textRows], rfl, rfl, rfl, rfl, rfl⟩
    exact h.trans (ih (s.noting i))

theorem full (h : s.Adds s' ts) (hs : s.globals.Full) : s'.globals.Full := by
  unfold Table.Full at hs ⊢
  rw [h.rows, h.count, List.length_append, length_textRows, hs]

theorem bare (h : s.Adds s' ts) (hs : s.Bare) : s'.Bare :=
  ⟨h.functions ▸ hs.functions, h.params.trans hs.params, h.locals.trans hs.locals⟩

theorem env_extends (h : s.Adds s' ts) (c : Context) : (s.env c).Extends (s'.env c) where
  globals := by
    simp only [env, h.rows, List.map_append]
    exact List.prefix_append _ _
  functions := by simp [env, h.functions]
  params := by simp [env, paramTypes, h.params]
  locals := by simp [env, h.locals]
  result := rfl

theorem sound (h : s.Adds s' ts) (hs : s.Sound) (hfull : s.globals.Full ∨ ts = []) : s'.Sound where
  globals := by
    intro i e he
    rw [h.rows] at he
    rcases hfull with hfull | rfl
    · rw [hfull] at he
      exact textRows_dense hs.globals ts 0 i e he
    · exact hs.globals i e (by simpa [textRows] using he)
  functions := by rw [h.functions]; exact hs.functions
  params := by rw [h.params]; exact hs.params
  locals := by rw [h.locals]; exact hs.locals
  entry := by rw [h.functions]; exact hs.entry
  signatures := by rw [h.functions]; exact hs.signatures

/-- Texts have no names. -/
theorem keyed (h : s.Adds s' ts) (hs : s.Keyed) : s'.Keyed where
  globals := by
    rw [Table.Keyed, h.rows]
    exact hs.globals.append (fun e he => name_of_mem_textRows he) 0
  functions := h.functions ▸ hs.functions
  params := h.params ▸ hs.params
  locals := h.locals ▸ hs.locals

end Adds

end State

section Steps

variable {s s' : State} {a : Unit}

theorem adds_look {ord : Nat} (h : Walk.Yields (look ord) s a s') : s.Adds s' [] := by
  rw [Walk.yields_look.mp h]
  exact State.Adds.looking s ord

theorem adds_emitAll {is : List Instr} (h : Walk.Yields (emitAll is) s a s') : s.Adds s' [] := by
  rw [Walk.yields_emitAll.mp h]
  exact State.Adds.noting s is

theorem adds_emit {i : Instr} (h : Walk.Yields (emit i) s a s') : s.Adds s' [] := by
  rw [Walk.yields_emit.mp h]
  exact State.Adds.noting s [i]

theorem adds_close {c : Syntax.Close} (h : Walk.Yields (close c) s a s') : s.Adds s' [] := by
  obtain ⟨ord, _, rfl⟩ := Walk.yields_close.mp h
  exact State.Adds.looking s ord

end Steps

namespace Walk

variable {α β : Type} {w : Walk α} {s s' : State} {a : α} {b : β}

/-- The walk gives a result on the way from one state to another. Before and behind it, tokens may
be looked at and instructions noted. -/
def Passes (w : Walk α) (s : State) (a : α) (s' : State) : Prop :=
  ∃ t t', s.Adds t [] ∧ w.Yields t a t' ∧ t'.Adds s' []

namespace Passes

theorem of_yields (h : w.Yields s a s') : w.Passes s a s' :=
  ⟨s, s', .none s, h, .none s'⟩

theorem before {u : State} (h : w.Passes u a s') (hu : s.Adds u []) : w.Passes s a s' := by
  obtain ⟨t, t', hbefore, h, hafter⟩ := h
  exact ⟨t, t', hu.trans hbefore, h, hafter⟩

theorem after {u : State} (h : w.Passes s a u) (hu : u.Adds s' []) : w.Passes s a s' := by
  obtain ⟨t, t', hbefore, h, hafter⟩ := h
  exact ⟨t, t', hbefore, h, hafter.trans hu⟩

theorem bind {f : α → Walk β} (h : (w >>= f).Passes s b s') :
    ∃ a t, w.Passes s a t ∧ (f a).Passes t b s' := by
  obtain ⟨t, t', hbefore, h, hafter⟩ := h
  obtain ⟨a, u, hw, hf⟩ := yields_bind.mp h
  exact ⟨a, u, ⟨t, u, hbefore, hw, .none u⟩, u, t', .none u, hf, hafter⟩

theorem pure {x : α} (h : (Pure.pure x : Walk α).Passes s a s') : a = x ∧ s.Adds s' [] := by
  obtain ⟨t, t', hbefore, h, hafter⟩ := h
  obtain ⟨rfl, rfl⟩ := yields_pure.mp h
  exact ⟨rfl, hbefore.trans hafter⟩

theorem not_reject {cause : Cause} {ord : Nat} : ¬(reject cause ord : Walk α).Passes s a s' :=
  fun ⟨_, _, _, h, _⟩ => not_yields_reject h

theorem not_stuck {g : Syntax.Gap} : ¬(stuck g : Walk α).Passes s a s' :=
  fun ⟨_, _, _, h, _⟩ => not_yields_stuck h

/-- What comes next may depend on the tables. -/
theorem get {f : State → Walk β} (h : (MonadState.get >>= f).Passes s b s') :
    ∃ t, s.Adds t [] ∧ (f t).Passes s b s' := by
  obtain ⟨t, t', hbefore, h, hafter⟩ := h
  obtain ⟨_, _, hget, hf⟩ := yields_bind.mp h
  obtain ⟨rfl, rfl⟩ := yields_get.mp hget
  exact ⟨_, hbefore, _, t', hbefore, hf, hafter⟩

variable {f : Unit → Walk β}

/-- What adds nothing may come before. -/
theorem behind {w : Walk Unit} (h : (w >>= f).Passes s b s')
    (hw : ∀ {t a t'}, w.Yields t a t' → t.Adds t' []) : (f ()).Passes s b s' := by
  obtain ⟨t, t', hbefore, h, hafter⟩ := h
  obtain ⟨_, u, hfirst, hf⟩ := yields_bind.mp h
  exact ⟨u, t', hbefore.trans (hw hfirst), hf, hafter⟩

theorem look {ord : Nat} (h : (look ord >>= f).Passes s b s') : (f ()).Passes s b s' :=
  h.behind adds_look

theorem emit {i : Instr} (h : (emit i >>= f).Passes s b s') : (f ()).Passes s b s' :=
  h.behind adds_emit

theorem emitAll {is : List Instr} (h : (emitAll is >>= f).Passes s b s') : (f ()).Passes s b s' :=
  h.behind adds_emitAll

theorem close {c : Syntax.Close} (h : (close c >>= f).Passes s b s') : (f ()).Passes s b s' :=
  h.behind adds_close

/-- A change of the tables before what comes next. -/
theorem modify {g : State → State} (h : (modify g >>= f).Passes s b s') :
    ∃ t, s.Adds t [] ∧ (f ()).Passes (g t) b s' := by
  obtain ⟨t, t', hbefore, h, hafter⟩ := h
  obtain ⟨_, u, hmodify, hf⟩ := yields_bind.mp h
  cases yields_modify.mp hmodify
  exact ⟨t, hbefore, g t, t', .none _, hf, hafter⟩

end Passes

end Walk

end Typing

end TinyC
