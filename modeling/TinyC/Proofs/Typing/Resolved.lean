import TinyC.Proofs.Typing.Program

/-!
# Names stand for what was declared

The tables of a walk say of a name what the declarations in the text before it say
(`State.Records`). Tables only grow, so it is enough to know this of the tables at the end: it then
holds of those before (`Records.before`). Where it holds, the tables give for every name what the
declarations say (`Records.reflects`).
-/

namespace TinyC

/-- The name of a function and the type of its result. -/
def Function.described {π : Type} (f : Function π) : String × Ty :=
  (f.name, f.type)

/-! ## Looking for declarations -/

namespace Syntax

theorem seek_append (x : String) (l r : List (String × Ty)) :
    seek x (l ++ r) = match seek x l with
      | some found => some found
      | none => (seek x r).map fun (i, type) => (l.length + i, type) := by
  induction l with
  | nil => cases h : seek x r <;> simp [seek, h]
  | cons d l ih =>
    obtain ⟨y, type⟩ := d
    by_cases hy : y = x
    · simp [seek, hy]
    · simp only [List.cons_append, seek, hy, if_false, ih]
      cases seek x l with
      | some found => rfl
      | none =>
        cases seek x r with
        | none => rfl
        | some found => simp [Nat.add_right_comm]

theorem seek_of_prefix {x : String} {l r : List (String × Ty)} {found : Nat × Ty} (h : l <+: r)
    (hl : seek x l = some found) : seek x r = some found := by
  obtain ⟨t, rfl⟩ := h
  rw [seek_append, hl]

theorem seek_eq_none {x : String} {l : List (String × Ty)} (h : ∀ d ∈ l, d.1 ≠ x) :
    seek x l = none := by
  induction l with
  | nil => rfl
  | cons d l ih =>
    rw [seek, if_neg (h d List.mem_cons_self), ih fun d hd => h d (List.mem_cons_of_mem _ hd)]
    rfl

/-- What is found stands in the list. -/
theorem mem_of_seek {x : String} {l : List (String × Ty)} {i : Nat} {type : Ty}
    (h : seek x l = some (i, type)) : (x, type) ∈ l := by
  induction l generalizing i with
  | nil => cases h
  | cons d l ih =>
    obtain ⟨y, type'⟩ := d
    rw [seek] at h
    split at h
    · rename_i hy
      cases h
      exact hy ▸ List.mem_cons_self
    · obtain ⟨⟨j, type''⟩, hl, heq⟩ := Option.map_eq_some_iff.mp h
      cases heq
      exact List.mem_cons_of_mem _ (ih hl)

end Syntax

section

variable {α : Type} [Symbol α] {g : α → String × Ty} {t : Table α} {x : String} {a : α}

open Syntax (seek)

/-- Rows that stand at their slots from some slot on are found at their slots. -/
theorem seek_rows (hg : ∀ a, (g a).1 = Symbol.name a) {rows : List α} {k : Nat}
    (hrows : ∀ i a, rows[i]? = some a → Symbol.slot a = k + i)
    (h : rows.find? (Symbol.name · == x) = some a) :
    ∃ i, Symbol.slot a = k + i ∧ seek x (rows.map g) = some (i, (g a).2) := by
  induction rows generalizing k with
  | nil => cases h
  | cons b rows ih =>
    rw [List.find?_cons] at h
    by_cases hb : Symbol.name b = x
    · simp only [hb, beq_self_eq_true] at h
      cases h
      exact ⟨0, hrows 0 a rfl, by simp [seek, hg, hb]⟩
    · simp only [beq_eq_false_iff_ne.mpr hb] at h
      obtain ⟨i, hslot, hseek⟩ := ih (k := k + 1) (fun i c hc => by
        rw [hrows (i + 1) c hc]
        omega) h
      exact ⟨i + 1, by omega, by simp [seek, hg, hb, hseek]⟩

/-- What a table finds under a name is the first declaration of the name. -/
theorem seek_of_find? (hg : ∀ a, (g a).1 = Symbol.name a) (ht : t.Dense)
    (h : t.find? x = some a) : seek x (t.rows.map g) = some (Symbol.slot a, (g a).2) := by
  have hx := (Table.find?_eq_some h).1
  obtain ⟨i, hslot, hseek⟩ := seek_rows (k := 0) hg (fun i a ha => by rw [ht i a ha, Nat.zero_add])
    (by simpa [Table.find?, hx] using h)
  rw [hseek, hslot, Nat.zero_add]

/-- What a table does not find is not declared. -/
theorem seek_eq_none_of_find? (hg : ∀ a, (g a).1 = Symbol.name a) (hx : x ≠ "")
    (h : t.find? x = none) : seek x (t.rows.map g) = none := by
  refine Syntax.seek_eq_none fun d hd => ?_
  obtain ⟨a, ha, rfl⟩ := List.mem_map.mp hd
  have hnone : t.rows.find? (Symbol.name · == x) = none := by simpa [Table.find?, hx] using h
  rw [hg]
  simpa using List.find?_eq_none.mp hnone a ha

end

namespace Typing

open Walk State
open Syntax (Name Names Declared Fn Phrase seek)

/-- The built-in functions as globals. -/
def builtinRows : List (String × Ty) :=
  Builtin.all.map fun b => (b.name, .string)

/-- The tables record declarations of a program: of its globals, with texts behind them, of its
functions, with the entry function before them, and of the parameters and local variables that a
function can name. The texts are where they are said to be. -/
structure State.Records (p : Syntax.Program) (texts : Nat → List UInt8) (D : Declared) (s : State) :
    Prop where
  globals : ∃ k, s.globals.rows.map Entry.described <+:
    builtinRows ++ D.globals ++ List.replicate k ("", Ty.string)
  functions : s.functions.rows.map Function.described <+:
    ("", .void) :: p.functions.map Fn.signature
  params : describedParams s.params = D.params
  locals : s.locals.rows.map Entry.described <+: D.locals
  texts : s.Tells texts

theorem describedParams_unmarked (params : Option (Table (Entry Nat))) :
    describedParams (params.map (·.map Entry.unmarked)) = describedParams params := by
  cases params with
  | none => rfl
  | some t => exact map_described_unmarked t.rows

section

variable {p : Syntax.Program} {texts : Nat → List UInt8} {D : Declared} {s s' : State}
  {c : Context}

theorem prefix_described {l r : List (Entry Nat)}
    (h : l.map Entry.unmarked <+: r.map Entry.unmarked) :
    l.map Entry.described <+: r.map Entry.described := by
  rw [← map_described_unmarked l, ← map_described_unmarked r]
  exact h.map _

/-- What tables record later on, they record before, as far as they go. -/
theorem State.Records.before (hr : s'.Records p texts D) (h : s.Advances s') :
    s.Records p texts D where
  globals := by
    obtain ⟨k, hk⟩ := hr.globals
    exact ⟨k, (prefix_described h.globals).trans hk⟩
  functions := h.functions ▸ hr.functions
  params := by
    rw [← describedParams_unmarked, ← h.params, describedParams_unmarked]
    exact hr.params
  locals := (prefix_described h.locals).trans hr.locals
  texts := hr.texts.earlier h.globals

/-- The context is that of the declarations: a function with its result, or none. -/
structure Context.Suits (c : Context) (D : Declared) (s : State) : Prop where
  result : ∀ owner, c.owner = some owner → owner.2 = D.result
  bare : c.owner = none → s.params = none ∧ s.locals.rows = []

/-- A number among the globals is one of those that the program declares. -/
theorem State.Records.seek_global (hr : s.Records p texts D) (hs : s.Sound) {x : String}
    {e : Entry Nat} (h : s.globals.find? x = some e) (hnum : e.type.isNumeric = true) :
    ∃ i, e.slot = Builtin.all.length + i ∧ seek x D.globals = some (i, e.type) := by
  obtain ⟨k, hk⟩ := hr.globals
  have hx := (Table.find?_eq_some h).1
  have hseek := Syntax.seek_of_prefix hk
    (seek_of_find? (g := Entry.described) (fun _ => rfl) hs.globals h)
  have hbuiltin : seek x builtinRows = none := by
    cases hb : seek x builtinRows with
    | none => rfl
    | some found =>
      obtain ⟨i, type⟩ := found
      rw [List.append_assoc, Syntax.seek_append, hb] at hseek
      cases hseek
      obtain ⟨b, -, heq⟩ := List.mem_map.mp (Syntax.mem_of_seek hb)
      have htype : e.type = .string := (congrArg Prod.snd heq).symm
      rw [htype] at hnum
      cases hnum
  rw [List.append_assoc, Syntax.seek_append, hbuiltin, Syntax.seek_append] at hseek
  cases hg : seek x D.globals with
  | some found =>
    rw [hg] at hseek
    obtain ⟨i, type⟩ := found
    obtain ⟨hslot, htype⟩ := Prod.mk.inj (Option.some.inj hseek)
    exact ⟨i, hslot.symm, congrArg (fun type => some (i, type)) htype⟩
  | none =>
    have hlast : seek x (List.replicate k ("", Ty.string)) = none :=
      Syntax.seek_eq_none fun d hd => by
        rw [List.eq_of_mem_replicate hd]
        exact hx.symm
    rw [hg, hlast] at hseek
    cases hseek

/-- The name of a variable stands for the place that the declarations give it. -/
theorem State.Records.place (hr : s.Records p texts D) (hs : s.Sound) (hc : c.Suits D s)
    {x : String} {e : Entry Nat} {l : Location}
    (h : (s.scope c).resolve Table.find? x = some (e, l)) (hnum : e.type.isNumeric = true) :
    D.place s.locals.rows.length x = some (placeOf c e l, e.type) := by
  have hdescribed : ∀ a : Entry Nat, a.described.1 = Symbol.name a := fun _ => rfl
  have hlocals : D.locals.take s.locals.rows.length = s.locals.rows.map Entry.described := by
    rw [List.prefix_iff_eq_take.mp hr.locals, List.length_map]
  have hglobal {e' : Entry Nat} (hx : seek x (D.locals.take s.locals.rows.length) = none)
      (hp : seek x D.params = none) (hfind : s.globals.find? x = some e')
      (hnum : e'.type.isNumeric = true) :
      D.place s.locals.rows.length x = some (⟨.global, e'.slot⟩, e'.type) := by
    obtain ⟨i, hslot, hseek⟩ := hr.seek_global hs hfind hnum
    simp only [Declared.place, hx, hp, hseek, hslot]
  have hparams := hr.params
  cases hown : c.owner with
  | none =>
    obtain ⟨hnone, hrows⟩ := hc.bare hown
    rw [resolve_outside hown] at h
    obtain ⟨e', he, heq⟩ := Option.map_eq_some_iff.mp h
    cases heq
    rw [hnone] at hparams
    rw [show placeOf c e .global = ⟨.global, e.slot⟩ by simp [placeOf]]
    exact hglobal (by simp [hrows, seek]) (by rw [← hparams]; rfl) he hnum
  | some owner =>
    rw [resolve_inside hown] at h
    cases hl : s.locals.find? x with
    | some e' =>
      rw [hl] at h
      cases h
      have hseek := seek_of_find? hdescribed hs.locals hl
      rw [← hlocals] at hseek
      simp only [Declared.place, hseek, placeOf]
      rfl
    | none =>
      have hhidden (hx : x ≠ "") : seek x (D.locals.take s.locals.rows.length) = none := by
        rw [hlocals]
        exact seek_eq_none_of_find? hdescribed hx hl
      cases hp : s.params.bind (·.find? x) with
      | some e' =>
        rw [hl, hp] at h
        cases h
        obtain ⟨t, ht, hfind⟩ := Option.bind_eq_some_iff.mp hp
        have hseek := seek_of_find? hdescribed (hs.params t ht) hfind
        rw [ht] at hparams
        rw [show t.rows.map Entry.described = D.params from hparams] at hseek
        simp only [Declared.place, hhidden (Table.find?_eq_some hfind).1, hseek, placeOf, hown,
          ← hc.result owner hown]
        rfl
      | none =>
        rw [hl, hp] at h
        obtain ⟨e', he, heq⟩ := Option.map_eq_some_iff.mp h
        cases heq
        have hx := (Table.find?_eq_some he).1
        have hnone : seek x D.params = none := by
          rw [← hparams]
          cases ht : s.params with
          | none => rfl
          | some t =>
            rw [ht] at hp
            exact seek_eq_none_of_find? hdescribed hx hp
        rw [show placeOf c e .global = ⟨.global, e.slot⟩ by simp [placeOf]]
        exact hglobal (hhidden hx) hnone he hnum

end

section

variable {p : Syntax.Program} {texts : Nat → List UInt8} {D : Declared} {s : State} {c : Context}

/-- Where the tables record the declarations, names are lowered to what the declarations say. -/
theorem State.Records.reflects (hr : s.Records p texts D) (hs : s.Sound) (hc : c.Suits D s) :
    s.Reflects (p.names texts D s.locals.rows.length) c where
  place x e l h hnum := hr.place hs hc h hnum
  builtin f b hf := by simp [Syntax.Program.names, Syntax.Program.callee, hf]
  function f r hf h := by
    have hx := (Table.find?_eq_some h).1
    have hseek := Syntax.seek_of_prefix hr.functions
      (seek_of_find? (g := Function.described) (fun _ => rfl) hs.functions h)
    rw [seek, if_neg (Ne.symm hx)] at hseek
    obtain ⟨⟨i, type⟩, hi, heq⟩ := Option.map_eq_some_iff.mp hseek
    obtain ⟨hslot, htype⟩ := Prod.mk.inj heq
    have hr : r.slot = i + 1 := hslot.symm
    have ht : r.type = type := htype.symm
    simp [Syntax.Program.names, Syntax.Program.callee, hf, hi, hr, ht]

end

end Typing

end TinyC
