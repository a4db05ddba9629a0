import TinyC.Proofs.Typing.Stmt

/-!
# Accepted programs are typed

A program is walked through one declaration and one function at a time. `FunctionWalk` says all
that happens in a function: its row comes into the table, its body is walked through, and at its
end the row gets its local variables and its code. Between two functions every table is full and
every finished row stays as it is (`State.Between`, `State.Leads`).

`Described` gathers what follows for the tables of a program as a whole: rows stand at their slots,
the codes are those of the core program, and everything in the core program is typed in the
environment that the tables describe.
-/

namespace TinyC.Typing

variable {s s' : State} {fn : Core.Fn} {slot : Nat} {d : Syntax.Decl}

open Walk State
open Syntax (Name)

namespace State

/-- The two states have the same tables. -/
theorem Adds.globals_eq {s s' : State} (h : s.Adds s' []) : s'.globals = s.globals := by
  have hrows : s'.globals.rows = s.globals.rows := h.rows.trans (List.append_nil _)
  have hcount : s'.globals.count = s.globals.count := h.count
  cases h' : s'.globals
  cases h'' : s.globals
  simp_all

/-- What a point between two functions has. -/
structure Between (s : State) : Prop extends Whole s where
  functions_full : s.functions.Full
  rows : ∀ f ∈ s.functions.rows, f.Orderly
  builtins : (ProgramTables.initialGlobals : Table (Entry Nat)).rows.map Entry.unmarked <+:
    s.globals.rows.map Entry.unmarked
  main_name : ∀ slot, s.main = some slot ↔
    ∃ f, s.functions.rows[slot]? = some f ∧ f.name = "main"

/-- More globals and functions have been declared; those from before are as they were. -/
structure Leads (s s' : State) : Prop where
  globals : s.globals.rows.map Entry.unmarked <+: s'.globals.rows.map Entry.unmarked
  functions : s.functions.rows <+: s'.functions.rows

theorem Leads.refl (s : State) : s.Leads s :=
  ⟨List.prefix_refl _, List.prefix_refl _⟩

theorem Leads.trans {s s' s'' : State} (h : s.Leads s') (k : s'.Leads s'') : s.Leads s'' :=
  ⟨h.globals.trans k.globals, h.functions.trans k.functions⟩

theorem Advances.leads {s s' : State} (h : s.Advances s') : s.Leads s' :=
  ⟨h.globals, h.functions ▸ List.prefix_refl _⟩

end State

/-! ## Parameters -/

/-- The parameters of a function stand at their slots, have names of their own, and are numbers. -/
def ParamsOK (params : Option (Table (Entry Nat))) : Prop :=
  ∀ t, params = some t → t.Dense ∧ t.Full ∧ t.Keyed ∧ ∀ e ∈ t.rows, e.type.isNumeric = true

/-- The names and types of parameters. -/
def describedParams (params : Option (Table (Entry Nat))) : List (String × Ty) :=
  (params.map fun t => t.rows.map Entry.described).getD []

theorem paramsOK_addParam? {f g : Function Nat} {e : Entry Nat} (hf : ParamsOK f.params)
    (he : e.type.isNumeric = true) (h : f.addParam? e = some g) :
    ParamsOK g.params ∧ g = { f with params := g.params } ∧
      describedParams g.params = describedParams f.params ++ [e.described] := by
  obtain ⟨t, ht, rfl⟩ := Option.map_eq_some_iff.mp h
  obtain ⟨hnew, rfl⟩ := Table.add?_eq_some_iff.mp ht
  refine ⟨fun u hu => ?_, rfl, by
    cases f.params <;> simp [describedParams, Entry.described, Symbol.seat]⟩
  cases hu
  have hold : (f.params.getD {}).Dense ∧ (f.params.getD {}).Full ∧ (f.params.getD {}).Keyed ∧
      ∀ e ∈ (f.params.getD {}).rows, e.type.isNumeric = true := by
    cases hp : f.params with
    | none => exact ⟨fun i a ha => by simp at ha, rfl, .nil, fun e he => by simp at he⟩
    | some u => exact hf u hp
  obtain ⟨hdense, hfull, hkeyed, hnum⟩ := hold
  have hcount : (f.params.getD {}).count = (f.params.getD {}).rows.length := hfull
  refine ⟨hdense.concat hcount _, by simp [Table.Full, hcount], hkeyed.concat hnew _, ?_⟩
  exact List.forall_mem_append.mpr ⟨hnum, List.forall_mem_singleton.mpr he⟩

/-- Parameters are declared in the order of the text. -/
theorem yields_parameters {ps : List Syntax.Param}
    (hp : ∀ p ∈ ps, p.x.text ≠ "" ∧ p.type.isNumeric = true) {f g : Function Nat}
    (hf : ParamsOK f.params) (h : Yields (parameters f ps) s g s') :
    s.Adds s' [] ∧ ParamsOK g.params ∧ g = { f with params := g.params } ∧
      describedParams g.params
        = describedParams f.params ++ ps.map fun p => (p.x.text, p.type) := by
  induction ps generalizing f s with
  | nil =>
    obtain ⟨rfl, rfl⟩ := yields_pure.mp h
    exact ⟨.none _, hf, rfl, (List.append_nil _).symm⟩
  | cons p ps ih =>
    obtain ⟨_, t, hlook, h⟩ := yields_bind.mp h
    dsimp only at h
    generalize (if p.constant = true then EntryKind.constant else .variable) = kind at h
    split at h
    · rename_i f' hadd
      obtain ⟨hf', heq, hdescribed⟩ := paramsOK_addParam? hf (hp p List.mem_cons_self).2 hadd
      obtain ⟨hsame, hg, heq', hrest⟩ := ih (fun q hq => hp q (List.mem_cons_of_mem _ hq)) hf' h
      refine ⟨(adds_look hlook).trans hsame, hg, by rw [heq', heq], ?_⟩
      rw [hrest, hdescribed, List.append_assoc]
      rfl
    · exact absurd h not_yields_reject

/-! ## Functions -/

/-- The context of the body of a function. -/
def bodyContext (x : Name) (type : Ty) : Context :=
  ⟨some (x.text, type), false⟩

/-- A function was walked through: `f` is its row when its body is entered, between `t` and `t'`
lies its body, and `s'` is where the walk goes on. -/
structure FunctionWalk (s : State) (x : Name) (f : Function Nat) (t : State) (body : Syntax.Block)
    (t' : State) (fn : Core.Fn) (s' : State) : Prop where
  fresh : s.functions.has x.text = false
  row : f = { Function.start x.text fn.type (some x.ord) with
    slot := s.functions.count, params := f.params }
  params : ParamsOK f.params
  globals_in : t.globals = s.globals
  functions_in : t.functions = ⟨s.functions.rows ++ [f], s.functions.count + 1⟩
  main_in : t.main = if x.text = "main" then some s.functions.count else s.main
  params_in : t.params = f.params
  locals_in : t.locals = {}
  body : Yields (block (bodyContext x fn.type) body) t fn.body t'
  returns : fn.type ≠ .void → fn.body.terminates = true
  globals_out : s'.globals = t'.globals
  main_out : s'.main = t'.main
  params_out : s'.params = t'.params
  locals_out : s'.locals = t'.locals
  functions_out : s'.functions = t'.functions.modify x.text fun g =>
    { g with params := t'.params, locals := t'.locals, code := fn.code }

theorem yields_function {d : Syntax.Fn} (hp : d.Plain) (h : Yields (function d) s fn s') :
    ∃ x ps body f t t', d = .mk x ps (.ok (fn.type, body)) ∧
      describedParams f.params = ps.map (fun p => (p.x.text, p.type)) ∧
      FunctionWalk s x f t body t' fn s' := by
  match d, hp with
  | .gap g, _ => exact absurd h not_yields_stuck
  | .mk x ps rest, ⟨_, hps, _⟩ =>
    obtain ⟨_, s₁, hlook, h⟩ := yields_bind.mp h
    obtain ⟨_, _, hget, h⟩ := yields_bind.mp h
    obtain ⟨h₁, h₂⟩ := yields_get.mp hget
    rw [h₁, h₂] at h
    split at h
    · exact absurd h not_yields_reject
    rename_i hnew
    obtain ⟨f, s₂, hparams, h⟩ := yields_bind.mp h
    cases rest with
    | error g => exact absurd h not_yields_stuck
    | ok pair =>
      obtain ⟨type, body⟩ := pair
      obtain ⟨_, s₃, henter, h⟩ := yields_bind.mp h
      obtain ⟨b, s₄, hbody, h⟩ := yields_bind.mp h
      dsimp only at h
      split at h
      · exact absurd h not_yields_reject
      rename_i hreturns
      have hstart : ParamsOK (Function.start x.text .void (some x.ord)).params :=
        fun t ht => by cases ht
      obtain ⟨hsame₂, hok, hf, hdescribed⟩ := yields_parameters hps hstart hparams
      have hsame := (adds_look hlook).trans hsame₂
      have hhas : s.functions.has x.text = false := by
        rw [(adds_look hlook).functions, Bool.or_eq_true, not_or] at hnew
        simpa using hnew.2
      have hname : f.name = x.text := by rw [hf]; rfl
      have hadd : s₂.functions.add? { f with type } =
          some ⟨s.functions.rows ++ [{ f with type, slot := s.functions.count }],
            s.functions.count + 1⟩ := by
        rw [hsame.functions]
        refine Table.add?_eq_some_iff.mpr ⟨?_, rfl⟩
        show s.functions.has f.name = false
        rw [hname]
        exact hhas
      have hs₃ := yields_modify.mp henter
      have hleave : ∃ s₅, s₄.Adds s₅ [] ∧
          Yields (do leave x.text (⟨type, b⟩ : Core.Fn).code; pure ⟨type, b⟩ : Walk Core.Fn) s₅ fn
            s' := by
        split at h
        · obtain ⟨_, s₅, hemit, h⟩ := yields_bind.mp h
          exact ⟨s₅, adds_emit hemit, h⟩
        · exact ⟨s₄, .none _, h⟩
      obtain ⟨s₅, hsame₅, h⟩ := hleave
      obtain ⟨_, s₆, hmodify, h⟩ := yields_bind.mp h
      obtain ⟨rfl, rfl⟩ := yields_pure.mp h
      have hs' := yields_modify.mp hmodify
      refine ⟨x, ps, body, { f with type, slot := s.functions.count }, s₃, s₄, rfl, hdescribed, ?_⟩
      exact
        { fresh := hhas
          row := by rw [hf]; rfl
          params := hok
          globals_in := by rw [hs₃]; exact hsame.globals_eq
          functions_in := by rw [hs₃, hadd]; rfl
          main_in := by rw [hs₃, hsame.functions, hsame.main, ← hname]
          params_in := by rw [hs₃]
          locals_in := by rw [hs₃]
          body := hbody
          returns := fun hvoid => by simpa [hvoid] using hreturns
          globals_out := by rw [hs']; exact hsame₅.globals_eq
          main_out := by rw [hs']; exact hsame₅.main
          params_out := by rw [hs']; exact hsame₅.params
          locals_out := by rw [hs']; exact hsame₅.locals
          functions_out := by rw [hs', hsame₅.functions, hsame₅.params, hsame₅.locals] }

namespace FunctionWalk

variable {s s' t t' : State} {x : Name} {f : Function Nat} {body : Syntax.Block} {fn : Core.Fn}

/-- The row of a function at its end. -/
def finished (f : Function Nat) (t' : State) (fn : Core.Fn) : Function Nat :=
  { f with params := t'.params, locals := t'.locals, code := fn.code }

variable (w : FunctionWalk s x f t body t' fn s')
include w

theorem name_eq : f.name = x.text := by
  rw [w.row]
  rfl

theorem fresh_row : s.functions.has f.name = false := by
  rw [w.name_eq, w.fresh]

theorem type_eq : f.type = fn.type := by
  rw [w.row]
  rfl

/-- Where the body begins, tables are full again. -/
theorem whole_in (htype : fn.type ≠ .string) (hs : s.Between) : t.Whole where
  globals := w.globals_in ▸ hs.globals
  functions := by
    rw [w.functions_in]
    refine hs.functions.concat ?_ _
    have hslot : f.slot = s.functions.count := by rw [w.row]
    exact hslot.trans hs.functions_full
  params := fun u hu => (w.params u (w.params_in ▸ hu)).1
  locals := by
    rw [w.locals_in]
    exact fun i a ha => by simp at ha
  entry := by
    rw [w.functions_in, List.head?_append, hs.entry]
    rfl
  signatures := by
    rw [w.functions_in]
    refine List.forall_mem_append.mpr ⟨hs.signatures, List.forall_mem_singleton.mpr
      ⟨w.type_eq ▸ htype, fun type htype => ?_⟩⟩
    unfold Function.paramTypes at htype
    cases hp : f.params with
    | none => simp [hp] at htype
    | some u =>
      simp only [hp, Option.map_some, Option.getD_some, List.mem_map] at htype
      obtain ⟨e, he, rfl⟩ := htype
      exact (w.params u hp).2.2.2 e he
  keyed :=
    { globals := w.globals_in ▸ hs.keyed.globals
      functions := w.functions_in ▸ hs.keyed.functions.concat w.fresh_row _
      params := fun u hu => (w.params u (w.params_in ▸ hu)).2.2.1
      locals := w.locals_in ▸ List.Pairwise.nil }
  globals_full := w.globals_in ▸ hs.globals_full
  params_full := fun u hu => (w.params u (w.params_in ▸ hu)).2.1
  locals_full := by rw [w.locals_in]; rfl

/-- The body leads to a whole point, and what it means is typed there and lowered as declared. -/
theorem moves (hplain : body.Plain) (htype : fn.type ≠ .string) (hs : s.Between) :
    Moves (bodyContext x fn.type) t t' fn.body.places body.declares (fn.body.Typed · false)
      fun N n => ∀ start, body.Lowers N (fun _ => anything) n start fn.body :=
  moves_block _ (by simp [bodyContext]) body hplain (.of_yields w.body) (w.whole_in htype hs)

/-- A function adds its row to the table and leaves the others alone. -/
theorem rows_out (hx : x.text ≠ "") (hadv : t.Advances t') :
    s'.functions = ⟨s.functions.rows ++ [finished f t' fn], s.functions.count + 1⟩ := by
  rw [w.functions_out, hadv.functions, w.functions_in]
  have hnames := Table.name_ne_of_has hx w.fresh
  simp only [Table.modify, List.map_append, List.map_cons, List.map_nil]
  congr 2
  · -- no earlier row has the name
    refine (List.map_congr_left fun g hg => ?_).trans (List.map_id _)
    have hne : (Symbol.name g == x.text) = false := beq_eq_false_iff_ne.mpr (hnames g hg)
    rw [hne]
    rfl
  · have heq : (Symbol.name f == x.text) = true := beq_iff_eq.mpr w.name_eq
    rw [heq]
    rfl

/-- The row at the end of the body shows the same from outside as at its start. -/
theorem signature_finished (hadv : t.Advances t') : signature (finished f t' fn) = signature f := by
  have hparams : t'.paramTypes = t.paramTypes := by rw [paramTypes_eq, paramTypes_eq, hadv.params]
  have hin : t.paramTypes = f.paramTypes := by simp [paramTypes, Function.paramTypes, w.params_in]
  exact congrArg (Core.Signature.mk · f.type) (hparams.trans hin)

/-- Behind a function the main function is the one of that name. -/
theorem main_name (hx : x.text ≠ "") (hadv : t.Advances t') (hs : s.Between) (slot : Nat) :
    s'.main = some slot ↔ ∃ g, s'.functions.rows[slot]? = some g ∧ g.name = "main" := by
  have hcount : s.functions.count = s.functions.rows.length := hs.functions_full
  have hname : (finished f t' fn).name = x.text := w.name_eq
  rw [w.main_out, hadv.main, w.main_in, w.rows_out hx hadv]
  -- The new row is behind all others, and none of them has its name.
  by_cases hmain : x.text = "main"
  · rw [if_pos hmain, hcount]
    constructor
    · rintro ⟨rfl⟩
      exact ⟨finished f t' fn, List.getElem?_concat_length, hname.trans hmain⟩
    · rintro ⟨g, hg, hgname⟩
      rw [List.getElem?_append] at hg
      split at hg
      · exact absurd (hgname.trans hmain.symm)
          (Table.name_ne_of_has hx w.fresh g (List.mem_of_getElem? hg))
      · have hlt := (List.getElem?_eq_some_iff.mp hg).1
        rw [List.length_singleton] at hlt
        exact congrArg some (by omega)
  · rw [if_neg hmain, hs.main_name]
    constructor
    · rintro ⟨g, hg, hgname⟩
      exact ⟨g, Core.getElem?_of_prefix (List.prefix_append _ _) hg, hgname⟩
    · rintro ⟨g, hg, hgname⟩
      rw [List.getElem?_append] at hg
      split at hg
      · exact ⟨g, hg, hgname⟩
      · cases List.mem_singleton.mp (List.mem_of_getElem? hg)
        exact absurd (hname.symm.trans hgname) hmain

/-- Behind a function every table is full, and what the function means is typed. -/
theorem between (hx : x.text ≠ "") (hplain : body.Plain) (htype : fn.type ≠ .string)
    (hs : s.Between) : s'.Between ∧ s.Leads s' ∧ fn.Typed (s'.env (bodyContext x fn.type)) := by
  obtain ⟨hwhole, hadv, htyped, -, -, -⟩ := w.moves hplain htype hs
  have hrows := w.rows_out hx hadv
  have hsig := w.signature_finished hadv
  have hfunctions : t'.functions = ⟨s.functions.rows ++ [f], s.functions.count + 1⟩ :=
    hadv.functions.trans w.functions_in
  have hglobals : s.globals.rows.map Entry.unmarked <+: s'.globals.rows.map Entry.unmarked := by
    rw [← w.globals_in, w.globals_out]
    exact hadv.globals
  have hslot : (finished f t' fn).slot = s.functions.rows.length := by
    have : f.slot = s.functions.count := by rw [w.row]
    exact this.trans hs.functions_full
  refine ⟨?_, ⟨hglobals, hrows ▸ List.prefix_append _ _⟩, ?_⟩
  · exact
      { globals := w.globals_out ▸ hwhole.globals
        functions := hrows ▸ hs.functions.concat hslot _
        params := w.params_out ▸ hwhole.params
        locals := w.locals_out ▸ hwhole.locals
        entry := by
          rw [hrows, List.head?_append, hs.entry]
          rfl
        signatures := by
          rw [hrows]
          have hf := hwhole.signatures f (by rw [hfunctions]; simp)
          have hparams : (finished f t' fn).paramTypes = f.paramTypes :=
            congrArg Core.Signature.params hsig
          exact List.forall_mem_append.mpr ⟨hs.signatures, List.forall_mem_singleton.mpr
            ⟨hf.1, hparams ▸ hf.2⟩⟩
        keyed :=
          { globals := w.globals_out ▸ hwhole.keyed.globals
            functions := hrows ▸ hs.keyed.functions.concat (a := finished f t' fn) w.fresh_row _
            params := w.params_out ▸ hwhole.keyed.params
            locals := w.locals_out ▸ hwhole.keyed.locals }
        globals_full := w.globals_out ▸ hwhole.globals_full
        params_full := w.params_out ▸ hwhole.params_full
        locals_full := w.locals_out ▸ hwhole.locals_full
        functions_full := by
          have hfull : s.functions.count = s.functions.rows.length := hs.functions_full
          simp [hrows, Table.Full, hfull]
        rows := by
          rw [hrows]
          exact List.forall_mem_append.mpr ⟨hs.rows, List.forall_mem_singleton.mpr
            ⟨fun u hu => Table.orderly (hwhole.params u hu) (hwhole.params_full u hu)
              (hwhole.keyed.params u hu),
              Table.orderly hwhole.locals hwhole.locals_full hwhole.keyed.locals⟩⟩
        builtins := hs.builtins.trans hglobals
        main_name := w.main_name hx hadv hs }
  · have henv : s'.env (bodyContext x fn.type) = t'.env (bodyContext x fn.type) := by
      simp only [env, w.globals_out, paramTypes, w.params_out, w.locals_out, hrows, hfunctions,
        List.map_append, List.map_cons, List.map_nil, hsig]
    rw [henv]
    exact ⟨rfl, htyped, w.returns⟩

end FunctionWalk

/-! ## Rows of functions and declarations -/

/-- A function of the tree was walked through, its row has a slot, and the walk has come to a state
since. -/
def Walked (d : Syntax.Fn) (slot : Nat) (fn : Core.Fn) (s' : State) : Prop :=
  ∃ u x ps f t body t' u', d = .mk x ps (.ok (fn.type, body)) ∧
    describedParams f.params = ps.map (fun p => (p.x.text, p.type)) ∧
    FunctionWalk u x f t body t' fn u' ∧ u.Between ∧ u.functions.rows.length = slot ∧ u'.Leads s'

theorem Walked.leads {d : Syntax.Fn} (h : Walked d slot fn s) (hs : s.Leads s') :
    Walked d slot fn s' := by
  obtain ⟨u, x, ps, f, t, body, t', u', hd, hps, hw, hu, hslot, hlead⟩ := h
  exact ⟨u, x, ps, f, t, body, t', u', hd, hps, hw, hu, hslot, hlead.trans hs⟩

/-- A function that was walked through has its row at its slot. -/
theorem FunctionWalk.row_of_leads {u u' t t' s' : State} {x : Name} {f : Function Nat}
    {body : Syntax.Block} (w : FunctionWalk u x f t body t' fn u') (hx : x.text ≠ "")
    (hadv : t.Advances t') (hlead : u'.Leads s') :
    s'.functions.rows[u.functions.rows.length]? = some (finished f t' fn) := by
  refine Core.getElem?_of_prefix hlead.functions ?_
  rw [w.rows_out hx hadv]
  exact List.getElem?_concat_length

/-- Functions are walked through one by one, and their rows have consecutive slots. They put only
texts behind the globals. -/
theorem walked_functions {ds : List Syntax.Fn} (hp : ∀ d ∈ ds, d.Plain) {fns : List Core.Fn}
    (h : Yields (functions ds) s fns s') (hs : s.Between) :
    s'.Between ∧ s.Leads s' ∧ fns.length = ds.length ∧
      s'.functions.rows.length = s.functions.rows.length + ds.length ∧
      (∃ k, s'.globals.rows.map Entry.described =
        s.globals.rows.map Entry.described ++ List.replicate k ("", Ty.string)) ∧
      ∀ k fn, fns[k]? = some fn →
        ∃ d, ds[k]? = some d ∧ Walked d (s.functions.rows.length + k) fn s' := by
  induction ds generalizing s fns with
  | nil =>
    obtain ⟨rfl, rfl⟩ := yields_pure.mp h
    exact ⟨hs, .refl _, rfl, rfl, ⟨0, (List.append_nil _).symm⟩, fun k fn hk => by simp at hk⟩
  | cons d ds ih =>
    obtain ⟨fn, t, hfn, h⟩ := yields_bind.mp h
    obtain ⟨rest, t', hrest, h⟩ := yields_bind.mp h
    obtain ⟨rfl, rfl⟩ := yields_pure.mp h
    have hd : d.Plain := hp d List.mem_cons_self
    obtain ⟨x, ps, body, f, u, u', rfl, hps, hw⟩ := yields_function hd hfn
    obtain ⟨hx, _, htype, hplain⟩ := hd
    obtain ⟨ht, hlead, _⟩ := hw.between hx hplain htype hs
    obtain ⟨hs', hlead', hlen, hrows, ⟨n, htexts⟩, hnth⟩ :=
      ih (fun d hd => hp d (List.mem_cons_of_mem _ hd)) hrest ht
    obtain ⟨m, hfirst⟩ := (hw.moves hplain htype hs).grows.globals
    have hcount : t.functions.rows.length = s.functions.rows.length + 1 := by
      rw [hw.rows_out hx (hw.moves hplain htype hs).advances]
      simp
    refine ⟨hs', hlead.trans hlead', by simp [hlen], by simp [hrows, hcount]; omega,
      ⟨m + n, ?_⟩, ?_⟩
    · rw [htexts, hw.globals_out, hfirst, hw.globals_in, List.append_assoc,
        List.replicate_append_replicate]
    intro k g hk
    cases k with
    | zero =>
      cases hk
      exact ⟨_, rfl, s, x, ps, f, u, body, u', t, rfl, hps, hw, hs, rfl, hlead'⟩
    | succ k =>
      obtain ⟨d', hd', hwalked⟩ := hnth k g hk
      refine ⟨d', hd', ?_⟩
      rwa [hcount,
        show s.functions.rows.length + 1 + k = s.functions.rows.length + (k + 1) by omega]
        at hwalked

/-- A declaration outside all functions was walked through, and the walk has come to a state
since; `n` is the slot of the declared variable. -/
def Initialized (d : Syntax.Decl) (n : Nat) (init : Option Core.Init) (s' : State) : Prop :=
  ∃ u a u', Yields (declaration ⟨none, false⟩ d) u (n, a) u' ∧ init = a.map (⟨n, ·⟩) ∧
    u.Between ∧ u.Bare ∧ u.globals.rows.length = n ∧ u'.Leads s'

theorem Initialized.leads {n : Nat} {init : Option Core.Init} (h : Initialized d n init s)
    (hs : s.Leads s') : Initialized d n init s' := by
  obtain ⟨u, a, u', hd, hinit, hu, hbare, hn, hlead⟩ := h
  exact ⟨u, a, u', hd, hinit, hu, hbare, hn, hlead.trans hs⟩

/-- A declaration outside all functions puts its variable behind the globals, and no text. -/
theorem globals_declaration (hp : d.Plain) {a : Option Core.Expr}
    (h : Yields (declaration ⟨none, false⟩ d) s (slot, a) s') (hbare : s.Bare) :
    ∃ constant x type init cl, d = .mk constant x type init cl ∧ slot = s.globals.count ∧
      s'.globals = ⟨s.globals.rows ++ [declaredEntry ⟨none, false⟩ constant x type slot a],
        s.globals.count + 1⟩ ∧ s'.params = s.params ∧ s'.locals = s.locals := by
  match d, hp with
  | .gap g, _ => exact absurd h not_yields_stuck
  | .mk constant x type init cl, hp =>
    obtain ⟨hslot, hhas, -, u, rfl, ts, hadds, -, hnone, -⟩ := reads_declaration hp h
    obtain rfl : ts = [] := hnone (bare_reserving hbare) trivial
    rw [placing_eq (e := declaredEntry ⟨none, false⟩ constant x type slot a) hadds (fun _ => rfl)
      hhas]
    exact ⟨constant, x, type, init, cl, rfl, hslot, rfl, hadds.params, hadds.locals⟩

/-- A declaration outside all functions adds one global. -/
theorem between_declaration (hp : d.Plain) {a : Option Core.Expr}
    (h : Yields (declaration ⟨none, false⟩ d) s (slot, a) s') (hs : s.Between) (hbare : s.Bare) :
    s'.Between ∧ s'.Bare ∧ s.Leads s' ∧ slot = s.globals.rows.length ∧
      s'.globals.rows.length = s.globals.rows.length + 1 := by
  obtain ⟨hwhole, hadv, _⟩ := moves_declaration _ d hp h hs.toWhole fun _ => hbare
  obtain ⟨_, _, _, _, _, -, hslot, hglobals, hparams, hlocals⟩ := globals_declaration hp h hbare
  refine ⟨⟨hwhole, hadv.functions ▸ hs.functions_full, hadv.functions ▸ hs.rows,
    hs.builtins.trans hadv.globals, ?_⟩,
    ⟨hadv.functions ▸ hbare.functions, hparams.trans hbare.params, hlocals.trans hbare.locals⟩,
    hadv.leads, hslot.trans hs.globals_full, ?_⟩
  · rw [hadv.main, hadv.functions]
    exact hs.main_name
  · rw [hglobals, List.length_append, List.length_singleton]

/-- Declarations are walked through one by one, and their variables have consecutive slots behind
the globals. -/
theorem initialized_globals {ds : List Syntax.Decl} (hp : ∀ d ∈ ds, d.Plain)
    {inits : List Core.Init} (h : Yields (globals ds) s inits s') (hs : s.Between) (hbare : s.Bare)
    :
    s'.Between ∧ s.Leads s' ∧ s'.functions = s.functions ∧
      s'.globals.rows.map Entry.described =
        s.globals.rows.map Entry.described ++ ds.flatMap Syntax.Decl.declares ∧
      ∃ os : List (Option Core.Init), inits = os.filterMap id ∧ os.length = ds.length ∧
        ∀ k o, os[k]? = some o →
          ∃ d, ds[k]? = some d ∧ Initialized d (s.globals.rows.length + k) o s' := by
  induction ds generalizing s inits with
  | nil =>
    obtain ⟨rfl, rfl⟩ := yields_pure.mp h
    exact ⟨hs, .refl _, rfl, (List.append_nil _).symm, [], rfl, rfl, fun k o hk => by simp at hk⟩
  | cons d ds ih =>
    obtain ⟨⟨slot, a⟩, t, hdecl, h⟩ := yields_bind.mp h
    have hd : d.Plain := hp d List.mem_cons_self
    obtain ⟨ht, htbare, hlead, hslot, hcount⟩ := between_declaration hd hdecl hs hbare
    have hfunctions := (moves_declaration _ d hd hdecl hs.toWhole fun _ => hbare).2.1.functions
    have hrest : ∃ rest, Yields (globals ds) t rest s' ∧
        inits = ((a.map fun e => (⟨slot, e⟩ : Core.Init)) :: rest.map some).filterMap id := by
      cases a with
      | none => exact ⟨inits, h, by simp [List.filterMap_map]⟩
      | some e =>
        obtain ⟨rest, t', hrest, h⟩ := yields_bind.mp h
        obtain ⟨rfl, rfl⟩ := yields_pure.mp h
        exact ⟨rest, hrest, by simp [List.filterMap_map]⟩
    obtain ⟨rest, hrest, hinits⟩ := hrest
    obtain ⟨hs', hlead', hfunctions', hglobals', os, hos, hlen, hnth⟩ :=
      ih (fun d hd => hp d (List.mem_cons_of_mem _ hd)) hrest ht htbare
    obtain ⟨_, _, _, _, _, rfl, -, hglobals, -⟩ := globals_declaration hd hdecl hbare
    refine ⟨hs', hlead.trans hlead', hfunctions'.trans hfunctions, ?_,
      (a.map fun e => (⟨slot, e⟩ : Core.Init)) :: os, ?_, by simp [hlen], ?_⟩
    · rw [hglobals', hglobals, List.map_append, List.append_assoc]
      rfl
    · rw [hinits, hos]
      cases a <;> simp [List.filterMap_map]
    · intro k o hk
      cases k with
      | zero =>
        cases hk
        subst hslot
        exact ⟨_, rfl, s, a, t, hdecl, rfl, hs, hbare, rfl, hlead'⟩
      | succ k =>
        obtain ⟨d', hd', hinit⟩ := hnth k o hk
        refine ⟨d', hd', ?_⟩
        rwa [hcount, show s.globals.rows.length + 1 + k = s.globals.rows.length + (k + 1) by omega]
          at hinit

end TinyC.Typing
