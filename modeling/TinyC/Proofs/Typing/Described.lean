import TinyC.Proofs.Token.Values
import TinyC.Proofs.Typing.Program

/-!
# The tables of an accepted program describe it

`ProgramTables.Describes`: what the tables of a program say is true of its core program. This is
all that is known of accepted programs from here on; nothing behind this file looks into the walk
that made the tables.
-/

namespace TinyC

variable {π ρ : Type}

namespace Entry

@[simp] theorem type_mapPos (g : π → ρ) (e : Entry π) : (e.mapPos g).type = e.type := rfl

end Entry

namespace Function

variable (g : π → ρ) (f : Function π)

@[simp] theorem type_mapPos : (f.mapPos g).type = f.type := rfl

@[simp] theorem code_mapPos : (f.mapPos g).code = f.code := rfl

@[simp] theorem locals_mapPos : (f.mapPos g).locals = f.locals.map (Entry.mapPos g) := rfl

@[simp] theorem paramCount_mapPos : (f.mapPos g).paramCount = f.paramCount := by
  cases h : f.params <;> simp [paramCount, mapPos, h, Table.map]

@[simp] theorem paramTypes_mapPos : (f.mapPos g).paramTypes = f.paramTypes := by
  cases h : f.params <;> simp [paramTypes, mapPos, h, Function.comp_def]

end Function

namespace ProgramTables

/-- The types of what the code of a function can name. -/
def env (t : ProgramTables π) (f : Function π) : Core.Env where
  globals := t.globals.rows.map Entry.type
  functions := t.functions.rows.map fun f => ⟨f.paramTypes, f.type⟩
  params := f.paramTypes
  locals := f.locals.rows.map Entry.type
  result := f.type

/-- A row of the table of functions describes a function. -/
structure Row (t : ProgramTables π) (f : Function π) (fn : Core.Fn) : Prop where
  typed : fn.Typed (t.env f)
  params : f.paramCount = f.paramTypes.length
  locals : f.locals.count = f.locals.rows.length

/-- The tables describe a program. -/
structure Describes (t : ProgramTables π) (p : Core.Program) : Prop where
  globals : t.globals.Dense
  functions : t.functions.Dense
  builtins : ∀ b : Builtin, ∃ e, t.globals.rows[b.slot]? = some e ∧ e.type = .string ∧
    e.text = b.name
  codes : t.functions.rows.map Function.code = p.codes
  entry : ∃ f, t.functions.rows[0]? = some f ∧ f.type = .void ∧ f.params = none ∧ f.locals = {} ∧
    ∀ i ∈ p.inits, i.value.Typed (t.env f) ∧
      (t.env f).place? ⟨.global, i.slot⟩ = some i.value.type ∧ i.value.type.isNumeric = true
  rows : ∀ k fn, p.functions[k]? = some fn → ∃ f, t.functions.rows[k + 1]? = some f ∧ t.Row f fn
  main : ∀ slot type, p.main = some (slot, type) → 0 < slot ∧
    ∃ f, t.functions.rows[slot]? = some f ∧ f.name = "main" ∧ f.type = type ∧ type ≠ .string
  named : ∀ slot f, t.functions.rows[slot]? = some f → f.name = "main" →
    p.main = some (slot, f.type)
  signatures : ∀ f ∈ t.functions.rows,
    f.type ≠ .string ∧ ∀ type ∈ f.paramTypes, type.isNumeric = true

theorem env_mapPos (g : π → ρ) (t : ProgramTables π) (f : Function π) :
    (t.mapPos g).env (f.mapPos g) = t.env f := by
  simp [env, mapPos, Function.comp_def]

/-- Where things were declared does not matter. -/
theorem Describes.mapPos {t : ProgramTables π} {p : Core.Program} (h : t.Describes p) (g : π → ρ) :
    (t.mapPos g).Describes p where
  globals := by
    intro i e he
    simp only [ProgramTables.mapPos, Table.rows_map, List.getElem?_map,
      Option.map_eq_some_iff] at he
    obtain ⟨e', he', rfl⟩ := he
    exact h.globals i e' he'
  functions := by
    intro i f hf
    simp only [ProgramTables.mapPos, Table.rows_map, List.getElem?_map,
      Option.map_eq_some_iff] at hf
    obtain ⟨f', hf', rfl⟩ := hf
    exact h.functions i f' hf'
  builtins := by
    intro b
    obtain ⟨e, he, htype, htext⟩ := h.builtins b
    exact ⟨e.mapPos g, by simp [ProgramTables.mapPos, he], htype, htext⟩
  codes := by
    rw [← h.codes]
    simp [ProgramTables.mapPos, Function.comp_def]
  entry := by
    obtain ⟨f, hf, htype, hparams, hlocals, hinits⟩ := h.entry
    refine ⟨f.mapPos g, by simp [ProgramTables.mapPos, hf], htype,
      by simp [Function.mapPos, hparams], by simp [Function.mapPos, hlocals, Table.map], ?_⟩
    rw [env_mapPos]
    exact hinits
  rows := by
    intro k fn hfn
    obtain ⟨f, hf, hrow⟩ := h.rows k fn hfn
    refine ⟨f.mapPos g, by simp [ProgramTables.mapPos, hf], ?_, ?_, ?_⟩
    · rw [env_mapPos]
      exact hrow.typed
    · simpa using hrow.params
    · simpa [Function.mapPos, Table.map] using hrow.locals
  main := by
    intro slot type hmain
    obtain ⟨hpos, f, hf, hname, htype⟩ := h.main slot type hmain
    exact ⟨hpos, f.mapPos g, by simp [ProgramTables.mapPos, hf], hname, htype⟩
  named := by
    intro slot f hf hname
    simp only [ProgramTables.mapPos, Table.rows_map, List.getElem?_map,
      Option.map_eq_some_iff] at hf
    obtain ⟨f', hf', rfl⟩ := hf
    exact h.named slot f' hf' hname
  signatures := by
    intro f hf
    obtain ⟨f', hf', rfl⟩ := List.mem_map.mp hf
    rw [Function.paramTypes_mapPos]
    exact h.signatures f' hf'

end ProgramTables

namespace Typing

open Walk State

/-- The entry function has no parameters and no local variables. -/
theorem orderly_start (code : List Instr) :
    Function.Orderly { (Function.start "" .void none : Function Nat) with code } :=
  ⟨nofun, Table.orderly nofun rfl .nil⟩

/-- The walk starts between two functions; the built-in ones have different names. -/
theorem between_start : State.Between {} where
  globals := by
    intro i e he
    match i, he with
    | 0, he | 1, he | 2, he | 3, he | 4, he | 5, he | 6, he | 7, he => cases he; rfl
    | _ + 8, he => cases he
  functions := by
    intro i f hf
    match i, hf with
    | 0, hf => cases hf; rfl
    | _ + 1, hf => cases hf
  params := fun t ht => by cases ht
  locals := fun i e he => by simp at he
  entry := rfl
  signatures := by
    intro f hf
    cases List.mem_singleton.mp hf
    exact ⟨by decide, fun t ht => by cases ht⟩
  keyed :=
    { globals := by
        unfold Table.Keyed
        decide +kernel
      functions := List.pairwise_singleton _ _
      params := nofun
      locals := .nil }
  globals_full := rfl
  params_full := fun t ht => by cases ht
  locals_full := rfl
  functions_full := rfl
  rows := fun f hf => List.mem_singleton.mp hf ▸ orderly_start []
  builtins := List.prefix_refl _
  main_name := by
    intro slot
    constructor
    · intro h
      cases h
    · rintro ⟨f, hf, hname⟩
      cases List.mem_singleton.mp (List.mem_of_getElem? hf)
      exact absurd hname (by decide)

/-- At the start no function has been declared. -/
theorem bare_start : State.Bare {} := by
  refine ⟨fun x => ?_, rfl, rfl⟩
  by_cases hx : x = ""
  · simp [Table.find?, hx]
  · simp [Table.find?, hx, ProgramTables.initialFunctions, Symbol.name, Function.start, Ne.symm hx]

/-- The types that the code of a function can name, as a state of the walk knows them. -/
def rowEnv (s : State) (f : Function Nat) : Core.Env where
  globals := s.globals.rows.map Entry.type
  functions := s.functions.rows.map signature
  params := f.paramTypes
  locals := f.locals.rows.map Entry.type
  result := f.type

theorem rowEnv_extends {s s' : State} (h : s.Leads s') (f : Function Nat) :
    (rowEnv s f).Extends (rowEnv s' f) where
  globals := by
    simp only [rowEnv]
    rw [← map_type_unmarked s.globals.rows, ← map_type_unmarked s'.globals.rows]
    exact h.globals.map _
  functions := h.functions.map _
  params := rfl
  locals := List.prefix_refl _
  result := rfl

/-- The row of a function that was walked through describes it, as far as the tables went when the
function ended. -/
theorem Walked.row_at {d : Syntax.Fn} (hp : d.Plain) {slot : Nat} {fn : Core.Fn} {s' : State}
    (h : Walked d slot fn s') :
    ∃ f u, u.Leads s' ∧ u.functions.rows.length = slot + 1 ∧ u.functions.rows[slot]? = some f ∧
      f.code = fn.code ∧ f.type ≠ .string ∧ fn.Typed (rowEnv u f) ∧
      f.paramCount = f.paramTypes.length ∧ f.locals.count = f.locals.rows.length := by
  obtain ⟨u, x, ps, f, t, body, t', u', rfl, -, hw, hu, rfl, hlead⟩ := h
  obtain ⟨hx, _, htype, hplain⟩ := hp
  obtain ⟨hwhole, hadv, _⟩ := hw.moves hplain htype hu
  have hrows := hw.rows_out hx hadv
  obtain ⟨_, _, htyped⟩ := hw.between hx hplain htype hu
  have henv : u'.env (bodyContext x fn.type) = rowEnv u' (FunctionWalk.finished f t' fn) := by
    simp only [env, rowEnv, bodyContext, FunctionWalk.finished, Function.paramTypes, paramTypes,
      hw.params_out, hw.locals_out, hw.type_eq, Option.map_some, Option.getD_some]
  refine ⟨FunctionWalk.finished f t' fn, u', hlead, by simp [hrows],
    hw.row_of_leads hx hadv (.refl _), rfl, hw.type_eq ▸ htype, henv ▸ htyped, ?_,
    hwhole.locals_full⟩
  · unfold Function.paramCount Function.paramTypes FunctionWalk.finished
    cases hparams : t'.params with
    | none => simp
    | some v => simpa [Table.Full] using hwhole.params_full v hparams

/-- It goes on to describe the function. -/
theorem Walked.row {d : Syntax.Fn} (hp : d.Plain) {slot : Nat} {fn : Core.Fn} {s' : State}
    (h : Walked d slot fn s') :
    ∃ f, s'.functions.rows[slot]? = some f ∧ f.code = fn.code ∧ f.type ≠ .string ∧
      fn.Typed (rowEnv s' f) ∧ f.paramCount = f.paramTypes.length ∧
      f.locals.count = f.locals.rows.length := by
  obtain ⟨f, u, hlead, -, hf, hcode, htype, htyped, hparams, hlocals⟩ := h.row_at hp
  exact ⟨f, Core.getElem?_of_prefix hlead.functions hf, hcode, htype,
    htyped.mono (rowEnv_extends hlead _), hparams, hlocals⟩

/-- The initial value of a global is typed where the entry function can see. -/
def Fits (s : State) (i : Core.Init) : Prop :=
  i.value.Typed (rowEnv s (Function.start "" .void none)) ∧
    (rowEnv s (Function.start "" .void none)).place? ⟨.global, i.slot⟩ = some i.value.type ∧
    i.value.type.isNumeric = true

theorem Fits.leads {s s' : State} {i : Core.Init} (h : Fits s i) (hlead : s.Leads s') : Fits s' i :=
  have hext := rowEnv_extends hlead (Function.start "" .void none)
  ⟨h.1.mono hext, hext.place h.2.1, h.2.2⟩

theorem Initialized.fits {d : Syntax.Decl} (hp : d.Plain) {n : Nat} {i : Core.Init} {s' : State}
    (h : Initialized d n (some i) s') : Fits s' i := by
  obtain ⟨u, a, u', hdecl, hinit, hu, hbare, _, hlead⟩ := h
  obtain ⟨e, rfl, rfl⟩ := Option.map_eq_some_iff.mp hinit.symm
  obtain ⟨_, _, hinits⟩ := moves_declaration _ d hp hdecl hu.toWhole fun _ => hbare
  obtain ⟨_, hbare', _⟩ := between_declaration hp hdecl hu hbare
  have henv : u'.env ⟨none, false⟩ = rowEnv u' (Function.start "" .void none) := by
    simp [env, rowEnv, paramTypes, Function.paramTypes, Function.start, hbare'.params,
      hbare'.locals]
  rw [henv] at hinits
  exact Fits.leads (hinits e rfl) hlead

/-- A program was walked through: its declarations, then its functions. -/
structure ProgramWalk (p : Syntax.Program) (core : Core.Program) (s' : State) : Prop where
  between : s'.Between
  main : core.main = mainOf s'
  functions_length : core.functions.length = p.functions.length
  rows_length : s'.functions.rows.length = core.functions.length + 1
  globals : ∃ k, s'.globals.rows.map Entry.described =
    (ProgramTables.initialGlobals : Table (Entry Nat)).rows.map Entry.described ++ p.globals
      ++ List.replicate k ("", Ty.string)
  functions : ∀ k fn, core.functions[k]? = some fn →
    ∃ d, p.functions[k]? = some d ∧ Walked d (k + 1) fn s'
  inits : ∃ os : List (Option Core.Init), core.inits = os.filterMap id ∧
    os.length = p.decls.length ∧ ∀ k o, os[k]? = some o →
      ∃ d, p.decls[k]? = some d ∧ Initialized d (Builtin.all.length + k) o s'
  begun : ∃ t : State, t.Leads s' ∧ t.functions.rows.length = 1 ∧ ∀ i ∈ core.inits, Fits t i

theorem yields_program {p : Syntax.Program} (hp : p.Plain) {core : Core.Program} {s' : State}
    (h : Yields (program p) {} core s') : ProgramWalk p core s' := by
  obtain ⟨inits, t, hinits, h⟩ := yields_bind.mp h
  obtain ⟨fns, u, hfns, h⟩ := yields_bind.mp h
  obtain ⟨_, w, hclose, h⟩ := yields_bind.mp h
  obtain ⟨_, _, hget, h⟩ := yields_bind.mp h
  obtain ⟨h₁, h₂⟩ := yields_get.mp hget
  obtain ⟨rfl, rfl⟩ := yields_pure.mp h
  rw [h₁, h₂]
  obtain ⟨ht, _, hfunctions, hglobals, os, hos, hlen, hnth⟩ :=
    initialized_globals hp.1 hinits between_start bare_start
  obtain ⟨hu, hlead, hflen, hrows, ⟨n, htexts⟩, hfnth⟩ := walked_functions hp.2 hfns ht
  have hsame := adds_close hclose
  have hone : t.functions.rows.length = 1 := by
    rw [hfunctions]
    rfl
  have hw : w.Between :=
    ⟨hsame.whole hu.toWhole, hsame.functions ▸ hu.functions_full, hsame.functions ▸ hu.rows,
      hu.builtins.trans hsame.advances.globals, by
        rw [hsame.main, hsame.functions]
        exact hu.main_name⟩
  have hleadw : u.Leads w := hsame.advances.leads
  refine ⟨hw, rfl, hflen, by rw [hsame.functions, hrows, hone]; simp [hflen]; omega,
    ⟨n, by rw [hsame.globals_eq, htexts, hglobals]; rfl⟩, ?_, ⟨os, hos, hlen, ?_⟩, t,
    hlead.trans hleadw, hone, fun i hi => ?_⟩
  · intro k fn hfn
    obtain ⟨d, hd, hwalked⟩ := hfnth k fn hfn
    rw [hone, Nat.add_comm 1 k] at hwalked
    exact ⟨d, hd, hwalked.leads hleadw⟩
  · intro k o ho
    obtain ⟨d, hd, hinit⟩ := hnth k o ho
    exact ⟨d, hd, hinit.leads (hlead.trans hleadw)⟩
  · rw [show inits = os.filterMap id from hos] at hi
    obtain ⟨o, ho, rfl⟩ := List.mem_filterMap.mp hi
    obtain ⟨k, hk⟩ := List.mem_iff_getElem?.mp ho
    obtain ⟨d, hd, hinit⟩ := hnth k _ hk
    exact hinit.fits (hp.1 d (List.mem_of_getElem? hd))

namespace ProgramWalk

variable {p : Syntax.Program} {core : Core.Program} {s' : State}

/-- The row of the entry function, and those behind it. -/
theorem rows_eq (h : ProgramWalk p core s') :
    ∃ rest, s'.functions.rows = Function.start "" .void none :: rest ∧
      rest.length = core.functions.length := by
  have hentry := h.between.entry
  have hlen := h.rows_length
  cases hrows : s'.functions.rows with
  | nil => simp [hrows] at hentry
  | cons f rest =>
    rw [hrows] at hentry hlen
    cases hentry
    exact ⟨rest, rfl, by simpa using hlen⟩

/-- The tables at the end of the walk describe the program. -/
theorem describes (h : ProgramWalk p core s') (hp : p.Plain) : (tables s' core).Describes core := by
  obtain ⟨rest, hrows, hlen⟩ := h.rows_eq
  have htables : (tables s' core).functions.rows =
      { Function.start "" .void none with code := core.entryCode } :: rest := by
    simp [tables, hrows]
  -- the entry function's code makes no difference to environments
  have henv : ∀ f, (tables s' core).env f = rowEnv s' f := by
    intro f
    simp only [ProgramTables.env, rowEnv, htables, hrows]
    rfl
  have hrow : ∀ (k : Nat) (fn : Core.Fn), core.functions[k]? = some fn →
      ∃ f : Function Nat, rest[k]? = some f ∧ f.code = fn.code ∧
      f.type ≠ .string ∧ fn.Typed (rowEnv s' f) ∧ f.paramCount = f.paramTypes.length ∧
      f.locals.count = f.locals.rows.length := by
    intro k fn hfn
    obtain ⟨d, hd, hwalked⟩ := h.functions k fn hfn
    obtain ⟨f, hf, hrest⟩ := hwalked.row (hp.2 d (List.mem_of_getElem? hd))
    rw [hrows, List.getElem?_cons_succ] at hf
    exact ⟨f, hf, hrest⟩
  refine ⟨h.between.globals, ?_, ?_, ?_, ?_, ?_, ?_, ?_, ?_⟩
  · intro i f hf
    rw [htables] at hf
    cases i with
    | zero => cases hf; rfl
    | succ i => exact h.between.functions (i + 1) f (by rw [hrows]; exact hf)
  · intro b
    have hb : ((ProgramTables.initialGlobals : Table (Entry Nat)).rows.map
        Entry.unmarked)[b.slot]? =
        some (Entry.unmarked { Entry.ofText b.name b.name with slot := b.slot }) := by
      cases b <;> rfl
    have := Core.getElem?_of_prefix h.between.builtins hb
    rw [List.getElem?_map, Option.map_eq_some_iff] at this
    obtain ⟨e, he, heq⟩ := this
    exact ⟨e, he, congrArg (·.type) heq, congrArg (·.text) heq⟩
  · rw [htables, Core.Program.codes]
    refine congrArg (core.entryCode :: ·) (List.ext_getElem? fun k => ?_)
    rw [List.getElem?_map, List.getElem?_map]
    cases hfn : core.functions[k]? with
    | none =>
      have : rest[k]? = none := by
        rw [List.getElem?_eq_none_iff] at hfn ⊢
        omega
      rw [this]
      rfl
    | some fn =>
      obtain ⟨f, hf, hcode, _⟩ := hrow k fn hfn
      rw [hf]
      exact congrArg some hcode
  · refine ⟨{ Function.start "" .void none with code := core.entryCode }, by rw [htables]; rfl, rfl,
      rfl, rfl, fun i hi => ?_⟩
    rw [henv]
    obtain ⟨t, hlead, -, hfits⟩ := h.begun
    exact (hfits i hi).leads hlead
  · intro k fn hfn
    obtain ⟨f, hf, _, _, htyped, hparams, hlocals⟩ := hrow k fn hfn
    exact ⟨f, by rw [htables]; exact hf, henv f ▸ htyped, hparams, hlocals⟩
  · intro slot type hmain
    rw [h.main, mainOf] at hmain
    obtain ⟨slot', hslot, hpair⟩ := Option.bind_eq_some_iff.mp hmain
    obtain ⟨f, hf, heq⟩ := Option.map_eq_some_iff.mp hpair
    cases heq
    obtain ⟨g, hg, hname⟩ := (h.between.main_name _).mp hslot
    rw [hf] at hg
    cases hg
    cases slot with
    | zero =>
      rw [hrows] at hf
      cases hf
      exact absurd hname (by decide)
    | succ k =>
      rw [hrows, List.getElem?_cons_succ] at hf
      have hmem : f ∈ s'.functions.rows := by
        rw [hrows]
        exact List.mem_cons_of_mem _ (List.mem_of_getElem? hf)
      exact ⟨Nat.succ_pos k, f, by rw [htables]; exact hf, hname, rfl,
        (h.between.signatures f hmem).1⟩
  · intro slot f hf hname
    rw [htables] at hf
    cases slot with
    | zero =>
      cases hf
      have hempty : "" = "main" := hname
      exact absurd hempty (by decide)
    | succ k =>
      have hrow : s'.functions.rows[k + 1]? = some f := by
        rw [hrows]
        exact hf
      rw [h.main, mainOf, (h.between.main_name (k + 1)).mpr ⟨f, hrow, hname⟩, Option.bind_some,
        hrow]
      rfl
  · intro f hf
    rw [htables] at hf
    obtain rfl | hf := List.mem_cons.mp hf
    · exact ⟨nofun, nofun⟩
    · exact h.between.signatures f (by rw [hrows]; exact List.mem_cons_of_mem _ hf)

end ProgramWalk

end Typing

/-- The tree of a program text. -/
def Source.tree (s : Source) : Syntax.Program :=
  Syntax.Program.ofWords (wordsOf (s.tokens.map Lexed.token))

/-- An accepted program was walked through to its end. -/
theorem walk_of_analyse {s : Source} {a : Analysis} (h : (analyse s).outcome = .ok a) :
    ∃ t, Typing.Walk.Yields (Typing.program s.tree) {} a.core t ∧
      ∃ g, a.tables = (Typing.tables t a.core).mapPos g := by
  unfold analyse at h
  dsimp only at h
  rcases hcheck : check (wordsOf (s.tokens.map Lexed.token)) with ⟨f | core, t⟩
  · rw [hcheck] at h
    cases h
  · rw [hcheck] at h
    cases h
    exact ⟨t, hcheck, _, rfl⟩

/-- The tree of a program text has no more than grammar allows. -/
theorem Source.plain_tree (s : Source) : s.tree.Plain :=
  (Syntax.Program.ofWords_row (z := []) s.row_words).1.plain

/-- The tables of an accepted program describe it. -/
theorem describes_of_analyse {s : Source} {a : Analysis} (h : (analyse s).outcome = .ok a) :
    a.tables.Describes a.core := by
  obtain ⟨t, hwalk, g, htables⟩ := walk_of_analyse h
  rw [htables]
  exact ((Typing.yields_program s.plain_tree hwalk).describes s.plain_tree).mapPos g

end TinyC
