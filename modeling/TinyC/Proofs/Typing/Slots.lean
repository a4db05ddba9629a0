import TinyC.Proofs.Module.Emitted
import TinyC.Proofs.Typing.Described

/-!
# Slots are handed out in order

The tables of an accepted program are *orderly*: the symbols stand at their slots, no slot is left
without its symbol, and every symbol that has a name is found under it. `ProgramTables.Allotted`
says so of all tables of a program, of its globals, its functions and the parameters and local
variables of each function, and that every slot which the code of a function names is there.

That slots are in order and names are different was shown along with the types (`State.Whole`).
Typed code names nothing that its environment does not list (`Core.Env.Lists`), and the environment
of a function is what stood in the tables when the function ended (`Walked.row_at`). So a function
calls itself and functions before it, and initial values, which come before all functions, call
none.
-/

namespace TinyC

/-! ## Orderly tables -/

namespace Table

variable {α β : Type} [Symbol α] [Symbol β] {t : Table α}

theorem named_congr {t' : Table β} (hnames : t.rows.map Symbol.name = t'.rows.map Symbol.name)
    (n : Nat) (x : String) :
    (∃ a, t.rows[n]? = some a ∧ Symbol.name a = x) ↔
      ∃ b, t'.rows[n]? = some b ∧ Symbol.name b = x := by
  rw [← Option.map_eq_some_iff, ← Option.map_eq_some_iff, ← List.getElem?_map, hnames,
    List.getElem?_map]

/-- Only the names and slots of the symbols matter. -/
theorem Orderly.congr (h : t.Orderly) {t' : Table β}
    (hnames : t'.rows.map Symbol.name = t.rows.map Symbol.name)
    (hslots : t'.rows.map Symbol.slot = t.rows.map Symbol.slot) (hcount : t'.count = t.count) :
    t'.Orderly := by
  refine orderly (fun i b hb => ?_) ?_ (h.keyed.congr hnames)
  · have hslot : (t.rows.map Symbol.slot)[i]? = some (Symbol.slot b) := by
      rw [← hslots, List.getElem?_map, hb]
      rfl
    rw [List.getElem?_map] at hslot
    obtain ⟨a, ha, heq⟩ := Option.map_eq_some_iff.mp hslot
    rw [← heq, h.dense i a ha]
  · have hlength := congrArg List.length hnames
    rw [List.length_map, List.length_map] at hlength
    rw [Full, hcount, hlength]
    exact h.full

theorem Orderly.map (h : t.Orderly) {f : α → β} (hname : ∀ a, Symbol.name (f a) = Symbol.name a)
    (hslot : ∀ a, Symbol.slot (f a) = Symbol.slot a) : (t.map f).Orderly :=
  h.congr (by simp [Table.map, Function.comp_def, hname])
    (by simp [Table.map, Function.comp_def, hslot]) rfl

end Table

/-! ## Tables of a program -/

namespace ProgramTables

variable {π ρ : Type} {t : ProgramTables π}

/-- The slots that an operation may name in the code of a function. The entry function calls
nothing but the main function; any other calls itself and functions before it. -/
def Allows (t : ProgramTables π) (f : Function π) (n : Nat) : Opcode → Prop
  | .globa => n < t.globals.count
  | .loca => n < f.locals.count
  | .arga => n < f.type.slots + f.paramCount
  | .call => n < t.functions.count ∧ if f.slot = 0 then t.main = some n else 1 ≤ n ∧ n ≤ f.slot
  | .callname => n < Builtin.all.length
  | _ => True

/-- An instruction of a function names no slot but one that it may name. -/
def Reaches (t : ProgramTables π) (f : Function π) (i : Instr) : Prop :=
  Core.namesSlot i.op = true → ∃ n, i.operand = Int64.ofNat n ∧ t.Allows f n i.op

/-- The slots of a program are handed out in order, and its code names no others. -/
structure Allotted (t : ProgramTables π) : Prop where
  globals : t.globals.Orderly
  functions : t.functions.Orderly
  rows : ∀ f ∈ t.functions.rows, f.Orderly
  builtins : Builtin.all.map Builtin.name <+: t.globals.rows.map Entry.name
  entry : ∃ f : Function π, t.functions.rows[0]? = some f ∧ f.name = "" ∧ f.params = none ∧
    f.locals = {}
  main : ∀ n, t.main = some n ↔ ∃ f, t.functions.rows[n]? = some f ∧ f.name = "main"
  operands : ∀ f ∈ t.functions.rows, ∀ i ∈ f.code, t.Reaches f i

/-- What an environment lists may be named, if the environment lists no more than the tables. -/
theorem reaches_of_lists {f : Function π} {Γ : Core.Env} {length : Nat} {i : Instr}
    (h : Γ.Lists length i) (hglobals : Γ.globals.length ≤ t.globals.count)
    (hlocals : Γ.locals.length ≤ f.locals.count)
    (hargs : Γ.result.slots + Γ.params.length ≤ f.type.slots + f.paramCount)
    (hcalls : ∀ n, 0 < n → n < Γ.functions.length → t.Allows f n .call) : t.Reaches f i := by
  intro hslot
  cases h with
  | global h => exact ⟨_, rfl, Nat.lt_of_lt_of_le h hglobals⟩
  | «local» h => exact ⟨_, rfl, Nat.lt_of_lt_of_le h hlocals⟩
  | argument h => exact ⟨_, rfl, Nat.lt_of_lt_of_le h hargs⟩
  | call hpos h => exact ⟨_, rfl, hcalls _ hpos h⟩
  | builtin b => exact ⟨_, rfl, Core.slot_lt_length b⟩
  | branch | push => cases hslot
  | small _ _ h => rw [h] at hslot; cases hslot
  | plain _ h => rw [Core.namesSlot_eq_false h] at hslot; cases hslot

theorem allows_mapPos (g : π → ρ) (t : ProgramTables π) (f : Function π) (n : Nat) (op : Opcode) :
    (t.mapPos g).Allows (f.mapPos g) n op = t.Allows f n op := by
  unfold Allows
  rw [Function.paramCount_mapPos]
  rfl

theorem Reaches.mapPos {f : Function π} {i : Instr} (h : t.Reaches f i) (g : π → ρ) :
    (t.mapPos g).Reaches (f.mapPos g) i := by
  intro hslot
  obtain ⟨n, hn, hallows⟩ := h hslot
  exact ⟨n, hn, (allows_mapPos g t f n i.op).mpr hallows⟩

/-- Where things were declared does not matter. -/
theorem Allotted.mapPos (h : t.Allotted) (g : π → ρ) :
    (t.mapPos g).Allotted where
  globals := h.globals.map (fun _ => rfl) fun _ => rfl
  functions := h.functions.map (fun _ => rfl) fun _ => rfl
  rows := List.forall_mem_map.mpr fun f hf => by
    refine ⟨fun u hu => ?_, (h.rows f hf).locals.map (fun _ => rfl) fun _ => rfl⟩
    obtain ⟨v, hv, rfl⟩ := Option.map_eq_some_iff.mp hu
    exact ((h.rows f hf).params v hv).map (fun _ => rfl) fun _ => rfl
  builtins := by
    have hnames : (t.mapPos g).globals.rows.map Entry.name = t.globals.rows.map Entry.name :=
      List.map_map
    exact hnames ▸ h.builtins
  entry := by
    obtain ⟨f, hf, hname, hparams, hlocals⟩ := h.entry
    exact ⟨f.mapPos g, by simp [ProgramTables.mapPos, hf], hname,
      by simp [Function.mapPos, hparams], by simp [hlocals, Table.map]⟩
  main n := by
    have hnames : t.functions.rows.map Symbol.name =
        (t.mapPos g).functions.rows.map Symbol.name := by
      rw [ProgramTables.mapPos, Table.rows_map, List.map_map]
      rfl
    exact (h.main n).trans (Table.named_congr hnames n "main")
  operands := List.forall_mem_map.mpr fun f hf i hi => (h.operands f hf i hi).mapPos g

end ProgramTables

namespace Typing

open Walk State

/-- Globals that have been declared stay. -/
theorem State.Leads.length_globals_le {s s' : State} (h : s.Leads s') :
    s.globals.rows.length ≤ s'.globals.rows.length := by
  simpa using h.globals.length_le

namespace ProgramWalk

variable {p : Syntax.Program} {core : Core.Program} {s' : State}

/-- What the code of a function names has its slot by the end of that function. -/
theorem reaches_row (h : ProgramWalk p core s') (hp : p.Plain) {k : Nat} {f : Function Nat}
    (hf : s'.functions.rows[k + 1]? = some f) : ∀ i ∈ f.code, (tables s' core).Reaches f i := by
  have hk : k + 1 < s'.functions.rows.length := (List.getElem?_eq_some_iff.mp hf).1
  have hfunctions : s'.functions.count = s'.functions.rows.length := h.between.functions_full
  have hglobals : s'.globals.count = s'.globals.rows.length := h.between.globals_full
  have hfn : k < core.functions.length := by
    have hlength := h.rows_length
    omega
  obtain ⟨d, hd, hwalked⟩ := h.functions k _ (List.getElem?_eq_getElem hfn)
  obtain ⟨f', u, hlead, hlength, hf', hcode, -, htyped, hparams, hlocals⟩ :=
    hwalked.row_at (hp.2 d (List.mem_of_getElem? hd))
  obtain rfl : f' = f :=
    Option.some.inj ((Core.getElem?_of_prefix hlead.functions hf').symm.trans hf)
  have hslot : f'.slot = k + 1 := h.between.functions (k + 1) f' hf
  intro i hi
  rw [hcode] at hi
  refine ProgramTables.reaches_of_lists (htyped.lists i hi) ?_ ?_ ?_ fun n hpos hn => ⟨?_, ?_⟩
  · rw [rowEnv, List.length_map]
    exact Nat.le_trans hlead.length_globals_le (Nat.le_of_eq hglobals.symm)
  · rw [rowEnv, List.length_map]
    exact Nat.le_of_eq hlocals.symm
  · exact Nat.le_of_eq (congrArg (f'.type.slots + ·) hparams.symm)
  -- of the functions, only those up to this one were there
  all_goals rw [rowEnv, List.length_map, hlength] at hn
  · exact Nat.lt_of_lt_of_eq (Nat.lt_of_lt_of_le hn hk) hfunctions.symm
  · rw [if_neg (by omega), hslot]
    exact ⟨hpos, Nat.le_of_lt_succ hn⟩

/-- What the entry function names: globals, and the main function. No function was there when the
initial values of globals were read. -/
theorem reaches_entry (h : ProgramWalk p core s') {f : Function Nat} (hslot : f.slot = 0) :
    ∀ i ∈ core.entryCode, (tables s' core).Reaches f i := by
  have hfunctions : s'.functions.count = s'.functions.rows.length := h.between.functions_full
  have hglobals : s'.globals.count = s'.globals.rows.length := h.between.globals_full
  refine List.forall_mem_append.mpr ⟨fun i hi => ?_, ?_⟩
  · obtain ⟨t, hlead, hlength, hfits⟩ := h.begun
    obtain ⟨init, hinit, hi⟩ := List.mem_flatMap.mp hi
    obtain ⟨htyped, hplace, -⟩ := hfits init hinit
    have hlists : (rowEnv t _).Lists 0 i :=
      Core.lists_store (Core.lists_address hplace) htyped i hi
    refine ProgramTables.reaches_of_lists hlists ?_ ?_ ?_ fun n hpos hn => ?_
    · rw [rowEnv, List.length_map]
      exact Nat.le_trans hlead.length_globals_le (Nat.le_of_eq hglobals.symm)
    · exact Nat.zero_le _
    · exact Nat.zero_le _
    · rw [rowEnv, List.length_map, hlength] at hn
      omega
  · rw [h.main, mainOf]
    cases hmain : s'.main with
    | none => exact List.forall_mem_nil _
    | some slot =>
      obtain ⟨g, hg, -⟩ := (h.between.main_name slot).mp hmain
      rw [Option.bind_some, hg]
      refine List.forall_mem_cons.mpr
        ⟨by rintro ⟨⟩, List.forall_mem_singleton.mpr fun _ => ?_⟩
      refine ⟨slot, rfl, ?_, by rw [if_pos hslot]; exact hmain⟩
      exact Nat.lt_of_lt_of_eq (List.getElem?_eq_some_iff.mp hg).1 hfunctions.symm

/-- The tables at the end of the walk are as they should be. -/
theorem allotted (h : ProgramWalk p core s') (hp : p.Plain) : (tables s' core).Allotted := by
  obtain ⟨rest, hrows, -⟩ := h.rows_eq
  have htables : (tables s' core).functions.rows =
      { Function.start "" .void none with code := core.entryCode } :: rest := by
    simp [tables, hrows]
  have hfunctions : s'.functions.Orderly :=
    Table.orderly h.between.functions h.between.functions_full h.between.keyed.functions
  have hnames : (tables s' core).functions.rows.map Symbol.name =
      s'.functions.rows.map Symbol.name := by
    rw [htables, hrows]
    rfl
  have hrest : ∀ f ∈ rest, f.Orderly := fun f hf =>
    h.between.rows f (hrows ▸ List.mem_cons_of_mem _ hf)
  refine
    { globals := Table.orderly h.between.globals h.between.globals_full h.between.keyed.globals
      functions := hfunctions.congr hnames (by rw [htables, hrows]; rfl) rfl
      rows := by
        rw [htables]
        exact List.forall_mem_cons.mpr ⟨orderly_start _, hrest⟩
      builtins := ?_
      entry := ⟨_, by rw [htables]; rfl, rfl, rfl, rfl⟩
      main := fun n => (h.between.main_name n).trans (Table.named_congr hnames.symm n "main")
      operands := ?_ }
  · have hbuiltins := h.between.builtins.map Entry.name
    rw [List.map_map, List.map_map] at hbuiltins
    exact hbuiltins
  · rw [htables]
    refine List.forall_mem_cons.mpr ⟨h.reaches_entry rfl, fun f hf => ?_⟩
    obtain ⟨k, hk⟩ := List.mem_iff_getElem?.mp hf
    exact h.reaches_row hp (k := k) (by rw [hrows]; exact hk)

end ProgramWalk

end Typing

/-! ## Writing -/

section Writing

variable {π : Type}

/-- Slots in order are no reason not to write tables. -/
theorem ProgramTables.Allotted.encode_error {t : ProgramTables π} (ht : t.Allotted)
    {e : EncodeError} (h : t.encode = .error e) : ∃ name k i, e = .operandRange name k i := by
  obtain ⟨-, -, -, heq⟩ | ⟨hslots, -⟩ | ⟨_, f, j, i, -, heq⟩ := t.encode_cases
  · rw [heq] at h
    cases h
  · exact absurd ⟨ht.globals.dense, ht.functions.dense⟩ hslots
  · rw [heq] at h
    cases h
    exact ⟨f.name, j, i, rfl⟩

end Writing

/-- In an accepted program slots are handed out in order and code names no others. So its tables
are written, unless an operand has too many bytes. -/
theorem slots_of_accepted_programs_are_dense {s : Source} {a : Analysis}
    (h : (analyse s).outcome = .ok a) :
    a.tables.Allotted ∧
      ∀ e, a.tables.encode = .error e → ∃ name k i, e = .operandRange name k i := by
  obtain ⟨t, hwalk, g, htables⟩ := walk_of_analyse h
  have hprogram := Typing.yields_program s.plain_tree hwalk
  have hallotted : a.tables.Allotted := by
    rw [htables]
    exact (hprogram.allotted s.plain_tree).mapPos g
  exact ⟨hallotted, fun _ he => hallotted.encode_error he⟩

/-- A program with texts, globals, parameters, local variables and calls. -/
def slotSample : Source where
  file := ""
  bytes := Text.bytesOf
    ("let a: int = getint(); const b: double = 2.5; fn f(x: int, y: int) -> int \x7b "
      ++ "let z: int = x * a; putstr(\"z\"); if z < y \x7b let w: int = f(z, y); return w; \x7d "
      ++ "return z; \x7d fn main() -> void \x7b putstr(\"s\"); putint(f(a, 9)); \x7d")

theorem slots_of_accepted_programs_are_dense_sample :
    ∃ a, (analyse slotSample).outcome = .ok a ∧ a.tables.Allotted ∧
      ∀ e, a.tables.encode = .error e → ∃ name k i, e = .operandRange name k i := by
  obtain ⟨a, ha, -⟩ := exists_ok (r := (analyse slotSample).outcome) (p := fun _ => true)
    (by
      rw [slotSample, Text.bytesOf_concat, Text.bytesOf_concat, Text.bytesOf_ofList]
      decide +kernel)
  exact ⟨a, ha, slots_of_accepted_programs_are_dense ha⟩

end TinyC
